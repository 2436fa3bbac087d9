import LatencyLab.Book.WellFormed

/-! `handle_add` when memory runs out. Each insertion into a container may throw and
then leaves that container as it was. Nothing on the way catches the exception or
takes an earlier write back: the hot path has no exception handling. A handler that
throws is an `error` with the book as it leaves it. -/

namespace LatencyLab

open Std

/-- The container insertions of `handle_add`: `order_map_.emplace`,
`order_ids.push_back` and `side_map.emplace`. -/
inductive Insertion
  | orderMap
  | orderIds
  | sideMap
  deriving DecidableEq

section Levels

variable {cmp : Int64 → Int64 → Ordering} [TransCmp cmp]

/-- `add_to_level` where the insertion `failing` throws. -/
def addToLevelFailing (failing : Option Insertion) (msg : MarketMessage) (sideMap : SideMap cmp) :
    Except (SideMap cmp) (SideMap cmp) :=
  match sideMap[msg.price]? with
  | some level =>
    if failing = some .orderIds then .error sideMap
    else .ok (sideMap.insert msg.price { level with
      orderIds := level.orderIds ++ [msg.orderId]
      totalQuantity := level.totalQuantity + msg.quantity })
  | none =>
    -- until `emplace` copies it, the new level is a local variable
    if failing = some .orderIds then .error sideMap
    else if failing = some .sideMap then .error sideMap
    else .ok (sideMap.insert msg.price
      { price := msg.price, orderIds := [msg.orderId], totalQuantity := msg.quantity })

/-- The insertions `add_to_level` makes. -/
def levelInsertions (msg : MarketMessage) (sideMap : SideMap cmp) : List Insertion :=
  match sideMap[msg.price]? with
  | some _ => [.orderIds]
  | none => [.orderIds, .sideMap]

/-- A failure leaves nothing on the level's side. -/
theorem addToLevelFailing_of_mem {failing : Insertion} {msg : MarketMessage} {sideMap : SideMap cmp}
    (h : failing ∈ levelInsertions msg sideMap) :
    addToLevelFailing (some failing) msg sideMap = .error sideMap := by
  cases hlevel : sideMap[msg.price]? with
  | some level =>
    simp only [levelInsertions, hlevel, List.mem_singleton] at h
    simp only [addToLevelFailing, hlevel, h, if_true]
  | none =>
    simp only [levelInsertions, hlevel, List.mem_cons, List.not_mem_nil, or_false] at h
    simp only [addToLevelFailing, hlevel, Option.some.injEq]
    rcases h with rfl | rfl
    · rfl
    · rfl

/-- An insertion that is not made does not fail. -/
theorem addToLevelFailing_of_not_mem {failing : Option Insertion} {msg : MarketMessage}
    {sideMap : SideMap cmp} (h : ∀ i ∈ levelInsertions msg sideMap, failing ≠ some i) :
    addToLevelFailing failing msg sideMap = .ok (addToLevel msg sideMap) := by
  cases hlevel : sideMap[msg.price]? with
  | some level =>
    simp only [levelInsertions, hlevel, List.forall_mem_singleton] at h
    simp only [addToLevelFailing, addToLevel, hlevel, if_neg h]
  | none =>
    simp only [levelInsertions, hlevel, List.forall_mem_cons, List.not_mem_nil, false_implies,
      implies_true, and_true] at h
    simp only [addToLevelFailing, addToLevel, hlevel, if_neg h.1, if_neg h.2]

end Levels

namespace OrderBook

/-- `handle_add` where the insertion `failing` throws. -/
def handleAddFailing (failing : Option Insertion) (b : OrderBook) (msg : MarketMessage) :
    Except OrderBook OrderBook :=
  match b.orderMap_[msg.orderId]? with
  | some _ => .ok b
  | none =>
    if failing = some .orderMap then .error b
    else
      let b := { b with orderMap_ := b.orderMap_.insert msg.orderId (Order.ofMessage msg) }
      if msg.side = .buy then
        match addToLevelFailing failing msg b.bids_ with
        | .ok bids => .ok { b with bids_ := bids }
        | .error bids => .error { b with bids_ := bids }
      else
        match addToLevelFailing failing msg b.asks_ with
        | .ok asks => .ok { b with asks_ := asks }
        | .error asks => .error { b with asks_ := asks }

/-- The insertions `handle_add` makes, in order. -/
def insertions (b : OrderBook) (msg : MarketMessage) : List Insertion :=
  match b.orderMap_[msg.orderId]? with
  | some _ => []
  | none =>
    .orderMap :: if msg.side = .buy then levelInsertions msg b.bids_ else levelInsertions msg b.asks_

/-- The book behind an exception from the insertion `failing`: the levels are as they
were, and the order is registered unless it was its registration that failed. -/
structure Interrupted (b : OrderBook) (failing : Insertion) (msg : MarketMessage) (b' : OrderBook) : Prop where
  bids : b'.bids_ = b.bids_
  asks : b'.asks_ = b.asks_
  orders : b'.orderMap_ =
    if failing = .orderMap then b.orderMap_ else b.orderMap_.insert msg.orderId (Order.ofMessage msg)
  untouched_iff : b' = b ↔ failing = .orderMap

variable {b : OrderBook} {failing : Insertion} {msg : MarketMessage}

theorem mem_insertions : failing ∈ b.insertions msg ↔ b.orderMap_[msg.orderId]? = none ∧
    (failing = .orderMap ∨
      failing ∈ if msg.side = .buy then levelInsertions msg b.bids_ else levelInsertions msg b.asks_) := by
  cases h : b.orderMap_[msg.orderId]? <;> simp [insertions, h]

/-- A new entry makes another order map. -/
theorem insert_ne (h : b.orderMap_[msg.orderId]? = none) (order : Order) :
    b.orderMap_.insert msg.orderId order ≠ b.orderMap_ := by
  intro heq
  have hsome : (b.orderMap_.insert msg.orderId order)[msg.orderId]? = some order := by
    rw [IdMap.getElem?_insert, if_pos rfl]
  rw [heq, h] at hsome
  cases hsome

/-- An insertion that throws leaves the writes before it. -/
theorem handleAddFailing_of_mem (h : failing ∈ b.insertions msg) :
    ∃ b', handleAddFailing (some failing) b msg = .error b' ∧ b.Interrupted failing msg b' := by
  obtain ⟨hfresh, hmem⟩ := mem_insertions.mp h
  by_cases hmap : failing = .orderMap
  · refine ⟨b, ?_, rfl, rfl, by rw [if_pos hmap], iff_of_true rfl hmap⟩
    simp only [handleAddFailing, hfresh, hmap, if_true]
  · have hlevel := hmem.resolve_left hmap
    have hmap' : some failing ≠ some .orderMap := fun he => hmap (Option.some.inj he)
    refine ⟨{ b with orderMap_ := b.orderMap_.insert msg.orderId (Order.ofMessage msg) }, ?_, rfl, rfl,
      by rw [if_neg hmap], iff_of_false (fun heq => ?_) hmap⟩
    · simp only [handleAddFailing, hfresh, if_neg hmap']
      split_ifs at hlevel ⊢
      · rw [addToLevelFailing_of_mem hlevel]
      · rw [addToLevelFailing_of_mem hlevel]
    · exact insert_ne hfresh _ (congrArg orderMap_ heq)

/-- Without a failing insertion this is `handle_add`. -/
theorem handleAddFailing_of_not_mem {failing : Option Insertion}
    (h : ∀ i ∈ b.insertions msg, failing ≠ some i) :
    handleAddFailing failing b msg = .ok (b.handleAdd msg) := by
  cases hlive : b.orderMap_[msg.orderId]? with
  | some order => simp only [handleAddFailing, handleAdd, hlive]
  | none =>
    simp only [insertions, hlive, List.forall_mem_cons] at h
    obtain ⟨hmap, hlevel⟩ := h
    simp only [handleAddFailing, handleAdd, hlive, if_neg hmap]
    split_ifs at hlevel ⊢
    · rw [addToLevelFailing_of_not_mem hlevel]
    · rw [addToLevelFailing_of_not_mem hlevel]

end OrderBook

end LatencyLab
