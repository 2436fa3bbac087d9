import LatencyLab.Book.Reference

/-! One side map against the reference book. `Lists` is about the structure of
the side: which levels are stored and which ids each lists, in order. `Totals`
is about the aggregates. They are kept apart because every operation of both
books preserves `Lists` unconditionally, while `Totals` depends on how Modify
recomputes the aggregate. -/

namespace LatencyLab

open Std Keyed ReferenceBook

variable {cmp : Int64 → Int64 → Ordering} [TransCmp cmp] [LawfulEqCmp cmp]

/-- The side map stores exactly the non-empty levels of one side of `r`, and each
lists its orders in arrival order. -/
structure Lists (m : SideMap cmp) (r : ReferenceBook) (buy : Bool) : Prop where
  absent : ∀ p, m[p]? = none ↔ r.level buy p = []
  shows : ∀ p l, m[p]? = some l → l.price = p ∧ l.orderIds = (r.level buy p).map Order.orderId

/-- Every stored aggregate is the sum over the level, in 32 bits. -/
def Totals (m : SideMap cmp) (r : ReferenceBook) (buy : Bool) : Prop :=
  ∀ p l, m[p]? = some l → l.totalQuantity = total (r.level buy p)

namespace Lists

omit [LawfulEqCmp cmp] in
theorem empty (buy : Bool) : Lists (∅ : SideMap cmp) KeyedList.empty buy :=
  ⟨by simp [level], by simp⟩

omit [LawfulEqCmp cmp] in
/-- A live order's level is stored. -/
theorem present {m : SideMap cmp} {r : ReferenceBook} {buy : Bool} (h : Lists m r buy)
    {id : UInt64} {o : Order} (ho : r.lookup id = some o) (hs : o.isBuy = buy) :
    ∃ l, m[o.price]? = some l := by
  subst hs
  apply Option.ne_none_iff_exists'.mp
  rw [Ne, h.absent]
  exact List.ne_nil_of_mem (mem_of_lookup (lookup_level ho)).1

omit [LawfulEqCmp cmp] in
/-- The side map sees nothing of `r` but its levels. -/
theorem congr {m : SideMap cmp} {r r' : ReferenceBook} {buy : Bool} (h : Lists m r buy)
    (hr : ∀ p, r'.level buy p = r.level buy p) : Lists m r' buy :=
  ⟨fun p => by rw [hr]; exact h.absent p, fun p l hl => by rw [hr]; exact h.shows p l hl⟩

/-- Rewriting one level on both sides. -/
theorem put {m : SideMap cmp} {r r' : ReferenceBook} {buy : Bool} (h : Lists m r buy)
    {price : Int64} {level : Option PriceLevel}
    (hother : ∀ p, p ≠ price → r'.level buy p = r.level buy p)
    (hnone : level = none ↔ r'.level buy price = [])
    (hsome : ∀ l, level = some l →
      l.price = price ∧ l.orderIds = (r'.level buy price).map Order.orderId) :
    Lists (m.put price level) r' buy where
  absent p := by
    rw [SideMap.getElem?_put]
    split_ifs with hp
    · rw [hp, hnone]
    · rw [h.absent, hother p hp]
  shows p l := by
    rw [SideMap.getElem?_put]
    split_ifs with hp
    · subst hp; exact hsome l
    · rw [hother p hp]; exact h.shows p l

end Lists

namespace Totals

omit [LawfulEqCmp cmp] in
theorem empty (buy : Bool) : Totals (∅ : SideMap cmp) KeyedList.empty buy := by
  intro p l hl
  simp at hl

omit [LawfulEqCmp cmp] in
theorem congr {m : SideMap cmp} {r r' : ReferenceBook} {buy : Bool} (h : Totals m r buy)
    (hr : ∀ p, r'.level buy p = r.level buy p) : Totals m r' buy :=
  fun p l hl => by rw [hr]; exact h p l hl

theorem put {m : SideMap cmp} {r r' : ReferenceBook} {buy : Bool} (h : Totals m r buy)
    {price : Int64} {level : Option PriceLevel}
    (hother : ∀ p, p ≠ price → r'.level buy p = r.level buy p)
    (hsome : ∀ l, level = some l → l.totalQuantity = total (r'.level buy price)) :
    Totals (m.put price level) r' buy := by
  intro p l
  rw [SideMap.getElem?_put]
  split_ifs with hp
  · subst hp; exact hsome l
  · rw [hother p hp]; exact h p l

end Totals

/-- Two side maps that show the same levels are equal. -/
theorem Lists.unique {m m' : SideMap cmp} {r : ReferenceBook} {buy : Bool} (h : Lists m r buy)
    (h' : Lists m' r buy) (ht : Totals m r buy) (ht' : Totals m' r buy) : m = m' := by
  apply ExtTreeMap.ext_getElem?
  intro p
  cases hm : m[p]? with
  | none => rw [(h'.absent p).mpr ((h.absent p).mp hm)]
  | some l =>
    obtain ⟨l', hm'⟩ : ∃ l', m'[p]? = some l' := by
      apply Option.ne_none_iff_exists'.mp
      rw [Ne, h'.absent, ← h.absent, hm]
      simp
    obtain ⟨hp, hids⟩ := h.shows p l hm
    obtain ⟨hp', hids'⟩ := h'.shows p l' hm'
    have htotal := (ht p l hm).trans (ht' p l' hm').symm
    rw [hm', Option.some.injEq, PriceLevel.mk.injEq]
    exact ⟨hp.trans hp'.symm, hids.trans hids'.symm, htotal⟩

/-! ### The level lambdas -/

section Add

variable {m : SideMap cmp} {r : ReferenceBook} {msg : MarketMessage}

/-- The level `add_to_level` stores. -/
def addedLevel (msg : MarketMessage) : Option PriceLevel → PriceLevel
  | some l => { l with
      orderIds := l.orderIds ++ [msg.orderId]
      totalQuantity := l.totalQuantity + msg.quantity }
  | none => { price := msg.price, orderIds := [msg.orderId], totalQuantity := msg.quantity }

omit [LawfulEqCmp cmp] in
theorem addToLevel_eq_put (m : SideMap cmp) (msg : MarketMessage) :
    addToLevel msg m = m.put msg.price (some (addedLevel msg m[msg.price]?)) := by
  unfold addToLevel
  cases h : m[msg.price]? <;> rfl

theorem level_add_ne (h : r.lookup msg.orderId = none) (buy : Bool) {p : Int64}
    (hp : p ≠ msg.price) : (r.add msg).level buy p = r.level buy p := by
  rw [level_add h, if_neg]
  exact fun hc => hp hc.2.symm

theorem level_add_here (h : r.lookup msg.orderId = none) :
    (r.add msg).level (Order.ofMessage msg).isBuy msg.price =
      r.level (Order.ofMessage msg).isBuy msg.price ++ [Order.ofMessage msg] := by
  rw [level_add h, if_pos ⟨rfl, rfl⟩]

theorem level_add_other_side (h : r.lookup msg.orderId = none) (buy : Bool)
    (hb : (Order.ofMessage msg).isBuy ≠ buy) (p : Int64) :
    (r.add msg).level buy p = r.level buy p := by
  rw [level_add h, if_neg]
  exact fun hc => hb hc.1

theorem Lists.addToLevel (hl : Lists m r (Order.ofMessage msg).isBuy)
    (h : r.lookup msg.orderId = none) :
    Lists (addToLevel msg m) (r.add msg) (Order.ofMessage msg).isBuy := by
  rw [addToLevel_eq_put]
  refine hl.put (fun p => level_add_ne h _) (by simp [level_add_here h]) ?_
  rintro l ⟨rfl⟩
  rw [level_add_here h, List.map_append]
  cases hm : m[msg.price]? with
  | none =>
    rw [(hl.absent _).mp hm]
    exact ⟨rfl, rfl⟩
  | some l =>
    obtain ⟨hp, hids⟩ := hl.shows _ _ hm
    exact ⟨hp, by simp [addedLevel, hids, Order.ofMessage]⟩

theorem Totals.addToLevel (hl : Lists m r (Order.ofMessage msg).isBuy)
    (ht : Totals m r (Order.ofMessage msg).isBuy) (h : r.lookup msg.orderId = none) :
    Totals (addToLevel msg m) (r.add msg) (Order.ofMessage msg).isBuy := by
  rw [addToLevel_eq_put]
  refine ht.put (fun p => level_add_ne h _) ?_
  rintro l ⟨rfl⟩
  rw [level_add_here h]
  cases hm : m[msg.price]? with
  | none =>
    rw [(hl.absent _).mp hm]
    simp [addedLevel, total, Order.ofMessage]
  | some l =>
    simp [addedLevel, ht _ _ hm, total, Order.ofMessage]

end Add

section Edit

variable {m : SideMap cmp} {r : ReferenceBook} {msg : MarketMessage} {o : Order}

theorem level_edit_ne (ho : r.lookup msg.orderId = some o) (g : UInt32 → Option UInt32)
    {p : Int64} (hp : p ≠ o.price) :
    (r.edit msg.orderId g).level o.isBuy p = r.level o.isBuy p :=
  level_edit_other ho g fun hc => hp hc.2.symm

/-- Storing a level with the same ids follows a replacement. -/
theorem Lists.replace (hl : Lists m r o.isBuy) (ho : r.lookup msg.orderId = some o)
    {g : UInt32 → Option UInt32} (hg : ∀ q, (g q).isSome) {l : PriceLevel}
    (hm : m[o.price]? = some l) (t : UInt32) :
    Lists (m.insert o.price { l with totalQuantity := t }) (r.edit msg.orderId g) o.isBuy := by
  have hids := ids_level_replace r msg.orderId hg o.isBuy o.price
  have hold : r.level o.isBuy o.price ≠ [] := List.ne_nil_of_mem (mem_of_lookup (lookup_level ho)).1
  have hnew : (r.edit msg.orderId g).level o.isBuy o.price ≠ [] := by
    rwa [Ne, ← List.map_eq_nil_iff (f := Order.orderId), hids, List.map_eq_nil_iff]
  show Lists (m.put o.price (some { l with totalQuantity := t })) _ _
  refine hl.put (fun p => level_edit_ne ho _) (by simp [hnew]) ?_
  · obtain ⟨hp, hl'⟩ := hl.shows _ _ hm
    rintro _ ⟨rfl⟩
    exact ⟨hp, hl'.trans hids.symm⟩

/-- The level `dropId` leaves, if any. -/
def droppedLevel (id : UInt64) (l : PriceLevel) : Option PriceLevel :=
  if (l.orderIds.erase id).isEmpty then none else some { l with orderIds := l.orderIds.erase id }

omit [LawfulEqCmp cmp] in
theorem dropId_eq_put (price : Int64) (id : UInt64) (l : PriceLevel) (m : SideMap cmp) :
    dropId price id l m = m.put price (droppedLevel id l) := by
  simp only [dropId, droppedLevel]
  split_ifs <;> rfl

theorem Lists.dropId (hl : Lists m r o.isBuy) (ho : r.lookup msg.orderId = some o) {l : PriceLevel}
    (hm : m[o.price]? = some l) (t : UInt32) :
    Lists (dropId o.price msg.orderId { l with totalQuantity := t } m)
      (r.edit msg.orderId fun _ => none) o.isBuy := by
  obtain ⟨hp, hids⟩ := hl.shows _ _ hm
  have hnew := ids_level_remove r msg.orderId o.isBuy o.price
  rw [← hids] at hnew
  rw [dropId_eq_put]
  refine hl.put (fun p => level_edit_ne ho _) ?_ ?_
  · rw [← List.map_eq_nil_iff (f := Order.orderId), hnew, ← List.isEmpty_iff]
    simp only [droppedLevel]
    split_ifs with h <;> simp [h]
  · intro l' hl'
    simp only [droppedLevel] at hl'
    split_ifs at hl'
    cases hl'
    exact ⟨hp, hnew.symm⟩

theorem Totals.dropId (ht : Totals m r o.isBuy) (ho : r.lookup msg.orderId = some o) {l : PriceLevel}
    (hm : m[o.price]? = some l) :
    Totals (dropId o.price msg.orderId { l with totalQuantity := l.totalQuantity - o.quantity } m)
      (r.edit msg.orderId fun _ => none) o.isBuy := by
  rw [dropId_eq_put]
  refine ht.put (fun p => level_edit_ne ho _) ?_
  intro l' hl'
  simp only [droppedLevel] at hl'
  split_ifs at hl'
  cases hl'
  rw [total_level_edit ho]
  simp [ht _ _ hm]

/-- After a replacement the aggregates stay true exactly when the new one is. -/
theorem Totals.replace_iff (ht : Totals m r o.isBuy) (ho : r.lookup msg.orderId = some o) {q t : UInt32}
    {g : UInt32 → Option UInt32} (hg : g o.quantity = some q) (l : PriceLevel) :
    Totals (m.insert o.price { l with totalQuantity := t }) (r.edit msg.orderId g) o.isBuy ↔
      t = total (r.level o.isBuy o.price) - o.quantity + q := by
  have hnew := total_level_edit ho g
  rw [hg, Option.getD_some] at hnew
  constructor
  · intro h
    have := h o.price { l with totalQuantity := t } (by simp)
    rwa [hnew] at this
  · intro h
    show Totals (m.put o.price (some { l with totalQuantity := t })) _ _
    refine ht.put (fun p => level_edit_ne ho _) ?_
    rintro _ ⟨rfl⟩
    rw [hnew]
    exact h

omit [LawfulEqCmp cmp] in
theorem modifyLevel_eq (retotal : UInt32 → UInt32 → UInt32 → UInt32) {l : PriceLevel}
    (hm : m[o.price]? = some l) :
    modifyLevel retotal msg o m =
      some (m.insert o.price
          { l with totalQuantity := retotal l.totalQuantity msg.quantity o.quantity },
        { o with quantity := msg.quantity }) := by
  simp only [modifyLevel, hm]

/-- `modify_level` finds its level and replaces the quantity. It keeps the
aggregates true exactly when `retotal` adds the change of quantity. -/
theorem Lists.modifyLevel (hl : Lists m r o.isBuy) (ho : r.lookup msg.orderId = some o)
    (retotal : UInt32 → UInt32 → UInt32 → UInt32) :
    ∃ l m', m[o.price]? = some l ∧
      modifyLevel retotal msg o m = some (m', { o with quantity := msg.quantity }) ∧
      Lists m' (r.modify msg) o.isBuy ∧
      (Totals m r o.isBuy → (Totals m' (r.modify msg) o.isBuy ↔
        retotal l.totalQuantity msg.quantity o.quantity =
          l.totalQuantity - o.quantity + msg.quantity)) := by
  obtain ⟨l, hm⟩ := hl.present ho rfl
  refine ⟨l, _, hm, modifyLevel_eq retotal hm, ?_, ?_⟩
  · exact hl.replace ho (by simp) hm _
  · intro ht
    rw [ht _ _ hm]
    exact ht.replace_iff (g := fun _ => some msg.quantity) ho rfl l

theorem Lists.cancelLevel (hl : Lists m r o.isBuy) (ho : r.lookup msg.orderId = some o) :
    Lists (cancelLevel msg o m) (r.cancel msg) o.isBuy ∧
      (Totals m r o.isBuy → Totals (LatencyLab.cancelLevel msg o m) (r.cancel msg) o.isBuy) := by
  obtain ⟨l, hm⟩ := hl.present ho rfl
  simp only [LatencyLab.cancelLevel, hm]
  exact ⟨hl.dropId ho hm _, fun ht => ht.dropId ho hm⟩

/-- The quantity `trade_level` leaves on the order. -/
def leftAfter (msg : MarketMessage) (o : Order) : UInt32 := o.quantity - min msg.quantity o.quantity

theorem fill_eq (msg : MarketMessage) (o : Order) :
    fill msg.quantity o.quantity = if leftAfter msg o = 0 then none else some (leftAfter msg o) := rfl

omit [LawfulEqCmp cmp] in
theorem tradeLevel_eq {l : PriceLevel} (hm : m[o.price]? = some l) :
    tradeLevel msg o m =
      some (if leftAfter msg o = 0 then
          dropId o.price msg.orderId
            { l with totalQuantity := l.totalQuantity - min msg.quantity o.quantity } m
        else m.insert o.price
          { l with totalQuantity := l.totalQuantity - min msg.quantity o.quantity },
        { o with quantity := leftAfter msg o }) := by
  simp only [tradeLevel, hm]
  rfl

/-- `trade_level` finds its level; the order leaves the level exactly when
nothing of it is left. -/
theorem Lists.tradeLevel (hl : Lists m r o.isBuy) (ho : r.lookup msg.orderId = some o) :
    ∃ m', tradeLevel msg o m = some (m', { o with quantity := leftAfter msg o }) ∧
      Lists m' (r.trade msg) o.isBuy ∧
      (Totals m r o.isBuy → Totals m' (r.trade msg) o.isBuy) := by
  obtain ⟨l, hm⟩ := hl.present ho rfl
  refine ⟨_, tradeLevel_eq hm, ?_⟩
  by_cases h0 : leftAfter msg o = 0
  · -- filled: the whole remaining quantity was traded, as a cancel would remove it
    have hq : min msg.quantity o.quantity = o.quantity := (sub_eq_zero.mp h0).symm
    have hr : r.trade msg = r.edit msg.orderId fun _ => none :=
      edit_congr ho (by rw [fill_eq, if_pos h0])
    rw [if_pos h0, hr, hq]
    exact ⟨hl.dropId ho hm _, fun ht => ht.dropId ho hm⟩
  · have hr : r.trade msg = r.edit msg.orderId fun _ => some (leftAfter msg o) :=
      edit_congr ho (by rw [fill_eq, if_neg h0])
    rw [if_neg h0, hr]
    refine ⟨hl.replace ho (by simp) hm _, fun ht =>
      (ht.replace_iff (g := fun _ => some (leftAfter msg o)) ho rfl l).mpr ?_⟩
    rw [ht _ _ hm, leftAfter]
    abel

end Edit

end LatencyLab
