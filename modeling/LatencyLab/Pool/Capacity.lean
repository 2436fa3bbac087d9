import LatencyLab.Book.Liquidity
import LatencyLab.Pool.Accounting

/-! Capacity and place of the pool do not matter to `PooledOrderBook` as long as no Add
is turned down. The free list is a stack with the lowest slots on top, so a larger slab
is a smaller one with slots below the bottom of the stack that are never reached. Book
and pool of a larger capacity, at another address, are therefore those of a smaller one
with the same slots in use, step by step. -/

namespace LatencyLab

open Std Keyed ReferenceBook ObjectPool

namespace ObjectPool

variable {T : Type*} {p p' : ObjectPool T} {q : Ptr} {v w : T} {slab : Slab} {extra : ℕ}

/-- The pool in another slab, with free slots added at the bottom of the stack. -/
def widen (slab : Slab) (extra : ℕ) (p : ObjectPool T) : ObjectPool T where
  slab := slab
  storage_ := p.storage_ ++ List.replicate extra none
  freeList_ := (List.range' p.capacity extra).reverse ++ p.freeList_
  inUse_ := p.inUse_ ++ List.replicate extra false
  allocations_ := p.allocations_
  deallocations_ := p.deallocations_

theorem widen_make (slab₀ slab : Slab) (n extra : ℕ) :
    (make slab₀ n : ObjectPool T).widen slab extra = make slab (n + extra) := by
  simp only [widen, make, fillFreeList_eq, capacity, List.length_replicate, List.nil_append,
    List.replicate_append_replicate, ← List.reverse_append, List.range_eq_range', mk.injEq, true_and, and_true]
  rw [← List.range'_append_1, Nat.zero_add]

theorem capacity_widen : (p.widen slab extra).capacity = p.capacity + extra := by
  rw [capacity, widen, List.length_append, List.length_replicate, capacity]

theorem deref_widen (hq : p.deref q = some v) : (p.widen slab extra).deref (slab.ptr (p.slab.index q)) = some v := by
  obtain ⟨-, hstored⟩ := deref_eq_some.mp hq
  refine deref_eq_some.mpr ⟨?_, ?_⟩
  · rw [widen, Slab.index_ptr]
  · rw [widen, Slab.index_ptr, List.getElem?_append_left (List.getElem?_eq_some_iff.mp hstored).1, hstored]

/-- The same slot is handed out. -/
theorem allocate_widen (slab : Slab) (extra : ℕ) (h : p.Valid) (hfree : p.available ≠ 0) (v : T) :
    ∃ i p', p.allocate v = some (some (p.slab.ptr i), p') ∧
      (p.widen slab extra).allocate v = some (some (slab.ptr i), p'.widen slab extra) ∧ p'.slab = p.slab := by
  obtain ⟨init, i, hl⟩ : ∃ init i, p.freeList_ = init ++ [i] := by
    rcases List.eq_nil_or_concat p.freeList_ with h0 | h1
    · exact absurd (by simp [available, h0]) hfree
    · simpa using h1
  have hlt := h.lt_of_free (i := i) (by simp [hl])
  have hbit : i < p.inUse_.length := h.bits_length ▸ hlt
  have hl' : (p.widen slab extra).freeList_ = (List.range' p.capacity extra).reverse ++ init ++ [i] := by
    rw [widen, hl, List.append_assoc]
  have hbit' : i < (p.widen slab extra).inUse_.length := by
    rw [widen, List.length_append]
    omega
  have hlt' : i < (p.widen slab extra).capacity := by
    rw [capacity_widen]
    omega
  refine ⟨i, _, allocate_concat hl hbit hlt v, (allocate_concat hl' hbit' hlt' v).trans ?_, rfl⟩
  simp only [widen, capacity, List.set_append_left _ _ hbit, List.set_append_left _ _ hlt, List.length_set]

theorem deallocate_widen (slab : Slab) (extra : ℕ) (h : p.Valid) (hq : p.deref q = some v) :
    ∃ p', p.deallocate (some q) = some p' ∧
      (p.widen slab extra).deallocate (some (slab.ptr (p.slab.index q))) = some (p'.widen slab extra) ∧
      p'.slab = p.slab := by
  have hlt := h.lt_of_inUse (h.inUse_of_deref hq)
  have hbit : p.slab.index q < p.inUse_.length := h.bits_length ▸ hlt
  have hindex : (p.widen slab extra).slab.index (slab.ptr (p.slab.index q)) = p.slab.index q := slab.index_ptr _
  have hbit' : (p.widen slab extra).slab.index (slab.ptr (p.slab.index q)) < (p.widen slab extra).inUse_.length := by
    rw [hindex, widen, List.length_append]
    omega
  refine ⟨_, deallocate_live hq hbit, (deallocate_live (deref_widen hq) hbit').trans ?_, rfl⟩
  rw [hindex]
  simp only [widen, capacity, List.set_append_left _ _ hbit, List.set_append_left _ _ hlt, List.length_set,
    List.append_assoc]

theorem write_widen (slab : Slab) (extra : ℕ) (h : p.Valid) (hq : p.deref q = some v) (w : T) :
    ∃ p', p.write q w = some p' ∧
      (p.widen slab extra).write (slab.ptr (p.slab.index q)) w = some (p'.widen slab extra) ∧
      p'.slab = p.slab := by
  have hlt := h.lt_of_inUse (h.inUse_of_deref hq)
  have hindex : (p.widen slab extra).slab.index (slab.ptr (p.slab.index q)) = p.slab.index q := slab.index_ptr _
  refine ⟨_, write_live hq w, (write_live (deref_widen hq) w).trans ?_, rfl⟩
  rw [hindex]
  simp only [widen, capacity, List.set_append_left _ _ hlt, List.length_set]

end ObjectPool

theorem IdMap.map_insert {V W : Type*} (m : IdMap V) (f : V → W) (id : UInt64) (v : V) :
    (m.insert id v).map (fun _ x => f x) = (m.map fun _ x => f x).insert id (f v) := by
  apply ExtTreeMap.ext_getElem?
  intro id'
  rw [IdMap.getElem?_insert, ExtTreeMap.getElem?_map, ExtTreeMap.getElem?_map, IdMap.getElem?_insert]
  split_ifs
  · rfl
  · rfl

theorem IdMap.map_erase {V W : Type*} (m : IdMap V) (f : V → W) (id : UInt64) :
    (m.erase id).map (fun _ x => f x) = (m.map fun _ x => f x).erase id := by
  apply ExtTreeMap.ext_getElem?
  intro id'
  rw [IdMap.getElem?_erase, ExtTreeMap.getElem?_map, ExtTreeMap.getElem?_map, IdMap.getElem?_erase]
  split_ifs
  · rfl
  · rfl

namespace PooledOrderBook

/-- The book over the widened pool: every stored pointer is to the same slot. -/
def widen (slab : Slab) (extra : ℕ) (b : PooledOrderBook) : PooledOrderBook :=
  { b with
    orderMap_ := b.orderMap_.map fun _ q => slab.ptr (b.orderPool_.slab.index q)
    orderPool_ := b.orderPool_.widen slab extra }

variable {b b' : PooledOrderBook} {r : ReferenceBook} {n : ℕ} {slab : Slab} {extra : ℕ} {id : UInt64} {q : Ptr}
variable {o : Order} {msg : MarketMessage}

theorem getElem?_widen (id : UInt64) :
    (b.widen slab extra).orderMap_[id]? = b.orderMap_[id]?.map fun q => slab.ptr (b.orderPool_.slab.index q) :=
  ExtTreeMap.getElem?_map

theorem orderPool_widen : (b.widen slab extra).orderPool_ = b.orderPool_.widen slab extra := rfl

theorem bids_widen : (b.widen slab extra).bids_ = b.bids_ := rfl

theorem asks_widen : (b.widen slab extra).asks_ = b.asks_ := rfl

theorem widen_pool {pool : ObjectPool Order} (hslab : pool.slab = b.orderPool_.slab) :
    { b.widen slab extra with orderPool_ := pool.widen slab extra } =
      widen slab extra { b with orderPool_ := pool } := by
  rw [widen, widen, hslab]

theorem written_widen (slab : Slab) (extra : ℕ) (h : Pointers b.orderMap_ b.orderPool_ r n)
    (hd : b.orderPool_.deref q = some o) (o' : Order) :
    ((b.orderPool_.widen slab extra).write (slab.ptr (b.orderPool_.slab.index q)) o').map
        (fun pool => { b.widen slab extra with orderPool_ := pool }) =
      ((b.orderPool_.write q o').map fun pool => { b with orderPool_ := pool }).map (widen slab extra) := by
  obtain ⟨pool, hpool, hwide, hslab⟩ := write_widen slab extra h.valid hd o'
  rw [hpool, hwide]
  exact congrArg some (widen_pool hslab)

theorem release_widen (slab : Slab) (extra : ℕ) (h : Pointers b.orderMap_ b.orderPool_ r n)
    (hq : b.orderMap_[id]? = some q) (ho : r.lookup id = some o) :
    (b.widen slab extra).release id (slab.ptr (b.orderPool_.slab.index q)) =
      (b.release id q).map (widen slab extra) := by
  have hd : b.orderPool_.deref q = some o := (h.deref id q hq).trans ho
  obtain ⟨pool, hpool, hwide, hslab⟩ := deallocate_widen slab extra h.valid hd
  simp only [release, hpool, Option.map_some]
  rw [orderPool_widen, hwide, Option.map_some, widen,
    widen, hslab, IdMap.map_erase]

theorem settle_widen (slab : Slab) (extra : ℕ) (h : Pointers b.orderMap_ b.orderPool_ r n)
    (hq : b.orderMap_[id]? = some q) (ho : r.lookup id = some o) (left : UInt32) :
    (b.widen slab extra).settle id (slab.ptr (b.orderPool_.slab.index q)) { o with quantity := left } =
      (b.settle id q { o with quantity := left }).map (widen slab extra) := by
  have hd : b.orderPool_.deref q = some o := (h.deref id q hq).trans ho
  obtain ⟨pool, hpool, hwide, hslab⟩ := write_widen slab extra h.valid hd { o with quantity := left }
  obtain ⟨pool', hpool', hw⟩ := write_spec h.valid hd { o with quantity := left }
  cases hpool.symm.trans hpool'
  have ho' : (r.edit id fun _ => some left).lookup id = some { o with quantity := left } := by
    rw [lookup_edit, if_pos rfl, ho]
    rfl
  have hrelease := release_widen slab extra (b := { b with orderPool_ := pool })
    (h.written hq ho hw) hq ho'
  simp only [settle, hpool, Option.bind_some]
  rw [orderPool_widen, hwide, Option.bind_some, widen_pool hslab]
  split_ifs with h0
  · rw [← hrelease, hslab]
  · rfl

/-! ### The handlers -/

/-- An Add that finds room, or a live order of its id. -/
theorem handleAdd_widen (slab : Slab) (extra : ℕ) (h : Holds b r n)
    (hroom : r.lookup msg.orderId = none → r.rows.length ≠ n) :
    (b.widen slab extra).handleAdd msg = (b.handleAdd msg).map (widen slab extra) := by
  cases ho : r.lookup msg.orderId with
  | some o =>
    obtain ⟨q, hq, -⟩ := h.pointers.of_lookup ho
    simp only [handleAdd, getElem?_widen, hq, Option.map_some]
  | none =>
    have hav : b.orderPool_.available ≠ 0 := fun hc => hroom ho (h.pointers.room_iff.mp hc)
    obtain ⟨i, pool, hpool, hwide, hslab⟩ :=
      allocate_widen slab extra h.pointers.valid hav (Order.ofMessage msg)
    simp only [handleAdd, getElem?_widen, (h.pointers.absent _).mpr ho, Option.map_none, hpool,
      orderPool_widen, hwide]
    split_ifs
    · rw [Option.map_some, widen, widen, hslab, IdMap.map_insert, Slab.index_ptr]
    · rw [Option.map_some, widen, widen, hslab, IdMap.map_insert, Slab.index_ptr]

theorem handleModify_widen (slab : Slab) (extra : ℕ) (h : Holds b r n) :
    (b.widen slab extra).handleModify msg = (b.handleModify msg).map (widen slab extra) := by
  cases ho : r.lookup msg.orderId with
  | none =>
    simp only [handleModify, getElem?_widen, (h.pointers.absent _).mpr ho, Option.map_none, Option.map_some]
  | some o =>
    obtain ⟨q, hq, hd⟩ := h.pointers.of_lookup ho
    simp only [handleModify, getElem?_widen, hq, Option.map_some, hd, orderPool_widen, deref_widen hd,
      Option.bind_some]
    split_ifs
    · rw [bids_widen]
      cases modifyLevel retotalInt64 msg o b.bids_ with
      | none => rfl
      | some x => exact written_widen slab extra (b := { b with bids_ := x.1 }) h.pointers hd x.2
    · rw [asks_widen]
      cases modifyLevel retotalInt64 msg o b.asks_ with
      | none => rfl
      | some x => exact written_widen slab extra (b := { b with asks_ := x.1 }) h.pointers hd x.2

theorem handleCancel_widen (slab : Slab) (extra : ℕ) (h : Holds b r n) :
    (b.widen slab extra).handleCancel msg = (b.handleCancel msg).map (widen slab extra) := by
  cases ho : r.lookup msg.orderId with
  | none =>
    simp only [handleCancel, getElem?_widen, (h.pointers.absent _).mpr ho, Option.map_none, Option.map_some]
  | some o =>
    obtain ⟨q, hq, hd⟩ := h.pointers.of_lookup ho
    simp only [handleCancel, getElem?_widen, hq, Option.map_some, hd, orderPool_widen, deref_widen hd,
      Option.bind_some]
    split_ifs
    · exact release_widen slab extra (b := { b with bids_ := cancelLevel msg o b.bids_ }) h.pointers hq ho
    · exact release_widen slab extra (b := { b with asks_ := cancelLevel msg o b.asks_ }) h.pointers hq ho

theorem handleTrade_widen (slab : Slab) (extra : ℕ) (h : Holds b r n) :
    (b.widen slab extra).handleTrade msg = (b.handleTrade msg).map (widen slab extra) := by
  cases ho : r.lookup msg.orderId with
  | none =>
    simp only [handleTrade, getElem?_widen, (h.pointers.absent _).mpr ho, Option.map_none, Option.map_some]
  | some o =>
    obtain ⟨q, hq, hd⟩ := h.pointers.of_lookup ho
    simp only [handleTrade, getElem?_widen, hq, Option.map_some, hd, orderPool_widen, deref_widen hd,
      Option.bind_some]
    by_cases hs : o.side = .buy
    · have hb := Order.isBuy_eq_true.mpr hs
      obtain ⟨bids, heq, -⟩ := (hb ▸ h.bids).tradeLevel ho
      simp only [if_pos hs, bids_widen, heq]
      exact settle_widen slab extra (b := { b with bids_ := bids }) h.pointers hq ho (leftAfter msg o)
    · have hb := Order.isBuy_eq_false.mpr hs
      obtain ⟨asks, heq, -⟩ := (hb ▸ h.asks).tradeLevel ho
      simp only [if_neg hs, asks_widen, heq]
      exact settle_widen slab extra (b := { b with asks_ := asks }) h.pointers hq ho (leftAfter msg o)

/-- The two books take a message alike unless it is turned down. -/
theorem onMessage_widen (slab : Slab) (extra : ℕ) (h : Holds b r n) (hd : ¬r.Drops n msg) :
    (b.widen slab extra).onMessage msg = (b.onMessage msg).map (widen slab extra) := by
  unfold onMessage
  split_ifs with hadd
  · exact handleAdd_widen slab extra h fun hn hfull => hd ⟨hadd, hn, hfull⟩
  · exact handleModify_widen slab extra h
  · exact handleCancel_widen slab extra h
  · exact handleTrade_widen slab extra h
  · rfl

end PooledOrderBook

/-! ### Feeds -/

theorem ReferenceBook.not_drops {r : ReferenceBook} {msg : MarketMessage} {n : ℕ}
    (h : (r.apply msg).rows.length ≤ n) : ¬r.Drops n msg := by
  rintro ⟨hadd, hn, hfull⟩
  rw [r.apply_of_add hadd, rows_add hn, List.length_append, List.length_singleton] at h
  omega

namespace PooledOrderBook

variable {b b' : PooledOrderBook} {r : ReferenceBook} {n : ℕ} {slab : Slab} {extra : ℕ}

theorem run_widen (slab : Slab) (extra : ℕ) {msgs : List MarketMessage} (h : Holds b r n)
    (hpeak : ∀ pre, pre <+: msgs → (r.run pre).rows.length ≤ n) :
    ∃ b', b.run msgs = some b' ∧ (b.widen slab extra).run msgs = some (b'.widen slab extra) ∧
      Holds b' (r.run msgs) n ∧ b'.poolExhaustions_ = b.poolExhaustions_ := by
  induction msgs generalizing b r with
  | nil => exact ⟨b, rfl, rfl, h, rfl⟩
  | cons msg msgs ih =>
    have hd : ¬r.Drops n msg := not_drops (hpeak [msg] ⟨msgs, rfl⟩)
    obtain ⟨b₁, hmsg, hreacts⟩ := h.onMessage msg
    have hholds := hreacts.holds
    rw [applyUpTo, if_neg hd] at hholds
    have hrest : ∀ pre, pre <+: msgs → ((r.apply msg).run pre).rows.length ≤ n :=
      fun pre hpre => hpeak (msg :: pre) (List.cons_prefix_cons.mpr ⟨rfl, hpre⟩)
    obtain ⟨b', hrun, hwide, hholds', hexhaustions⟩ := ih hholds hrest
    have hmsg' := onMessage_widen slab extra h hd
    rw [hmsg, Option.map_some] at hmsg'
    refine ⟨b', ?_, ?_, hholds', ?_⟩
    · rw [run, Transition.exec_cons, hmsg]
      exact hrun
    · rw [run, Transition.exec_cons, hmsg']
      exact hwide
    · rw [hexhaustions, hreacts.exhaustions, if_neg hd, add_zero]

/-- Two books that differ in the capacity and place of their pools only: the same levels,
orders, slots and counts, all slots in use below `limit`. -/
structure SameButForRoom (limit : ℕ) (b b' : PooledOrderBook) : Prop where
  bids : b'.bids_ = b.bids_
  asks : b'.asks_ = b.asks_
  orders : ∀ id, b'.orderOf id = b.orderOf id
  slots : ∀ id : UInt64, b'.orderMap_[id]?.map b'.orderPool_.slab.index = b.orderMap_[id]?.map b.orderPool_.slab.index
  inUse : ∀ i : ℕ, b'.orderPool_.inUse_[i]? = some true ↔ b.orderPool_.inUse_[i]? = some true
  low : ∀ i : ℕ, b'.orderPool_.inUse_[i]? = some true → i < limit
  allocations : b'.poolAllocations = b.poolAllocations
  deallocations : b'.poolDeallocations = b.poolDeallocations
  exhaustions : b.poolExhaustions = 0 ∧ b'.poolExhaustions = 0

theorem sameButForRoom_widen (h : Holds b r n) (hexhaustions : b.poolExhaustions_ = 0) :
    SameButForRoom n b (b.widen slab extra) := by
  have hinUse : ∀ i : ℕ, (b.widen slab extra).orderPool_.inUse_[i]? = some true ↔
      b.orderPool_.inUse_[i]? = some true := by
    intro i
    rw [orderPool_widen, ObjectPool.widen, List.getElem?_append]
    split_ifs with hi
    · rfl
    · rw [List.getElem?_replicate, List.getElem?_eq_none (Nat.le_of_not_lt hi)]
      split_ifs <;> simp
  refine ⟨rfl, rfl, fun id => ?_, fun id => ?_, hinUse, fun i hi => ?_, rfl, rfl, hexhaustions, hexhaustions⟩
  · rw [orderOf, orderOf, getElem?_widen]
    cases hq : b.orderMap_[id]? with
    | none => rfl
    | some q =>
      obtain ⟨o, -, hd⟩ := h.pointers.lookup_of hq
      rw [Option.map_some, Option.bind_some, Option.bind_some, orderPool_widen, deref_widen hd, hd]
  · rw [getElem?_widen, Option.map_map]
    congr 1
    funext q
    exact slab.index_ptr _
  · have hlt := h.pointers.valid.lt_of_inUse ((hinUse i).mp hi)
    rwa [h.pointers.capacity] at hlt

/-- **Capacity does not matter beyond the peak.** On a feed with at most `n` orders live
at any time, a book of any capacity from `n` on, wherever its slab lies, turns nothing
down and goes through the same states as the book of capacity `n`, in the same slots. -/
theorem run_capacity (data data' : ℕ) {n n' : UInt64} (hle : n ≤ n') {msgs : List MarketMessage}
    (hpeak : ∀ pre, pre <+: msgs → (bookAfter pre).orderMap_.size ≤ n.toNat) :
    ∃ b b', (make data n).run msgs = some b ∧ (make data' n').run msgs = some b' ∧ SameButForRoom n.toNat b b' := by
  have hrows : ∀ pre, pre <+: msgs → (ReferenceBook.run KeyedList.empty pre).rows.length ≤ n.toNat := by
    intro pre hpre
    have hsize := (bookAfter_represents pre).size_orderMap
    exact hsize ▸ hpeak pre hpre
  have hmake : make data' n' = (make data n).widen (orderSlab data') (n'.toNat - n.toNat) := by
    have hnat : n.toNat + (n'.toNat - n.toNat) = n'.toNat := Nat.add_sub_cancel' hle
    rw [widen, make, make, widen_make, hnat]
    simp
  obtain ⟨b, hrun, hwide, hholds, hexhaustions⟩ :=
    run_widen (orderSlab data') (n'.toNat - n.toNat) (Holds.make data n) hrows
  rw [← hmake] at hwide
  exact ⟨b, _, hrun, hwide, sameButForRoom_widen hholds hexhaustions⟩

/-- One order after the other: a single slot does. -/
def oneByOne : List MarketMessage :=
  [orderMessage .add 1 .buy 100 10, orderMessage .cancel 1 .buy 0 0, orderMessage .add 2 .sell 101 20]

theorem run_capacity_oneByOne :
    ∃ b b', (make 0 1).run oneByOne = some b ∧ (make 4096 1000).run oneByOne = some b' ∧ SameButForRoom 1 b b' := by
  have hpeak : ∀ pre ∈ oneByOne.inits, (bookAfter pre).orderMap_.size ≤ 1 := by decide
  exact run_capacity 0 4096 (by decide) fun pre hpre => hpeak pre ((List.mem_inits pre oneByOne).mpr hpre)

end PooledOrderBook

end LatencyLab
