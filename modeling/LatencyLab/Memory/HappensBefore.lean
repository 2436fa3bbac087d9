import Mathlib.Data.List.Basic
import Mathlib.Logic.Function.Basic
import Mathlib.Order.Defs.LinearOrder
import Mathlib.Order.MinMax

/-! Happens-before in a release/acquire memory. Threads share atomic locations and
cells of plain data; the values are left to the program. An atomic location is its
modification order, each store with what it released; it is stored to by one thread.
A thread knows which accesses to cells happened before its next step, and the last
store of every location that it cannot read behind any more. A store releases what its
thread knows, and an acquiring load takes over what the store released that it reads
from. Two accesses of a cell of which one is a write race when the later does not know
of the earlier. -/

namespace LatencyLab.HappensBefore

variable {τ L D : Type*}

/-- An access to a cell: the thread and the number among its accesses, from 1 on. -/
abbrev Access (τ : Type*) := τ × ℕ

/-- How many accesses of each thread happened before, and the position in the
modification order of each location below which nothing can be read. -/
structure Knowledge (τ L : Type*) where
  accesses : τ → ℕ
  seen : L → ℕ

namespace Knowledge

/-- What every thread knows when it is started. -/
def initial : Knowledge τ L := ⟨fun _ => 0, fun _ => 0⟩

def Knows (k : Knowledge τ L) (a : Access τ) : Prop := a.2 ≤ k.accesses a.1

instance (k : Knowledge τ L) (a : Access τ) : Decidable (k.Knows a) := inferInstanceAs (Decidable (_ ≤ _))

def join (k k' : Knowledge τ L) : Knowledge τ L where
  accesses i := max (k.accesses i) (k'.accesses i)
  seen ℓ := max (k.seen ℓ) (k'.seen ℓ)

def see [DecidableEq L] (k : Knowledge τ L) (ℓ : L) (position : ℕ) : Knowledge τ L :=
  { k with seen := Function.update k.seen ℓ position }

/-- One more access of thread `i`. -/
def count [DecidableEq τ] (k : Knowledge τ L) (i : τ) : Knowledge τ L :=
  { k with accesses := Function.update k.accesses i (k.accesses i + 1) }

variable {k k' : Knowledge τ L} {a : Access τ}

theorem join_seen (k k' : Knowledge τ L) (ℓ : L) : (k.join k').seen ℓ = max (k.seen ℓ) (k'.seen ℓ) := rfl

theorem knows_join : (k.join k').Knows a ↔ k.Knows a ∨ k'.Knows a := le_max_iff

theorem Knows.see [DecidableEq L] (h : k.Knows a) (ℓ : L) (position : ℕ) : (k.see ℓ position).Knows a := h

theorem see_self [DecidableEq L] (k : Knowledge τ L) (ℓ : L) : k.see ℓ (k.seen ℓ) = k := by
  rw [Knowledge.see, Function.update_eq_self]

theorem see_seen_self [DecidableEq L] (k : Knowledge τ L) (ℓ : L) (position : ℕ) :
    (k.see ℓ position).seen ℓ = position := by
  unfold see
  exact Function.update_self ..

theorem see_seen_of_ne [DecidableEq L] (k : Knowledge τ L) {ℓ ℓ' : L} (position : ℕ) (h : ℓ' ≠ ℓ) :
    (k.see ℓ position).seen ℓ' = k.seen ℓ' := by
  unfold see
  exact Function.update_of_ne h ..

theorem le_count [DecidableEq τ] (k : Knowledge τ L) (i j : τ) : k.accesses j ≤ (k.count i).accesses j := by
  by_cases hj : j = i
  · subst hj
    exact (Nat.le_succ _).trans_eq (Function.update_self j _ k.accesses).symm
  · exact (Function.update_of_ne hj _ k.accesses).ge

theorem Knows.count [DecidableEq τ] (h : k.Knows a) (i : τ) : (k.count i).Knows a :=
  Nat.le_trans h (k.le_count i a.1)

/-- A thread knows of its own access. -/
theorem knows_count [DecidableEq τ] (k : Knowledge τ L) (i : τ) : (k.count i).Knows (i, k.accesses i + 1) :=
  (Function.update_self i _ k.accesses).ge

end Knowledge

/-- The threads' knowledge, what the stores of each location released, oldest first,
and the accesses of each cell. `raced` once two accesses have raced. -/
structure Memory (τ L D : Type*) where
  known : τ → Knowledge τ L
  stores : L → List (Knowledge τ L)
  reads : D → List (Access τ)
  writes : D → List (Access τ)
  raced : Bool

namespace Memory

/-! ### Steps -/

/-- Every location has its initial value, which every thread knows of. -/
def initial : Memory τ L D where
  known _ := .initial
  stores _ := [.initial]
  reads _ := []
  writes _ := []
  raced := false

/-- Thread `i` knows `k` from now on. -/
def learn [DecidableEq τ] (m : Memory τ L D) (i : τ) (k : Knowledge τ L) : Memory τ L D :=
  { m with known := Function.update m.known i k }

/-- A relaxed load by thread `i`, where coherence lets it read from that store. -/
def load [DecidableEq τ] [DecidableEq L] (m : Memory τ L D) (i : τ) (ℓ : L) (position : ℕ) :
    Option (Memory τ L D) :=
  if position < (m.known i).seen ℓ ∨ (m.stores ℓ).length ≤ position then none
  else some (m.learn i ((m.known i).see ℓ position))

/-- An acquiring load. What the store released includes its own position. -/
def acquire [DecidableEq τ] (m : Memory τ L D) (i : τ) (ℓ : L) (position : ℕ) : Option (Memory τ L D) :=
  match (m.stores ℓ)[position]? with
  | some k => if position < (m.known i).seen ℓ then none else some (m.learn i ((m.known i).join k))
  | none => none

/-- What a store of thread `i` to `ℓ` releases. -/
def released [DecidableEq L] (m : Memory τ L D) (i : τ) (ℓ : L) : Knowledge τ L :=
  (m.known i).see ℓ (m.stores ℓ).length

/-- A releasing store. -/
def release [DecidableEq τ] [DecidableEq L] (m : Memory τ L D) (i : τ) (ℓ : L) : Memory τ L D :=
  { m.learn i (m.released i ℓ) with stores := Function.update m.stores ℓ (m.stores ℓ ++ [m.released i ℓ]) }

/-- The next access of thread `i`. -/
def nextAccess (m : Memory τ L D) (i : τ) : Access τ := (i, (m.known i).accesses i + 1)

/-- A read of plain data: it races with the writes that it does not know of. -/
def read [DecidableEq τ] [DecidableEq D] (m : Memory τ L D) (i : τ) (d : D) : Memory τ L D :=
  { m.learn i ((m.known i).count i) with
    reads := Function.update m.reads d (m.reads d ++ [m.nextAccess i])
    raced := m.raced || !(m.writes d).all fun a => (m.known i).Knows a }

/-- A write of plain data: it races with reads as well. -/
def write [DecidableEq τ] [DecidableEq D] (m : Memory τ L D) (i : τ) (d : D) : Memory τ L D :=
  { m.learn i ((m.known i).count i) with
    writes := Function.update m.writes d (m.writes d ++ [m.nextAccess i])
    raced := m.raced || !(m.reads d ++ m.writes d).all fun a => (m.known i).Knows a }

variable {m m' : Memory τ L D} {i j : τ} {ℓ ℓ' : L} {d d' : D} {k : Knowledge τ L} {position : ℕ} {a : Access τ}

theorem of_load [DecidableEq τ] [DecidableEq L] (hs : m.load i ℓ position = some m') :
    (m.known i).seen ℓ ≤ position ∧ position < (m.stores ℓ).length ∧
      m' = m.learn i ((m.known i).see ℓ position) := by
  rw [load] at hs
  split_ifs at hs with h
  rw [not_or, Nat.not_lt, Nat.not_le] at h
  exact ⟨h.1, h.2, (Option.some.inj hs).symm⟩

theorem of_acquire [DecidableEq τ] (hs : m.acquire i ℓ position = some m') :
    ∃ k, (m.stores ℓ)[position]? = some k ∧ (m.known i).seen ℓ ≤ position ∧
      m' = m.learn i ((m.known i).join k) := by
  rw [acquire] at hs
  split at hs
  · rename_i k hk
    split_ifs at hs with h
    exact ⟨k, hk, Nat.not_lt.mp h, (Option.some.inj hs).symm⟩
  · cases hs

section Learn

variable [DecidableEq τ]

theorem learn_self (m : Memory τ L D) (i : τ) (k : Knowledge τ L) : (m.learn i k).known i = k := by
  unfold learn
  exact Function.update_self ..

theorem learn_of_ne (m : Memory τ L D) (k : Knowledge τ L) (h : j ≠ i) : (m.learn i k).known j = m.known j :=
  Function.update_of_ne h ..

theorem seen_le_acquire (hs : m.acquire i ℓ position = some m') (j : τ) (ℓ' : L) :
    (m.known j).seen ℓ' ≤ (m'.known j).seen ℓ' := by
  obtain ⟨k, -, -, rfl⟩ := of_acquire hs
  by_cases hj : j = i
  · subst hj
    rw [learn_self]
    exact le_max_left _ _
  · rw [learn_of_ne m _ hj]

theorem learn_known (m : Memory τ L D) (i : τ) : m.learn i (m.known i) = m := by
  rw [learn, Function.update_eq_self]

end Learn

theorem release_stores_self [DecidableEq τ] [DecidableEq L] (m : Memory τ L D) (i : τ) (ℓ : L) :
    (m.release i ℓ).stores ℓ = m.stores ℓ ++ [m.released i ℓ] := Function.update_self ℓ _ m.stores

theorem release_stores_of_ne [DecidableEq τ] [DecidableEq L] (m : Memory τ L D) (i : τ) (h : ℓ' ≠ ℓ) :
    (m.release i ℓ).stores ℓ' = m.stores ℓ' := Function.update_of_ne h ..

/-! ### What is known everywhere -/

/-- `P` holds of what the threads know and of what the stores released. -/
structure Everywhere (P : Knowledge τ L → Prop) (m : Memory τ L D) : Prop where
  known : ∀ i, P (m.known i)
  released : ∀ ℓ, ∀ k ∈ m.stores ℓ, P k

namespace Everywhere

variable {P Q : Knowledge τ L → Prop}

theorem mono (h : m.Everywhere P) (hPQ : ∀ k, P k → Q k) : m.Everywhere Q :=
  ⟨fun i => hPQ _ (h.known i), fun ℓ k hk => hPQ k (h.released ℓ k hk)⟩

theorem learn [DecidableEq τ] (h : m.Everywhere P) (i : τ) (hk : P k) : (m.learn i k).Everywhere P where
  known j := by
    by_cases hj : j = i
    · rw [hj, learn_self]
      exact hk
    · rw [learn_of_ne m k hj]
      exact h.known j
  released := h.released

/-- Loads acquire only what follows from what is known already. -/
theorem acquire [DecidableEq τ] (h : m.Everywhere P) (hjoin : ∀ k k', P k → P k' → P (k.join k'))
    (hs : m.acquire i ℓ position = some m') : m'.Everywhere P := by
  obtain ⟨k, hk, -, rfl⟩ := of_acquire hs
  exact h.learn i (hjoin _ _ (h.known i) (h.released ℓ k (List.mem_of_getElem? hk)))

theorem release [DecidableEq τ] [DecidableEq L] (h : m.Everywhere P) (hk : P (m.released i ℓ)) :
    (m.release i ℓ).Everywhere P where
  known := (h.learn i hk).known
  released ℓ' k' hk' := by
    by_cases hℓ : ℓ' = ℓ
    · subst hℓ
      rw [release_stores_self] at hk'
      rcases List.mem_append.mp hk' with hold | hnew
      · exact h.released ℓ' k' hold
      · rw [List.mem_singleton.mp hnew]
        exact hk
    · rw [release_stores_of_ne m i hℓ] at hk'
      exact h.released ℓ' k' hk'

theorem read [DecidableEq τ] [DecidableEq D] (h : m.Everywhere P) (hk : P ((m.known i).count i)) (d : D) :
    (m.read i d).Everywhere P :=
  ⟨(h.learn i hk).known, h.released⟩

theorem write [DecidableEq τ] [DecidableEq D] (h : m.Everywhere P) (hk : P ((m.known i).count i)) (d : D) :
    (m.write i d).Everywhere P :=
  ⟨(h.learn i hk).known, h.released⟩

end Everywhere

/-! ### Well-formed memories -/

structure WellFormed (m : Memory τ L D) : Prop where
  stamped : ∀ ℓ position (k : Knowledge τ L), (m.stores ℓ)[position]? = some k → k.seen ℓ = position
  seen_lt : m.Everywhere fun k : Knowledge τ L => ∀ ℓ, k.seen ℓ < (m.stores ℓ).length

theorem wellFormed_initial : (initial : Memory τ L D).WellFormed where
  stamped ℓ position k hk := by
    cases position with
    | zero =>
      cases hk
      rfl
    | succ position => cases hk
  seen_lt := ⟨fun _ _ => Nat.one_pos, fun _ k hk ℓ => by rw [List.mem_singleton.mp hk]; exact Nat.one_pos⟩

namespace WellFormed

variable (h : m.WellFormed)

include h

theorem acquire [DecidableEq τ] (hs : m.acquire i ℓ position = some m') : m'.WellFormed := by
  have hjoin := h.seen_lt.acquire (fun k k' hk hk' ℓ => max_lt (hk ℓ) (hk' ℓ)) hs
  obtain ⟨k, -, -, rfl⟩ := of_acquire hs
  exact ⟨h.stamped, hjoin⟩

/-- Nothing is read any more from before what was read. -/
theorem le_seen_acquire [DecidableEq τ] (hs : m.acquire i ℓ position = some m') :
    position ≤ (m'.known i).seen ℓ := by
  obtain ⟨k, hk, -, rfl⟩ := of_acquire hs
  rw [learn_self, Knowledge.join_seen, h.stamped ℓ position k hk]
  exact le_max_right _ _

theorem release [DecidableEq τ] [DecidableEq L] (i : τ) (ℓ : L) : (m.release i ℓ).WellFormed where
  stamped ℓ' position k hk := by
    by_cases hℓ : ℓ' = ℓ
    · subst hℓ
      rw [release_stores_self, List.getElem?_append] at hk
      split_ifs at hk with hlt
      · exact h.stamped ℓ' position k hk
      · obtain ⟨hzero, hlast⟩ := List.getElem?_eq_some_iff.mp hk
        rw [List.length_singleton] at hzero
        rw [List.getElem_singleton] at hlast
        rw [← hlast, released, Knowledge.see_seen_self]
        omega
    · rw [release_stores_of_ne m i hℓ] at hk
      exact h.stamped ℓ' position k hk
  seen_lt := by
    have hgrows : ∀ ℓ', (m.stores ℓ').length ≤ ((m.release i ℓ).stores ℓ').length := by
      intro ℓ'
      by_cases hℓ : ℓ' = ℓ
      · rw [hℓ, release_stores_self, List.length_append]
        exact Nat.le_add_right _ _
      · rw [release_stores_of_ne m i hℓ]
    refine (h.seen_lt.mono fun k hk ℓ' => (hk ℓ').trans_le (hgrows ℓ')).release fun ℓ' => ?_
    by_cases hℓ : ℓ' = ℓ
    · rw [hℓ, released, Knowledge.see_seen_self, release_stores_self, List.length_append]
      exact Nat.lt_succ_self _
    · rw [released, Knowledge.see_seen_of_ne _ _ hℓ]
      exact (h.seen_lt.known i ℓ').trans_le (hgrows ℓ')

theorem seen_le_release [DecidableEq τ] [DecidableEq L] (i j : τ) (ℓ ℓ' : L) :
    (m.known j).seen ℓ' ≤ ((m.release i ℓ).known j).seen ℓ' := by
  by_cases hj : j = i
  · subst hj
    have hknown : (m.release j ℓ).known j = m.released j ℓ := learn_self m j _
    rw [hknown, released]
    by_cases hℓ : ℓ' = ℓ
    · rw [hℓ, Knowledge.see_seen_self]
      exact (h.seen_lt.known j ℓ).le
    · rw [Knowledge.see_seen_of_ne _ _ hℓ]
  · have hknown : (m.release i ℓ).known j = m.known j := learn_of_ne m _ hj
    rw [hknown]

theorem read [DecidableEq τ] [DecidableEq D] (i : τ) (d : D) : (m.read i d).WellFormed :=
  ⟨h.stamped, h.seen_lt.read (h.seen_lt.known i) d⟩

theorem write [DecidableEq τ] [DecidableEq D] (i : τ) (d : D) : (m.write i d).WellFormed :=
  ⟨h.stamped, h.seen_lt.write (h.seen_lt.known i) d⟩

end WellFormed

/-! ### The thread that stores to a location -/

/-- Thread `i` has seen the last store to `ℓ`. -/
def Owns (m : Memory τ L D) (i : τ) (ℓ : L) : Prop := (m.known i).seen ℓ + 1 = (m.stores ℓ).length

namespace Owns

/-- A load of the own location reads the last value. -/
theorem load_eq [DecidableEq τ] [DecidableEq L] (h : m.Owns i ℓ) (hs : m.load i ℓ position = some m') :
    position + 1 = (m.stores ℓ).length ∧ m' = m := by
  obtain ⟨hle, hlt, rfl⟩ := of_load hs
  rw [Owns] at h
  obtain rfl : position = (m.known i).seen ℓ := by omega
  exact ⟨h, by rw [Knowledge.see_self, learn_known]⟩

theorem acquire_last [DecidableEq τ] (h : m.Owns i ℓ) (hs : m.acquire i ℓ position = some m') :
    position + 1 = (m.stores ℓ).length := by
  obtain ⟨k, hk, hle, -⟩ := of_acquire hs
  have hlt := (List.getElem?_eq_some_iff.mp hk).1
  rw [Owns] at h
  omega

theorem acquire [DecidableEq τ] (hw : m.WellFormed) (h : m.Owns i ℓ) (hs : m.acquire j ℓ' position = some m') :
    m'.Owns i ℓ := by
  obtain ⟨k, hk, -, rfl⟩ := of_acquire hs
  have hlt := hw.seen_lt.released ℓ' k (List.mem_of_getElem? hk) ℓ
  rw [Owns] at h
  by_cases hi : i = j
  · subst hi
    rw [Owns, learn_self, Knowledge.join_seen, max_eq_left (by omega)]
    exact h
  · rw [Owns, learn_of_ne m _ hi]
    exact h

theorem release_self [DecidableEq τ] [DecidableEq L] (m : Memory τ L D) (i : τ) (ℓ : L) :
    (m.release i ℓ).Owns i ℓ := by
  have hknown : (m.release i ℓ).known i = m.released i ℓ := learn_self m i _
  rw [Owns, hknown, release_stores_self, released, Knowledge.see_seen_self, List.length_append]
  rfl

theorem release_of_ne [DecidableEq τ] [DecidableEq L] (h : m.Owns i ℓ) (j : τ) (hℓ : ℓ ≠ ℓ') :
    (m.release j ℓ').Owns i ℓ := by
  have hseen : ((m.release j ℓ').known i).seen ℓ = (m.known i).seen ℓ := by
    by_cases hi : i = j
    · subst hi
      exact (congrArg (fun k => k.seen ℓ) (learn_self m i _)).trans (Knowledge.see_seen_of_ne _ _ hℓ)
    · exact congrArg (fun k => k.seen ℓ) (learn_of_ne m _ hi)
  rw [Owns, hseen, release_stores_of_ne m j hℓ]
  exact h

end Owns

/-! ### Accesses to cells -/

section Accesses

variable [DecidableEq τ] [DecidableEq D]

/-- They change nothing about the locations. -/
theorem read_seen (m : Memory τ L D) (i j : τ) (d : D) : ((m.read i d).known j).seen = (m.known j).seen := by
  by_cases hj : j = i
  · subst hj
    have hknown : (m.read j d).known j = (m.known j).count j := learn_self m j _
    rw [hknown]
    rfl
  · have hknown : (m.read i d).known j = m.known j := learn_of_ne m _ hj
    rw [hknown]

theorem write_seen (m : Memory τ L D) (i j : τ) (d : D) : ((m.write i d).known j).seen = (m.known j).seen :=
  m.read_seen i j d

theorem Owns.read (h : m.Owns i ℓ) (j : τ) (d : D) : (m.read j d).Owns i ℓ := by
  rw [Owns, read_seen]
  exact h

theorem Owns.write (h : m.Owns i ℓ) (j : τ) (d : D) : (m.write j d).Owns i ℓ := h.read j d

end Accesses

/-! ### Knowledge grows -/

section Growth

variable [DecidableEq τ] (h : (m.known i).Knows a)

include h

theorem knows_learn (hgrows : (m.known j).Knows a → k.Knows a) : ((m.learn j k).known i).Knows a := by
  by_cases hi : i = j
  · subst hi
    rw [learn_self]
    exact hgrows h
  · rw [learn_of_ne m k hi]
    exact h

theorem knows_acquire (hs : m.acquire j ℓ position = some m') : (m'.known i).Knows a := by
  obtain ⟨k, -, -, rfl⟩ := of_acquire hs
  exact knows_learn h fun hj => Knowledge.knows_join.mpr (.inl hj)

theorem knows_release [DecidableEq L] (j : τ) (ℓ : L) : ((m.release j ℓ).known i).Knows a :=
  knows_learn h fun hj => hj.see ℓ _

theorem knows_read [DecidableEq D] (j : τ) (d : D) : ((m.read j d).known i).Knows a :=
  knows_learn h fun hj => hj.count j

theorem knows_write [DecidableEq D] (j : τ) (d : D) : ((m.write j d).known i).Knows a :=
  knows_learn h fun hj => hj.count j

end Growth

theorem knows_nextAccess_read [DecidableEq τ] [DecidableEq D] (m : Memory τ L D) (i : τ) (d : D) :
    ((m.read i d).known i).Knows (m.nextAccess i) := by
  have hknown : (m.read i d).known i = (m.known i).count i := learn_self m i _
  rw [hknown]
  exact Knowledge.knows_count _ i

theorem knows_nextAccess_write [DecidableEq τ] [DecidableEq D] (m : Memory τ L D) (i : τ) (d : D) :
    ((m.write i d).known i).Knows (m.nextAccess i) := knows_nextAccess_read m i d

/-! ### Message passing

Accesses tagged with numbers, those below the position of a store being known to whoever
has seen that store. -/

/-- Whoever has seen position `n` of `ℓ` knows of the accesses tagged below `n`. -/
def Publishes (m : Memory τ L D) (ℓ : L) (tagged : List (ℕ × Access τ)) : Prop :=
  m.Everywhere fun k : Knowledge τ L => ∀ x ∈ tagged, x.1 < k.seen ℓ → k.Knows x.2

namespace Publishes

variable {tagged : List (ℕ × Access τ)}

theorem nil (m : Memory τ L D) (ℓ : L) : m.Publishes ℓ [] :=
  ⟨fun _ _ hx => (List.not_mem_nil hx).elim, fun _ _ _ _ hx => (List.not_mem_nil hx).elim⟩

theorem acquire [DecidableEq τ] (h : m.Publishes ℓ tagged) (hs : m.acquire i ℓ' position = some m') :
    m'.Publishes ℓ tagged := by
  refine Everywhere.acquire h (fun k k' hk hk' x hx hlt => ?_) hs
  rw [Knowledge.knows_join]
  rcases lt_max_iff.mp hlt with hk₁ | hk₂
  · exact .inl (hk x hx hk₁)
  · exact .inr (hk' x hx hk₂)

/-- The storing thread publishes what it knows of. -/
theorem release [DecidableEq τ] [DecidableEq L] (h : m.Publishes ℓ tagged)
    (hknown : ℓ = ℓ' → ∀ x ∈ tagged, (m.known i).Knows x.2) : (m.release i ℓ').Publishes ℓ tagged := by
  refine Everywhere.release h fun x hx hlt => ?_
  by_cases hℓ : ℓ = ℓ'
  · exact (hknown hℓ x hx).see ℓ' _
  · rw [released, Knowledge.see_seen_of_ne _ _ hℓ] at hlt
    exact (h.known i x hx hlt).see ℓ' _

theorem read [DecidableEq τ] [DecidableEq D] (h : m.Publishes ℓ tagged) (i : τ) (d : D) :
    (m.read i d).Publishes ℓ tagged :=
  Everywhere.read h (fun x hx hlt => (h.known i x hx hlt).count i) d

theorem write [DecidableEq τ] [DecidableEq D] (h : m.Publishes ℓ tagged) (i : τ) (d : D) :
    (m.write i d).Publishes ℓ tagged :=
  Everywhere.write h (fun x hx hlt => (h.known i x hx hlt).count i) d

/-- A tag that no store has reached. -/
theorem tag (h : m.Publishes ℓ tagged) (hw : m.WellFormed) {n : ℕ} (hn : (m.stores ℓ).length ≤ n + 1)
    (a : Access τ) : m.Publishes ℓ (tagged ++ [(n, a)]) := by
  have hall : ∀ k : Knowledge τ L, k.seen ℓ < (m.stores ℓ).length →
      (∀ x ∈ tagged, x.1 < k.seen ℓ → k.Knows x.2) →
        ∀ x ∈ tagged ++ [(n, a)], x.1 < k.seen ℓ → k.Knows x.2 := by
    intro k hseen hk x hx hlt
    rcases List.mem_append.mp hx with hold | hnew
    · exact hk x hold hlt
    · rw [List.mem_singleton.mp hnew] at hlt
      dsimp only at hlt
      omega
  exact ⟨fun i => hall _ (hw.seen_lt.known i ℓ) (h.known i),
    fun ℓ' k hk => hall k (hw.seen_lt.released ℓ' k hk ℓ) (h.released ℓ' k hk)⟩

end Publishes

/-! ### Races -/

section Races

variable [DecidableEq τ] [DecidableEq D]

theorem mem_reads_read (h : a ∈ (m.read i d).reads d') : a ∈ m.reads d' ∨ d' = d ∧ a = m.nextAccess i := by
  by_cases hd : d' = d
  · subst hd
    have hreads : (m.read i d').reads d' = m.reads d' ++ [m.nextAccess i] := Function.update_self d' _ m.reads
    rw [hreads] at h
    rcases List.mem_append.mp h with hold | hnew
    · exact .inl hold
    · exact .inr ⟨rfl, List.mem_singleton.mp hnew⟩
  · have hreads : (m.read i d).reads d' = m.reads d' := Function.update_of_ne hd ..
    rw [hreads] at h
    exact .inl h

theorem mem_writes_write (h : a ∈ (m.write i d).writes d') : a ∈ m.writes d' ∨ d' = d ∧ a = m.nextAccess i := by
  by_cases hd : d' = d
  · subst hd
    have hwrites : (m.write i d').writes d' = m.writes d' ++ [m.nextAccess i] := Function.update_self d' _ m.writes
    rw [hwrites] at h
    rcases List.mem_append.mp h with hold | hnew
    · exact .inl hold
    · exact .inr ⟨rfl, List.mem_singleton.mp hnew⟩
  · have hwrites : (m.write i d).writes d' = m.writes d' := Function.update_of_ne hd ..
    rw [hwrites] at h
    exact .inl h

/-- A read does not race when its thread knows of all writes of the cell. -/
theorem read_raced (h : m.raced = false) (hwrites : ∀ a ∈ m.writes d, (m.known i).Knows a) :
    (m.read i d).raced = false := by
  have hall : ((m.writes d).all fun a => (m.known i).Knows a) = true :=
    List.all_eq_true.mpr fun a ha => decide_eq_true (hwrites a ha)
  rw [Memory.read, h, hall]
  rfl

/-- A write does not race when its thread knows of all accesses of the cell. -/
theorem write_raced (h : m.raced = false) (hreads : ∀ a ∈ m.reads d, (m.known i).Knows a)
    (hwrites : ∀ a ∈ m.writes d, (m.known i).Knows a) : (m.write i d).raced = false := by
  have hall : ((m.reads d ++ m.writes d).all fun a => (m.known i).Knows a) = true := by
    refine List.all_eq_true.mpr fun a ha => decide_eq_true ?_
    rcases List.mem_append.mp ha with hr | hw
    · exact hreads a hr
    · exact hwrites a hw
  rw [Memory.write, h, hall]
  rfl

/-- A cell handed over by a release store and an acquiring load; a relaxed load does not do. -/
example : ((((initial : Memory Bool Unit Unit).write false ()).release false ()).acquire true () 1).map
    (fun m => (m.read true ()).raced) = some false := by decide

example : ((((initial : Memory Bool Unit Unit).write false ()).release false ()).load true () 1).map
    (fun m => (m.read true ()).raced) = some true := by decide

end Races

end Memory

end LatencyLab.HappensBefore
