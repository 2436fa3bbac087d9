import Mathlib.Algebra.BigOperators.Group.List.Basic
import Mathlib.Data.List.Nodup
import Mathlib.Tactic.Abel

/-! Lists of records under a key, in order of arrival. A keyed list holds at
most one record of each key. Two operations are enough for a store that keeps
its records in arrival order: `push` appends a record under a fresh key, and
`alter` replaces or removes the record of one key where it stands. -/

namespace LatencyLab.Keyed

variable {α κ : Type*} [DecidableEq κ]

/-! ### Rows: lists before the distinctness invariant -/

section Rows

variable (key : α → κ)

/-- The record of key `k`. -/
def lookup (l : List α) (k : κ) : Option α := l.find? (fun a => key a = k)

/-- Rewrite the record of key `k` in place; `none` removes it. -/
def alter (k : κ) (f : α → Option α) (l : List α) : List α :=
  l.filterMap fun a => if key a = k then f a else some a

/-- `f` leaves the key of the record alone. -/
def Keeps (f : α → Option α) : Prop := ∀ a b, f a = some b → key b = key a

variable {key}

@[simp] theorem lookup_nil (k : κ) : lookup key [] k = none := rfl

theorem lookup_cons (a : α) (l : List α) (k : κ) :
    lookup key (a :: l) k = if key a = k then some a else lookup key l k := by
  by_cases h : key a = k <;> simp [lookup, h]

theorem lookup_eq_none_iff {l : List α} {k : κ} : lookup key l k = none ↔ k ∉ l.map key := by
  simp [lookup]

theorem lookup_append (l₁ l₂ : List α) (k : κ) :
    lookup key (l₁ ++ l₂) k = (lookup key l₁ k).or (lookup key l₂ k) := by
  simp [lookup, List.find?_append]

theorem mem_of_lookup {l : List α} {k : κ} {a : α} (h : lookup key l k = some a) :
    a ∈ l ∧ key a = k := by
  have := List.find?_some h
  exact ⟨List.mem_of_find?_eq_some h, by simpa using this⟩

theorem lookup_eq_some_iff {l : List α} (hl : (l.map key).Nodup) {k : κ} {a : α} :
    lookup key l k = some a ↔ a ∈ l ∧ key a = k := by
  constructor
  · exact mem_of_lookup
  · rintro ⟨ha, rfl⟩
    induction l with
    | nil => simp at ha
    | cons b l ih =>
      rw [List.map_cons, List.nodup_cons] at hl
      rw [lookup_cons]
      rcases List.mem_cons.mp ha with rfl | ha
      · simp
      · have hne : key b ≠ key a := fun e => hl.1 (e ▸ List.mem_map_of_mem ha)
        simpa [hne] using ih hl.2 ha

@[simp] theorem alter_nil (k : κ) (f : α → Option α) : alter key k f [] = [] := rfl

theorem alter_cons (k : κ) (f : α → Option α) (a : α) (l : List α) :
    alter key k f (a :: l) =
      if key a = k then (f a).toList ++ alter key k f l else a :: alter key k f l := by
  by_cases h : key a = k
  · cases hf : f a <;> simp [alter, h, hf]
  · simp [alter, h]

/-- Without a record of the key there is nothing to alter. -/
theorem alter_of_not_mem {l : List α} {k : κ} (f : α → Option α) (h : k ∉ l.map key) :
    alter key k f l = l := by
  induction l with
  | nil => rfl
  | cons a l ih =>
    rw [List.map_cons, List.mem_cons, not_or] at h
    rw [alter_cons, if_neg (Ne.symm h.1), ih h.2]

theorem alter_append (k : κ) (f : α → Option α) (l₁ l₂ : List α) :
    alter key k f (l₁ ++ l₂) = alter key k f l₁ ++ alter key k f l₂ := List.filterMap_append

/-- Alterations of different keys commute. -/
theorem alter_comm {k k' : κ} (hk : k ≠ k') {f f' : α → Option α} (hf : Keeps key f)
    (hf' : Keeps key f') (l : List α) :
    alter key k f (alter key k' f' l) = alter key k' f' (alter key k f l) := by
  induction l with
  | nil => rfl
  | cons a l ih =>
    rw [alter_cons, alter_cons]
    by_cases ha' : key a = k'
    · have ha : key a ≠ k := fun ha => hk (ha.symm.trans ha')
      rw [if_pos ha', if_neg ha, alter_cons, if_pos ha', alter_append, ih]
      congr 1
      cases hb : f' a with
      | none => rfl
      | some b =>
        have hkey : key b ≠ k := by rwa [hf' a b hb]
        simp [alter_cons, hkey]
    · rw [if_neg ha', alter_cons]
      split_ifs with ha
      · rw [alter_append, ih]
        congr 1
        cases hb : f a with
        | none => rfl
        | some b =>
          have hkey : key b ≠ k' := by rwa [hf a b hb]
          simp [alter_cons, hkey]
      · rw [alter_cons, if_neg ha', ih]

theorem mem_alter {l : List α} {k : κ} {f : α → Option α} {b : α} :
    b ∈ alter key k f l ↔ (b ∈ l ∧ key b ≠ k) ∨ ∃ a ∈ l, key a = k ∧ f a = some b := by
  simp only [alter, List.mem_filterMap]
  constructor
  · rintro ⟨a, ha, h⟩
    split_ifs at h with hk
    · exact .inr ⟨a, ha, hk, h⟩
    · cases h
      exact .inl ⟨ha, hk⟩
  · rintro (⟨hb, hk⟩ | ⟨a, ha, hk, h⟩)
    · exact ⟨b, hb, by simp [hk]⟩
    · exact ⟨a, ha, by simp [hk, h]⟩

theorem map_key_alter_sublist {k : κ} {f : α → Option α} (hf : Keeps key f) (l : List α) :
    ((alter key k f l).map key).Sublist (l.map key) := by
  induction l with
  | nil => simp
  | cons a l ih =>
    rw [alter_cons]
    split_ifs with hk
    · cases h : f a with
      | none => exact ih.trans (List.sublist_cons_self _ _)
      | some b => simpa [hf a b h] using ih
    · simpa using ih

theorem lookup_alter {l : List α} (hl : (l.map key).Nodup) {k : κ} {f : α → Option α}
    (hf : Keeps key f) (k' : κ) :
    lookup key (alter key k f l) k' = if k' = k then (lookup key l k).bind f else lookup key l k' := by
  have hl' := hl.sublist (map_key_alter_sublist (k := k) hf l)
  apply Option.ext
  intro b
  rw [lookup_eq_some_iff hl', mem_alter]
  split_ifs with hk
  · subst hk
    simp only [Option.bind_eq_some_iff, lookup_eq_some_iff hl]
    constructor
    · rintro ⟨⟨_, hne⟩ | ⟨a, ha, hka, hfa⟩, hkb⟩
      · exact absurd hkb hne
      · exact ⟨a, ⟨ha, hka⟩, hfa⟩
    · rintro ⟨a, ⟨ha, hka⟩, hfa⟩
      exact ⟨.inr ⟨a, ha, hka, hfa⟩, (hf a b hfa).trans hka⟩
  · rw [lookup_eq_some_iff hl]
    constructor
    · rintro ⟨⟨hb, _⟩ | ⟨a, _, hka, hfa⟩, hkb⟩
      · exact ⟨hb, hkb⟩
      · exact absurd (hkb.symm.trans ((hf a b hfa).trans hka)) hk
    · rintro ⟨hb, rfl⟩
      exact ⟨.inl ⟨hb, hk⟩, rfl⟩

/-- A selection that `f` cannot change commutes with altering. -/
theorem filter_alter (p : α → Bool) {k : κ} {f : α → Option α}
    (hp : ∀ a b, f a = some b → p b = p a) (l : List α) :
    (alter key k f l).filter p = alter key k f (l.filter p) := by
  induction l with
  | nil => rfl
  | cons a l ih =>
    rw [alter_cons]
    by_cases hk : key a = k
    · cases h : f a with
      | none => cases hpa : p a <;> simp [alter_cons, hk, h, hpa, ih]
      | some b => cases hpa : p a <;> simp [alter_cons, hk, h, hp a b h, hpa, ih]
    · cases hpa : p a <;> simp [alter_cons, hk, hpa, ih]

/-- Replacing the record of a key keeps the sequence of keys. -/
theorem map_key_replace {k : κ} {f : α → Option α} (hf : Keeps key f)
    (hs : ∀ a, (f a).isSome) (l : List α) : (alter key k f l).map key = l.map key := by
  induction l with
  | nil => rfl
  | cons a l ih =>
    obtain ⟨b, hb⟩ := Option.isSome_iff_exists.mp (hs a)
    rw [alter_cons]
    split_ifs <;> simp [hb, ih, hf a b hb]

/-- Removing the record of a key removes that key and no other. -/
theorem map_key_remove {l : List α} (hl : (l.map key).Nodup) (k : κ) :
    (alter key k (fun _ => none) l).map key = (l.map key).erase k := by
  induction l with
  | nil => rfl
  | cons a l ih =>
    rw [List.map_cons, List.nodup_cons] at hl
    rw [alter_cons, List.map_cons, List.erase_cons]
    by_cases hk : key a = k
    · subst hk
      simp [alter_of_not_mem _ hl.1]
    · simp [hk, ih hl.2]

theorem length_alter {l : List α} (hl : (l.map key).Nodup) {k : κ} {f : α → Option α} {a : α}
    (ha : lookup key l k = some a) :
    (alter key k f l).length + 1 = l.length + (f a).toList.length := by
  induction l with
  | nil => simp at ha
  | cons b l ih =>
    rw [List.map_cons, List.nodup_cons] at hl
    rw [lookup_cons] at ha
    rw [alter_cons]
    split_ifs at ha ⊢ with hk
    · cases ha
      rw [alter_of_not_mem f (hk ▸ hl.1)]
      simp; omega
    · have := ih hl.2 ha
      simp; omega

/-- A weight summed over the records changes by the weight of the one record altered. -/
theorem sum_alter {M : Type*} [AddCommGroup M] (w : α → M) {l : List α} (hl : (l.map key).Nodup)
    {k : κ} {f : α → Option α} {a : α} (ha : lookup key l k = some a) :
    ((alter key k f l).map w).sum = (l.map w).sum - w a + ((f a).map w).getD 0 := by
  induction l with
  | nil => simp at ha
  | cons b l ih =>
    rw [List.map_cons, List.nodup_cons] at hl
    rw [lookup_cons] at ha
    rw [alter_cons]
    split_ifs at ha ⊢ with hk
    · cases ha
      rw [alter_of_not_mem f (hk ▸ hl.1)]
      cases f a <;> simp
      abel
    · simp [ih hl.2 ha]
      abel

end Rows

/-! ### Keyed lists -/

/-- Records in arrival order with pairwise distinct keys. -/
@[ext] structure KeyedList (key : α → κ) where
  rows : List α
  distinct : (rows.map key).Nodup

namespace KeyedList

variable {key : α → κ}

def empty : KeyedList key := ⟨[], List.nodup_nil⟩

def lookup (r : KeyedList key) (k : κ) : Option α := Keyed.lookup key r.rows k

/-- Append a record whose key is not in use. -/
def push (r : KeyedList key) (a : α) (h : r.lookup (key a) = none) : KeyedList key where
  rows := r.rows ++ [a]
  distinct := by
    rw [List.map_append, List.nodup_append]
    refine ⟨r.distinct, by simp, ?_⟩
    intro x hx y hy
    rw [List.map_singleton, List.mem_singleton] at hy
    subst hy
    exact fun e => lookup_eq_none_iff.mp h (e ▸ hx)

/-- Rewrite or remove the record of key `k`. -/
def alter (r : KeyedList key) (k : κ) (f : α → Option α) (hf : Keeps key f) : KeyedList key where
  rows := Keyed.alter key k f r.rows
  distinct := r.distinct.sublist (map_key_alter_sublist hf r.rows)

omit [DecidableEq κ] in
@[simp] theorem rows_empty : (empty : KeyedList key).rows = [] := rfl

@[simp] theorem lookup_empty (k : κ) : (empty : KeyedList key).lookup k = none := rfl

@[simp] theorem rows_push (r : KeyedList key) (a : α) (h) : (r.push a h).rows = r.rows ++ [a] := rfl

@[simp] theorem rows_alter (r : KeyedList key) (k : κ) (f : α → Option α) (hf : Keeps key f) :
    (r.alter k f hf).rows = Keyed.alter key k f r.rows := rfl

theorem lookup_eq_some (r : KeyedList key) {k : κ} {a : α} :
    r.lookup k = some a ↔ a ∈ r.rows ∧ key a = k := lookup_eq_some_iff r.distinct

theorem lookup_push (r : KeyedList key) (a : α) (h) (k : κ) :
    (r.push a h).lookup k = if k = key a then some a else r.lookup k := by
  rw [lookup, rows_push, lookup_append, Keyed.lookup_cons]
  by_cases hk : k = key a
  · subst hk
    rw [lookup] at h
    simp [h]
  · simp [hk, Ne.symm hk, lookup]

@[simp] theorem lookup_alter (r : KeyedList key) (k : κ) (f : α → Option α) (hf : Keeps key f) (k' : κ) :
    (r.alter k f hf).lookup k' = if k' = k then (r.lookup k).bind f else r.lookup k' :=
  Keyed.lookup_alter r.distinct hf k'

/-- Lists with the same lookups hold the same records. -/
theorem perm_of_lookup {r r' : KeyedList key} (h : ∀ k, r.lookup k = r'.lookup k) :
    r.rows.Perm r'.rows := by
  refine (List.perm_ext_iff_of_nodup (.of_map _ r.distinct) (.of_map _ r'.distinct)).mpr fun a => ?_
  have hr := r.lookup_eq_some (k := key a) (a := a)
  have hr' := r'.lookup_eq_some (k := key a) (a := a)
  rw [h] at hr
  simpa using hr.symm.trans hr'

end KeyedList

end LatencyLab.Keyed
