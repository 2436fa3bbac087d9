import LatencyLab.Keyed.KeyedList
import Mathlib.Data.Finset.Card
import Std.Data.ExtTreeMap

/-! Ordered maps seen through their lookups: the number of entries from the set
of keys, and the first entry in iteration order as the entry of least key. -/

namespace LatencyLab.Keyed

open Std

variable {α β : Type*} {cmp : α → α → Ordering} [TransCmp cmp] [LawfulEqCmp cmp]

theorem keys_nodup (m : ExtTreeMap α β cmp) : m.keys.Nodup := by
  simpa [List.nodup_iff_pairwise_ne] using m.distinct_keys

theorem size_eq_length (m : ExtTreeMap α β cmp) {ks : List α} (hks : ks.Nodup)
    (h : ∀ k, k ∈ m ↔ k ∈ ks) : m.size = ks.length := by
  have hp : m.keys.Perm ks :=
    (List.perm_ext_iff_of_nodup (keys_nodup m) hks).mpr fun k => by rw [ExtTreeMap.mem_keys, h]
  rw [← hp.length_eq, ExtTreeMap.length_keys]

/-- A map with the keys of a keyed list has an entry for each row. -/
theorem size_eq_rows {ρ : Type*} [DecidableEq α] {key : ρ → α} (m : ExtTreeMap α β cmp)
    (r : KeyedList key) (h : ∀ k, m[k]? = none ↔ r.lookup k = none) : m.size = r.rows.length := by
  rw [← List.length_map key]
  refine size_eq_length m r.distinct fun k => ?_
  rw [ExtTreeMap.mem_iff_isSome_getElem?, ← Option.ne_none_iff_isSome, Ne, h, KeyedList.lookup,
    lookup_eq_none_iff, not_not]

theorem size_eq_card (m : ExtTreeMap α β cmp) {s : Finset α} (h : ∀ k, k ∈ m ↔ k ∈ s) :
    m.size = s.card := by
  rw [← Finset.length_toList]
  exact size_eq_length m s.nodup_toList fun k => by rw [h, Finset.mem_toList]

theorem head_toList_eq_none_iff (m : ExtTreeMap α β cmp) :
    m.toList.head? = none ↔ ∀ k, k ∉ m := by
  rw [List.head?_eq_none_iff]
  constructor
  · intro h k hk
    rw [ExtTreeMap.mem_iff_isSome_getElem?, Option.isSome_iff_exists] at hk
    obtain ⟨v, hv⟩ := hk
    rw [← ExtTreeMap.mem_toList_iff_getElem?_eq_some, h] at hv
    simp at hv
  · intro h
    apply List.eq_nil_iff_forall_not_mem.mpr
    rintro ⟨k, v⟩ hkv
    rw [ExtTreeMap.mem_toList_iff_getElem?_eq_some] at hkv
    exact h k (by simp [ExtTreeMap.mem_iff_isSome_getElem?, hkv])

/-- The first entry is stored and no key comes before its key. -/
theorem of_head_toList {m : ExtTreeMap α β cmp} {k : α} {v : β}
    (h : m.toList.head? = some (k, v)) : m[k]? = some v ∧ ∀ k' ∈ m, (cmp k k').isLE := by
  obtain ⟨rest, hl⟩ := List.head?_eq_some_iff.mp h
  have hs := m.ordered_keys_toList
  rw [hl, List.pairwise_cons] at hs
  refine ⟨ExtTreeMap.mem_toList_iff_getElem?_eq_some.mp (by simp [hl]), ?_⟩
  intro k' hk'
  rw [ExtTreeMap.mem_iff_isSome_getElem?, Option.isSome_iff_exists] at hk'
  obtain ⟨v', hv'⟩ := hk'
  rw [← ExtTreeMap.mem_toList_iff_getElem?_eq_some, hl] at hv'
  rcases List.mem_cons.mp hv' with he | hm
  · cases he
    simp [ReflCmp.compare_self]
  · simp [hs.1 _ hm]

omit [LawfulEqCmp cmp] in
theorem mem_congr {R : β → β → Prop} {m m' : ExtTreeMap α β cmp}
    (h : ∀ k : α, Option.Rel R m[k]? m'[k]?) (k : α) : k ∈ m ↔ k ∈ m' := by
  have hk := h k
  rw [ExtTreeMap.mem_iff_isSome_getElem?, ExtTreeMap.mem_iff_isSome_getElem?]
  generalize m[k]? = x, m'[k]? = y at hk
  cases hk with
  | none => rfl
  | some _ => rfl

/-- Maps that agree key by key up to `R` agree in their number of entries. -/
theorem size_congr {R : β → β → Prop} {m m' : ExtTreeMap α β cmp}
    (h : ∀ k : α, Option.Rel R m[k]? m'[k]?) : m.size = m'.size := by
  rw [← ExtTreeMap.length_keys (t := m')]
  exact size_eq_length m (keys_nodup m') fun k => by rw [mem_congr h, ExtTreeMap.mem_keys]

/-- Maps that agree key by key up to `R` agree in their first entries. -/
theorem head_toList_rel {R : β → β → Prop} {m m' : ExtTreeMap α β cmp}
    (h : ∀ k : α, Option.Rel R m[k]? m'[k]?) :
    Option.Rel (fun e e' => e.1 = e'.1 ∧ R e.2 e'.2) m.toList.head? m'.toList.head? := by
  have hmem := mem_congr h
  cases hm : m.toList.head? with
  | none =>
    have hm' : m'.toList.head? = none := by
      rw [head_toList_eq_none_iff] at hm ⊢
      exact fun k hk => hm k ((hmem k).mpr hk)
    rw [hm']
    exact .none
  | some e =>
    obtain ⟨k, v⟩ := e
    obtain ⟨hv, hmin⟩ := of_head_toList hm
    cases hm' : m'.toList.head? with
    | none =>
      have hk : k ∈ m := by simp [ExtTreeMap.mem_iff_isSome_getElem?, hv]
      exact absurd ((hmem k).mp hk) ((head_toList_eq_none_iff m').mp hm' k)
    | some e' =>
      obtain ⟨k', v'⟩ := e'
      obtain ⟨hv', hmin'⟩ := of_head_toList hm'
      have hle : (cmp k k').isLE := hmin k' ((hmem k').mpr (by simp [ExtTreeMap.mem_iff_isSome_getElem?, hv']))
      have hge : (cmp k' k).isLE := hmin' k ((hmem k).mp (by simp [ExtTreeMap.mem_iff_isSome_getElem?, hv]))
      obtain rfl : k = k' := LawfulEqCmp.eq_of_compare (OrientedCmp.isLE_antisymm hle hge)
      have hrel := h k
      rw [hv, hv'] at hrel
      cases hrel with
      | some hr => exact .some ⟨rfl, hr⟩

end LatencyLab.Keyed
