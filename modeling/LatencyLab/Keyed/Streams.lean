import Mathlib.Data.List.Basic
import Mathlib.Data.List.Nodup

/-! Stores whose keys do not interfere. A message is about one key, and changes
what the store says about that key only. What the store says about a key after a
list of messages is then decided by the messages about it, in their order, and
lists that agree key by key cannot be told apart. -/

namespace LatencyLab.Keyed

variable {S M K V : Type*} [DecidableEq K] {key : M → K}

/-- The messages about one key, in order. -/
def streamOf (key : M → K) (k : K) (ms : List M) : List M := ms.filter fun m => key m = k

/-- The lists interleave the same streams. -/
def SameStreams (key : M → K) (ms ms' : List M) : Prop := ∀ k, streamOf key k ms = streamOf key k ms'

theorem streamOf_cons (k : K) (m : M) (ms : List M) :
    streamOf key k (m :: ms) = if key m = k then m :: streamOf key k ms else streamOf key k ms := by
  by_cases h : key m = k <;> simp [streamOf, h]

theorem streamOf_eq_nil {k : K} {ms : List M} (h : ∀ m ∈ ms, key m ≠ k) : streamOf key k ms = [] := by
  rw [streamOf, List.filter_eq_nil_iff]
  simpa using h

/-- Neighbours about different keys may change places. -/
theorem SameStreams.swap {m m' : M} (h : key m ≠ key m') (before after : List M) :
    SameStreams key (before ++ m :: m' :: after) (before ++ m' :: m :: after) := by
  intro k
  simp only [streamOf, List.filter_append]
  congr 1
  by_cases hm : key m = k
  · have hm' : key m' ≠ k := fun hm' => h (hm.trans hm'.symm)
    simp [hm, hm']
  · simp [List.filter_cons, hm]

/-- Where no two messages are about one key, each is the whole stream of its key. -/
theorem streamOf_of_nodup {ms : List M} (hms : (ms.map key).Nodup) {m : M} (hm : m ∈ ms) :
    streamOf key (key m) ms = [m] := by
  induction ms with
  | nil => simp at hm
  | cons m' ms ih =>
    rw [List.map_cons, List.nodup_cons] at hms
    obtain ⟨hfresh, hms⟩ := hms
    rw [streamOf_cons]
    rcases List.mem_cons.mp hm with rfl | hm
    · rw [if_pos rfl, streamOf_eq_nil]
      intro m' hm' heq
      exact hfresh (heq ▸ List.mem_map_of_mem hm')
    · have hne : key m' ≠ key m := fun heq => hfresh (heq ▸ List.mem_map_of_mem hm)
      rw [if_neg hne, ih hms hm]

/-! ### Regrouping -/

/-- The streams of some keys, one behind the other. -/
def regroup (key : M → K) (ks : List K) (ms : List M) : List M := ks.flatMap fun k => streamOf key k ms

/-- Blocks of messages, each about its own key. -/
theorem streamOf_flatMap {ks : List K} (hks : ks.Nodup) {block : K → List M}
    (hblock : ∀ k, ∀ m ∈ block k, key m = k) (k : K) :
    streamOf key k (ks.flatMap block) = if k ∈ ks then block k else [] := by
  induction ks with
  | nil => rfl
  | cons k' ks ih =>
    rw [List.nodup_cons] at hks
    rw [List.flatMap_cons, streamOf, List.filter_append, ← streamOf, ← streamOf, ih hks.2]
    by_cases hk : k' = k
    · subst hk
      have hall : streamOf key k' (block k') = block k' :=
        List.filter_eq_self.mpr fun m hm => decide_eq_true (hblock k' m hm)
      rw [hall, if_neg hks.1, List.append_nil, if_pos List.mem_cons_self]
    · have hnone : streamOf key k (block k') = [] :=
        streamOf_eq_nil fun m hm he => hk ((hblock k' m hm).symm.trans he)
      simp [hnone, Ne.symm hk]

theorem streamOf_regroup {ks : List K} (hks : ks.Nodup) (k : K) (ms : List M) :
    streamOf key k (regroup key ks ms) = if k ∈ ks then streamOf key k ms else [] :=
  streamOf_flatMap hks (fun _ _ hm => of_decide_eq_true (List.mem_filter.mp hm).2) k

/-- Where the keys are those of the messages, every stream is still there. -/
theorem sameStreams_regroup {ks : List K} (hks : ks.Nodup) {ms : List M} (hall : ∀ m ∈ ms, key m ∈ ks) :
    SameStreams key (regroup key ks ms) ms := by
  intro k
  rw [streamOf_regroup hks]
  split_ifs with hk
  · rfl
  · refine (streamOf_eq_nil fun m hm he => hk ?_).symm
    rw [← he]
    exact hall m hm

/-- Lists of the same streams hold the same messages. -/
theorem SameStreams.perm [DecidableEq M] {ms ms' : List M} (h : SameStreams key ms ms') : ms.Perm ms' := by
  rw [List.perm_iff_count]
  intro m
  have hcount : ∀ l : List M, (streamOf key (key m) l).count m = l.count m :=
    fun l => List.count_filter (decide_eq_true rfl)
  rw [← hcount ms, ← hcount ms', h]

section Independent

variable {look : S → K → V} {step : S → M → S} {react : M → V → V}

/-- A message changes what the store says about its own key, by `react`. -/
def Independent (look : S → K → V) (key : M → K) (step : S → M → S) (react : M → V → V) : Prop :=
  ∀ s m k, look (step s m) k = if k = key m then react m (look s k) else look s k

/-- Each key is a machine of its own, driven by its own stream. -/
theorem Independent.look_foldl (h : Independent look key step react) (ms : List M) (s : S) (k : K) :
    look (ms.foldl step s) k = (streamOf key k ms).foldl (fun v m => react m v) (look s k) := by
  induction ms generalizing s with
  | nil => rfl
  | cons m ms ih =>
    rw [List.foldl_cons, ih, h, streamOf_cons]
    by_cases hk : key m = k
    · rw [if_pos hk.symm, if_pos hk, List.foldl_cons]
    · rw [if_neg (Ne.symm hk), if_neg hk]

/-- Reordering messages about different keys changes nothing. -/
theorem Independent.look_congr (h : Independent look key step react) {ms ms' : List M}
    (hms : SameStreams key ms ms') (s : S) (k : K) : look (ms.foldl step s) k = look (ms'.foldl step s) k := by
  rw [h.look_foldl, h.look_foldl, hms k]

end Independent

end LatencyLab.Keyed
