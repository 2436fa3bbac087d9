import LatencyLab.Market.GeneratedFeed
import LatencyLab.Market.Sides

/-! The seeds that a generator leaves behind. A draw moves the seed through a cycle of
all `2 ^ 64` values, and a message takes four draws. Between messages stand therefore
the seeds that agree with the first one modulo 4, and all of them: a stream comes back
to a seed after `2 ^ 62` messages, in however many calls, and not before. -/

namespace LatencyLab

open Congruential

namespace MarketDataGenerator

variable (g : MarketDataGenerator)

/-! ### Draws of whole calls -/

theorem generate_seed (clock : ℕ → UInt64) :
    (g.generate clock).seed_ = nextSeed^[4 * g.numMessages_.toNat] g.seed_ := by
  obtain ⟨-, -, hseed, -⟩ := g.sides_range clock g.numMessages_.toNat
  exact hseed

theorem generate_numMessages (clock : ℕ → UInt64) : (g.generate clock).numMessages_ = g.numMessages_ := by
  obtain ⟨_, hbatch⟩ := Batch.generate g clock
  exact hbatch.numMessages

theorem generateAll_seed (clocks : List (ℕ → UInt64)) :
    (g.generateAll clocks).seed_ = nextSeed^[4 * (clocks.length * g.numMessages_.toNat)] g.seed_ := by
  induction clocks generalizing g with
  | nil => rw [List.length_nil, Nat.zero_mul, Nat.mul_zero, generateAll, List.foldl_nil, Function.iterate_zero_apply]
  | cons clock clocks ih =>
    have hcalls : (g.generateAll (clock :: clocks)).seed_ = ((g.generate clock).generateAll clocks).seed_ := rfl
    rw [hcalls, ih, generate_numMessages, generate_seed, ← Function.iterate_add_apply, List.length_cons]
    congr 1
    ring

/-! ### The cycle -/

theorem iterate_nextSeed_eq_iff (seed : UInt64) (i j : ℕ) :
    nextSeed^[4 * i] seed = nextSeed^[4 * j] seed ↔ i ≡ j [MOD 2 ^ 62] := by
  rw [register_eq_iff rfl rfl toNat_nextSeed UInt64.toNat_lt (fun _ _ => UInt64.toNat_inj.mp)]
  exact Nat.ModEq.mul_left_cancel_iff' (c := 4) (m := 2 ^ 62) (by decide)

theorem existsUnique_message (seed seed' : UInt64) :
    (∃! i, i < 2 ^ 62 ∧ nextSeed^[4 * i] seed = seed') ↔ seed' % 4 = seed % 4 := by
  rw [← UInt64.toNat_inj, UInt64.toNat_mod, UInt64.toNat_mod]
  exact existsUnique_stride rfl rfl toNat_nextSeed UInt64.toNat_lt (fun _ _ => UInt64.toNat_inj.mp)
    (show 64 = 2 + 62 by rfl) seed seed'

theorem iterate_nextSeed_mod (seed : UInt64) (i : ℕ) : nextSeed^[4 * i] seed % 4 = seed % 4 := by
  rw [← UInt64.toNat_inj, UInt64.toNat_mod, UInt64.toNat_mod]
  exact (register_modEq_iff rfl rfl toNat_nextSeed (show 2 ≤ 64 by decide) seed (4 * i) 0).mpr
    (Nat.mul_mod_right 4 i)

end MarketDataGenerator

/-- The seeds that calls of `generate` on `g` leave. -/
structure SeedCycle (g : MarketDataGenerator) : Prop where
  /-- Two streams leave one seed exactly when their lengths agree modulo `2 ^ 62`. -/
  repeats : ∀ clocks clocks' : List (ℕ → UInt64), (g.generateAll clocks).seed_ = (g.generateAll clocks').seed_ ↔
    clocks.length * g.numMessages_.toNat ≡ clocks'.length * g.numMessages_.toNat [MOD 2 ^ 62]
  kept : ∀ clocks : List (ℕ → UInt64), (g.generateAll clocks).seed_ % 4 = g.seed_ % 4
  /-- Every seed that agrees modulo 4 is left by a call, of one length below `2 ^ 62`. -/
  reached : ∀ (clock : ℕ → UInt64) (seed : UInt64), seed % 4 = g.seed_ % 4 →
    ∃! n : UInt64, n.toNat < 2 ^ 62 ∧ ({ g with numMessages_ := n }.generate clock).seed_ = seed

theorem seedCycle (g : MarketDataGenerator) : SeedCycle g where
  repeats clocks clocks' := by
    rw [g.generateAll_seed, g.generateAll_seed]
    exact MarketDataGenerator.iterate_nextSeed_eq_iff g.seed_ _ _
  kept clocks := by
    rw [g.generateAll_seed]
    exact MarketDataGenerator.iterate_nextSeed_mod g.seed_ _
  reached clock seed h := by
    obtain ⟨i, ⟨hi, hseed⟩, hunique⟩ := (MarketDataGenerator.existsUnique_message g.seed_ seed).mpr h
    have hcount : (UInt64.ofNat i).toNat = i := UInt64.toNat_ofNat_of_lt' (show i < 2 ^ 64 by omega)
    refine ⟨UInt64.ofNat i, ⟨?_, ?_⟩, ?_⟩
    · rwa [hcount]
    · rw [MarketDataGenerator.generate_seed]
      show MarketDataGenerator.nextSeed^[4 * (UInt64.ofNat i).toNat] g.seed_ = seed
      rw [hcount, hseed]
    · rintro n ⟨hn, heq⟩
      rw [MarketDataGenerator.generate_seed] at heq
      rw [← hunique n.toNat ⟨hn, heq⟩, UInt64.ofNat_toNat]

end LatencyLab
