import LatencyLab.Market.Generator
import LatencyLab.Numeric.Congruential
import Mathlib.Data.List.Count

/-! The sides of a generated stream. A message draws four numbers and takes its side
from bit 16 of the seed after the third. That bit changes after `2 ^ 16` draws, which
are 16384 messages, so the sides repeat after twice as many, and each such window
holds as many buys as sells. -/

namespace LatencyLab

open Congruential

namespace MarketDataGenerator

/-! ### Seeds -/

/-- The seed after one draw. -/
def nextSeed (seed : UInt64) : UInt64 := 1664525 * seed + 1013904223

theorem toNat_nextSeed (seed : UInt64) :
    (nextSeed seed).toNat ≡ advance 1664525 1013904223 seed.toNat [MOD 2 ^ 64] := by
  rw [nextSeed, UInt64.toNat_add, UInt64.toNat_mul, advance]
  exact (Nat.mod_modEq _ _).trans ((Nat.mod_modEq _ _).add_right _)

/-- Bit 16 of the seed after `n` draws. -/
def drawnBit (seed : UInt64) (n : ℕ) : Bool := (nextSeed^[n] seed).toNat.testBit 16

theorem drawnBit_add (seed : UInt64) (n : ℕ) : drawnBit seed (n + 2 ^ 16) = !drawnBit seed n := by
  rw [drawnBit, drawnBit, Nat.add_comm, Function.iterate_add_apply,
    testBit_congr (iterate_modEq toNat_nextSeed (2 ^ 16) _) (show 16 < 64 by decide)]
  exact testBit_iterate_two_pow rfl rfl 16 _

/-! ### Sides -/

def sideOf : Bool → Side
  | false => .buy
  | true => .sell

theorem sideOf_injective : Function.Injective sideOf := by
  intro b b' h
  cases b <;> cases b' <;> first | rfl | cases h

/-- The third draw of a message, bounded by 2. -/
theorem side_eq (seed : UInt64) :
    (if (seed >>> 16) % 2 = 0 then Side.buy else Side.sell) = sideOf (seed.toNat.testBit 16) := by
  have hvalue : ((seed >>> 16) % 2).toNat = seed.toNat / 2 ^ 16 % 2 := by
    rw [UInt64.toNat_mod, UInt64.toNat_shiftRight, Nat.shiftRight_eq_div_pow]
    rfl
  have hzero : (seed >>> 16) % 2 = 0 ↔ seed.toNat / 2 ^ 16 % 2 = 0 := by
    rw [← hvalue, ← UInt64.toNat_inj]
    rfl
  rw [Nat.testBit_eq_decide_div_mod_eq]
  split_ifs with h
  · rw [hzero.mp h]
    rfl
  · rw [Nat.mod_two_ne_zero.mp (mt hzero.mpr h)]
    rfl

/-- The bit that decides the side of message `i` of a call that starts from `seed`. -/
def messageBit (seed : UInt64) (i : ℕ) : Bool := drawnBit seed (4 * i + 3)

/-- After 16384 messages the bit has changed. -/
theorem messageBit_add (seed : UInt64) (i : ℕ) : messageBit seed (i + 16384) = !messageBit seed i := by
  have hdraws : 4 * (i + 16384) + 3 = 4 * i + 3 + 2 ^ 16 := by ring
  rw [messageBit, hdraws, drawnBit_add, messageBit]

def sideAt (seed : UInt64) (i : ℕ) : Side := sideOf (messageBit seed i)

theorem sideAt_add (seed : UInt64) (i : ℕ) : sideAt seed (i + 32768) = sideAt seed i :=
  congrArg sideOf (repeats (messageBit_add seed) i)

theorem generateOne_side (g : MarketDataGenerator) (i now : UInt64) :
    ∃ msg, (g.generateOne i now).messages_ = g.messages_ ++ [msg] ∧
      (g.generateOne i now).seed_ = nextSeed^[4] g.seed_ ∧ msg.side = sideOf (drawnBit g.seed_ 3) :=
  ⟨_, rfl, rfl, side_eq _⟩

/-- The first `k` messages of a call, and the draws they took. -/
theorem sides_range (g : MarketDataGenerator) (clock : ℕ → UInt64) (k : ℕ) :
    ∃ batch, ((List.range k).foldl (fun g i => g.generateOne (UInt64.ofNat i) (clock i)) g).messages_ =
        g.messages_ ++ batch ∧
      ((List.range k).foldl (fun g i => g.generateOne (UInt64.ofNat i) (clock i)) g).seed_ =
        nextSeed^[4 * k] g.seed_ ∧
      batch.map MarketMessage.side = (List.range k).map (sideAt g.seed_) := by
  induction k with
  | zero => exact ⟨[], (List.append_nil _).symm, rfl, rfl⟩
  | succ k ih =>
    obtain ⟨batch, hmessages, hseed, hsides⟩ := ih
    rw [List.range_succ, List.foldl_append, List.foldl_cons, List.foldl_nil]
    obtain ⟨msg, hmessages', hseed', hside⟩ := generateOne_side
      ((List.range k).foldl (fun g i => g.generateOne (UInt64.ofNat i) (clock i)) g) (UInt64.ofNat k) (clock k)
    refine ⟨batch ++ [msg], ?_, ?_, ?_⟩
    · rw [hmessages', hmessages, List.append_assoc]
    · rw [hseed', hseed, ← Function.iterate_add_apply]
      congr 1
      omega
    · rw [List.map_append, List.map_append, hsides, List.map_singleton, List.map_singleton, hside, hseed,
        drawnBit, ← Function.iterate_add_apply, sideAt, messageBit, drawnBit, Nat.add_comm 3]

theorem sides_generate (g : MarketDataGenerator) (clock : ℕ → UInt64) :
    ∃ batch, (g.generate clock).messages_ = g.messages_ ++ batch ∧
      batch.map MarketMessage.side = (List.range g.numMessages_.toNat).map (sideAt g.seed_) := by
  obtain ⟨batch, hmessages, -, hsides⟩ := sides_range g clock g.numMessages_.toNat
  exact ⟨batch, hmessages, hsides⟩

end MarketDataGenerator

/-! ### Balance -/

/-- Every window of 32768 sides is balanced, and the sides repeat after as many. -/
structure BalancedSides (sides : List Side) : Prop where
  buy : ∀ i, i + 32768 ≤ sides.length → ((sides.drop i).take 32768).count .buy = 16384
  sell : ∀ i, i + 32768 ≤ sides.length → ((sides.drop i).take 32768).count .sell = 16384
  repeats : ∀ i, i + 32768 < sides.length → sides[i + 32768]? = sides[i]?

namespace BalancedSides

open MarketDataGenerator

theorem count_window (seed : UInt64) {i n : ℕ} (hi : i + 32768 ≤ n) (b : Bool) :
    ((((List.range n).map (sideAt seed)).drop i).take 32768).count (sideOf b) = 16384 := by
  have hcount := Congruential.count_window (messageBit_add seed) i b
  rw [← List.count_map_of_injective _ _ sideOf_injective, List.map_map] at hcount
  rw [window _ hi]
  exact hcount

theorem range (seed : UInt64) (n : ℕ) : BalancedSides ((List.range n).map (sideAt seed)) := by
  refine ⟨fun i hi => ?_, fun i hi => ?_, fun i hi => ?_⟩
  · rw [List.length_map, List.length_range] at hi
    exact count_window seed hi false
  · rw [List.length_map, List.length_range] at hi
    exact count_window seed hi true
  · rw [List.length_map, List.length_range] at hi
    rw [List.getElem?_map, List.getElem?_map, List.getElem?_range hi, List.getElem?_range (by omega),
      Option.map_some, Option.map_some, sideAt_add]

end BalancedSides

/-- One call of `generate`, from any seed: the messages that it appends are as many as
it was asked for, and their sides are balanced. -/
theorem balancedSides_generate (g : MarketDataGenerator) (clock : ℕ → UInt64) :
    ∃ batch, (g.generate clock).messages_ = g.messages_ ++ batch ∧ batch.length = g.numMessages_.toNat ∧
      BalancedSides (batch.map MarketMessage.side) := by
  obtain ⟨batch, hmessages, hsides⟩ := g.sides_generate clock
  have hlength := congrArg List.length hsides
  rw [List.length_map, List.length_map, List.length_range] at hlength
  refine ⟨batch, hmessages, hlength, ?_⟩
  rw [hsides]
  exact BalancedSides.range g.seed_ _

end LatencyLab
