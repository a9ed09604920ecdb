import Mathlib

/-!
# Binary numerals

Numbers as lists of bits, the least significant first.
-/

namespace FsimRuntime.BinaryNumeral
open List

def number : List Bool → ℕ
  | [] => 0
  | bit :: bits => bit.toNat + 2 * number bits

def twosComplement (bits : List Bool) : ℤ :=
  if bits.getLastD false then number bits - 2 ^ bits.length else number bits

theorem number_lt (bits : List Bool) : number bits < 2 ^ bits.length := by
  induction bits with
  | nil => simp [number]
  | cons bit bits ih =>
    have := bit.toNat_le
    simp only [number, length_cons]
    omega

theorem number_testBits (width n : ℕ) : number ((range width).map n.testBit) = n % 2 ^ width := by
  induction width generalizing n with
  | zero => simp [number, Nat.mod_one]
  | succ width ih =>
    have ht : (range width).map (n.testBit ∘ Nat.succ) =
        (range width).map (n / 2).testBit :=
      map_congr_left fun i _ => Nat.testBit_succ n i
    rw [range_succ_eq_map, map_cons, map_map, number, ht, ih, Nat.pow_succ', Nat.mod_mul]
    rcases Nat.mod_two_eq_zero_or_one n with h | h <;> simp [h]

theorem number_append (low high : List Bool) :
    number (low ++ high) = number low + 2 ^ low.length * number high := by
  induction low with
  | nil => simp [number]
  | cons bit low ih =>
    simp only [cons_append, number, ih, length_cons]
    ring

/-- The last bit says whether the number reaches half of its range. -/
theorem getLastD_iff (bits : List Bool) :
    bits.getLastD false = true ↔ 2 ^ bits.length ≤ 2 * number bits := by
  rcases eq_nil_or_concat bits with rfl | ⟨low, bit, rfl⟩
  · simp [number]
  · have := number_lt low
    simp only [concat_eq_append, getLastD_concat, number_append]
    cases bit <;> simp [number] <;> omega

theorem twosComplement_mem (bits : List Bool) :
    -2 ^ bits.length ≤ 2 * twosComplement bits ∧ 2 * twosComplement bits < 2 ^ bits.length := by
  have hlt := number_lt bits
  have hl := getLastD_iff bits
  zify at hlt hl
  rw [twosComplement]
  split_ifs with h
  · have := hl.mp h
    omega
  · have := mt hl.mpr h
    omega

theorem twosComplement_testBits {width n : ℕ} {value : ℤ} (hlo : -2 ^ width ≤ 2 * value)
    (hh : 2 * value < 2 ^ width) (hn : (n : ℤ) % 2 ^ width = value % 2 ^ width) :
    twosComplement ((range width).map n.testBit) = value := by
  have hnu : (number ((range width).map n.testBit) : ℤ) = value % 2 ^ width := by
    rw [number_testBits]
    norm_cast
  have hl := getLastD_iff ((range width).map n.testBit)
  rw [length_map, length_range] at hl
  rw [twosComplement, length_map, length_range]
  rcases lt_or_ge value 0 with hv | hv
  · rw [← Int.add_emod_right, Int.emod_eq_of_lt (by omega) (by omega)] at hnu
    rw [if_pos (hl.mpr (by zify; omega))]
    omega
  · rw [Int.emod_eq_of_lt hv (by omega)] at hnu
    rw [if_neg (mt hl.mp (by zify; omega)), hnu]

end FsimRuntime.BinaryNumeral
