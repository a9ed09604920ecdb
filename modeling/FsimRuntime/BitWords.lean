import Mathlib

/-!
# Bit strings in 64-bit words

A bit string is a list of words, the low bit of the first word first. A
position past the last word reads as zero, so two strings of one length are
equal when they have the same bits.
-/

namespace FsimRuntime.BitWords
open BitVec List

def bit (words : List (BitVec 64)) (index : ℕ) : Bool :=
  (words.getD (index / 64) 0).getLsbD (index % 64)

@[simp] theorem bit_nil (index : ℕ) : bit [] index = false := by simp [bit]

variable {words : List (BitVec 64)} {j : ℕ} {s t : List (BitVec 64)} {i : ℕ}

theorem bit_of_le {index : ℕ} (h : words.length * 64 ≤ index) : bit words index = false := by
  have : words.length ≤ index / 64 := by omega
  simp [bit, this]

theorem getLsbD_word (words : List (BitVec 64)) (w : ℕ) (h : j < 64) :
    (words.getD w 0).getLsbD j = bit words (w * 64 + j) := by
  have hq : (w * 64 + j) / 64 = w := by omega
  have hr : (w * 64 + j) % 64 = j := by omega
  rw [bit, hq, hr]

theorem ext_bits (hl : s.length = t.length) (h : ∀ i, bit s i = bit t i) : s = t := by
  refine ext_getElem hl fun w hs ht => ?_
  refine eq_of_getLsbD_eq fun j hj => ?_
  have := h (w * 64 + j)
  rw [← getLsbD_word s w hj, ← getLsbD_word t w hj] at this
  simpa [hs, ht] using this

theorem bit_set {word : ℕ} (h : word < words.length) (value : BitVec 64) (i : ℕ) :
    bit (words.set word value) i = if i / 64 = word then value.getLsbD (i % 64)
      else bit words i := by
  by_cases hi : i / 64 = word
  · subst hi
    simp [bit, h]
  · simp [bit, hi, Ne.symm hi]

theorem bit_map {f : BitVec 64 → BitVec 64} {g : Bool → Bool}
    (hf : ∀ w : BitVec 64, ∀ j < 64, (f w).getLsbD j = g (w.getLsbD j))
    (h : i < words.length * 64) :
    bit (words.map f) i = g (bit words i) := by
  have hi : i / 64 < words.length := by omega
  simp [bit, hi, hf _ _ (Nat.mod_lt i (by omega))]

theorem bit_zipWith {f : BitVec 64 → BitVec 64 → BitVec 64} {g : Bool → Bool → Bool}
    (hf : ∀ v w : BitVec 64, ∀ j < 64, (f v w).getLsbD j = g (v.getLsbD j) (w.getLsbD j))
    (hl : s.length = t.length) (h : i < s.length * 64) :
    bit (zipWith f s t) i = g (bit s i) (bit t i) := by
  have hs : i / 64 < s.length := by omega
  have ht : i / 64 < t.length := by omega
  have hz : i / 64 < (List.zipWith f s t).length := by rw [List.length_zipWith]; omega
  simp only [bit, List.getD_eq_getElem?_getD, List.getElem?_eq_getElem, hs, ht, hz,
    List.getElem_zipWith]
  exact hf _ _ _ (Nat.mod_lt i (by omega))

theorem bit_replicate (count : ℕ) (value : BitVec 64) (i : ℕ) :
    bit (List.replicate count value) i = (decide (i < count * 64) && value.getLsbD (i % 64)) := by
  by_cases h : i < count * 64
  · have : i / 64 < count := by omega
    simp [bit, h, this]
  · rw [bit_of_le (by simpa using h)]
    simp [h]

def lowBits (n : ℕ) : BitVec 64 := BitVec.ofNat 64 (2 ^ n - 1)

@[simp] theorem getLsbD_lowBits (n j : ℕ) :
    (lowBits n).getLsbD j = (decide (j < 64) && decide (j < n)) := by
  rw [lowBits, getLsbD_ofNat, Nat.testBit_two_pow_sub_one]

theorem shiftLeft_sub_one {n : ℕ} : (1#64 <<< n) - 1#64 = lowBits n := by
  apply eq_of_toNat_eq
  have hp : 0 < 2 ^ n := Nat.two_pow_pos n
  simp only [lowBits, toNat_sub, toNat_shiftLeft, toNat_ofNat]
  omega

theorem getLsbD_merge (old new m : BitVec 64) (h : j < 64) :
    ((old &&& ~~~m) ||| (new &&& m)).getLsbD j =
      if m.getLsbD j then new.getLsbD j else old.getLsbD j := by
  rw [getLsbD_or, getLsbD_and, getLsbD_and, getLsbD_not]
  cases m.getLsbD j <;> simp [h]

theorem not_zero_eq : ~~~(0#64) = lowBits 64 := by decide

def editWords (f : ℕ → BitVec 64 → BitVec 64) (first count : ℕ) (words : List (BitVec 64)) :
    List (BitVec 64) :=
  (range' first count).foldl (fun words word => words.set word (f word (words.getD word 0))) words

@[simp] theorem length_editWords (f : ℕ → BitVec 64 → BitVec 64) (first count : ℕ)
    (words : List (BitVec 64)) : (editWords f first count words).length = words.length := by
  induction count generalizing first words with
  | zero => rfl
  | succ count ih =>
    have hs := ih (first + 1) (words.set first (f first (words.getD first 0)))
    simpa [editWords, range'_succ] using hs

theorem bit_editWords (f : ℕ → BitVec 64 → BitVec 64) {first count : ℕ}
    (h : first + count ≤ words.length) (i : ℕ) : bit (editWords f first count words) i =
      if first ≤ i / 64 ∧ i / 64 < first + count
      then (f (i / 64) (words.getD (i / 64) 0)).getLsbD (i % 64) else bit words i := by
  -- Each word is replaced once, so the later steps still read its old neighbours.
  induction count generalizing first words with
  | zero =>
    have : ¬(first ≤ i / 64 ∧ i / 64 < first + 0) := by omega
    simp only [this]
    rfl
  | succ count ih =>
    have hs : editWords f first (count + 1) words =
        editWords f (first + 1) count (words.set first (f first (words.getD first 0))) := by
      simp [editWords, range'_succ]
    rw [hs, ih (by simpa using by omega), bit_set (by omega)]
    by_cases hi : i / 64 = first
    · subst hi
      simp [show ¬ i / 64 + 1 ≤ i / 64 by omega]
    · have hw : (words.set first (f first (words.getD first 0))).getD (i / 64) 0 =
          words.getD (i / 64) 0 := by simp [Ne.symm hi]
      have hr : (first + 1 ≤ i / 64 ∧ i / 64 < first + 1 + count) ↔
          (first ≤ i / 64 ∧ i / 64 < first + (count + 1)) := by omega
      simp only [hw, hi, if_false, hr]

/-- The word that starts at bit `start`: the low part from one word, the high part from the
next, which is not read when there is none. -/
def window (words : List (BitVec 64)) (start : ℕ) : BitVec 64 :=
  let low := words.getD (start / 64) 0 >>> (start % 64)
  if start % 64 ≠ 0 ∧ start / 64 + 1 < words.length
  then low ||| (words.getD (start / 64 + 1) 0 <<< (64 - start % 64)) else low

theorem getLsbD_lowPart (words : List (BitVec 64)) (start j : ℕ) :
    (words.getD (start / 64) 0 >>> (start % 64)).getLsbD j =
      (decide (start % 64 + j < 64) && bit words (start + j)) := by
  rw [getLsbD_ushiftRight]
  by_cases hj : start % 64 + j < 64
  · rw [getLsbD_word _ _ hj, ← Nat.add_assoc, Nat.div_add_mod']
    simp [hj]
  · simp only [hj]
    exact getLsbD_of_ge _ _ (by omega)

theorem getLsbD_highPart (words : List (BitVec 64)) (start : ℕ) (h : j < 64) :
    (words.getD (start / 64 + 1) 0 <<< (64 - start % 64)).getLsbD j =
      (decide (64 ≤ start % 64 + j) && bit words (start + j)) := by
  rw [getLsbD_shiftLeft]
  by_cases hj : j < 64 - start % 64
  · simp [hj, show ¬ 64 ≤ start % 64 + j by omega]
  · rw [getLsbD_word _ _ (by omega)]
    have : (start / 64 + 1) * 64 + (j - (64 - start % 64)) = start + j := by omega
    simp [hj, h, this, show 64 ≤ start % 64 + j by omega]

theorem getLsbD_parts (words : List (BitVec 64)) (start : ℕ) (h : j < 64) :
    ((words.getD (start / 64) 0 >>> (start % 64)) |||
      (words.getD (start / 64 + 1) 0 <<< (64 - start % 64))).getLsbD j = bit words (start + j) := by
  rw [getLsbD_or, getLsbD_lowPart, getLsbD_highPart _ _ h]
  by_cases hj : start % 64 + j < 64
  · simp [hj]
  · simp [show 64 ≤ start % 64 + j by omega]

theorem getLsbD_window (words : List (BitVec 64)) (start : ℕ) (h : j < 64) :
    (window words start).getLsbD j = bit words (start + j) := by
  unfold window
  split_ifs with hn
  · exact getLsbD_parts words start h
  · rw [getLsbD_lowPart]
    by_cases hj : start % 64 + j < 64
    · simp [hj]
    · rw [bit_of_le (by omega)]
      simp

end FsimRuntime.BitWords
