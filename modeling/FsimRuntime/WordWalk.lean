import Mathlib

/-!
# Permutations of the words of a width

Adding a constant, multiplying by an odd one and folding the upper bits onto
the lower ones are injective modulo a power of two, so any sequence of such
steps walks through all words of the width.
-/

namespace FsimRuntime.WordWalk

variable {width : ℕ}

/-- A map of the words of a width into themselves without collisions. -/
structure Permutes (width : ℕ) (f : ℕ → ℕ) : Prop where
  lt : ∀ {v}, v < 2 ^ width → f v < 2 ^ width
  inj : ∀ {v w}, v < 2 ^ width → w < 2 ^ width → f v = f w → v = w

variable {f g : ℕ → ℕ}

theorem Permutes.comp (hg : Permutes width g) (hf : Permutes width f) :
    Permutes width fun v => g (f v) :=
  ⟨fun hv => hg.lt (hf.lt hv), fun hv hw h => hf.inj hv hw (hg.inj (hf.lt hv) (hf.lt hw) h)⟩

theorem Permutes.congr (hf : Permutes width f) (he : ∀ {v}, v < 2 ^ width → g v = f v) :
    Permutes width g := by
  refine ⟨fun hv => ?_, fun hv hw h => hf.inj hv hw ?_⟩
  · rw [he hv]
    exact hf.lt hv
  · rwa [he hv, he hw] at h

theorem permutes_id : Permutes width fun v => v := ⟨fun hv => hv, fun _ _ h => h⟩

theorem permutes_add (key : ℕ) : Permutes width fun v => (v + key) % 2 ^ width :=
  ⟨fun _ => Nat.mod_lt _ (Nat.two_pow_pos width),
    fun hv hw h => (Nat.ModEq.add_right_cancel' key h).eq_of_lt_of_lt hv hw⟩

theorem permutes_mul {f : ℕ} (ho : f % 2 = 1) : Permutes width fun v => v * f % 2 ^ width := by
  refine ⟨fun _ => Nat.mod_lt _ (Nat.two_pow_pos width),
    fun hv hw h => Nat.ModEq.eq_of_lt_of_lt ?_ hv hw⟩
  have hc : Nat.gcd (2 ^ width) f = 1 := by
    refine Nat.Coprime.pow_left width ?_
    show Nat.gcd 2 f = 1
    rw [Nat.gcd_rec, ho]
    rfl
  exact Nat.ModEq.cancel_right_of_coprime hc h

theorem permutes_fold {shift : ℕ} (hs : 0 < shift) :
    Permutes width fun v => v ^^^ (v >>> shift) := by
  refine ⟨fun hv => Nat.xor_lt_two_pow hv ((Nat.shiftRight_le _ _).trans_lt hv),
    fun {v w} hv hw h => ?_⟩
  have hb (d : ℕ) : ∀ i, width ≤ i + d → v.testBit i = w.testBit i := by
    induction d using Nat.strong_induction_on with
    | _ d ih =>
      intro i hi
      by_cases hwi : width ≤ i
      · have hl : 2 ^ width ≤ 2 ^ i := Nat.pow_le_pow_right (by decide) hwi
        rw [Nat.testBit_lt_two_pow (hv.trans_le hl), Nat.testBit_lt_two_pow (hw.trans_le hl)]
      · have hu := ih (d - shift) (by omega) (shift + i) (by omega)
        have hf := congrArg (fun n => n.testBit i) h
        simp only [Nat.testBit_xor, Nat.testBit_shiftRight, hu] at hf
        exact Bool.xor_left_inj.mp hf
  exact Nat.eq_of_testBit_eq fun i => hb width i (by omega)

end FsimRuntime.WordWalk
