import FsimRuntime.PackedConstruction

/-!
# Packed values by their states

A value is its domain and its nine-state view, and ranges taken out of it and
put into it are described by that view.
-/

namespace FsimRuntime.Packed.Bits
open List

variable {bits source : Bits} {offset i n : ℕ} {new : ℕ → Option Logic9}

theorem length_states9 : bits.states9.length = bits.width := by
  cases bits <;> simp [states9, width]

theorem state9_of_le (h : bits.width ≤ i) : bits.state9 i = .x := by
  rw [state9, getD_eq_default _ _ (by rw [length_states9]; exact h)]

theorem toLogic9_state4 (h : bits.isLogic9 = false) : toLogic9 (bits.state4 i) = bits.state9 i := by
  cases bits with
  | logic9 => cases h
  | logic4 v => exact (getD_map _ _ toLogic9).symm

theorem ext_states {a b : Bits} (hd : a.isLogic9 = b.isLogic9) (hw : a.width = b.width)
    (h : ∀ i < a.width, a.state9 i = b.state9 i) : a = b := by
  have hs : a.states9 = b.states9 := by
    refine ext_getElem (by rw [length_states9, length_states9, hw]) fun i ha hb => ?_
    have := h i (by rwa [length_states9] at ha)
    rwa [state9, state9, getD_eq_getElem _ _ ha, getD_eq_getElem _ _ hb] at this
  cases a <;> cases b <;> cases hd
  · have hi : Function.Injective toLogic9 := by rintro (_ | _) (_ | _) <;> simp [toLogic9]
    exact congrArg _ (map_injective_iff.mpr hi hs)
  · exact congrArg _ hs

theorem getD_replaceStates (v : List Logic9) :
    (replaceStates new v).getD i .x = if i < v.length then (new i).getD (v.getD i .x) else .x := by
  by_cases h : i < v.length <;> simp [replaceStates, h]

theorem state9_replace9 :
    (bits.replace9 new).state9 i = if i < bits.width then (new i).getD (bits.state9 i) else .x := by
  rw [← length_states9]
  exact getD_replaceStates _

theorem state9_replace {new : ℕ → Option Logic4} : (bits.replace new).state9 i =
    if i < bits.width then ((new i).map toLogic9).getD (bits.state9 i) else .x := by
  cases bits with
  | logic9 v => exact getD_replaceStates v
  | logic4 v => by_cases h :
      i < v.length <;> simp [replace, state9, states9, replaceStates, width, h]

theorem width_replace (new : ℕ → Option Logic4) (new9 : ℕ → Option Logic9) :
    (bits.replace new).width = bits.width ∧ (bits.replace9 new9).width = bits.width ∧
      (bits.replace new).isLogic9 = bits.isLogic9 := by
  cases bits <;> simp [replace, replace9, replaceStates, width, isLogic9, states9]

theorem extractBits_spec (h0 : 0 < n) (hn : offset + n ≤ bits.width) :
    bits.extractBits offset n = .ok (bits.slice offset n) ∧ (bits.slice offset n).width = n ∧
      (bits.slice offset n).isLogic9 = bits.isLogic9 ∧
      ∀ i < n, (bits.slice offset n).state9 i = bits.state9 (offset + i) := by
  rw [extractBits, PackedLogic4.requireExtractRange_ok.mpr ⟨h0, hn⟩]
  cases bits <;> refine ⟨rfl, ?_, rfl, fun i hi => ?_⟩
  all_goals simp [slice, width, state9, states9, *] at hn ⊢
  all_goals omega

theorem insertBits_spec (h0 : 0 < source.width) (h : offset + source.width ≤ bits.width) :
    ∃ r, bits.insertBits source offset = .ok r ∧ r.width = bits.width ∧
      r.isLogic9 = (bits.isLogic9 || source.isLogic9) ∧
      ∀ i, r.state9 i = if offset ≤ i ∧ i < offset + source.width then source.state9
      (i - offset)
        else bits.state9 i := by
  rw [insertBits, PackedLogic4.requireBitRange_ok.mpr ⟨h0, h⟩]
  refine ⟨_, rfl, ?_⟩
  cases hd : bits.isLogic9 || source.isLogic9 with
  | true =>
    refine ⟨(width_replace (fun _ => none) _).2.1, rfl, fun i => ?_⟩
    rw [if_pos rfl, state9_replace9, range]
    split_ifs <;> grind [state9_of_le]
  | false =>
    obtain ⟨hb, hs⟩ := Bool.or_eq_false_iff.mp hd
    refine ⟨(width_replace _ fun _ => none).1, (width_replace _ fun _ => none).2.2.trans hb,
      fun i => ?_⟩
    rw [if_neg (by simp), state9_replace, range]
    split_ifs <;> grind [toLogic9_state4, state9_of_le]

theorem ofWidth_eq (h : n ≤ sizeMax / 4) (s : Logic4) :
    ofWidth n s = .ok (.logic4 (replicate n s)) := by
  rw [ofWidth, PackedLogic4.checkedPackedWidth_ok.mpr h]
  rfl

end FsimRuntime.Packed.Bits
