import FsimRuntime.PackedBits
import FsimRuntime.PackedPlanes

/-!
# Packed values and their states

A valid value has the storage its width and domain call for, clear bits past
its width in every plane, and Logic9 codes 0 to 8. Such a value holds the
states it is read as, and an operation that is described plane by plane is
described state by state.
-/

namespace FsimRuntime.Packed
open BitWords List

namespace PackedLogic4

structure Valid (v : PackedLogic4) : Prop where
  shaped : v.Shaped
  bounded : v.width ≤ sizeMax / 4
  padded : ∀ plane < v.planeCount, ∀ i, v.width ≤ i → bit (v.planeWords plane) i = false
  coded : v.isLogic9 = true → ∀ i, Logic9.codeOfPlanes (bit (v.planeWords 0) i)
    (bit (v.planeWords 1) i) (bit (v.planeWords 2) i) (bit (v.planeWords 3) i) ≤ 8

structure Holds (v : PackedLogic4) (planes : ℕ → ℕ → Bool) : Prop where
  shaped : v.Shaped
  bounded : v.width ≤ sizeMax / 4
  bits : ∀ plane < v.planeCount, ∀ i,
    bit (v.planeWords plane) i = (decide (i < v.width) && planes plane i)

abbrev Holds4 (v : PackedLogic4) (state : ℕ → Logic4) : Prop :=
  v.isLogic9 = false ∧ v.Holds fun plane i => (state i).plane plane

abbrev Holds9 (v : PackedLogic4) (state : ℕ → Logic9) : Prop :=
  v.isLogic9 = true ∧ v.Holds fun plane i => (state i).plane plane

section Reading

variable {v : PackedLogic4} {state : ℕ → Logic4} {i : ℕ}

theorem Valid.holds4 (h : v.Valid) (hd : v.isLogic9 = false) : v.Holds4 v.readLogic4 := by
  refine ⟨hd, h.shaped, h.bounded, fun plane hp i => ?_⟩
  by_cases hi : i < v.width
  · simp only [planeCount, hd, Bool.false_eq_true, if_false] at hp
    interval_cases plane <;> simp [hi, Logic4.plane, readLogic4]
  · rw [h.padded plane hp i (by omega)]
    simp [hi]

theorem Valid.holds9 (h : v.Valid) (hd : v.isLogic9 = true) : v.Holds9 v.readLogic9 := by
  refine ⟨hd, h.shaped, h.bounded, fun plane hp i => ?_⟩
  by_cases hi : i < v.width
  · obtain ⟨h0, h1, h2, h3⟩ := Logic9.plane_ofPlanes (h.coded hd i)
    simp only [planeCount, hd, if_true] at hp
    interval_cases plane <;> simp [hi, readLogic9, h0, h1, h2, h3]
  · rw [h.padded plane hp i (by omega)]
    simp [hi]

theorem Holds4.readLogic4_eq (h : v.Holds4 state) (hi : i < v.width) :
    v.readLogic4 i = state i := by
  have hc : v.planeCount = 2 := by simp [planeCount, h.1]
  rw [readLogic4, h.2.bits 0 (by omega), h.2.bits 1 (by omega)]
  simp [hi, Logic4.plane]

theorem Holds9.readLogic9_eq {state : ℕ → Logic9} (h : v.Holds9 state) (hi : i < v.width) :
    v.readLogic9 i = state i := by
  have hc : v.planeCount = 4 := by simp [planeCount, h.1]
  rw [readLogic9, h.2.bits 0 (by omega), h.2.bits 1 (by omega), h.2.bits 2 (by omega),
    h.2.bits 3 (by omega)]
  simp [hi]

theorem Holds.padded {p : ℕ → ℕ → Bool} (h : v.Holds p) :
    ∀ plane < v.planeCount, ∀ i, v.width ≤ i → bit (v.planeWords plane) i = false := by
  intro plane hp i hi
  rw [h.bits plane hp i]
  simp [Nat.not_lt.mpr hi]

theorem Holds4.valid (h : v.Holds4 state) : v.Valid where
  shaped := h.2.shaped
  bounded := h.2.bounded
  padded := h.2.padded
  coded hd := by simp [h.1] at hd

theorem Holds9.valid {state : ℕ → Logic9} (h : v.Holds9 state) : v.Valid where
  shaped := h.2.shaped
  bounded := h.2.bounded
  padded := h.2.padded
  coded _ i := by
    have hc : v.planeCount = 4 := by simp [planeCount, h.1]
    rw [h.2.bits 0 (by omega), h.2.bits 1 (by omega), h.2.bits 2 (by omega), h.2.bits 3 (by omega)]
    by_cases hi : i < v.width
    · simpa [hi] using (state i).codeOfPlanes_plane_le
    · simp [hi, Logic9.codeOfPlanes]

theorem Holds4.view_eq (h : v.Holds4 state) : v.view = .logic4 ((range v.width).map state) := by
  rw [view, h.1]
  simp only [Bool.false_eq_true, if_false, Bits.logic4.injEq]
  exact map_congr_left fun i hi => h.readLogic4_eq (mem_range.mp hi)

theorem Holds9.view_eq {state : ℕ → Logic9} (h : v.Holds9 state) :
    v.view = .logic9 ((range v.width).map state) := by
  rw [view, h.1]
  simp only [if_true, Bits.logic9.injEq]
  exact map_congr_left fun i hi => h.readLogic9_eq (mem_range.mp hi)

end Reading

section Editing

variable {v v' : PackedLogic4} {p new : ℕ → ℕ → Bool}

structure Becomes (v v' : PackedLogic4) (new : ℕ → ℕ → Bool) : Prop where
  width_eq : v'.width = v.width
  domain_eq : v'.isLogic9 = v.isLogic9
  holds : v'.Holds new

section
variable (h : v.Holds p) (edit : ℕ → List Word → List Word)
  (hl : ∀ plane w, w.length = wordCount v.width → (edit plane w).length = wordCount v.width)
include h edit hl

theorem Holds.editPlanes (hb : ∀ plane < v.planeCount, ∀ i,
      bit (edit plane (v.planeWords plane)) i = (decide (i < v.width) && new plane i)) :
    Becomes v (v.editPlanes edit) new := by
  have he := editPlanes_edited h.shaped edit hl
  refine ⟨he.width_eq, he.domain_eq, he.shaped, he.width_eq ▸ h.bounded, fun plane hp i => ?_⟩
  rw [he.planeCount_eq] at hp
  rw [he.planes plane hp, hb plane hp i, he.width_eq]

theorem Holds.editPlanes_masked (hb : ∀ plane < v.planeCount, ∀ i < v.width,
      bit (edit plane (v.planeWords plane)) i = new plane i) :
    Becomes v (v.editPlanes edit).maskUnusedBits new := by
  have he := editPlanes_edited h.shaped edit hl
  have hm := he.trans (maskUnusedBits_edited he.shaped)
  refine ⟨hm.width_eq, hm.domain_eq, hm.shaped, hm.width_eq ▸ h.bounded, fun plane hp i => ?_⟩
  rw [hm.planeCount_eq] at hp
  have hw : (edit plane (v.planeWords plane)).length = wordCount v.width :=
    hl plane _ (planeWords_length h.shaped hp)
  rw [hm.planes plane hp, he.width_eq, bit_maskLast hw, hm.width_eq]
  by_cases hi : i < v.width
  · rw [hb plane hp i hi]
  · simp [hi]

end

variable {plane i : ℕ}

section
variable (h : v.Holds p) (hp : plane < v.planeCount) (hi : i < v.width)
include h hp hi

theorem Holds.bit_lt : i < (v.planeWords plane).length * 64 := by
  rw [planeWords_length h.shaped hp, wordCount]
  omega

theorem Holds.bit_eq : bit (v.planeWords plane) i = p plane i := by
  rw [h.bits plane hp i]
  simp [hi]

end

end Editing

section Replacing

variable {v v' : PackedLogic4}

def state9 (v : PackedLogic4) (i : ℕ) : Logic9 :=
  if v.isLogic9 then v.readLogic9 i else toLogic9 (v.readLogic4 i)

theorem view_width (v : PackedLogic4) : v.view.width = v.width := by
  rw [view]
  split_ifs <;> simp [Bits.width]

theorem view_isLogic9 (v : PackedLogic4) : v.view.isLogic9 = v.isLogic9 := by
  rw [view]
  split_ifs with h <;> simp [Bits.isLogic9, h]

theorem view_states9 (v : PackedLogic4) : v.view.states9 = (range v.width).map v.state9 := by
  rw [view]
  unfold state9
  split_ifs <;> simp [Bits.states9]

theorem replaceStates_map_range {σ : Type} (new : ℕ → Option σ) (state : ℕ → σ)
    (width : ℕ) : Bits.replaceStates new ((range width).map state) =
      (range width).map fun i => (new i).getD (state i) := by
  refine ext_getElem (by simp [Bits.replaceStates]) fun i hi _ => ?_
  simp [Bits.replaceStates]

variable {new : ℕ → Option Logic4}

theorem Becomes.replaces (hd : v.isLogic9 = false)
    (h : Becomes v v' fun plane i => ((new i).getD (v.readLogic4 i)).plane plane) :
    v'.Valid ∧ v'.view = v.view.replace new := by
  have h4 : v'.Holds4 fun i => (new i).getD (v.readLogic4 i) := ⟨h.domain_eq.trans hd, h.holds⟩
  refine ⟨h4.valid, ?_⟩
  rw [h4.view_eq, view, hd, h.width_eq]
  simp [Bits.replace, replaceStates_map_range]

theorem replace_view_logic9 (hd : v.isLogic9 = true) (new : ℕ → Option Logic4) :
    v.view.replace new = v.view.replace9 fun i => (new i).map toLogic9 := by
  rw [view, hd]
  rfl

theorem Valid.promote (h : v.Valid) :
    v.promoteToLogic9.width = v.width ∧ v.promoteToLogic9.Holds9 v.state9 := by
  by_cases hd : v.isLogic9 = true
  · have hse : v.promoteToLogic9 = v := by simp [promoteToLogic9, hd]
    have hs : v.state9 = v.readLogic9 := by
      funext i
      simp [state9, hd]
    rw [hse, hs]
    exact ⟨rfl, h.holds9 hd⟩
  · rw [Bool.not_eq_true] at hd
    obtain ⟨hsh, hw, hlogic9, hpl⟩ := promoteToLogic9_spec h.shaped hd
    refine ⟨hw, hlogic9, hsh, hw ▸ h.bounded, fun plane hp i => ?_⟩
    have hc : v.planeCount = 2 := by simp [planeCount, hd]
    have hl : ∀ plane < 2, (v.planeWords plane).length = wordCount v.width :=
      fun plane hp => planeWords_length h.shaped (hc ▸ hp)
    have h0 := hl 0 (by omega)
    have h1 := hl 1 (by omega)
    have hp4 : plane < 4 := by simpa [planeCount, hlogic9] using hp
    have hpr : (promotedPlanes v plane).length = wordCount v.width := by
      interval_cases plane <;> simp [promotedPlanes, h0, h1]
    rw [hpl plane hp4, bit_maskLast hpr, hw]
    by_cases hi : i < v.width
    · have hin : i < wordCount v.width * 64 := by
        simp only [wordCount]
        omega
      obtain ⟨t0, t1, t2, t3⟩ := Logic9.plane_toLogic9 (v.readLogic4 i)
      have hs : v.state9 i = toLogic9 (v.readLogic4 i) := by simp [state9, hd]
      rw [hs]
      interval_cases plane
      · rw [t0]
        simp [promotedPlanes, readLogic4]
      · rw [t1, promotedPlanes, bit_map (g := fun b => !b) (by simp_all) (by omega)]
        simp [readLogic4]
      · rw [t2, promotedPlanes, bit_zipWith (g := fun a b => !a && b) (by simp_all) (by omega)
          (by omega)]
        simp [readLogic4]
      · simp [t3, promotedPlanes, bit_replicate]
    · simp [hi]

theorem Becomes.replaces9 {new : ℕ → Option Logic9} (hv : v.Valid)
    (h : Becomes v.promoteToLogic9 v' fun plane i => ((new i).getD (v.state9 i)).plane plane) :
    v'.Valid ∧ v'.view = v.view.replace9 new := by
  obtain ⟨hw, hlogic9, -⟩ := hv.promote
  have h9 : v'.Holds9 fun i => (new i).getD (v.state9 i) := ⟨h.domain_eq.trans hlogic9, h.holds⟩
  refine ⟨h9.valid, ?_⟩
  rw [h9.view_eq, Bits.replace9, view_states9, replaceStates_map_range, h.width_eq, hw]

theorem Becomes.replaces_logic9 (hv : v.Valid) (hd : v.isLogic9 = true)
    (h : Becomes v v' fun plane i => (((new i).map toLogic9).getD (v.readLogic9 i)).plane plane) :
    v'.Valid ∧ v'.view = v.view.replace new := by
  rw [replace_view_logic9 hd]
  have hs : v.promoteToLogic9 = v := by simp [promoteToLogic9, hd]
  refine Becomes.replaces9 hv ?_
  rw [hs]
  simpa [state9, hd] using h

end Replacing

end PackedLogic4

end FsimRuntime.Packed
