import FsimRuntime.ProjectedUpdate

/-!
# Scalar elements

The bits of a scalar element seen as one driver of packed values. Its lists
are aligned when all bits have transactions for the same times, and then they
are the projections of one waveform of whole values.
-/

namespace FsimRuntime.Projected
open List
open Waveform (Transaction DelayMode StagedDriver Pending keep marks live lastOther)

/-- The signal's bits form one VHDL scalar. -/
def Design.Scalar (design : Design) (signal : ℕ) : Prop :=
  design.vhdlScalarWidths signal = some (design.width signal)

instance (design : Design) (signal : ℕ) : Decidable (design.Scalar signal) :=
  inferInstanceAs (Decidable (_ = _))

structure Element.Valid (design : Design) (d : Element) : Prop where
  width_pos : 0 < d.width
  scalar : design.Scalar d.signal → d.first = 0 ∧ d.width = design.width d.signal
  array : ¬ design.Scalar d.signal → d.width = 1

def bitAt (s : State) (key : DriverKey) (index : ℕ) : ProjectedTransaction :=
  (s.drivers key).getD index default

def wholeTransactions (s : State) (d : Element) : List (Transaction Packed) :=
  (range (s.drivers (d.key 0)).length).map fun index =>
    ⟨(bitAt s (d.key 0) index).time,
      (range d.width).map fun bit => (bitAt s (d.key bit) index).value⟩

def Aligned (s : State) (d : Element) : Prop :=
  ∀ bit < d.width, (s.drivers (d.key bit)).map (·.time) = (s.drivers (d.key 0)).map (·.time)

def projection (bit : ℕ) (t : Transaction Packed) : Transaction Logic9 :=
  t.map fun value => value.getLogic9 bit

structure Bits (s : State) (d : Element) (w : List (Transaction Packed)) : Prop where
  strip : ∀ bit < d.width, (s.drivers (d.key bit)).map (·.strip) = w.map (projection bit)
  length : ∀ t ∈ w, t.value.length = d.width

variable {width : ℕ}

theorem packed_ext {a b : Packed} (ha : a.length = width) (hb : b.length = width)
    (h : ∀ bit < width, a.getLogic9 bit = b.getLogic9 bit) : a = b := by
  refine ext_getElem (ha.trans hb.symm) fun i hi hi' => ?_
  simpa [Packed.getLogic9, hi, hi'] using h i (ha ▸ hi)

theorem getLogic9_map_range {bit : ℕ} (f : ℕ → Logic9) (h : bit < width) :
    Packed.getLogic9 ((range width).map f) bit = f bit := by simp [Packed.getLogic9, h]

variable {d : Element} {s : State} {w : List (Transaction Packed)}

theorem Bits.aligned (h : Bits s d w) : Aligned s d := by
  have ht : ∀ bit < d.width, (s.drivers (d.key bit)).map (·.time) = w.map (·.time) := by
    intro bit hb
    have := congrArg (map Transaction.time) (h.strip bit hb)
    simpa [Function.comp_def, projection, Transaction.map, ProjectedTransaction.strip] using this
  intro bit hb
  rw [ht bit hb, ht 0 (by omega)]

theorem Aligned.bits (h : Aligned s d) : Bits s d (wholeTransactions s d) := by
  refine ⟨fun bit hb => ?_, fun t ht => ?_⟩
  · have hl : (s.drivers (d.key bit)).length = (s.drivers (d.key 0)).length := by
      simpa using congrArg length (h bit hb)
    refine ext_getElem (by simp [wholeTransactions, hl]) fun i hi hi' => ?_
    have hi₀ : i < (s.drivers (d.key 0)).length := by simpa [wholeTransactions] using hi'
    have hib : i < (s.drivers (d.key bit)).length := hl ▸ hi₀
    have hti : (s.drivers (d.key bit))[i].time = (s.drivers (d.key 0))[i].time := by
      have := getElem_of_eq (h bit hb) (by simpa using hib)
      simpa using this
    simp only [wholeTransactions, getElem_map, projection, Transaction.map,
      getLogic9_map_range _ hb, bitAt, ProjectedTransaction.strip]
    simp [hi₀, hib, hti]
  · obtain ⟨index, -, rfl⟩ := mem_map.mp ht
    simp

theorem Bits.unique {w' : List (Transaction Packed)}
    (hw : 0 < d.width) (h : Bits s d w) (h' : Bits s d w') : w = w' := by
  have hl : w.length = w'.length := by
    simpa using congrArg List.length ((h.strip 0 hw).symm.trans (h'.strip 0 hw))
  refine ext_getElem hl fun i hi hi' => ?_
  have hp : ∀ bit < d.width, projection bit w[i] = projection bit w'[i] := by
    intro bit hb
    have := getElem_of_eq ((h.strip bit hb).symm.trans (h'.strip bit hb)) (by simpa using hi)
    simpa using this
  have hv : w[i].value = w'[i].value := by
    refine packed_ext (h.length _ (getElem_mem hi)) (h'.length _ (getElem_mem hi')) fun bit hb => ?_
    exact congrArg (fun t : Transaction Logic9 => t.value) (hp bit hb)
  exact Transaction.ext (congrArg (fun t : Transaction Logic9 => t.time) (hp 0 hw)) hv

theorem Bits.eq_whole (hw : 0 < d.width) (h : Bits s d w) : wholeTransactions s d = w :=
  h.aligned.bits.unique hw h

section Editing
variable {m : DelayMode} {r : ℕ} {retainedOld : Option (List Bool)} {bit : ℕ}
  {w rest : List (Transaction Packed)} {first : Transaction Packed}

theorem takeWhile_projection (time : ℕ) :
    (w.map (projection bit)).takeWhile (fun t => t.time < time) =
      (w.takeWhile fun t => t.time < time).map (projection bit) := by
  rw [takeWhile_map]
  rfl

theorem editedBit_projection (ha : Waveform.Ascending w)
    (hm : m = .inertial → editMarks .inertial r retainedOld
      ((live first.time w).map (projection bit)) (projection bit first) =
        marks (first.time - r) (live first.time w) first) :
    editedBit m r retainedOld ((first :: rest).map (projection bit)) (w.map (projection bit)) =
      (Waveform.edit m r w (first :: rest)).map (projection bit) := by
  have ht : (projection bit first).time = first.time := rfl
  simp only [editedBit, map_cons, ht, takeWhile_projection, ← Waveform.live_eq_takeWhile ha]
  cases m with
  | transport =>
    simp only [editMarks, keep_replicate_true, Waveform.edit, map_append, map_cons]
  | inertial =>
    rw [hm rfl, Waveform.keep_map, ← Waveform.retained_eq_keep]
    simp [Waveform.edit]

theorem editMarks_projection (first : Transaction Packed) (ha : Waveform.Ascending w)
    (ho : ∀ t, lastOther (first.time - r) (live first.time w) first = some t →
      t.value.getLogic9 bit ≠ first.value.getLogic9 bit) :
    editMarks .inertial r none ((live first.time w).map (projection bit)) (projection bit first) =
      marks (first.time - r) (live first.time w) first :=
  Waveform.marks_map (fun value : Packed => value.getLogic9 bit)
    (ha.sublist (Waveform.live_sublist _ _)) ho

end Editing

section Retained
variable {s : State} {design : Design} {c : Call} {d : Element} {w : List (Transaction Packed)}
  {bit index : ℕ}

theorem Bits.bitAt_strip (h : Bits s d w) (hb : bit < d.width)
    (next : Transaction Packed) (hin : index < w.length) :
    (bitAt s (d.key bit) index).strip = projection bit (w.getD index next) := by
  have hl : (s.drivers (d.key bit)).length = w.length := by
    simpa using congrArg List.length (h.strip bit hb)
  have hg := getElem_of_eq (h.strip bit hb) (i := index) (by simpa [hl] using hin)
  simp only [getElem_map] at hg
  simp [bitAt, hl, hin, hg]

theorem Bits.lowerBound_eq (h : Bits s d w) (ha : Waveform.Ascending w)
    (hb : bit < d.width) (time : ℕ) :
    lowerBound (s.drivers (d.key bit)) time = (live time w).length := by
  have hs : ((s.drivers (d.key bit)).takeWhile fun t => t.time < time).map (·.strip) =
      (live time w).map (projection bit) := by
    rw [Waveform.live_eq_takeWhile ha, ← takeWhile_projection, ← h.strip bit hb, takeWhile_map]
    rfl
  simpa [lowerBound] using congrArg List.length hs

/-- A call that assigns all bits of a VHDL scalar. -/
structure Call.Scalar (design : Design) (c : Call) (d : Element) : Prop where
  element : d = ⟨c.process, c.signal, 0, c.width⟩
  first : c.first = 0
  width_pos : 0 < c.width
  value : c.value.length = c.width
  width : c.width = design.width c.signal
  scalar : design.Scalar c.signal

theorem Call.Scalar.key (hc : c.Scalar design d) (bit : ℕ) : c.key bit = d.key bit := by
  simp [Call.key, Element.key, hc.element, hc.first]

theorem Call.Scalar.element_width (hc : c.Scalar design d) : d.width = c.width := by rw [hc.element]

variable {time : ℕ}

theorem live_getD (ha : Waveform.Ascending w) (next : Transaction Packed)
    (hin : index < (live time w).length) :
    index < w.length ∧ w.getD index next = (live time w).getD index next := by
  obtain ⟨tail, hw⟩ : live time w <+: w := by
    rw [Waveform.live_eq_takeWhile ha]
    exact takeWhile_prefix _
  refine ⟨hin.trans_le (Waveform.live_sublist _ _).length_le, ?_⟩
  conv_lhs => rw [← hw]
  exact getD_append _ _ _ _ hin

section
variable (h : Bits s d w)
include h

section
variable (ha : Waveform.Ascending w)
include ha

section
variable (hc : c.Scalar design d)
include hc

theorem Bits.driver_strip (next : Transaction Packed) (hb : bit < c.width)
    (hin : index < (live time w).length) : ((s.drivers (c.key bit)).getD index default).strip =
      projection bit ((live time w).getD index next) := by
  obtain ⟨hl, hg⟩ := live_getD ha next hin
  rw [hc.key, ← hg]
  exact h.bitAt_strip (hc.element_width ▸ hb) next hl

theorem Bits.driver_lowerBound
    (hb : bit < c.width) : lowerBound (s.drivers (c.key bit)) time = (live time w).length := by
  rw [hc.key]
  exact h.lowerBound_eq ha (hc.element_width ▸ hb) time

theorem Bits.bitsAligned : bitsAligned s c time = true := by
  have hl : ∀ bit < c.width, lowerBound (s.drivers (c.key bit)) time = (live time w).length :=
    fun bit hbi => h.driver_lowerBound ha hc hbi
  simp only [Projected.bitsAligned, Bool.and_eq_true, all_eq_true, mem_range, decide_eq_true_eq]
  refine ⟨fun bit hbi => (hl bit hbi).trans (hl 0 hc.width_pos).symm, ?_⟩
  intro index hin bit hbi
  rw [hl 0 hc.width_pos] at hin
  have hb := h.driver_strip ha hc ⟨0, []⟩ hbi hin
  have h0 := h.driver_strip ha hc ⟨0, []⟩ hc.width_pos hin
  have hbt := congrArg (fun t : Transaction Logic9 => t.time) hb
  have h0t := congrArg (fun t : Transaction Logic9 => t.time) h0
  exact hbt.trans h0t.symm

theorem Bits.oldValueEqualsNext_iff (hin : index < (live time w).length) :
    oldValueEqualsNext s c c.value (live time w).length index = true ↔
      ((live time w).getD index ⟨time, c.value⟩).value =
        ((live time w).getD (index + 1) ⟨time, c.value⟩).value := by
  have hl : ∀ i, ((live time w).getD i ⟨time, c.value⟩).value.length = c.width := by
    intro i
    rcases Nat.lt_or_ge i (live time w).length with hi | hi
    · rw [getD_eq_getElem _ _ hi, ← hc.element_width]
      exact h.length _ ((Waveform.live_sublist _ _).subset (getElem_mem hi))
    · rw [getD_eq_default _ _ hi]
      exact hc.value
  have hbi : ∀ bit < c.width,
      ((s.drivers (c.key bit)).getD index default).value =
        ((live time w).getD index ⟨time, c.value⟩).value.getLogic9 bit ∧
      (if index + 1 < (live time w).length then
          ((s.drivers (c.key bit)).getD (index + 1) default).value
        else c.value.getLogic9 bit) =
        ((live time w).getD (index + 1) ⟨time, c.value⟩).value.getLogic9 bit := by
    intro bit hb
    refine ⟨congrArg (fun t : Transaction Logic9 => t.value)
      (h.driver_strip ha hc ⟨time, c.value⟩ hb hin), ?_⟩
    split
    next hn =>
      exact congrArg (fun t : Transaction Logic9 => t.value)
        (h.driver_strip ha hc ⟨time, c.value⟩ hb hn)
    next hn => rw [getD_eq_default _ _ (Nat.le_of_not_lt hn)]
  simp only [oldValueEqualsNext, all_eq_true, mem_range, decide_eq_true_eq]
  constructor
  · intro hal
    refine packed_ext (hl _) (hl _) fun bit hb => ?_
    rw [← (hbi bit hb).1, ← (hbi bit hb).2]
    exact hal bit hb
  · intro he bit hb
    rw [(hbi bit hb).1, (hbi bit hb).2, he]

theorem scalarRetained_eq (hmo : c.mode = .inertial)
    (hti : time = s.now + c.firstDelay) (hold : live time w ≠ []) : scalarRetained design s c =
      some (marks (time - c.rejection) (live time w) ⟨time, c.value⟩) := by
  have hw : design.vhdlScalarWidths c.signal = some c.width := hc.width ▸ hc.scalar
  have hco : (live time w).length ≠ 0 := by simpa using hold
  have hlb : lowerBound (s.drivers (c.key 0)) time = (live time w).length :=
    h.driver_lowerBound ha hc hc.width_pos
  simp only [scalarRetained, ← hti]
  rw [if_pos ⟨hmo, hc.first, hc.width, hw⟩,
    if_pos ⟨h.bitsAligned ha hc, hlb.symm ▸ hco⟩, hlb]
  set initial := ((s.drivers (c.key 0)).take (live time w).length).map
    fun t => decide (t.time < time - c.rejection) with hin
  have hl : initial.length = (live time w).length := by
    have hle : (live time w).length ≤ (s.drivers (c.key 0)).length := by
      rw [← hlb]
      exact ( takeWhile_prefix _).length_le
    simpa [hin] using hle
  have hg := markBackward_getD (oldValueEqualsNext s c c.value (live time w).length)
    (live time w).length (initial ++ [true]) (by simp [hl])
  have hm : (markBackward (oldValueEqualsNext s c c.value (live time w).length)
      (live time w).length (initial ++ [true])).take (live time w).length =
        marks (time - c.rejection) (live time w) ⟨time, c.value⟩ := by
    refine Waveform.take_eq_marks (oldValueEqualsNext s c c.value (live time w).length) ?_ ?_ ?_
    · rw [hg]
      simp [← hl]
    · intro i hi
      have ht := congrArg (fun t : Transaction Logic9 => t.time)
        (h.driver_strip ha hc ⟨time, c.value⟩ hc.width_pos hi)
      have hf : (initial ++ [true]).getD i false =
          decide (((live time w).getD i ⟨time, c.value⟩).time < time - c.rejection) := by
        have hi₀ : i < (s.drivers (c.key 0)).length :=
          hi.trans_le (hlb ▸ ( takeWhile_prefix _).length_le)
        rw [getD_eq_getElem _ _ hi₀] at ht
        rw [getD_append _ _ _ _ (hl ▸ hi), getD_eq_getElem _ _ (hl ▸ hi)]
        simp only [hin, getElem_map, getElem_take]
        exact congrArg (fun t => decide (t < time - c.rejection)) ht
      rw [hg i, hf]
      simp [hi]
    · exact fun i hi => h.oldValueEqualsNext_iff ha hc hi
  rw [dropLast_eq_take, markBackward_length, ← hm]
  simp [hl]

end

end

end

end Retained

end FsimRuntime.Projected
