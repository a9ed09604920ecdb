import FsimRuntime.ProjectedElements

/-!
# The interpreter against the editing rule

Every scalar element of the interpreter behaves as a driver with a staged
value, as long as the bits of a VHDL scalar that compare for themselves keep
what the whole value keeps. Under that condition no value that was never
assigned becomes the driving value of a VHDL scalar. If further no assignment
should reject a staged value, the element matures what the editing rule says.
-/

namespace FsimRuntime.Projected
open List Call
open Waveform (Transaction DelayMode StagedDriver Driver Pending live lastOther marks)

def drivingValue (s : State) (d : Element) : Packed :=
  (range d.width).map fun bit => s.driving (d.key bit)

def stagedValue (s : State) (d : Element) : Option Packed :=
  if (range d.width).any fun bit => (lastStaged s.pending (d.key bit)).isSome then
    some ((range d.width).map fun bit =>
      (lastStaged s.pending (d.key bit)).getD (s.driving (d.key bit)))
  else none

def view (s : State) (d : Element) : StagedDriver Packed :=
  ⟨wholeTransactions s d, stagedValue s d, drivingValue s d, s.matured d⟩

structure Inv (design : Design) (s : State) : Prop where
  sched : Sched (fun _ _ => False) s
  pending : ∀ key, Pending s.now ((s.drivers key).map (·.strip))
  aligned : ∀ d : Element, d.Valid design → Aligned s d

def Call.Covers (c : Call) (d : Element) : Prop :=
  c.process = d.process ∧ c.signal = d.signal ∧ c.first ≤ d.first ∧
    d.first + d.width ≤ c.first + c.width

instance (c : Call) (d : Element) : Decidable (c.Covers d) :=
  inferInstanceAs (Decidable (_ ∧ _))

def Call.slice (c : Call) (d : Element) (value : Packed) : Packed :=
  (range d.width).map fun bit => value.getLogic9 (d.first - c.first + bit)

def Call.waveform (c : Call) (now : ℕ) (d : Element) : List (Transaction Packed) :=
  c.elements.map fun e => ⟨now + e.delay, c.slice d e.value⟩

/-- A call assigns whole scalars. -/
def Call.Whole (design : Design) (c : Call) : Prop :=
  design.Scalar c.signal → c.first = 0 ∧ c.width = design.width c.signal

/-- A single-element inertial assignment to a multi-bit VHDL scalar: the last
transaction that the rejection limit reaches and that has another value than
the new one differs from it in every bit. -/
def Call.TellsApart (design : Design) (s : State) (c : Call) : Prop :=
  design.Scalar c.signal → c.mode = .inertial → c.elements.length = 1 → 1 < c.width →
    ∀ t ∈ lastOther (s.now + c.firstDelay - c.rejection)
      (live (s.now + c.firstDelay) (wholeTransactions s ⟨c.process, c.signal, 0, c.width⟩))
      ⟨s.now + c.firstDelay, c.value⟩,
    ∀ bit < c.width, t.value.getLogic9 bit ≠ c.value.getLogic9 bit

def Call.targets (design : Design) (c : Call) : List Element :=
  if design.Scalar c.signal then [⟨c.process, c.signal, 0, c.width⟩]
  else (range c.width).map fun bit => ⟨c.process, c.signal, c.first + bit, 1⟩

/-- An inertial assignment whose rejection limit reaches back to the current
time, made while the element has a staged value: every transaction before the
new ones, the staged value included, has the first new value. -/
def Call.KeepsStaged (design : Design) (s : State) (c : Call) : Prop :=
  ∀ d ∈ c.targets design, (view s d).Keeps s.now c.rejection c.mode (c.waveform s.now d)

section Calls
variable {design : Design} {s s' : State} {c : Call} {d : Element}

theorem slice_length (value : Packed) : (c.slice d value).length = d.width := by simp [slice]

variable {w : List (Transaction Packed)} {now bit : ℕ} {element : ProjectedWaveformValue}
  {retainedOld : Option (List Bool)}

theorem Bits.pending (h : Bits s d w) (hw : 0 < d.width)
    (hp : ∀ key, Pending now ((s.drivers key).map (·.strip))) : Pending now w := by
  have hp0 := hp (d.key 0)
  rw [h.strip 0 hw] at hp0
  refine ⟨?_, fun t ht => hp0.le_time _ (mem_map_of_mem ht)⟩
  have ha : (w.map (projection 0)).Pairwise fun a b => a.time < b.time := hp0.ascending
  have hpa := pairwise_map.mp ha
  exact hpa

theorem waveform_projection (hb : bit < d.width) :
    (c.waveform now d).map (projection bit) = c.newBit now (d.first - c.first + bit) := by
  simp only [waveform, newBit]
  simp [projection, Transaction.map, slice, getLogic9_map_range _ hb]

theorem Call.Covers.key (h : c.Covers d) (bit : ℕ) :
    d.key bit = c.key (d.first - c.first + bit) := by
  obtain ⟨hp, hs, hl, -⟩ := h
  refine DriverKey.ext hp.symm hs.symm ?_
  simp only [Element.key, Call.key]
  omega

theorem key_mem_of_covers (h : c.Covers d) (hb : bit < d.width) :
    d.key bit ∈ (range c.width).map c.key := by
  rw [h.key]
  refine mem_map_of_mem (mem_range.mpr ?_)
  obtain ⟨-, -, hle, hl⟩ := h
  omega

theorem key_not_mem_of_not_covers (hd : d.Valid design) (hw : c.Whole design) (h : ¬ c.Covers d)
    (hbi : bit < d.width) : d.key bit ∉ (range c.width).map c.key := by
  intro hm
  obtain ⟨b, hb, hk⟩ := mem_map.mp hm
  have hb := mem_range.mp hb
  obtain ⟨hp, hsi, ho⟩ := DriverKey.mk.inj hk
  refine h ⟨hp, hsi, ?_⟩
  by_cases hs : design.Scalar d.signal
  · obtain ⟨hf, hwi⟩ := hd.scalar hs
    obtain ⟨hcf, hc⟩ := hw (hsi ▸ hs)
    rw [hsi] at hc
    omega
  · have := hd.array hs
    omega

theorem mem_targets (hd : d.Valid design) (hw : c.Whole design) (h : c.Covers d) :
    d ∈ c.targets design := by
  obtain ⟨hp, hsi, hl, hla⟩ := h
  rw [targets]
  split
  next hs =>
    obtain ⟨hf, hwi⟩ := hd.scalar (hsi ▸ hs)
    obtain ⟨-, hc⟩ := hw hs
    cases d
    simp_all
  next hs =>
    have hwi := hd.array (hsi ▸ hs)
    refine mem_map.mpr ⟨d.first - c.first, mem_range.mpr (by omega), ?_⟩
    rw [hp, hsi, Nat.add_sub_cancel' hl, ← hwi]

theorem Call.Valid.exists_first (hc : c.Valid design s.now) :
    ∃ element r, c.elements = element :: r :=
  exists_cons_of_ne_nil (by simpa using hc.delays.nonempty)

theorem retainedOld_of_array (hs : ¬ design.Scalar c.signal) : c.retainedOld design s = none := by
  rw [retainedOld]
  split
  next => rfl
  next =>
    rw [scalarRetained, if_neg]
    rintro ⟨-, -, hw, hsc⟩
    rw [hw] at hsc
    exact hs hsc

section
variable (hc : c.Valid design s.now) (hw : c.Whole design)
include hc hw

theorem slice_of_scalar
    (hd : d.Valid design) (hco : c.Covers d) (hs : design.Scalar c.signal)
    (he : element ∈ c.elements) :
    c.slice d element.value = element.value := by
  obtain ⟨-, hsi, -, -⟩ := hco
  obtain ⟨hf, hwi⟩ := hw hs
  obtain ⟨hdf, hdw⟩ := hd.scalar (hsi ▸ hs)
  have hl : element.value.length = d.width := by rw [hc.widths element he, hwi, hdw, hsi]
  refine packed_ext (slice_length _) hl fun bit hb => ?_
  simp [slice, getLogic9_map_range _ hb, hdf]

theorem editMarks_covered {r : List ProjectedWaveformValue} (hte : c.TellsApart design s)
    (hd : d.Valid design) (hco : c.Covers d)
    (hbi : Bits s d w) (ha : Waveform.Ascending w) (hbt : bit < d.width)
    (he : c.elements = element :: r) (hm : c.mode = .inertial) :
    editMarks .inertial c.rejection (c.retainedOld design s)
        ((live (s.now + element.delay) w).map (projection bit))
        (projection bit ⟨s.now + element.delay, c.slice d element.value⟩) =
      marks (s.now + element.delay - c.rejection) (live (s.now + element.delay) w)
        ⟨s.now + element.delay, c.slice d element.value⟩ := by
  obtain ⟨hpr, hsi, hle, hla⟩ := id hco
  by_cases hs : design.Scalar c.signal
  · obtain ⟨hf, hwi⟩ := hw hs
    obtain ⟨hdf, hdw⟩ := hd.scalar (hsi ▸ hs)
    have hv : c.value = element.value := by simp [value, he]
    have hde : c.firstDelay = element.delay := by simp [firstDelay, he]
    have hl : element.value.length = c.width :=
      hc.widths element (he ▸ mem_cons_self)
    have hsc : c.Scalar design d := by
      refine ⟨?_, hf, hc.width_pos, hv ▸ hl, hwi, hs⟩
      cases d
      simp_all
    rw [slice_of_scalar hc hw hd hco hs (he ▸ mem_cons_self), ← hv]
    by_cases hp : 1 < c.width ∧ c.elements.length = 1
    · rw [retainedOld, if_pos hp]
      refine editMarks_projection ⟨s.now + element.delay, c.value⟩ ha fun t ht => ?_
      refine hte hs hm hp.2 hp.1 t ?_ bit (hsc.element_width ▸ hbt)
      rw [← hsc.element, hbi.eq_whole hd.width_pos, hde]
      exact ht
    · rw [retainedOld, if_neg hp]
      by_cases hold : live (s.now + element.delay) w = []
      · rw [hold]
        exact length_eq_zero_iff.mp (editMarks_length _ _ _ _ _)
      · rw [scalarRetained_eq hbi ha hsc hm (by rw [hde]) hold]
        simp [editMarks, Waveform.marks_length]
  · have hwi : d.width = 1 := hd.array (hsi ▸ hs)
    rw [retainedOld_of_array hs]
    refine editMarks_projection ⟨s.now + element.delay, c.slice d element.value⟩ ha
      fun t ht heq => ?_
    obtain ⟨hme, hn⟩ := Waveform.mem_of_lastOther ht
    refine hn (packed_ext (hbi.length t ((Waveform.live_sublist _ _).subset hme))
      (slice_length _) fun b hb => ?_)
    obtain rfl : b = bit := by omega
    exact heq

theorem Edits.bits (hte : c.TellsApart design s)
    (hd : d.Valid design) (hco : c.Covers d) (hb : Bits s d w) (ha : Waveform.Ascending w)
    (he : Edits (c.editedBits s.now (c.retainedOld design s) (range c.width)) s s') :
    Bits s' d (Waveform.edit c.mode c.rejection w (c.waveform s.now d)) := by
  obtain ⟨element, r, hel⟩ := hc.exists_first
  have hwa : c.waveform s.now d = ⟨s.now + element.delay, c.slice d element.value⟩ ::
      r.map fun e => ⟨s.now + e.delay, c.slice d e.value⟩ := by simp [waveform, hel]
  refine ⟨fun bit hbi => ?_, fun t ht => ?_⟩
  · rw [he.drivers, editedBits, if_pos (key_mem_of_covers hco hbi),
      hb.strip bit hbi, hco.key, key_offset_sub, ← waveform_projection hbi, hwa]
    refine editedBit_projection ha fun hm => ?_
    exact editMarks_covered hc hw hte hd hco hb ha hbi hel hm
  · rcases Waveform.mem_edit ht with ht | ht
    · exact hb.length t ht
    · obtain ⟨e, -, rfl⟩ := mem_map.mp ht
      exact slice_length _

end

theorem newBit_pending (hc : c.Valid design s.now) (bit : ℕ) :
    Pending s.now (c.newBit s.now bit) := by
  have ha := pairwise_map.mp hc.delays.ascending
  refine ⟨pairwise_map.mpr (ha.imp fun h => Nat.add_lt_add_left h s.now), fun t ht => ?_⟩
  obtain ⟨e, -, rfl⟩ := mem_map.mp ht
  exact Nat.le_add_right _ _

theorem editedBit_pending {m : DelayMode} {r : ℕ} {new w : List (Transaction Logic9)}
    (hw : Pending now w) (hn : Pending now new) :
    Pending now (editedBit m r retainedOld new w) := by
  cases new with
  | nil => exact hw
  | cons first rest =>
    refine hw.append hn ((Waveform.keep_sublist _ _).trans ?_)
    rw [Waveform.live_eq_takeWhile hw.ascending]

theorem Edits.pending_drivers (hc : c.Valid design s.now)
    (he : Edits (c.editedBits s.now retainedOld (range c.width)) s s')
    (hp : ∀ key, Pending s.now ((s.drivers key).map (·.strip))) (key : DriverKey) :
    Pending s'.now ((s'.drivers key).map (·.strip)) := by
  rw [he.drivers, he.now, editedBits]
  split
  · exact editedBit_pending (hp key) (newBit_pending hc _)
  · exact hp key

theorem waveform_accepted (hc : c.Valid design s.now) (d : Element) :
    Waveform.Accepted s.now c.rejection c.mode (c.waveform s.now d) := by
  obtain ⟨element, r, he⟩ := hc.exists_first
  have ha := pairwise_map.mp hc.delays.ascending
  refine ⟨⟨pairwise_map.mpr (ha.imp fun h => Nat.add_lt_add_left h s.now), fun t ht => ?_⟩,
    by simp [waveform, he], fun hm t ht => ?_⟩
  · obtain ⟨e, -, rfl⟩ := mem_map.mp ht
    exact Nat.le_add_right _ _
  · have hl := hc.delays.rejection_le hm
    simp only [he] at hl
    simp only [waveform, he, map_cons, head?_cons, Option.mem_some_iff] at ht
    subst ht
    exact Nat.add_le_add_left hl s.now

inductive CallView (c : Call) (s : State) (d : Element) (v : StagedDriver Packed) : Prop
  | other (h : ¬ c.Covers d) (hv : v = view s d)
  | stage (h : c.Covers d) (hs : c.Shortcut s) (hempty : (view s d).waveform = [])
      (hwave : c.waveform s.now d = [⟨s.now, c.slice d c.value⟩])
      (hv : v = (view s d).stage (c.slice d c.value))
  | assign (h : c.Covers d) (hs : ¬ c.Shortcut s)
      (hv : v = (view s d).assign c.mode c.rejection (c.waveform s.now d))

theorem Edits.view_eq {f : DriverKey → List (Transaction Logic9) → List (Transaction Logic9)}
    (he : Edits f s s') : view s' d = { view s d with waveform := wholeTransactions s' d } := by
  simp [view, stagedValue, drivingValue, he.pending, he.driving, he.matured]

theorem call_edit_view (hin : Inv design s) (hc : c.Valid design s.now) (hw : c.Whole design)
    (ht : c.TellsApart design s) (hs : ¬ c.Shortcut s) (hd : d.Valid design)
    (he : Edits (c.editedBits s.now (c.retainedOld design s) (range c.width)) s s') :
    Aligned s' d ∧ CallView c s d (view s' d) := by
  have hb := (hin.aligned d hd).bits
  have hp := hb.pending hd.width_pos hin.pending
  by_cases hco : c.Covers d
  · have hn := he.bits hc hw ht hd hco hb hp.ascending
    refine ⟨hn.aligned, .assign hco hs ?_⟩
    rw [he.view_eq, hn.eq_whole hd.width_pos]
    rfl
  · have hsa : Bits s' d (wholeTransactions s d) := ⟨fun bit hbi => by
      rw [he.drivers, editedBits, if_neg (key_not_mem_of_not_covers hd hw hco hbi),
        hb.strip bit hbi],
      hb.length⟩
    refine ⟨hsa.aligned, .other hco ?_⟩
    rw [he.view_eq, hsa.eq_whole hd.width_pos]
    rfl

theorem bit_of_covers (hl : c.value.length = c.width) (hc : c.Covers d) (hbi : bit < d.width) :
    (PendingUpdate.mk c.process c.signal c.first c.value).bit (d.key bit) =
      some (c.value.getLogic9 (d.first - c.first + bit)) := by
  have hm := key_mem_of_covers hc hbi
  obtain ⟨b, hb, hk⟩ := mem_map.mp hm
  have hb : b < c.value.length := hl ▸ mem_range.mp hb
  rw [hc.key] at hk ⊢
  have hin := c.key_injective hk
  rw [← hin]
  simp [PendingUpdate.bit, key, Packed.getLogic9, hb]

theorem bit_of_not_covers (hl : c.value.length = c.width) (hd : d.Valid design)
    (hw : c.Whole design) (hc : ¬ c.Covers d) (hb : bit < d.width) :
    (PendingUpdate.mk c.process c.signal c.first c.value).bit (d.key bit) = none := by
  rw [PendingUpdate.bit]
  split
  next h =>
    obtain ⟨hp, hs, hle⟩ := h
    refine getElem?_eq_none (Nat.le_of_not_lt fun hlt => ?_)
    refine key_not_mem_of_not_covers hd hw hc hb ?_
    refine mem_map.mpr ⟨(d.key bit).offset - c.first, mem_range.mpr (hl ▸ hlt), ?_⟩
    exact DriverKey.ext hp hs (Nat.add_sub_cancel' hle)
  next => rfl

theorem any_congr_mem {α : Type*} {l : List α} {p q : α → Bool} (h : ∀ a ∈ l, p a = q a) :
    l.any p = l.any q := by
  rw [Bool.eq_iff_iff, any_eq_true, any_eq_true]
  exact exists_congr fun a => and_congr_right fun ha => by rw [h a ha]

theorem stagedValue_congr (hl : ∀ bit ∈ range d.width,
      lastStaged s'.pending (d.key bit) = lastStaged s.pending (d.key bit))
    (hd : s'.driving = s.driving) : stagedValue s' d = stagedValue s d := by
  rw [stagedValue, hd, any_congr_mem fun bit hb => congrArg Option.isSome (hl bit hb)]
  refine if_congr Iff.rfl (congrArg some (map_congr_left fun bit hb => ?_)) rfl
  rw [hl bit hb]

theorem call_stage_view (hc : c.Valid design s.now) (hw : c.Whole design)
    (hs : c.Shortcut s) (hd : d.Valid design) :
    CallView c s d (view (stageUpdateSlice c.process c.signal c.value c.first s) d) := by
  obtain ⟨element, r, he⟩ := hc.exists_first
  obtain ⟨ho, -, -, hde, hem⟩ := id hs
  have hv : c.value = element.value := by simp [value, he]
  have hl : c.value.length = c.width :=
    hv ▸ hc.widths element (he ▸ mem_cons_self)
  have hla : ∀ key, lastStaged (stageUpdateSlice c.process c.signal c.value c.first s).pending
      key = ((PendingUpdate.mk c.process c.signal c.first c.value).bit key).or
        (lastStaged s.pending key) := fun key => lastStaged_append _ _ _
  by_cases hco : c.Covers d
  · refine .stage hco hs ?_ ?_ ?_
    · have hn : ∀ b < c.width, s.drivers (c.key b) = [] := by
        simpa [targetHasPendingTransaction] using hem
      obtain ⟨-, -, hle, hlt⟩ := id hco
      have hk := hn (d.first - c.first + 0) (by have := hd.width_pos; omega)
      rw [← hco.key] at hk
      simp [view, wholeTransactions, hk]
    · have hr : r = [] := by simpa [he] using ho
      have hz : element.delay = 0 := by simpa [firstDelay, he] using hde
      simp [waveform, he, hr, hz, hv]
    · have hst : stagedValue (stageUpdateSlice c.process c.signal c.value c.first s) d =
          some (c.slice d c.value) := by
        have hbi : ∀ bit ∈ range d.width,
            lastStaged (stageUpdateSlice c.process c.signal c.value c.first s).pending
              (d.key bit) = some (c.value.getLogic9 (d.first - c.first + bit)) := by
          intro bit hbi
          rw [hla, bit_of_covers hl hco (mem_range.mp hbi)]
          rfl
        rw [stagedValue, if_pos]
        · refine congrArg some (map_congr_left fun bit hb => ?_)
          rw [hbi bit hb]
          rfl
        · have h0 := mem_range.mpr hd.width_pos
          exact any_eq_true.mpr ⟨0, h0, by rw [hbi 0 h0]; rfl⟩
      rw [view, hst]
      rfl
  · refine .other hco ?_
    have hbi : ∀ bit ∈ range d.width,
        lastStaged (stageUpdateSlice c.process c.signal c.value c.first s).pending (d.key bit) =
          lastStaged s.pending (d.key bit) := by
      intro bit hbi
      rw [hla, bit_of_not_covers hl hd hw hco (mem_range.mp hbi)]
      rfl
    rw [view, stagedValue_congr hbi rfl]
    rfl

theorem step_call (hin : Inv design s) (hc : c.Valid design s.now) (hw : c.Whole design)
    (ht : c.TellsApart design s) : ∃ s', step design s (.call c) = some s' ∧ s'.now = s.now ∧
      Inv design s' ∧ ∀ d : Element, d.Valid design → CallView c s d (view s' d) := by
  obtain ⟨hst, hed⟩ := scheduleProjectedWaveform_spec hin.sched hc
  by_cases hs : c.Shortcut s
  · refine ⟨stageUpdateSlice c.process c.signal c.value c.first s, by rw [step, hst hs]; rfl,
      rfl, ?_, fun d hd => call_stage_view hc hw hs hd⟩
    have h := hin.sched
    exact ⟨{ h with }, hin.pending, hin.aligned⟩
  · obtain ⟨s', ho, he⟩ := hed hs
    have hv : ∀ d : Element, d.Valid design → Aligned s' d ∧ CallView c s d (view s' d) :=
      fun d hd => call_edit_view hin hc hw ht hs hd he
    refine ⟨s', by rw [step, ho]; rfl, he.now, ⟨he.sched, ?_, fun d hd => (hv d hd).1⟩,
      fun d hd => (hv d hd).2⟩
    exact he.pending_drivers hc hin.pending

end Calls

section Updates
variable {design : Design} {s : State} {d : Element} {w : List (Transaction Packed)}

theorem dueValue_of_bits (hb : Bits s d w) {bit : ℕ} (hbi : bit < d.width) :
    dueValue s (d.key bit) =
      ((w.find? fun t => t.time ≤ s.now).map fun t => t.value.getLogic9 bit).or
        (lastStaged s.pending (d.key bit)) := by
  have hf : ((s.drivers (d.key bit)).find? fun t => t.time ≤ s.now).map (·.strip) =
      (w.find? fun t => t.time ≤ s.now).map (projection bit) := by
    have hm := congrArg (find? fun t => decide (t.time ≤ s.now)) (hb.strip bit hbi)
    rw [find?_map, find?_map] at hm
    exact hm
  have hv := congrArg (Option.map fun t : Transaction Logic9 => t.value) hf
  rw [Option.map_map, Option.map_map] at hv
  exact congrArg (Option.or · _) hv

theorem due_eq (hbi : Bits s d w) (hw : 0 < d.width) : (view s d).due s.now =
      if (range d.width).any fun bit => (dueValue s (d.key bit)).isSome then
        some ((range d.width).map fun bit => updatedDriving s (d.key bit)) else none := by
  have hvi : (view s d).due s.now =
      ((w.find? fun t => t.time ≤ s.now).map (·.value)).or (stagedValue s d) := by
    rw [StagedDriver.due, view, hbi.eq_whole hw]
  have hd : ∀ bit ∈ range d.width, dueValue s (d.key bit) =
      ((w.find? fun t => t.time ≤ s.now).map fun t => t.value.getLogic9 bit).or
        (lastStaged s.pending (d.key bit)) := fun bit hb =>
    dueValue_of_bits hbi (mem_range.mp hb)
  rw [hvi, any_congr_mem fun bit hb => congrArg Option.isSome (hd bit hb)]
  have hm : (range d.width).map (fun bit => updatedDriving s (d.key bit)) =
      (range d.width).map fun bit =>
        (((w.find? fun t => t.time ≤ s.now).map fun t => t.value.getLogic9 bit).or
          (lastStaged s.pending (d.key bit))).getD (s.driving (d.key bit)) :=
    map_congr_left fun bit hb => by rw [updatedDriving, hd bit hb]
  rw [hm]
  cases hf : w.find? fun t => t.time ≤ s.now with
  | none => rfl
  | some t =>
    have hl := hbi.length t (mem_of_find?_eq_some hf)
    have hv : (range d.width).map (fun bit => t.value.getLogic9 bit) = t.value :=
      packed_ext (by simp) hl fun bit hb => getLogic9_map_range _ hb
    rw [if_pos (any_eq_true.mpr ⟨0, mem_range.mpr hw, rfl⟩)]
    simp [hv]

theorem step_updatePhase (hin : Inv design s) :
    Inv design (runUpdatePhase s) ∧ (runUpdatePhase s).now = s.now ∧
      ∀ d : Element, d.Valid design → view (runUpdatePhase s) d = (view s d).update s.now := by
  have hu := runUpdatePhase_spec hin.sched hin.pending
  have hbi : ∀ d : Element, d.Valid design →
      Bits (runUpdatePhase s) d ((wholeTransactions s d).filter fun t => s.now < t.time) := by
    intro d hd
    have h := (hin.aligned d hd).bits
    refine ⟨fun bit hb => ?_, fun t ht => h.length t (mem_filter.mp ht).1⟩
    rw [hu.drivers, h.strip bit hb, filter_map]
    rfl
  refine ⟨⟨hu.sched, fun key => ?_, fun d hd => (hbi d hd).aligned⟩, hu.now, fun d hd => ?_⟩
  · rw [hu.drivers, hu.now]
    exact (hin.pending key).sublist filter_sublist
  · have hdu := due_eq (hin.aligned d hd).bits hd.width_pos
    have hs : stagedValue (runUpdatePhase s) d = none := by
      simp [stagedValue, hu.pending, lastStaged]
    rw [view, (hbi d hd).eq_whole hd.width_pos, hs, StagedDriver.update, hdu, drivingValue,
      hu.driving, hu.matured]
    split
    next => rfl
    next hn =>
      have hk : (range d.width).map (fun bit => updatedDriving s (d.key bit)) =
          drivingValue s d := by
        refine map_congr_left fun bit hb => ?_
        have hb : dueValue s (d.key bit) = none := by
          by_contra hso
          exact hn (any_eq_true.mpr ⟨bit, hb, Option.isSome_iff_ne_none.mpr hso⟩)
        rw [updatedDriving, hb]
        rfl
      simp [view, hk]

theorem step_advance (hin : Inv design s) {time : ℕ}
    (hts : ∀ task ∈ s.scheduled, time ≤ task.time) : Inv design { s with now := time } := by
  have h := hin.sched
  refine ⟨{ h with }, fun key => ⟨(hin.pending key).ascending, fun t ht => ?_⟩, hin.aligned⟩
  obtain ⟨u, hu, rfl⟩ := mem_map.mp ht
  obtain ⟨task, hta, htr⟩ := h.due key u hu id
  exact (hts task hta).trans_eq (h.agree task hta key u hu htr).1

end Updates

end FsimRuntime.Projected
