import FsimRuntime.ProjectedRefinement

/-!
# Runs of projected assignments

Finite sequences of calls, update phases and time steps, from the state
without pending transactions. The two conditions under which the interpreter
follows the editing rule are stated per step. Each is needed: without the
first a VHDL scalar takes a value that was never assigned, and without the
second a staged value matures that a later assignment rejects.
-/

namespace FsimRuntime.Projected
open List
open Waveform (Transaction DelayMode StagedDriver Driver Simulates)

def Along (design : Design) (P : State → Event → Prop) : State → List Event → Prop
  | _, [] => True
  | s, event :: events =>
    P s event ∧ ∀ s' ∈ step design s event, Along design P s' events

instance Along.decidable (design : Design) (P : State → Event → Prop)
    [∀ s event, Decidable (P s event)] :
    ∀ (s : State) (events : List Event), Decidable (Along design P s events)
  | _, [] => isTrue trivial
  | s, event :: events =>
    have := fun s' => Along.decidable design P s' events
    inferInstanceAs
      (Decidable (P s event ∧ ∀ s' ∈ step design s event, Along design P s' events))

/-- Calls that the language admits, and time steps that the scheduler takes. -/
def Event.Allowed (design : Design) (s : State) : Event → Prop
  | .call c => c.Valid design s.now ∧ c.Whole design
  | .updatePhase => True
  | .advance time => s.now < time ∧ s.pending = [] ∧
      ∀ task ∈ s.scheduled, time ≤ task.time

def Event.TellsApart (design : Design) (s : State) : Event → Prop
  | .call c => c.TellsApart design s
  | _ => True

def Event.KeepsStaged (design : Design) (s : State) : Event → Prop
  | .call c => c.KeepsStaged design s
  | _ => True

instance (design : Design) (s : State) (event : Event) : Decidable (event.Allowed design s) :=
  match event with
  | .call c => inferInstanceAs (Decidable (c.Valid design s.now ∧
      (design.Scalar c.signal → c.first = 0 ∧ c.width = design.width c.signal)))
  | .updatePhase => isTrue trivial
  | .advance time => inferInstanceAs (Decidable (s.now < time ∧ s.pending = [] ∧
      ∀ task ∈ s.scheduled, time ≤ task.time))

instance (design : Design) (s : State) (event : Event) : Decidable (event.TellsApart design s) :=
  match event with
  | .call c => inferInstanceAs (Decidable (design.Scalar c.signal → c.mode = .inertial →
      c.elements.length = 1 → 1 < c.width →
      ∀ t ∈ Waveform.lastOther (s.now + c.firstDelay - c.rejection)
        (Waveform.live (s.now + c.firstDelay)
          (wholeTransactions s ⟨c.process, c.signal, 0, c.width⟩))
        ⟨s.now + c.firstDelay, c.value⟩,
      ∀ bit < c.width, t.value.getLogic9 bit ≠ c.value.getLogic9 bit))
  | .updatePhase => isTrue trivial
  | .advance _ => isTrue trivial

instance (design : Design) (s : State) (event : Event) : Decidable (event.KeepsStaged design s) :=
  match event with
  | .call c => inferInstanceAs (Decidable (∀ d ∈ c.targets design,
      (view s d).Keeps s.now c.rejection c.mode (c.waveform s.now d)))
  | .updatePhase => isTrue trivial
  | .advance _ => isTrue trivial

def Call.schedule (c : Call) (now : ℕ) (d : Element) (v : StagedDriver Packed) :
    StagedDriver Packed :=
  if c.Covers d then
    if c.elements.length = 1 ∧ c.mode = .inertial ∧ c.rejection = 0 ∧ c.firstDelay = 0 ∧
        v.waveform = [] then v.stage (c.slice d c.value)
    else v.assign c.mode c.rejection (c.waveform now d)
  else v

def scalarStep (d : Element) : ℕ × StagedDriver Packed → Event → ℕ × StagedDriver Packed
  | (now, v), .call c => (now, c.schedule now d v)
  | (now, v), .updatePhase => (now, v.update now)
  | (_, v), .advance time => (time, v)

/-- The driver of a whole scalar under the editing rule for whole values, with
zero-delay assignments staged. -/
def scalarRun (d : Element) (driving : Packed) (events : List Event) : StagedDriver Packed :=
  (events.foldl (scalarStep d) (0, ⟨[], none, driving, []⟩)).2

def ieeeStep (d : Element) : ℕ × Driver Packed → Event → ℕ × Driver Packed
  | (now, i), .call c =>
    (now, if c.Covers d then i.assign c.mode c.rejection (c.waveform now d) else i)
  | (now, i), .updatePhase => (now, i.update now)
  | (_, i), .advance time => (time, i)

/-- The driver under the editing rule of IEEE 1076-2008 10.5.2.2. -/
def ieeeRun (d : Element) (events : List Event) : Driver Packed :=
  (events.foldl (ieeeStep d) (0, Driver.idle)).2

def assigned (d : Element) (events : List Event) : List Packed :=
  events.flatMap fun event =>
    match event with
    | .call c => if c.Covers d then c.elements.map (·.value) else []
    | _ => []

section Steps
variable {design : Design} {s : State} {event : Event}

inductive EventView (s s' : State) (d : Element) : Event → Prop
  | call (c : Call) (hnow : s'.now = s.now) (h : CallView c s d (view s' d)) :
      EventView s s' d (.call c)
  | updatePhase (hnow : s'.now = s.now) (h : view s' d = (view s d).update s.now) :
      EventView s s' d .updatePhase
  | advance (time : ℕ) (hnow : s'.now = time) (hstaged : (view s d).staged = none)
      (htime : ∀ t ∈ (view s d).waveform, time ≤ t.time) (h : view s' d = view s d) :
      EventView s s' d (.advance time)

theorem step_view (hin : Inv design s) (ha : event.Allowed design s)
    (hte : event.TellsApart design s) : ∃ s', step design s event = some s' ∧ Inv design s' ∧
      ∀ d : Element, d.Valid design → EventView s s' d event := by
  cases event with
  | call c =>
    obtain ⟨s', hs, hn, hi', hv⟩ := step_call hin ha.1 ha.2 hte
    exact ⟨s', hs, hi', fun d hd => .call c hn (hv d hd)⟩
  | updatePhase =>
    obtain ⟨hi', hn, hv⟩ := step_updatePhase hin
    exact ⟨_, rfl, hi', fun d hd => .updatePhase hn (hv d hd)⟩
  | advance t =>
    obtain ⟨hl, hp, ht⟩ := ha
    have had := step_advance hin ht
    refine ⟨{ s with now := t }, ?_, had, fun d hd => .advance t rfl ?_ ?_ rfl⟩
    · rw [step, if_pos ⟨hl, hp, by simpa using ht⟩]
    · simp [view, stagedValue, hp, lastStaged]
    · exact ((hin.aligned d hd).bits.pending hd.width_pos had.pending).le_time

theorem start_inv (design : Design) (driving : DriverKey → Logic9) :
    Inv design (State.start driving) := by
  refine ⟨⟨?_, ?_, ?_, ?_, ?_, ?_, ?_, ?_⟩, fun _ => Waveform.Pending.nil 0,
    fun _ _ _ _ => rfl⟩ <;> simp [State.start]

theorem start_view (driving : DriverKey → Logic9) (d : Element) :
    view (State.start driving) d = ⟨[], none, drivingValue (State.start driving) d, []⟩ := by
  simp [view, wholeTransactions, stagedValue, State.start, lastStaged]

end Steps

section Scalars
variable {design : Design} {s s' : State} {d : Element} {c : Call} {event : Event}
  {events : List Event} {P : Packed → Prop}

section
variable (hin : Inv design s) (hd : d.Valid design) (hs : design.Scalar d.signal)
include hin hd hs

theorem shortcut_iff (hw : c.Whole design) (hc : c.Covers d) :
    c.Shortcut s ↔ c.elements.length = 1 ∧ c.mode = .inertial ∧ c.rejection = 0 ∧
      c.firstDelay = 0 ∧ (view s d).waveform = [] := by
  obtain ⟨hf, hwi⟩ := hd.scalar hs
  obtain ⟨hcf, hcw⟩ := hw (hc.2.1 ▸ hs)
  have hk : ∀ bit, c.key bit = d.key bit := fun bit => by rw [hc.key, hf]; simp
  have hsa : c.width = d.width := by rw [hcw, hwi, hc.2.1]
  have hl : ∀ bit < d.width,
      (s.drivers (d.key bit)).length = (wholeTransactions s d).length := by
    intro bit hb
    simpa using congrArg length ((hin.aligned d hd).bits.strip bit hb)
  have he : targetHasPendingTransaction s c = false ↔ (view s d).waveform = [] := by
    simp only [targetHasPendingTransaction, any_eq_false, mem_range, hk, hsa, view]
    constructor
    · intro hn
      have hz := hn 0 hd.width_pos
      simp only [Bool.not_eq_true', Bool.not_eq_false, List.isEmpty_iff] at hz
      rw [← List.length_eq_zero_iff, ← hl 0 hd.width_pos, hz]
      rfl
    · intro hni bit hb
      have hle := hl bit hb
      rw [hni] at hle
      simpa using length_eq_zero_iff.mp hle
  rw [Call.Shortcut, he]

theorem CallView.schedule (hw : c.Whole design) {v : StagedDriver Packed}
    (h : CallView c s d v) : v = c.schedule s.now d (view s d) := by
  rw [Call.schedule]
  cases h with
  | other hc hv => rw [if_neg hc, hv]
  | stage hc hsh he hwa hv =>
    rw [if_pos hc, if_pos ((shortcut_iff hin hd hs hw hc).mp hsh), hv]
  | assign hc hsh hv =>
    rw [if_pos hc, if_neg fun h =>
      hsh ((shortcut_iff hin hd hs hw hc).mpr h), hv]

theorem EventView.scalarStep (ha : event.Allowed design s) (h : EventView s s' d event) :
    (s'.now, view s' d) = scalarStep d (s.now, view s d) event := by
  cases h with
  | call c hn h => exact Prod.ext hn (h.schedule hin hd hs ha.2)
  | updatePhase hn h | advance t hn _ _ h => exact Prod.ext hn h

end

theorem run_scalarRun (hin : Inv design s)
    (h :
      Along design (fun s event => event.Allowed design s ∧ event.TellsApart design s) s events) :
    ∃ s', run design s events = some s' ∧ Inv design s' ∧ ∀ d : Element, d.Valid design →
        design.Scalar d.signal →
        (s'.now, view s' d) = events.foldl (Projected.scalarStep d) (s.now, view s d) := by
  induction events generalizing s with
  | nil => exact ⟨s, rfl, hin, fun _ _ _ => rfl⟩
  | cons event events ih =>
    obtain ⟨⟨ha, ht⟩, hr⟩ := h
    obtain ⟨s₁, hst, hi₁, hv⟩ := step_view hin ha ht
    obtain ⟨s₂, hru, hi₂, hf⟩ := ih hi₁ (hr s₁ hst)
    refine ⟨s₂, by rw [run, hst]; exact hru, hi₂, fun d hd hs => ?_⟩
    rw [foldl_cons, ← (hv d hd).scalarStep hin hd hs ha]
    exact hf d hd hs

theorem EventView.holds (hd : d.Valid design) (hs : design.Scalar d.signal)
    (ha : event.Allowed design s) (h : EventView s s' d event)
    (hP : (view s d).Holds P) (hass : ∀ v ∈ assigned d [event], P v) : (view s' d).Holds P := by
  cases h with
  | call c _ h =>
    have hva : c.Covers d → ∀ e ∈ c.elements, P (c.slice d e.value) := by
      intro hc e he
      rw [slice_of_scalar ha.1 ha.2 hd hc (hc.2.1 ▸ hs) he]
      refine hass _ ?_
      simp only [assigned, flatMap_cons, flatMap_nil, append_nil, if_pos hc]
      exact mem_map_of_mem he
    have hwa : c.Covers d → ∀ t ∈ c.waveform s.now d, P t.value := by
      intro hc t ht
      obtain ⟨e, he, rfl⟩ := mem_map.mp ht
      exact hva hc e he
    cases h with
    | other _ hv => exact hv ▸ hP
    | stage hc _ _ hw hv =>
      rw [hv]
      exact hP.stage (hwa hc ⟨s.now, c.slice d c.value⟩ (by rw [hw]; simp))
    | assign hc _ hv =>
      rw [hv]
      exact hP.assign _ _ (hwa hc)
  | updatePhase _ h => exact h ▸ hP.update s.now
  | advance _ _ _ _ h => exact h ▸ hP

theorem run_holds (hin : Inv design s)
    (h :
      Along design (fun s event => event.Allowed design s ∧ event.TellsApart design s) s events)
    (hd : d.Valid design) (hs : design.Scalar d.signal) (hP : (view s d).Holds P)
    (ha : ∀ v ∈ assigned d events, P v) (hr : run design s events = some s') :
    (view s' d).Holds P := by
  induction events generalizing s with
  | nil =>
    obtain rfl : s = s' := Option.some.inj hr
    exact hP
  | cons event events ih =>
    obtain ⟨⟨hal, ht⟩, hre⟩ := h
    obtain ⟨s₁, hst, hi₁, hv⟩ := step_view hin hal ht
    have hsp : assigned d (event :: events) = assigned d [event] ++ assigned d events := by
      simp [assigned]
    rw [hsp] at ha
    obtain ⟨hf, hl⟩ := forall_mem_append.mp ha
    rw [run, hst] at hr
    exact ih hi₁ (hre s₁ hst) ((hv d hd).holds hd hs hal hP hf) hl hr

end Scalars

/-- The bits of a VHDL scalar stay aligned, its waveform is edited by whole
values, and it drives its initial value or an assigned one. -/
theorem scalar_run_aligned (design : Design) (driving : DriverKey → Logic9) (events : List Event)
    (h : Along design (fun s event => event.Allowed design s ∧ event.TellsApart design s)
      (State.start driving) events) : ∃ s, run design (State.start driving) events = some s ∧
      ∀ d : Element, d.Valid design → design.Scalar d.signal → Aligned s d ∧
        view s d = scalarRun d (drivingValue (State.start driving) d) events ∧
        (drivingValue s d = drivingValue (State.start driving) d ∨
          drivingValue s d ∈ assigned d events) := by
  have hstart := start_inv design driving
  obtain ⟨s, hrun, hinv, hfold⟩ := run_scalarRun hstart h
  refine ⟨s, hrun, fun d hd hs => ⟨hinv.aligned d hd, ?_, ?_⟩⟩
  · have hview := congrArg Prod.snd (hfold d hd hs)
    rwa [start_view] at hview
  · have hP : (view (State.start driving) d).Holds fun v =>
        v = drivingValue (State.start driving) d ∨ v ∈ assigned d events := by
      rw [start_view]
      exact ⟨by simp, by simp, .inl rfl⟩
    exact (run_holds hstart h hd hs hP (fun v hv => .inr hv) hrun).driving

-- A signal of three bits that form one VHDL scalar, driven by one process.
def scalarDesign : Design := ⟨fun _ => 3, fun _ => some 3⟩
def scalarElement : Element := ⟨0, 0, 0, 3⟩
def scalarStart : State := State.start fun key => if key.offset = 1 then .zero else .one
def assignScalar (value : Packed) (delay rejection : ℕ) : Event :=
  .call ⟨0, 0, [⟨value, delay⟩], none, rejection, .inertial⟩

def opposedAssignments : List Event :=
  [assignScalar [.zero, .zero, .zero] 3 3, assignScalar [.one, .one, .one] 5 5, .advance 3,
    .updatePhase, .advance 5, .updatePhase]

theorem opposedAssignments_aligned :
    ∃ s, run scalarDesign scalarStart opposedAssignments = some s ∧ Aligned s scalarElement ∧
      view s scalarElement =
        scalarRun scalarElement (drivingValue scalarStart scalarElement) opposedAssignments ∧
      (drivingValue s scalarElement = drivingValue scalarStart scalarElement ∨
        drivingValue s scalarElement ∈ assigned scalarElement opposedAssignments) := by
  obtain ⟨s, hrun, h⟩ := scalar_run_aligned scalarDesign
    (fun key => if key.offset = 1 then .zero else .one) opposedAssignments (by decide)
  have hvalid : scalarElement.Valid scalarDesign :=
    ⟨by decide, fun _ => ⟨rfl, rfl⟩, fun h => absurd rfl h⟩
  exact ⟨s, hrun, h scalarElement hvalid rfl⟩

-- `000 after 3` and then `011 after 5`: only the bit in which the two values
-- agree keeps the old transaction, so at time 3 the scalar turns from `101` into `001`.
def agreeingAssignments : List Event :=
  [assignScalar [.zero, .zero, .zero] 3 3, assignScalar [.one, .one, .zero] 5 5, .advance 3,
    .updatePhase]

theorem agreeingAssignments_drives_unassigned :
    Along scalarDesign (fun s event => event.Allowed scalarDesign s) scalarStart
      agreeingAssignments ∧
    ((run scalarDesign scalarStart (agreeingAssignments.take 2)).map fun s =>
      (List.range 3).map fun bit => (s.drivers (scalarElement.key bit)).length) = some [1, 1, 2] ∧
    ((run scalarDesign scalarStart agreeingAssignments).map fun s =>
      drivingValue s scalarElement) = some [.one, .zero, .zero] ∧
    drivingValue scalarStart scalarElement = [.one, .zero, .one] ∧
    assigned scalarElement agreeingAssignments = [[.zero, .zero, .zero], [.one, .one, .zero]] := by
  decide

section Ieee
variable {design : Design} {s s' : State} {d : Element} {event : Event} {i : Driver Packed}

theorem EventView.simulates (hd : d.Valid design) (ha : event.Allowed design s)
    (hk : event.KeepsStaged design s) (h : EventView s s' d event)
    (hs : Simulates s.now (view s d) i) :
    (ieeeStep d (s.now, i) event).1 = s'.now ∧
      Simulates s'.now (view s' d) (ieeeStep d (s.now, i) event).2 := by
  cases h with
  | call c hn h =>
    refine ⟨hn.symm, ?_⟩
    rw [hn]
    cases h with
    | other hc hv =>
      rw [hv, ieeeStep, if_neg hc]
      exact hs
    | stage hc hsh he hw hv =>
      obtain ⟨-, hm, hr, -⟩ := hsh
      rw [hv, ieeeStep, if_pos hc, hw, hm, hr]
      exact hs.stage he _
    | assign hc _ hv =>
      rw [hv, ieeeStep, if_pos hc]
      exact hs.assign (waveform_accepted ha.1 d)  (hk d (mem_targets hd ha.2 hc))
  | updatePhase hn h =>
    refine ⟨hn.symm, ?_⟩
    rw [hn, h]
    exact hs.update
  | advance t hn hst ht h =>
    refine ⟨hn.symm, ?_⟩
    rw [hn, h]
    exact hs.advance hst ht

theorem run_simulates {events : List Event} {i : Element → Driver Packed} (hin : Inv design s)
    (h : Along design (fun s event => event.Allowed design s ∧ event.TellsApart design s ∧
      event.KeepsStaged design s) s events)
    (hsi : ∀ d : Element, d.Valid design → Simulates s.now (view s d) (i d)) :
    ∃ s', run design s events = some s' ∧ ∀ d : Element, d.Valid design →
      Simulates s'.now (view s' d) (events.foldl (ieeeStep d) (s.now, i d)).2 := by
  induction events generalizing s i with
  | nil => exact ⟨s, rfl, hsi⟩
  | cons event events ih =>
    obtain ⟨⟨ha, ht, hk⟩, hr⟩ := h
    obtain ⟨s₁, hs, hi₁, hv⟩ := step_view hin ha ht
    have hn := fun d hd => (hv d hd).simulates hd ha hk (hsi d hd)
    obtain ⟨s₂, hru, hs₂⟩ := ih (i := fun d => (ieeeStep d (s.now, i d) event).2) hi₁
      (hr s₁ hs) fun d hd => (hn d hd).2
    refine ⟨s₂, by rw [run, hs]; exact hru, fun d hd => ?_⟩
    rw [foldl_cons, ← Prod.mk.eta (p := ieeeStep d (s.now, i d) event), (hn d hd).1]
    exact hs₂ d hd

end Ieee

/-- The pairs of time and value that mature on a scalar element are those of
the editing rule. -/
theorem matured_eq_ieee (design : Design) (driving : DriverKey → Logic9) (events : List Event)
    (h : Along design (fun s event => event.Allowed design s ∧ event.TellsApart design s ∧
      event.KeepsStaged design s) (State.start driving) events) :
    ∃ s, run design (State.start driving) events = some s ∧
      ∀ d : Element, d.Valid design → s.matured d = (ieeeRun d events).matured := by
  have hstart : ∀ d : Element, d.Valid design →
      Simulates 0 (view (State.start driving) d) Driver.idle := by
    intro d _
    rw [start_view]
    exact ⟨Waveform.Pending.nil 0, rfl, rfl⟩
  obtain ⟨s, hrun, hsim⟩ := run_simulates (start_inv design driving) h hstart
  exact ⟨s, hrun, fun d hd => (hsim d hd).matured.symm⟩

-- A signal of one bit, driven by one process.
def bitDesign : Design := ⟨fun _ => 1, fun _ => none⟩
def bitElement : Element := ⟨0, 0, 0, 1⟩
def assignBit (value : Logic9) (delay rejection : ℕ) : Event :=
  .call ⟨0, 0, [⟨[value], delay⟩], none, rejection, .inertial⟩

def keptPulse : List Event :=
  [assignBit .one 0 0, assignBit .zero 5 4, .updatePhase, .advance 5, .updatePhase]

theorem keptPulse_matured : ∃ s, run bitDesign (State.start fun _ => .zero) keptPulse = some s ∧
      s.matured bitElement = (ieeeRun bitElement keptPulse).matured := by
  obtain ⟨s, hrun, h⟩ := matured_eq_ieee bitDesign (fun _ => .zero) keptPulse (by decide)
  have hvalid : bitElement.Valid bitDesign :=
    ⟨by decide, fun h => absurd h (by decide), fun _ => rfl⟩
  exact ⟨s, hrun, h bitElement hvalid⟩

-- `s <= '1'; s <= '0' after 5 ns;` rejects the first value, which is staged already.
def rejectedPulse : List Event :=
  [assignBit .one 0 0, assignBit .zero 5 5, .updatePhase, .advance 5, .updatePhase]

theorem rejectedPulse_matures :
    Along bitDesign (fun s event => event.Allowed bitDesign s ∧ event.TellsApart bitDesign s)
      (State.start fun _ => .zero) rejectedPulse ∧
    ((run bitDesign (State.start fun _ => .zero) rejectedPulse).map fun s =>
      s.matured bitElement) = some [⟨0, [.one]⟩, ⟨5, [.zero]⟩] ∧
    (ieeeRun bitElement rejectedPulse).matured = [⟨5, [.zero]⟩] := by decide

end FsimRuntime.Projected
