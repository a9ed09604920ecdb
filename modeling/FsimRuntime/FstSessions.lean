import FsimRuntime.FstPublication

/-!
# Writer sessions

A session declares, begins, gives initial values and changes with flushes
between them, and closes. What it publishes depends on the changes and the
initial values as multisets only; changes that cannot be ordered, or that lie
behind the final time, keep it from publishing.
-/

namespace FsimRuntime.Fst

open KeyedSort List

namespace FstWriter

section Calls

variable {writer writer' : FstWriter} {settings : FstSettings} {model : TraceDeclarationModel}
variable {initialTime : ℕ} {calls : List Call}

def Call.changed : Call → Option Change
  | .change event value => some (event, value)
  | _ => none

def Call.initial : Call → Option (ℕ × FstEncodedValue)
  | .setInitialValue signal value => some (signal, value)
  | _ => none

def changesOf (calls : List Call) : List Change := calls.filterMap Call.changed

def initialValuesOf (calls : List Call) : List (ℕ × FstEncodedValue) :=
  calls.filterMap Call.initial

theorem changesOf_snoc (c : Call) :
    changesOf (calls ++ [c]) = changesOf calls ++ c.changed.toList := by
  cases hc : c.changed <;> simp [changesOf, hc]

theorem initialValuesOf_snoc (c : Call) :
    initialValuesOf (calls ++ [c]) = initialValuesOf calls ++ c.initial.toList := by
  cases hc : c.initial <;> simp [initialValuesOf, hc]

structure Opened (settings : FstSettings) (model : TraceDeclarationModel) (initialTime : ℕ)
    (calls : List Call) (writer : FstWriter) : Prop where
  state : writer.state = .open
  output : writer.output = []
  declarations : writer.declarations = some model
  settings : writer.settings = settings
  initialTime : writer.initialTime = initialTime
  staged : Staged writer
  changes : (writer.staging.events.map changeOf).Perm (changesOf calls)
  initialValues : writer.initialValues = initialValuesOf calls
  distinct : (writer.initialValues.map (·.1)).Nodup

theorem inState_ok {state : FstWriterState} {message : String} {o : Outcome}
    (h : writer.inState state message o = (writer', .ok ())) :
    writer.state = state ∧ o = (writer', .ok ()) := by
  rw [inState] at h
  split at h
  · nomatch h
  · split at h
    · next hs => exact ⟨hs, h⟩
    · nomatch h

variable {value : FstEncodedValue} {c : Call} {signal : ℕ} {m : List Call}

theorem change_ok {event : TraceEvent} (h : writer.change event value = (writer', .ok ())) :
    writer.initialTime ≤ event.time ∧ ∃ staging,
      stageSpoolEvent eventKey writer.limits writer.retainedBytes
        (writer.limits.maximumEventWorkBytes / 2) writer.staging
        { event := event, insertionOrder := writer.nextInsertionOrder, value := value } =
        .ok staging ∧
      writer' = { writer with
        staging := staging
        eventCount := writer.eventCount + 1
        nextInsertionOrder := writer.nextInsertionOrder + 1 } := by
  obtain ⟨-, h⟩ := inState_ok h
  split at h
  · nomatch h
  · next ht =>
    split at h
    · nomatch h
    · split at h
      · nomatch h
      · split at h
        · nomatch h
        · next staging hs =>
          cases h
          obtain ⟨_, -, hs⟩ := bind_ok.mp hs
          obtain ⟨_, -, hs⟩ := bind_ok.mp hs
          exact ⟨not_lt.mp ht, staging, hs, rfl⟩

theorem setInitialValue_ok (h : writer.setInitialValue signal value = (writer', .ok ())) :
    writer.initialValues.lookup signal = none ∧
      writer' = { writer with
        initialValues := writer.initialValues ++ [(signal, value)]
        retainedBytes := writer.retainedBytes + bufferedValueBytes value 8 } := by
  obtain ⟨-, h⟩ := inState_ok h
  split at h
  · nomatch h
  · dsimp only at h
    split at h
    · nomatch h
    · split at h
      · nomatch h
      · next hn =>
        split at h
        · nomatch h
        · cases h
          exact ⟨Option.not_isSome_iff_eq_none.mp hn, rfl⟩

section
variable (h : Opened settings model initialTime calls writer)
include h

theorem Opened.change {e : TraceEvent} (hc : writer.change e value = (writer', .ok ())) :
    Opened settings model initialTime (calls ++ [.change e value]) writer' := by
  obtain ⟨ht, s, hst, rfl⟩ := change_ok hc
  obtain ⟨hp, hs⟩ := stage_ok h.staged.sorted hst
  refine { h with staged := ⟨hs, ?_⟩, changes := ?_, initialValues := ?_ }
  · intro staged hm
    rcases mem_append.mp (hp.mem_iff.mp hm) with hm | hm
    · exact h.staged.begun staged hm
    · rw [mem_singleton.mp hm]
      exact ht
  · rw [changesOf_snoc]
    refine (hp.map changeOf).trans ?_
    rw [map_append]
    exact h.changes.append_right _
  · rw [initialValuesOf_snoc]
    simpa [Call.initial] using h.initialValues

theorem Opened.setInitialValue (hc : writer.setInitialValue signal value = (writer', .ok ())) :
    Opened settings model initialTime (calls ++ [.setInitialValue signal value]) writer' := by
  obtain ⟨hn, rfl⟩ := setInitialValue_ok hc
  refine ⟨h.state, h.output, h.declarations, h.settings, h.initialTime,
    ⟨h.staged.sorted, h.staged.begun⟩, ?_, ?_, ?_⟩
  · rw [changesOf_snoc]
    simpa [Call.changed] using h.changes
  · rw [initialValuesOf_snoc, ← h.initialValues]
    rfl
  · simp only [map_append, map_cons]
    refine nodup_append.mpr ⟨h.distinct, by simp, fun a ha b hb => ?_⟩
    obtain ⟨entry, he, rfl⟩ := mem_map.mp ha
    obtain rfl := mem_singleton.mp hb
    rintro rfl
    simpa using lookup_eq_none_iff.mp hn entry he

theorem Opened.flush (hc : writer.flush = (writer', .ok ())) :
    Opened settings model initialTime (calls ++ [.flush]) writer' := by
  obtain ⟨-, hc⟩ := inState_ok hc
  cases hc
  have hs : (spillEventBuffer eventKey writer.staging).events.Perm writer.staging.events :=
    spill_events
  refine ⟨h.state, h.output, h.declarations, h.settings, h.initialTime,
    ⟨spill_sorted h.staged.sorted, fun e he => h.staged.begun e (hs.mem_iff.mp he)⟩,
    ?_, ?_, h.distinct⟩
  · rw [changesOf_snoc]
    simpa [Call.changed] using (hs.map changeOf).trans h.changes
  · rw [initialValuesOf_snoc]
    simpa [Call.initial] using h.initialValues

theorem Opened.call (hc : writer.call c = (writer', .ok ())) :
    Opened settings model initialTime (calls ++ [c]) writer' ∨ writer'.state = .complete := by
  cases c with
  | declare o | begin t =>
    obtain ⟨hs, -⟩ := inState_ok hc
    exact absurd (h.state.symm.trans hs) (by decide)
  | setInitialValue signal value =>
    exact .inl (h.setInitialValue hc)
  | change e value =>
    exact .inl (h.change hc)
  | flush =>
    exact .inl (h.flush hc)
  | close finalTime =>
    obtain ⟨-, hc⟩ := inState_ok hc
    split at hc
    · nomatch hc
    · cases hc
      exact .inr rfl

end

theorem run_cons_ok (h : writer.run (c :: calls) = (writer', .ok ())) :
    ∃ next, writer.call c = (next, .ok ()) ∧ next.run calls = (writer', .ok ()) := by
  rw [run] at h
  split at h
  · next next hc => exact ⟨next, hc, h⟩
  · nomatch h

theorem call_state (h : writer.call c = (writer', .ok ())) :
    writer.state = .configuring ∨ writer.state = .open := by
  cases c with
  | declare model | begin t =>
    exact .inl (inState_ok h).1
  | setInitialValue signal value | change e value | flush | close finalTime =>
    exact .inr (inState_ok h).1

theorem complete_run (hs : writer.state = .complete)
    (h : writer.run calls = (writer', .ok ())) : writer' = writer ∧ calls = [] := by
  cases calls with
  | nil =>
    cases h
    exact ⟨rfl, rfl⟩
  | cons c calls =>
    obtain ⟨next, hc, -⟩ := run_cons_ok h
    rcases call_state hc with ho | ho <;>
      exact absurd (hs.symm.trans ho) (by decide)

theorem Opened.run (h : Opened settings model initialTime calls writer)
    (hr : writer.run m = (writer', .ok ())) (hs : writer'.state = .open) :
    Opened settings model initialTime (calls ++ m) writer' := by
  induction m generalizing calls writer with
  | nil =>
    cases hr
    rwa [append_nil]
  | cons c m ih =>
    obtain ⟨next, hc, hr⟩ := run_cons_ok hr
    rcases h.call hc with hn | hd
    · have := ih hn hr
      rwa [append_assoc] at this
    · rw [(complete_run hd hr).1, hd] at hs
      nomatch hs

theorem run_append_ok (h : writer.run (calls ++ m) = (writer', .ok ())) :
    ∃ next, writer.run calls = (next, .ok ()) ∧ next.run m = (writer', .ok ()) := by
  induction calls generalizing writer with
  | nil => exact ⟨writer, rfl, h⟩
  | cons c calls ih =>
    obtain ⟨next, hc, h⟩ := run_cons_ok h
    obtain ⟨l, hl, h⟩ := ih h
    exact ⟨l, by rw [run, hc]; exact hl, h⟩

def opening (model : TraceDeclarationModel) (initialTime : ℕ) : List Call :=
  [.declare model, .begin initialTime]

theorem opened_of_create {limits : FstWriterLimits} (hc : create limits settings = .ok writer)
    (h : writer.run (opening model initialTime) = (writer', .ok ())) :
    Opened settings model initialTime [] writer' := by
  obtain ⟨_, -, hc⟩ := bind_ok.mp hc
  obtain ⟨_, -, hc⟩ := bind_ok.mp hc
  cases hc
  obtain ⟨declared, hd, h⟩ := run_cons_ok h
  obtain ⟨begun, hb, h⟩ := run_cons_ok h
  cases h
  rw [FstWriter.call, declare] at hd
  dsimp only at hd
  split at hd
  · cases hd
    rw [FstWriter.call, FstWriter.begin] at hb
    split at hb
    · nomatch hb
    · cases hb
      exact ⟨rfl, rfl, rfl, rfl, rfl, ⟨empty_sorted, nofun⟩, .refl _, rfl, nodup_nil⟩
  · nomatch hd
  · nomatch hd

end Calls

section Publication

theorem lookup_perm {α β : Type} [BEq α] [LawfulBEq α] {l l' : List (α × β)} (h : l.Perm l')
    (hn : (l.map (·.1)).Nodup) (a : α) : l.lookup a = l'.lookup a := by
  induction h with
  | nil => rfl
  | cons x _ ih =>
    rw [lookup_cons, lookup_cons, ih (nodup_cons.mp hn).2]
  | swap x y l =>
    obtain ⟨x, v⟩ := x
    obtain ⟨y, w⟩ := y
    have hne : y ≠ x := by
      simp only [map_cons, nodup_cons, mem_cons, not_or] at hn
      exact hn.1.1
    simp only [lookup_cons]
    cases hx : a == x <;> cases hy : a == y <;>
      first | rfl | exact absurd ((eq_of_beq hy).symm.trans (eq_of_beq hx)) hne
  | trans h₁ _ ih₁ ih₂ =>
    exact (ih₁ hn).trans (ih₂ ((h₁.map _).nodup_iff.mp hn))

variable {limits limits' : FstWriterLimits} {settings : FstSettings} {writer writer' : FstWriter}
variable {model : TraceDeclarationModel} {initialTime finalTime : ℕ} {calls calls' : List Call}

theorem contentOf_congr {initial initial' : List (ℕ × FstEncodedValue)}
    {handles : Handles} {changes : List Change} (h : initial.Perm initial')
    (hno : (initial.map (·.1)).Nodup) :
    contentOf initialTime initial handles changes =
    contentOf initialTime initial' handles changes := by
  have he : initial.isEmpty = initial'.isEmpty := by
    rw [Bool.eq_iff_iff, List.isEmpty_iff, List.isEmpty_iff]
    exact ⟨fun hn => List.Perm.eq_nil (hn ▸ h.symm), fun hn => List.Perm.eq_nil (hn ▸ h)⟩
  have hc : initialChain initial = initialChain initial' :=
    funext fun signal => by rw [initialChain, initialChain, lookup_perm h hno]
  rw [contentOf, contentOf, initialTimes, initialTimes, he, hc]

theorem close_ok (h : writer.close finalTime = (writer', .ok ())) :
    ∃ bytes, writer.publishContainer finalTime = .ok bytes ∧
      writer'.output = writer.output ++ bytes := by
  obtain ⟨-, h⟩ := inState_ok h
  split at h
  · nomatch h
  · next bytes hb =>
    cases h
    exact ⟨bytes, hb, rfl⟩

theorem fail_output (message : String) : (writer.fail message).output = writer.output := by
  rw [fail]
  split <;> rfl

theorem close_error {e : Error} (h : writer.close finalTime = (writer', .error e)) :
    writer'.output = writer.output := by
  rw [close, inState] at h
  split at h
  · cases h
    rfl
  · split at h
    · split at h
      · cases h
        exact fail_output _
      · nomatch h
    · cases h
      exact fail_output _

theorem Opened.close (h : Opened settings model initialTime calls writer)
    (hc : writer.close finalTime = (writer', .ok ())) : ∃ handles hib changes,
      hierarchy writer.limits model = .ok (handles, hib) ∧
      Increasing (fun change : Change => change.1.identity) changes ∧
      changes.Perm (changesOf calls) ∧ (∀ change ∈ changes, change.1.time ≤ finalTime) ∧
      writer'.output = containerOf settings model handles hib initialTime finalTime
        (initialValuesOf calls) changes := by
  obtain ⟨bytes, hp, ho⟩ := close_ok hc
  obtain ⟨declared, handles, hib, changes, hd, hh, hin, hpe, hit,
    rfl⟩ := publishContainer_ok h.staged hp
  obtain rfl : model = declared := Option.some.inj (h.declarations.symm.trans hd)
  refine ⟨handles, hib, changes, hh, hin, hpe.trans h.changes, hit, ?_⟩
  rw [ho, h.output, nil_append, h.settings, h.initialTime, h.initialValues]

theorem opened_of_run (hc : create limits settings = .ok writer)
    (h : writer.run (opening model initialTime ++ calls) = (writer', .ok ()))
    (hs : writer'.state = .open) : Opened settings model initialTime calls writer' := by
  obtain ⟨o, ho, h⟩ := run_append_ok h
  exact (opened_of_create hc ho).run h hs

theorem session_ok (hcr : create limits settings = .ok writer)
    (h : writer.run (opening model initialTime ++ calls ++ [.close finalTime]) =
      (writer', .ok ())) :
    ∃ l, Opened settings model initialTime calls l ∧ l.close finalTime = (writer', .ok ()) := by
  obtain ⟨l, hl, h⟩ := run_append_ok h
  obtain ⟨closed, hc, h⟩ := run_cons_ok h
  cases h
  rw [FstWriter.call] at hc
  have hs : l.state = .open := by
    exact (inState_ok hc).1
  exact ⟨l, opened_of_run hcr hl hs, hc⟩

theorem Opened.close_rejected (h : Opened settings model initialTime calls writer)
    (hb : ¬ ((changesOf calls).map (·.1.identity)).Nodup ∨
      ∃ change ∈ changesOf calls, finalTime < change.1.time) :
    (writer.close finalTime).2 ≠ .ok () ∧ (writer.close finalTime).1.output = [] := by
  cases hr : (writer.close finalTime).2 with
  | error error => exact ⟨nofun, (close_error (Prod.ext rfl hr)).trans h.output⟩
  | ok =>
    obtain ⟨_, _, changes, -, hin, hp, hit, -⟩ := h.close (Prod.ext rfl hr)
    rcases hb with hd | ⟨change, hm, hl⟩
    · exact absurd ((hp.map fun change : Change => change.1.identity).nodup_iff.mp hin.nodup) hd
    · exact absurd (hit change (hp.mem_iff.mpr hm)) (not_le.mpr hl)

/-- The bytes published depend on the changes and on the initial values as multisets, and not on
the limits; changes that repeat an identity or lie behind the final time are not published. -/
theorem close_bytes_of_changes (hcreate : create limits settings = .ok writer)
    (hcreate' : create limits' settings = .ok writer')
    (hchanges : (changesOf calls).Perm (changesOf calls'))
    (hinitial : (initialValuesOf calls).Perm (initialValuesOf calls')) :
    ((writer.run (opening model initialTime ++ calls ++ [.close finalTime])).2 = .ok () →
      (writer'.run (opening model initialTime ++ calls' ++ [.close finalTime])).2 = .ok () →
      (writer.run (opening model initialTime ++ calls ++ [.close finalTime])).1.output =
        (writer'.run (opening model initialTime ++ calls' ++ [.close finalTime])).1.output) ∧
    ((writer.run (opening model initialTime ++ calls)).2 = .ok () →
      (writer.run (opening model initialTime ++ calls)).1.state = .open →
      (¬ ((changesOf calls).map (·.1.identity)).Nodup ∨
        ∃ change ∈ changesOf calls, finalTime < change.1.time) →
      ((writer.run (opening model initialTime ++ calls)).1.close finalTime).2 ≠ .ok () ∧
        ((writer.run (opening model initialTime ++ calls)).1.close finalTime).1.output = []) := by
  constructor
  · intro hrun hrun'
    obtain ⟨last, hopened, hclose⟩ := session_ok hcreate (Prod.ext rfl hrun)
    obtain ⟨last', hopened', hclose'⟩ := session_ok hcreate' (Prod.ext rfl hrun')
    obtain ⟨handles, bytes, changes, hhierarchy, hincreasing, hperm, -, hout⟩ :=
      hopened.close hclose
    obtain ⟨handles', bytes', changes', hhierarchy', hincreasing', hperm', -, hout'⟩ :=
      hopened'.close hclose'
    obtain ⟨rfl, rfl⟩ := Prod.mk.inj (hierarchy_agree _ _ hhierarchy hhierarchy')
    have hsame : changes = changes' :=
      hincreasing.eq_of_perm hincreasing' (hperm.trans (hchanges.trans hperm'.symm))
    rw [hout, hout', hsame, containerOf, containerOf,
      contentOf_congr hinitial (hopened.initialValues ▸ hopened.distinct)]
  · intro hrun hstate hbad
    exact (opened_of_run hcreate (Prod.ext rfl hrun) hstate).close_rejected hbad

def bitModel : TraceDeclarationModel :=
  ⟨[], [⟨.packed, 1, .none, []⟩], [⟨.hdl, .unknown, [], [], [], ascii "a"⟩],
    [⟨1, 0, 1, 1, ascii "a", ascii "a"⟩], [], [⟨1, .variable⟩]⟩

def bitLow : FstEncodedValue := ⟨.bitVector, 1, ascii "0", 0, [], by decide⟩

def bitHigh : FstEncodedValue := ⟨.bitVector, 1, ascii "1", 0, [], by decide⟩

def bitSettings : FstSettings := ⟨-9, .deterministic⟩

def bitRise : Call := .change ⟨1, 1, 0, .active, 0⟩ bitHigh

def bitFall : Call := .change ⟨1, 2, 0, .active, 0⟩ bitLow

def narrowLimits : FstWriterLimits := { maximumBufferBytes := 300, maximumEventWorkBytes := 3060 }

def wideWriter : FstWriter := { settings := bitSettings, limits := {} }

def narrowWriter : FstWriter := { settings := bitSettings, limits := narrowLimits }

def inOrder : List Call := [.setInitialValue 1 bitLow, bitRise, bitFall]

def shuffled : List Call := [bitFall, bitRise, .flush, .setInitialValue 1 bitLow]

example : (narrowWriter.run (opening bitModel 0 ++ shuffled.take 2)).1.staging.runs.flatten.length =
    1 := by
  decide +kernel

theorem oneBit_close_bytes :
    (wideWriter.run (opening bitModel 0 ++ inOrder ++ [.close 2])).2 = .ok () ∧
      (narrowWriter.run (opening bitModel 0 ++ shuffled ++ [.close 2])).2 = .ok () ∧
      (wideWriter.run (opening bitModel 0 ++ inOrder ++ [.close 2])).1.output =
        (narrowWriter.run (opening bitModel 0 ++ shuffled ++ [.close 2])).1.output ∧
      ((narrowWriter.run (opening bitModel 0 ++ [bitRise, bitFall, bitRise])).1.close 2).2 ≠ .ok
      () ∧
      ((narrowWriter.run (opening bitModel 0 ++ [bitRise, bitFall])).1.close 1).2 ≠ .ok () := by
  have hwide : create {} bitSettings = .ok wideWriter := by decide +kernel
  have hnarrow : create narrowLimits bitSettings = .ok narrowWriter := by decide +kernel
  have hinOrder : (wideWriter.run (opening bitModel 0 ++ inOrder ++ [.close 2])).2 = .ok () := by
    decide +kernel
  have hshuffled : (narrowWriter.run (opening bitModel 0 ++ shuffled ++ [.close 2])).2 =
      .ok () := by
    decide +kernel
  refine ⟨hinOrder, hshuffled,
    (close_bytes_of_changes hwide hnarrow (by decide) (by decide)).1 hinOrder hshuffled, ?_, ?_⟩
  · exact ((close_bytes_of_changes hnarrow hnarrow (.refl _) (.refl _)).2 (by decide +kernel)
      (by decide +kernel) (.inl (by decide +kernel))).1
  · exact ((close_bytes_of_changes hnarrow hnarrow (.refl _) (.refl _)).2 (by decide +kernel)
      (by decide +kernel) (.inr ⟨_, .tail _ (.head _), by decide⟩)).1

end Publication

end FstWriter

end FsimRuntime.Fst
