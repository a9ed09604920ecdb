import FsimRuntime.SchedulerTracking

/-!
# The regions of a time slot

Which work a phase, a batch or an end-of-slot callback waits for, and when work
for a region that runs or has run is executed.
-/

namespace FsimRuntime.Scheduler

open Queue Option List

section Adding

structure Core.Adds (s s' : Core) (slot : CurrentSlot) (place : Place) (new : List Entry) :
    Prop where
  current : s'.current = some
    { slot with queues := Function.update slot.queues place (slot.queues place ++ new) }
  future : s'.future = s.future
  reserved : s'.reserved = s.reserved
  trace : s'.trace = s.trace
  loads : s'.loads = s.loads
  sequences : new.map Entry.sequence = range' s.nextSequence new.length
  next : s.nextSequence + new.length ≤ s'.nextSequence

variable {s s' : Core} {slot : CurrentSlot} {place : Place} {new : List Entry} {T : Tracker}
  {n o time : ℕ} {phase : Phase} {m made m' : Machine} {e : Entry}

theorem Core.Adds.refl (hs : s.current = some slot) (place : Place) : s.Adds s slot place [] :=
  ⟨by simp [hs], rfl, rfl, rfl, rfl, rfl, le_rfl⟩

theorem Core.Adds.cons {s₁ s₂ : Core}
    (h : s.Adds s₁ slot place [e]) (hn : s₁.nextSequence = s.nextSequence + 1)
    (h' : s₁.Adds s₂ (slot.push place e) place new) : s.Adds s₂ slot place (e :: new) := by
  have hs : e.sequence = s.nextSequence := by simpa using h.sequences
  refine ⟨?_, h'.future.trans h.future, h'.reserved.trans h.reserved, h'.trace.trans h.trace,
    h'.loads.trans h.loads, ?_, ?_⟩
  · rw [h'.current]
    simp [CurrentSlot.push]
  · rw [map_cons, h'.sequences, hn, hs, length_cons, range'_succ]
  · have hl := h'.next
    rw [hn] at hl
    simpa [Nat.add_comm, Nat.add_left_comm] using hl

theorem Tracker.Tracks.of_adds (h : s.Wf) (ha : s.Adds s' slot place new)
    (hsl : s.current = some slot) (hn : s.nextSequence ≤ n) (hl : n < s'.nextSequence)
    (hh : ∀ e ∈ new, e.sequence = n → T.holds s.loads slot place e) : T.Tracks n s' := by
  have hne {k : ℕ} (hk : k < s.nextSequence) : k ≠ n := Nat.ne_of_lt (hk.trans_le hn)
  refine ⟨hl, fun key hke => ?_, fun slot' hs' p' e he hs => ?_, fun t ht ht' => ?_,
    fun event he he' => ?_⟩
  · exact hne (h.reserved key (ha.reserved ▸ hke))
  · obtain rfl := some.inj (ha.current.symm.trans hs')
    simp only [Function.update_apply] at he
    have hold (hm : e ∈ slot.queues p') : False :=
      hne (h.queued slot hsl p' e hm) hs
    split at he
    · next heq =>
      rcases mem_append.mp he with hm | hm
      · exact (hold (heq ▸ hm)).elim
      · rw [heq, ha.loads]
        have hq : slot.Quiet { slot with
            queues := (Function.update slot.queues place (slot.queues place ++ new)) } place :=
          ⟨rfl, rfl, rfl, rfl, fun _ => rfl⟩
        exact T.quiet hq (hh e hm hs)
    · exact (hold he).elim
  · exact absurd ht' (hne (h.future t (ha.future ▸ ht)))
  · exact absurd he' (hne (h.executed event (ha.trace ▸ he)).1)

structure Machine.MakesFresh (m made : Machine) (e : Entry) : Prop where
  core : ∃ slots, made.toCore =
    { m.toCore with slots := slots, nextSequence := m.nextSequence + 1 }
  sequence : e.sequence = m.nextSequence

namespace Machine

theorem MakesFresh.current (h : m.MakesFresh made e) : made.current = m.current := by
  obtain ⟨slots, hc⟩ := h.core
  rw [hc]

theorem MakesFresh.now (h : m.MakesFresh made e) : made.now = m.now := by
  obtain ⟨slots, hc⟩ := h.core
  rw [hc]

theorem makeEntry_fresh {t : EntryTask} {c : Option Identity}
    (h : m.makeEntry o t c = .ok (e, made)) : m.MakesFresh made e := by
  rw [makeEntry] at h
  split at h
  · cases h
  · cases h
    exact ⟨⟨m.slots, rfl⟩, rfl⟩

theorem makeCancelable_fresh (m : Machine) (o : ℕ) (t : Callback) : m.MakesFresh
      ({ m with nextSequence := m.nextSequence + 1 }.makeCancelable o m.nextSequence t).2.2
      ({ m with nextSequence := m.nextSequence + 1 }.makeCancelable o m.nextSequence t).1 :=
  ⟨⟨_, rfl⟩, rfl⟩

theorem MakesFresh.adds_nil (h : m.MakesFresh made e) (hs : m.current = some slot)
    (place : Place) : m.toCore.Adds made.toCore slot place [] := by
  obtain ⟨slots, hc⟩ := h.core
  rw [hc]
  exact ⟨by simp [hs], rfl, rfl, rfl, rfl, rfl, Nat.le_succ _⟩

theorem MakesFresh.pushCurrent (h : m.MakesFresh made e) (place : Place) :
    m.toCore.Adds (made.pushCurrent slot place e).toCore slot place [e] := by
  obtain ⟨⟨slots, hc⟩, hs⟩ := h
  refine ⟨rfl, ?_, ?_, ?_, ?_, by simp [hs], ?_⟩ <;> simp [Machine.pushCurrent, hc]

theorem adds_revision {k : ℕ} {c : Prop} [Decidable c] (h : s.Adds m'.toCore slot place new) :
    s.Adds (if c then { m' with revision := k } else m').toCore slot place new := by
  split <;> exact h

section
variable (h : m.MakesFresh made e) (hw : m.toCore.Wf) (hs : m.current = some slot)
include h hw hs

theorem MakesFresh.enqueueAt {a : Bool} (ho : made.enqueueAt m.now phase e a = .ok m') :
    m.toCore.Adds m'.toCore slot (genericTarget slot
      (if a then phase.adjustReactive slot.genericPhase else phase)) [e] := by
  rw [Machine.enqueueAt, h.now, if_neg (lt_irrefl _), h.current, hs] at ho
  simp only [hw.time slot hs] at ho
  cases ho
  exact adds_revision (h.pushCurrent _)

theorem MakesFresh.enqueueSystemverilogAt
    (ho : made.enqueueSystemverilogAt m.now phase e = .ok m') : m.toCore.Adds m'.toCore slot
      (.systemverilog (phase.adjustReactive slot.systemverilogPhase)) [e] := by
  rw [Machine.enqueueSystemverilogAt, h.now, if_neg (lt_irrefl _), h.current, hs] at ho
  simp only [hw.time slot hs] at ho
  cases ho
  exact adds_revision (h.pushCurrent _)

end

theorem MakesFresh.adds_finish {response : Response} {result : Except Error Machine}
    (h : m.MakesFresh made e) (hs : m.current = some slot)
    (ho : ∀ m', result = .ok m' → m.toCore.Adds m'.toCore slot place [e]) :
    ∃ new, m.toCore.Adds (finish made response result).1.toCore slot place new := by
  cases result with
  | ok m' => exact ⟨[e], ho m' rfl⟩
  | error => exact ⟨[], h.adds_nil hs place⟩

end Machine

end Adding

namespace Machine

variable {m : Machine} {slot : CurrentSlot} {o time : ℕ} {phase : Phase}

def requestedRegion (m : Machine) : Op → Option (ℕ × Phase)
  | .scheduleSystemverilogAt time phase _ _ => some (time, phase)
  | .scheduleSystemverilogAfter delay phase _ _
  | .scheduleSystemverilogAfterCancelable delay phase _ _ => some (m.now + delay, phase)
  | .scheduleSystemverilog phase _ _
  | .scheduleSystemverilogGroupBatchable phase _ _
  | .scheduleSystemverilogReadinessMember phase _ _ => some (m.now, phase)
  | .commitSystemverilogGroupBatch _ _
  | .commitSystemverilogCompactGroupBatch _ _ _ => some (m.now, .active)
  | _ => none

/-- The time and phase an operation schedules generic work for, and whether the reactive set
takes Inactive and Update work. -/
def requestedPhase (m : Machine) : Op → Option (ℕ × Phase × Bool)
  | .scheduleAt time phase _ _ => some (time, phase, true)
  | .scheduleAfter delay phase _ _ => some (m.now + delay, phase, true)
  | .schedule phase _ _ => some (m.now, phase, true)
  | .scheduleAfterCancelable delay phase _ _ => some (m.now + delay, phase, false)
  | _ => none

variable {t : EntryTask} {members : List (ℕ × EntryTask)} {a : Bool} {op : Op}

theorem scheduleAt_adds (hw : m.toCore.Wf) (hs : m.current = some slot) :
    ∃ new, m.toCore.Adds (m.scheduleAt m.now phase o t).1.toCore slot
      (genericTarget slot (phase.adjustReactive slot.genericPhase)) new := by
  rw [scheduleAt]
  split
  · exact ⟨[], .refl hs _⟩
  · split
    · next hm =>
      have hf := makeEntry_fresh hm
      exact hf.adds_finish hs fun _ => hf.enqueueAt hw hs
    · exact ⟨[], .refl hs _⟩

theorem scheduleSystemverilogAt_adds (hw : m.toCore.Wf) (hs : m.current = some slot) :
    ∃ new, m.toCore.Adds (m.scheduleSystemverilogAt m.now phase o t).1.toCore slot
      (.systemverilog (phase.adjustReactive slot.systemverilogPhase)) new := by
  rw [scheduleSystemverilogAt]
  split
  · next hm =>
    have hf := makeEntry_fresh hm
    exact hf.adds_finish hs fun _ => hf.enqueueSystemverilogAt hw hs
  · exact ⟨[], .refl hs _⟩

theorem commitMembers_adds {round : ℕ} (hs : m.current = some slot) :
    ∃ new, m.toCore.Adds (m.commitMembers slot round members).1.toCore slot
        (.systemverilog .active) new ∧ (∀ e ∈ new, e.cancellation = none) ∧
      new.map Entry.task = members.map Prod.snd ∧
      (m.commitMembers slot round members).2 = new.map fun e =>
        some ⟨slot.time, slot.delta, round, .active, e.order, e.sequence⟩ := by
  induction members generalizing m slot with
  | nil => exact ⟨[], .refl hs _, forall_mem_nil _, rfl, rfl⟩
  | cons member members ih =>
    let e : Entry := ⟨member.1, m.nextSequence, member.2, none⟩
    have hf : m.MakesFresh { m with nextSequence := m.nextSequence + 1 } e :=
      ⟨⟨m.slots, rfl⟩, rfl⟩
    obtain ⟨new, ha, hp, ht, hr⟩ := ih (m := { m with
      nextSequence := m.nextSequence + 1
      current := some (slot.push (.systemverilog .active) e) }) rfl
    refine ⟨e :: new, (hf.pushCurrent _).cons rfl ha, ?_, ?_, ?_⟩
    · exact forall_mem_cons.mpr ⟨rfl, hp⟩
    · rw [map_cons, map_cons, ht]
    · simp only [commitMembers]
      rw [hr]
      rfl

theorem commitGroup_adds (hs : m.current = some slot) :
    ∃ new, m.toCore.Adds (m.commitGroup a members).1.toCore slot
      (.systemverilog .active) new := by
  simp only [commitGroup, hs]
  split
  · split
    · obtain ⟨new, ha, -⟩ := commitMembers_adds hs
      exact ⟨new, ha⟩
    · exact ⟨[], .refl hs _⟩
  · exact ⟨[], .refl hs _⟩

theorem adjustReactive_active (executing : Option Phase) :
    Phase.active.adjustReactive executing = .active := by
  unfold Phase.adjustReactive
  split <;> rfl

theorem perform_adds_region (hw : m.toCore.Wf) (hs : m.current = some slot)
    (ho : m.requestedRegion op = some (m.now, phase)) :
    ∃ new, m.toCore.Adds (m.perform op).1.toCore slot
      (.systemverilog (phase.adjustReactive slot.systemverilogPhase)) new := by
  cases op with
  | scheduleSystemverilogAt | scheduleSystemverilog =>
    cases ho
    exact scheduleSystemverilogAt_adds hw hs
  | scheduleSystemverilogAfter delay =>
    simp only [requestedRegion, some.injEq, Prod.mk.injEq] at ho
    obtain ⟨hn, rfl⟩ := ho
    simp only [perform, scheduleSystemverilogAfter, hn]
    split
    · exact ⟨[], .refl hs _⟩
    · exact scheduleSystemverilogAt_adds hw hs
  | scheduleSystemverilogAfterCancelable delay phase o t =>
    simp only [requestedRegion, some.injEq, Prod.mk.injEq] at ho
    obtain ⟨hn, rfl⟩ := ho
    simp only [perform, scheduleSystemverilogAfterCancelable, hn]
    split
    · exact ⟨[], .refl hs _⟩
    · split
      · exact ⟨[], .refl hs _⟩
      · have hf := makeCancelable_fresh m o t
        exact hf.adds_finish hs fun _ => hf.enqueueSystemverilogAt hw hs
  | scheduleSystemverilogGroupBatchable | scheduleSystemverilogReadinessMember =>
    cases ho
    simp only [perform, scheduleSystemverilogGroupBatchable]
    split
    · next hm =>
      have hf := makeEntry_fresh hm
      exact hf.adds_finish hs fun _ => hf.enqueueSystemverilogAt hw hs
    · exact ⟨[], .refl hs _⟩
  | commitSystemverilogGroupBatch | commitSystemverilogCompactGroupBatch =>
    cases ho
    rw [adjustReactive_active]
    exact commitGroup_adds hs
  | _ => cases ho

theorem perform_adds_phase (hw : m.toCore.Wf)
    (hs : m.current = some slot) (ho : m.requestedPhase op = some (m.now, phase, a)) :
    ∃ new, m.toCore.Adds (m.perform op).1.toCore slot (genericTarget slot
      (if a then phase.adjustReactive slot.genericPhase else phase)) new := by
  cases op with
  | scheduleAt | schedule =>
    cases ho
    exact scheduleAt_adds hw hs
  | scheduleAfter delay =>
    simp only [requestedPhase, some.injEq, Prod.mk.injEq] at ho
    obtain ⟨hn, rfl, rfl⟩ := ho
    simp only [perform, scheduleAfter, hn]
    split
    · exact ⟨[], .refl hs _⟩
    · exact scheduleAt_adds hw hs
  | scheduleAfterCancelable delay phase o t =>
    simp only [requestedPhase, some.injEq, Prod.mk.injEq] at ho
    obtain ⟨hn, rfl, rfl⟩ := ho
    simp only [perform, scheduleAfterCancelable, hn]
    split
    · exact ⟨[], .refl hs _⟩
    · split
      · exact ⟨[], .refl hs _⟩
      · have hf := makeCancelable_fresh m o t
        exact hf.adds_finish hs fun _ => hf.enqueueAt hw hs
  | _ => cases ho

end Machine

section Promises

def laterRound (loads : ℕ) (region : Phase) (round : ℕ) : Tracker where
  holds := fun l slot place _ => l = loads ∧
    (place = .systemverilog region ∧ round ≤ slot.systemverilogRound ∧
        (∀ last, slot.lastSystemverilogPhase = some last → last.index < region.index →
          round < slot.systemverilogRound) ∨
      place = .systemverilogRunning ∧ slot.systemverilogPhase = some region ∧
        round < slot.systemverilogRound)
  waits := fun _ => False
  done := fun event => event.slot = loads ∧ event.systemverilog = true ∧
    event.phase = region ∧ round < event.round
  quiet := by
    rintro l slot slot' place e hquiet
      ⟨hl, ⟨hplace, hround, hlast⟩ | ⟨hplace, hphase, hround⟩⟩
    · exact ⟨hl,
        .inl ⟨hplace, hquiet.round ▸ hround, by rwa [hquiet.round, hquiet.last]⟩⟩
    · exact ⟨hl,
        .inr ⟨hplace, (hquiet.running hplace).trans hphase, hquiet.round ▸ hround⟩⟩

def inNextDelta (loads delta : ℕ) (phase : Phase) : Tracker where
  holds := fun l slot place _ => l = loads ∧
    (place = .nextDelta phase ∧ slot.delta = delta ∨
      place = .current phase ∧ slot.delta = delta + 1)
  waits := fun _ => False
  done := fun event => event.slot = loads ∧ event.delta = delta + 1 ∧ event.phase = phase ∧
    event.systemverilog = false ∧ event.endOfSlot = false
  quiet := by
    rintro l slot slot' place e hquiet ⟨hl, hplace⟩
    exact ⟨hl, by rwa [hquiet.delta]⟩

variable {s : Core} {slot : CurrentSlot} {r phase : Phase} {round d n loads : ℕ}

theorem round_after_cases {mdc round : ℕ}
    (h : Machine.systemverilogRoundAfterPendingPhase mdc slot r = some round) :
    round = slot.systemverilogRound + 1 ∧
        (∀ l, slot.lastSystemverilogPhase = some l → r.index ≤ l.index) ∨
      round = slot.systemverilogRound ∧
        ∃ l, slot.lastSystemverilogPhase = some l ∧ l.index < r.index := by
  rw [Machine.systemverilogRoundAfterPendingPhase] at h
  split at h
  · next ha =>
    split at h
    · cases h
    · refine .inl ⟨(some.inj h).symm, fun l hl => ?_⟩
      simpa [hl] using ha
  · next ha =>
    refine .inr ⟨(some.inj h).symm, ?_⟩
    cases hl : slot.lastSystemverilogPhase with
    | none => simp [hl] at ha
    | some l => exact ⟨l, rfl, by simpa [hl] using ha⟩

theorem laterRound_closed : (laterRound loads r round).Closed n s := by
  refine ⟨fun slot slot' place p' e _ _ _ hg hh => ?_, fun _ _ _ _ h => h.elim,
    fun slot drain e _ _ _ hh => ?_⟩
  · cases hg with
    | quiet hq => exact (laterRound loads r round).quiet hq hh
    | toCurrent hp =>
      subst hp
      obtain ⟨-, ⟨hp, -⟩ | ⟨hp, -⟩⟩ := hh <;> cases hp
    | nextDelta _ hp =>
      obtain ⟨hl, hh | ⟨rfl, -⟩⟩ := hh
      · exact ⟨hl, .inl hh⟩
      · rcases hp with h | h | ⟨⟨_, h⟩, -⟩ <;> cases h
    | batch _ _ hro hla hr _ _ hp =>
      obtain ⟨hl, ⟨rfl, hle, hlt⟩ | ⟨rfl, -⟩⟩ := hh
      · have hc := round_after_cases hro
        rcases hp with ⟨he, rfl⟩ | ⟨rfl, hn, -⟩
        · cases he
          refine ⟨hl, .inr ⟨rfl, hr, ?_⟩⟩
          rcases hc with ⟨he, -⟩ | ⟨he, l, hl, hla⟩
          · omega
          · have := hlt l hl hla
            omega
        · refine ⟨hl, .inl ⟨rfl, by omega, fun l hl' hb => ?_⟩⟩
          obtain rfl := some.inj (hla.symm.trans hl')
          rcases hc with ⟨he, -⟩ | ⟨he, l, hl, hla⟩
          · omega
          · have := hlt l hl (hla.trans hb)
            omega
      · rcases hp with ⟨h, -⟩ | ⟨-, -, h⟩
        · cases h
        · exact absurd rfl h
  · obtain ⟨hl, ⟨hp, -⟩ | ⟨hp, hph, hlt⟩⟩ := hh
    · cases drain <;> cases hp
    · cases drain with
      | systemverilog => exact ⟨hl, rfl, by simp [Core.executed, hph], hlt⟩
      | generic | endOfSlot => cases hp

theorem inNextDelta_closed : (inNextDelta loads d phase).Closed n s := by
  refine ⟨fun slot slot' place p' e _ _ _ hg hh => ?_, fun _ _ _ _ h => h.elim,
    fun slot drain e _ hdr _ hh => ?_⟩
  · cases hg with
    | quiet hq => exact (inNextDelta loads d phase).quiet hq hh
    | toCurrent hp =>
      subst hp
      obtain ⟨hl, ⟨hp, hd⟩ | ⟨hp, -⟩⟩ := hh
      · cases hp
        exact ⟨hl, .inr ⟨rfl, congrArg (· + 1) hd⟩⟩
      · cases hp
    | nextDelta _ hp =>
      obtain ⟨-, ⟨rfl, -⟩ | ⟨rfl, -⟩⟩ := hh <;>
        rcases hp with h | h | ⟨⟨_, h⟩, -⟩ <;> cases h
    | batch _ hd _ _ _ _ _ hp =>
      obtain ⟨hl, hh⟩ := hh
      rcases hp with ⟨rfl, rfl⟩ | ⟨rfl, -, -⟩
      · obtain ⟨h, -⟩ | ⟨h, -⟩ := hh <;> cases h
      · exact ⟨hl, by rwa [hd]⟩
  · obtain ⟨hl, ⟨hp, -⟩ | ⟨hp, hd⟩⟩ := hh
    · cases drain <;> cases hp
    · cases drain with
      | generic => exact ⟨hl, hd, Place.current.inj hp, rfl, rfl⟩
      | systemverilog | endOfSlot => cases hp

end Promises

namespace Machine

variable {m : Machine} {slot slot' : CurrentSlot} {b : Bool}

theorem selectQueue_generic (h : (m.selectQueue slot).location = .innerLoop .generic b) :
    slot.systemverilogPhase = none ∧
      beginSystemverilogBatch m.maxDeltaCycles m.slots slot false = .nothing := by
  rw [selectQueue] at h
  split at h
  · cases h
  · split at h
    · cases h
    · next hid =>
      split at h
      · cases h
      · cases h
      · next hb => exact ⟨by simpa using hid, hb⟩

/-- A region starts in a slot in which no batch is under way. -/
theorem selectQueue_region {region : Phase} (hsl : m.current = some slot)
    (hne : slot.systemverilogPhase ≠ some region) (h : (m.selectQueue slot).current = some slot')
    (hr : slot'.systemverilogPhase = some region) : slot.systemverilogPhase = none ∧
      ∃ includePostponed started,
        beginSystemverilogBatch m.maxDeltaCycles m.slots slot includePostponed =
          .started started ∧ started.systemverilogPhase = some region := by
  have hs {c : CurrentSlot} (hc : c.systemverilogPhase = slot.systemverilogPhase)
      (he : some c = some slot') : False := by
    obtain rfl := some.inj he
    exact hne (hc ▸ hr)
  have hl (he : m.current = some slot') : False := hs rfl (hsl ▸ he)
  have hd {d : Drain} (he : (m.drain slot d).current = some slot') : False :=
    hs (c := { slot with executingEndOfSlot := d = .endOfSlot }) rfl he
  rw [selectQueue] at h
  split at h
  · exact (hl h).elim
  · split at h
    · exact (hd h).elim
    · next hid =>
      refine ⟨by simpa using hid, ?_⟩
      split at h
      · next started hb =>
        obtain rfl := some.inj h
        exact ⟨false, started, hb, hr⟩
      · exact (hl h).elim
      · split at h
        · rw [endDelta] at h
          split at h
          · split at h
            · exact (hl h).elim
            · exact (hs (c := slot.swapDelta) rfl h).elim
          · split at h
            · next started hb =>
              obtain rfl := some.inj h
              exact ⟨true, started, hb, hr⟩
            · exact (hl h).elim
            · split at h
              · cases h
              · exact (hd h).elim
        · exact (hd h).elim

theorem innerLoop_region {region : Phase} {drain : Drain} {executed : Bool}
    (hsl : m.current = some slot) (h : (m.innerLoop slot drain executed).current = some slot')
    (hr : slot'.systemverilogPhase = some region) : slot.systemverilogPhase = some region := by
  have hfinish (he : (m.toCore.finishQueue slot drain).current = some slot') :
      slot.systemverilogPhase = some region := by
    obtain rfl := some.inj he
    cases drain with
    | systemverilog => cases hr
    | generic | endOfSlot => exact hr
  rw [innerLoop] at h
  split at h
  · exact hfinish h
  · split at h
    · exact hfinish h
    · split at h
      · obtain rfl := some.inj (hsl.symm.trans h)
        exact hr
      · obtain rfl := some.inj h
        exact hr

/-- The only step that starts a region is the choice of a queue. -/
theorem advance_region {region : Phase} (hsl : m.current = some slot)
    (hne : slot.systemverilogPhase ≠ some region) (h : m.advance.current = some slot')
    (hr : slot'.systemverilogPhase = some region) : slot.systemverilogPhase = none ∧
      ∃ includePostponed started,
        beginSystemverilogBatch m.maxDeltaCycles m.slots slot includePostponed =
          .started started ∧ started.systemverilogPhase = some region := by
  have hsame (he : m.current = some slot') : False := by
    obtain rfl := some.inj (hsl.symm.trans he)
    exact hne hr
  rw [advance] at h
  split at h
  · exact (hsame h).elim
  · next hn => simp [hn] at hsl
  · next hs =>
    obtain rfl := some.inj (hsl.symm.trans hs)
    exact selectQueue_region hsl hne h hr
  · next hs =>
    obtain rfl := some.inj (hsl.symm.trans hs)
    exact absurd (innerLoop_region hsl h hr) hne
  · exact (hsame h).elim
  · exact (hsame h).elim

/-- Everything but the end-of-slot queue is empty where an end-of-slot callback is due. -/
def EndQuiet (m : Machine) : Prop :=
  ∀ slot, m.location = .innerLoop .endOfSlot false → m.current = some slot →
    ∀ place, place ≠ .endOfSlot → empty m.slots (slot.queues place) = true

theorem EndQuiet.of_location (h : m.location ≠ .innerLoop .endOfSlot false) : m.EndQuiet :=
  fun _ hl => absurd hl h

theorem endDelta_endQuiet (hw : slot.Wf) (hp : slot.phase = phaseCount)
    (hr : m.location = .outerLoop) (hid : slot.systemverilogPhase = none) :
    (m.endDelta slot).EndQuiet := by
  have hn {l : List Entry} (h : l = []) : empty m.slots l = true := by rw [h]; rfl
  rw [endDelta]
  split
  · split
    · exact .of_location (by rintro ⟨⟩)
    · exact .of_location (by simp [hr])
  · next hne =>
    split
    · exact .of_location (by rintro ⟨⟩)
    · exact .of_location (by rintro ⟨⟩)
    · next hb =>
      split
      · exact .of_location (by simp [hr])
      · intro slot' _ hs' place hpl
        obtain rfl := some.inj hs'
        cases place with
        | current phase => exact hn (hw.finished phase (hp ▸ phase.index_lt))
        | nextDelta phase =>
          have ha : m.toCore.nextDeltaEmpty slot = true := by simpa using hne
          exact all_eq_true.mp ha phase phase.mem_all
        | systemverilog r =>
          have he : empty m.slots (slot.queues (.systemverilog r)) = true :=
            begin_nothing hb (.inl rfl)
          exact he
        | systemverilogRunning => exact hn (hw.idle hid)
        | endOfSlot => exact absurd rfl hpl

theorem advance_endQuiet (hin : m.Inv) (h : m.EndQuiet) : m.advance.EndQuiet := by
  rw [advance]
  split
  · exact h
  · next hr hn =>
    simp only [nextSlot]
    split
    · exact .of_location (by rintro ⟨⟩)
    · split
      · split <;> exact .of_location (by rintro ⟨⟩)
      · exact .of_location (by rintro ⟨⟩)
      · split
        · exact .of_location (by rintro ⟨⟩)
        · exact .of_location (by simp [hr])
      · exact .of_location (by simp [hr])
  · next slot hr hs =>
    rw [selectQueue]
    split
    · exact .of_location (by rintro ⟨⟩)
    · split
      · exact .of_location (by rintro ⟨⟩)
      · next hid =>
        split
        · exact .of_location (by rintro ⟨⟩)
        · exact .of_location (by rintro ⟨⟩)
        · split
          · next hp =>
            exact endDelta_endQuiet (hin.wf.slot slot hs) hp hr (by simpa using hid)
          · exact .of_location (by rintro ⟨⟩)
  · rw [innerLoop]
    split
    · exact .of_location (by rintro ⟨⟩)
    · split
      · exact .of_location (by rintro ⟨⟩)
      · split <;> exact .of_location (by rintro ⟨⟩)
  · exact .of_location (by rintro ⟨⟩)
  · next drain _ =>
    refine .of_location ?_
    cases drain <;> simp

theorem EndQuiet.act (h : m.EndQuiet) (hin : m.Inv) (a : Action) : (m.act a).EndQuiet := by
  cases a with
  | call l =>
    simp only [Machine.act, call]
    split
    · exact h
    · split
      · exact h
      · exact .of_location (by rintro ⟨⟩)
  | advance => exact advance_endQuiet hin h
  | op op =>
    simp only [Machine.act]
    split
    · next hp =>
      intro slot hl hs
      have hl' : m.location = .innerLoop .endOfSlot false :=
        (perform_location op).symm.trans hl
      simp only [Permits, hl'] at hp
      rcases hp with rfl | rfl
      · exact h slot hl' hs
      · exact h slot hl' hs
    · exact h
  | throw =>
    simp only [Machine.act, throw]
    split
    · exact .of_location (by rintro ⟨⟩)
    · exact h

theorem EndQuiet.run (h : m.EndQuiet) (hin : m.Inv) (a : List Action) : (m.run a).EndQuiet := by
  induction a generalizing m with
  | nil => exact h
  | cons action a ih => exact ih (h.act hin action) (hin.act action)

theorem endQuiet_start (mdc : ℕ) : (start mdc).EndQuiet := .of_location (by rintro ⟨⟩)

theorem location_of_advance_inCallback {d : Drain} (h : m.advance.location = .inCallback d) :
    m.location = .innerLoop d false := by
  rw [advance] at h
  split at h
  · next hid => simp [hid] at h
  · next hr hn =>
    simp only [nextSlot] at h
    split at h
    · cases h
    · split at h
      · split at h <;> cases h
      · cases h
      · split at h
        · cases h
        · simp [hr] at h
      · simp [hr] at h
  · next slot hr hs =>
    rw [selectQueue] at h
    split at h
    · cases h
    · split at h
      · cases h
      · split at h
        · cases h
        · cases h
        · split at h
          · rw [endDelta] at h
            split at h
            · split at h
              · cases h
              · simp [hr] at h
            · split at h
              · cases h
              · cases h
              · split at h
                · simp [hr] at h
                · cases h
          · cases h
  · next drain executed slot hr hs =>
    rw [innerLoop] at h
    split at h
    · cases h
    · split at h
      · cases h
      · next he =>
        split at h
        · cases h
        · cases h
          simpa using hr.trans (by simp [he])
  · cases h
  · cases h

end Machine

section Discipline

open Machine

/-- The region discipline of every run. Work that `schedule_internal_systemverilog_running_active`
inserts into the running batch is no request of `requestedRegion`. -/
theorem region_discipline (maxDeltaCycles : ℕ) (actions : List Action) :
    let m := (start maxDeltaCycles).run actions
    m.trace.Pairwise Executed.Before ∧
    (∀ slot b, m.location = .outerLoop → m.current = some slot →
      m.advance.location = .innerLoop .generic b →
        slot.systemverilogPhase = none ∧ slot.queues .systemverilogRunning = [] ∧
          ∀ region, region ≠ .postponed →
            empty m.slots (slot.queues (.systemverilog region)) = true) ∧
    (∀ slot slot', m.current = some slot → slot.systemverilogPhase ≠ some .update →
      m.advance.current = some slot' → slot'.systemverilogPhase = some .update →
        slot.systemverilogPhase = none ∧ slot.queues .systemverilogRunning = [] ∧
          empty m.slots (slot.queues (.systemverilog .active)) = true ∧
          empty m.slots (slot.queues (.systemverilog .inactive)) = true) ∧
    (∀ slot region op phase later event, m.current = some slot →
      slot.systemverilogPhase = some region → m.requestedRegion op = some (m.now, phase) →
      phase.adjustReactive (some region) = region →
      event ∈ ((m.perform op).1.run later).trace → m.nextSequence ≤ event.sequence →
      event.sequence < (m.perform op).1.nextSequence →
        event.slot = m.loads ∧ event.systemverilog = true ∧ event.phase = region ∧
          slot.systemverilogRound < event.round) ∧
    (∀ slot op phase target adjust later event, m.current = some slot →
      m.requestedPhase op = some (m.now, phase, adjust) →
      target = (if adjust then phase.adjustReactive slot.genericPhase else phase) →
      target ≠ .postponed → target.index < slot.phase →
      event ∈ ((m.perform op).1.run later).trace → m.nextSequence ≤ event.sequence →
      event.sequence < (m.perform op).1.nextSequence →
        event.slot = m.loads ∧ event.delta = slot.delta + 1 ∧ event.phase = target ∧
          event.systemverilog = false ∧ event.endOfSlot = false) ∧
    (∀ slot, m.current = some slot → m.advance.location = .inCallback .endOfSlot →
      ∀ place, place ≠ .endOfSlot → empty m.slots (slot.queues place) = true) := by
  intro m
  have hinv : m.Inv := (start_inv maxDeltaCycles).run actions
  have hquiet : m.EndQuiet :=
    (endQuiet_start maxDeltaCycles).run (start_inv maxDeltaCycles) actions
  have hselect {slot : CurrentSlot} (hrun : m.location = .outerLoop)
      (hslot : m.current = some slot) : m.advance = m.selectQueue slot := by
    rw [advance]
    split <;> simp_all
  refine ⟨hinv.wf.sorted, ?_, ?_, ?_, ?_, ?_⟩
  · intro slot b hrun hslot hstart
    rw [hselect hrun hslot] at hstart
    obtain ⟨hidle, hnothing⟩ := selectQueue_generic hstart
    exact ⟨hidle, (hinv.wf.slot slot hslot).idle hidle,
      fun region hregion => begin_nothing hnothing (.inr hregion)⟩
  · intro slot slot' hslot hbefore hcurrent hupdate
    obtain ⟨hidle, _, started, hbegin, hregion⟩ := advance_region hslot hbefore hcurrent hupdate
    obtain ⟨region, round, -, hfirst, -, rfl⟩ := begin_started hbegin
    obtain rfl := some.inj hregion
    exact ⟨hidle, (hinv.wf.slot slot hslot).idle hidle, hfirst _ (by decide),
      hfirst _ (by decide)⟩
  · intro slot region op phase later event hslot hrunning hop hadjust hevent hle hlt
    obtain ⟨new, hadds⟩ := perform_adds_region hinv.wf hslot hop
    rw [hrunning, hadjust] at hadds
    have htracks : (laterRound m.loads region slot.systemverilogRound).Tracks event.sequence
        (m.perform op).1.toCore := by
      refine .of_adds hinv.wf hadds hslot hle hlt fun e _ _ => ⟨rfl, .inl ⟨rfl, le_rfl, ?_⟩⟩
      intro last hlast hbefore
      rw [(hinv.wf.slot slot hslot).last region hrunning] at hlast
      obtain rfl := some.inj hlast
      exact absurd hbefore (lt_irrefl _)
    have hne : op ≠ .discardPending := by
      rintro rfl
      cases hop
    exact (htracks.run (hinv.perform hne) fun _ _ _ _ => laterRound_closed).executed
      event hevent rfl
  · intro slot op phase target adjust later event hslot hop htarget hne hfinished hevent hle hlt
    obtain ⟨new, hadds⟩ := perform_adds_phase hinv.wf hslot hop
    rw [← htarget, genericTarget, if_pos hfinished, nextDeltaPlace, if_neg hne] at hadds
    have htracks : (inNextDelta m.loads slot.delta target).Tracks event.sequence
        (m.perform op).1.toCore :=
      .of_adds hinv.wf hadds hslot hle hlt fun e _ _ => ⟨rfl, .inl ⟨rfl, rfl⟩⟩
    have hnotDiscard : op ≠ .discardPending := by
      rintro rfl
      cases hop
    exact (htracks.run (hinv.perform hnotDiscard) fun _ _ _ _ => inNextDelta_closed).executed event
      hevent rfl
  · intro slot hslot hstart
    exact hquiet slot (location_of_advance_inCallback hstart) hslot

def insertingRun : List Action :=
  [.op (.scheduleSystemverilog .active 1 (.task (.task 0))), .call none, .advance,
    .advance, .advance]

theorem runningActive_keeps_round :
    let m := (start 100).run insertingRun
    (m.current.bind (·.systemverilogPhase)) = some .active ∧ m.nextSequence = 1 ∧
      ((m.perform (.scheduleInternalSystemverilogRunningActive 2 (.task (.task 1)))).1.run
        [.advance, .advance]).trace.map (fun event => (event.sequence, event.phase, event.round)) =
        [(0, .active, 1), (1, .active, 1)] := by decide +kernel

/-- The same task, scheduled the ordinary way. -/
theorem rescheduled_active_next_round :
    let m := (start 100).run insertingRun
    ∃ event ∈ ((m.perform (.scheduleSystemverilog .active 2 (.task (.task 1)))).1.run
        [.advance, .advance, .advance, .advance]).trace,
      event.sequence = 1 ∧ event.phase = .active ∧ 1 < event.round := by
  intro m
  obtain ⟨slot, hslot⟩ : ∃ slot, m.current = some slot :=
    isSome_iff_exists.mp (by decide +kernel)
  have hphase : m.current.bind (·.systemverilogPhase) = some .active := by decide +kernel
  have hround : m.current.map (·.systemverilogRound) = some 1 := by decide +kernel
  rw [hslot] at hphase hround
  obtain ⟨event, hmem, hsequence⟩ : ∃ event ∈ ((m.perform
      (.scheduleSystemverilog .active 2 (.task (.task 1)))).1.run
        [.advance, .advance, .advance, .advance]).trace, event.sequence = 1 := by decide +kernel
  have hle : m.nextSequence ≤ 1 := by decide +kernel
  have hlt : 1 < (m.perform
    (.scheduleSystemverilog .active 2 (.task (.task 1)))).1.nextSequence := by decide +kernel
  obtain ⟨-, -, hregion, hlater⟩ := (region_discipline 100 insertingRun).2.2.2.1 slot .active
    (.scheduleSystemverilog .active 2 (.task (.task 1))) .active _ event hslot hphase rfl rfl hmem
    (hle.trans_eq hsequence.symm) (hsequence.trans_lt hlt)
  have hone : slot.systemverilogRound = 1 := some.inj hround
  exact ⟨event, hmem, hsequence, hregion, hone ▸ hlater⟩

end Discipline

end FsimRuntime.Scheduler
