import FsimRuntime.SchedulerHandles

/-!
# The revision of the current phase

`current_phase_revision` (`scheduler.hpp`) and the loop of a batch executor that
stops when it changes (`Interpreter::Impl::execute`). The members of a batch
have left the queue before the first of them runs.
-/

namespace FsimRuntime.Scheduler

open Queue List

namespace Machine

def dispatched (m : Machine) : List Entry :=
  match m.location, m.current with
  | .inCallback drain, some slot => slot.queues (slot.drained drain)
  | _, _ => []

def Inserts (m m' : Machine) (e : Entry) : Prop :=
  m.dispatched.count e < m'.dispatched.count e ∧ e.isCancelled m'.slots = false

instance (m m' : Machine) (e : Entry) : Decidable (m.Inserts m' e) := by
  unfold Inserts
  infer_instance

def performs (m : Machine) (ops : List Op) : Machine := ops.foldl (fun m op => (m.perform op).1) m

end Machine

structure Member where
  entry : Entry
  ops : List Op
  failed : Bool

namespace Machine

def executeFrom (phaseRevision : ℕ) (m : Machine) : List Member → ℕ × Machine
  | [] => (0, m)
  | member :: members =>
    let m := m.performs member.ops
    if member.failed || m.stop || m.revision ≠ phaseRevision then (1, m)
    else
      let rest := executeFrom phaseRevision m members
      (rest.1 + 1, rest.2)

def execute (m : Machine) (members : List Member) : ℕ × Machine :=
  m.executeFrom m.revision members

end Machine

namespace Machine

/-- The operation puts a task into the queue being dispatched and leaves the revision alone: an
insertion into the running Active batch, or end-of-slot work of an end-of-slot callback. -/
def Bypasses (m : Machine) (op : Op) : Prop :=
  (m.perform op).2.isFailed = false ∧ ∃ slot ∈ m.current,
    m.location = .inCallback .systemverilog ∧ op.entersRunning = true ∧
        slot.systemverilogPhase = some .active ∨
      m.location = .inCallback .endOfSlot ∧ op.entersEndOfSlot m.now slot.time = true

instance (m : Machine) (op : Op) : Decidable (m.Bypasses op) := by
  unfold Bypasses
  infer_instance

variable {m m' made : Machine} {drain : Drain} {op : Op} {e : Entry} {slot : CurrentSlot}
  {response : Response}

structure Revised (m m' : Machine) : Prop where
  location : m'.location = m.location
  le : m.revision ≤ m'.revision
  queue : m'.dispatched = m.dispatched ∨ m.revision < m'.revision

theorem Revised.refl (m : Machine) : m.Revised m := ⟨rfl, le_rfl, .inl rfl⟩

theorem Revised.trans {m'' : Machine} (h : m.Revised m') (h' : m'.Revised m'') : m.Revised m'' := by
  refine ⟨h'.location.trans h.location, h.le.trans h'.le, ?_⟩
  rcases h'.queue with hq | hl
  · rcases h.queue with hq' | hl
    · exact .inl (hq.trans hq')
    · exact .inr (hl.trans_le h'.le)
  · exact .inr (h.le.trans_lt hl)

theorem dispatched_eq_of_current (hl : m'.location = m.location) (hc : m'.current = m.current) :
    m'.dispatched = m.dispatched := by rw [dispatched, dispatched, hl, hc]

theorem dispatched_push (hl : m.location = .inCallback drain) (place : Place) :
    (m.pushCurrent slot place e).dispatched = (slot.push place e).queues (slot.drained drain) := by
  simp only [dispatched, pushCurrent, hl]
  cases drain <;> rfl

theorem Effect.revised (h : Effect op response m m') (hl : m.location = .inCallback drain)
    (hcurrent : m.current = some slot)
    (hrunning : response.isFailed = false → drain = .systemverilog → op.entersRunning = true →
      slot.systemverilogPhase ≠ some .active)
    (hend : response.isFailed = false → drain = .endOfSlot →
      op.entersEndOfSlot m.now slot.time ≠ true) : m.Revised m' := by
  cases h with
  | stop | burn | reserve | release =>
    exact ⟨rfl, le_rfl, .inl (dispatched_eq_of_current rfl rfl)⟩
  | @enter made _ e hm he haccepted =>
    cases he with
    | later =>
      exact ⟨hm.location, hm.revision.ge,
        .inl (dispatched_eq_of_current hm.location hm.admits.frame.1)⟩
    | @push slot' place revision hs ho hr he hv hd =>
      obtain rfl : slot = slot' := Option.some.inj (hcurrent.symm.trans hs)
      refine ⟨hm.location, hv, ?_⟩
      by_cases hp : place = slot.drained drain
      · subst hp
        cases drain with
        | generic => exact .inr (hd rfl)
        | systemverilog => exact absurd ho (hrunning haccepted rfl (hr rfl))
        | endOfSlot => exact absurd (he rfl) (hend haccepted rfl)
      · left
        have hq : (made.pushCurrent slot place e).dispatched = m.dispatched := by
          rw [dispatched_push (hm.location.trans hl)]
          simp only [dispatched, hl, hs]
          exact Function.update_of_ne (Ne.symm hp) ..
        exact hq

section
variable (hin : m.Inv) (hl : m.location = .inCallback drain)
include hin hl

theorem perform_revised (ho : ¬m.Bypasses op) : m.Revised (m.perform op).1 := by
  obtain ⟨slot, hs, -⟩ := hin.control.inCallback drain hl
  by_cases hd : op = .discardPending
  · subst hd
    rw [perform, discardPending, if_pos (by simp [hl])]
    exact .refl m
  · have hchain (m' : Machine) (h : Effects op (m.perform op).2 m m') : m.Revised m' ∧
        m'.now = m.now ∧ ∃ queues, m'.current = some { slot with queues := queues } := by
      induction h with
      | refl => exact ⟨.refl m, rfl, slot.queues, hs⟩
      | tail _ he ih =>
        obtain ⟨hrevised, hnow, queues, hqueues⟩ := ih
        have hb := hrevised.location.trans hl
        obtain ⟨queues', hqueues'⟩ := he.performs.frame (by simp [hb]) _ hqueues
        refine ⟨hrevised.trans (he.revised hb hqueues (fun hok hdrain hop hactive => ho ?_)
          fun hok hdrain hop => ho ?_), he.performs.edits.now_eq.trans hnow, queues', hqueues'⟩
        · exact ⟨hok, slot, hs, .inl ⟨hdrain ▸ hl, hop, hactive⟩⟩
        · exact ⟨hok, slot, hs, .inr ⟨hdrain ▸ hl, hnow ▸ hop⟩⟩
    exact (hchain _ (perform_effects hd)).1

theorem perform_inv (op : Op) : (m.perform op).1.Inv := by
  have hact := hin.act (.op op)
  simpa [act, Permits, hl] using hact

theorem performs_inv (ops : List Op) : (m.performs ops).Inv := by
  induction ops generalizing m with
  | nil => exact hin
  | cons op ops ih => exact ih (perform_inv hin hl op) ((perform_location op).trans hl)

theorem performs_revised {ops : List Op} (ho : ∀ k op, ops[k]? = some op →
      ¬(m.performs (ops.take k)).Bypasses op) : m.Revised (m.performs ops) := by
  induction ops generalizing m with
  | nil => exact .refl m
  | cons op ops ih =>
    have hr := perform_revised hin hl (ho 0 op rfl)
    exact hr.trans (ih (perform_inv hin hl op) (hr.location.trans hl) fun k => ho (k + 1))

theorem executed_before_insertion {members : List Member}
    (ho : ∀ k op, (members.flatMap (·.ops))[k]? = some op →
      ¬(m.performs ((members.flatMap (·.ops)).take k)).Bypasses op) {k : ℕ}
    (hk : k < (m.executeFrom m.revision members).1) :
    (m.performs ((members.take k).flatMap (·.ops))).dispatched = m.dispatched := by
  induction members generalizing m k with
  | nil => simp [executeFrom] at hk
  | cons member members ih =>
    cases k with
    | zero => rfl
    | succ k =>
      rw [flatMap_cons] at ho
      have hfirst (i : ℕ) (op : Op) (hi : member.ops[i]? = some op) :
          ¬(m.performs (member.ops.take i)).Bypasses op := by
        have hlt := (List.getElem?_eq_some_iff.mp hi).1
        have h := ho i op (by rw [getElem?_append_left hlt, hi])
        rwa [take_append_of_le_length hlt.le] at h
      have hrest (i : ℕ) (op : Op) (hi : (members.flatMap (·.ops))[i]? = some op) :
          ¬((m.performs member.ops).performs ((members.flatMap (·.ops)).take i)).Bypasses op := by
        have h := ho (member.ops.length + i) op (by
          rw [getElem?_append_right (Nat.le_add_right ..), Nat.add_sub_cancel_left, hi])
        rwa [take_length_add_append, performs, foldl_append] at h
      have hr := performs_revised hin hl hfirst
      rw [executeFrom] at hk
      split at hk
      · simp at hk
      · next hc =>
        simp only [Bool.or_eq_true, decide_eq_true_eq, not_or, not_not] at hc
        have hd : (m.performs member.ops).dispatched = m.dispatched :=
          hr.queue.resolve_right hc.2.not_gt
        rw [take_succ_cons, flatMap_cons, performs, foldl_append, ← hd]
        refine ih (performs_inv hin hl member.ops) (hr.location.trans hl) hrest ?_
        rw [hc.2]
        exact Nat.lt_of_succ_lt_succ hk

end

theorem Made.uncancelled (hm : m.Made made e) (hw : m.slots.Wf) :
    e.isCancelled made.slots = false := by
  have hgrants := hm.grants
  generalize made.slots = slots at hgrants
  cases hgrants with
  | plain hc => exact isCancelled_eq_false _ hc
  | acquired task ht hc =>
    simp [Entry.isCancelled, hc, CancellationSlots.active_eq (hw.acquire task),
      CancellationSlots.holds_acquire hw]

theorem Made.inserts (hm : m.Made made e) (hw : m.slots.Wf) (hl : m.location = .inCallback drain)
    (hs : m.current = some slot) :
    m.Inserts (made.pushCurrent slot (slot.drained drain) e) e ∧
      (made.pushCurrent slot (slot.drained drain) e).revision = m.revision := by
  refine ⟨⟨?_, hm.uncancelled hw⟩, hm.revision⟩
  rw [dispatched_push (hm.location.trans hl)]
  simp [dispatched, hl, hs, CurrentSlot.push]

theorem enqueueAt_postponed {time : ℕ} {adjust : Bool} (hs : m.current = some slot)
    (htime : time = slot.time) (hnow : m.now ≤ time) :
    m.enqueueAt time .postponed e adjust = .ok (m.pushCurrent slot .endOfSlot e) := by
  have hadjusted : (if adjust then Phase.postponed.adjustReactive slot.genericPhase
      else .postponed) = Phase.postponed := by
    split
    · exact adjustReactive_postponed.mpr rfl
    · rfl
  have htarget : genericTarget slot .postponed = .endOfSlot := by
    rw [genericTarget]
    split <;> rfl
  subst htime
  simp [enqueueAt, not_lt.mpr hnow, hs, hadjusted, htarget]

theorem enqueueNextDelta_postponed (hs : m.current = some slot) :
    m.enqueueNextDelta .postponed e = m.pushCurrent slot .endOfSlot e := by
  simp [enqueueNextDelta, hs, nextDeltaPlace]

theorem not_of_accepted {c : Prop} [Decidable c] {error : Error} {b : Machine × Response}
    (h : (if c then (m, .failed error) else b).2.isFailed = false) : ¬c := by
  intro hc
  rw [if_pos hc] at h
  cases h

theorem perform_endOfSlot (hin : m.Inv) (hl : m.location = .inCallback .endOfSlot)
    (hs : m.current = some slot) (hop : op.entersEndOfSlot m.now slot.time = true)
    (haccepted : (m.perform op).2.isFailed = false) : ∃ made e, m.Made made e ∧
      (m.perform op).1 = made.pushCurrent slot .endOfSlot e := by
  have hnow : slot.time = m.now := hin.wf.time slot hs
  have hscheduleAt {time order : ℕ} {task : EntryTask} (htime : time = slot.time)
      (hok : (m.scheduleAt time .postponed order task).2.isFailed = false) : ∃ made e,
        m.Made made e ∧ (m.scheduleAt time .postponed order task).1 =
          made.pushCurrent slot .endOfSlot e := by
    have hle : m.now ≤ time := (htime.trans hnow).ge
    rw [scheduleAt, if_neg (not_lt.mpr hle)] at hok ⊢
    split at hok
    · next e made hmade =>
      have hm := (makeEntry_made hmade).1
      have hframe := hm.admits.frame
      rw [enqueueAt_postponed (hframe.1.trans hs) htime (hframe.2.1 ▸ hle)]
      exact ⟨made, e, hm, rfl⟩
    · cases hok
  cases op with
  | scheduleAt time phase order task =>
    simp only [Op.entersEndOfSlot, Bool.and_eq_true, decide_eq_true_eq] at hop
    obtain ⟨htime, rfl⟩ := hop
    exact hscheduleAt htime haccepted
  | scheduleAfter delay phase order task =>
    simp only [Op.entersEndOfSlot, Bool.and_eq_true, decide_eq_true_eq] at hop
    obtain ⟨htime, rfl⟩ := hop
    simp only [perform, scheduleAfter] at haccepted ⊢
    have hdelay := not_of_accepted haccepted
    rw [if_neg hdelay] at haccepted ⊢
    exact hscheduleAt htime haccepted
  | schedule phase order task =>
    obtain rfl : phase = .postponed := by simpa [Op.entersEndOfSlot] using hop
    exact hscheduleAt hnow.symm haccepted
  | scheduleAfterCancelable delay phase order task =>
    simp only [Op.entersEndOfSlot, Bool.and_eq_true, decide_eq_true_eq] at hop
    obtain ⟨htime, rfl⟩ := hop
    simp only [perform, scheduleAfterCancelable] at haccepted ⊢
    have hdelay := not_of_accepted haccepted
    rw [if_neg hdelay] at haccepted ⊢
    have hsequence := not_of_accepted haccepted
    rw [if_neg hsequence] at haccepted ⊢
    have hm := makeCancelable_made_fresh m order task
    have hframe := hm.admits.frame
    rw [enqueueAt_postponed (hframe.1.trans hs) htime (hframe.2.1 ▸ Nat.le_add_right ..)]
    exact ⟨_, _, hm, rfl⟩
  | scheduleNextDelta phase order task =>
    obtain rfl : phase = .postponed := by simpa [Op.entersEndOfSlot] using hop
    simp only [perform, scheduleNextDelta] at haccepted ⊢
    split at haccepted
    · next e made hmade =>
      have hm := (makeEntry_made hmade).1
      exact ⟨made, e, hm, enqueueNextDelta_postponed (hm.admits.frame.1.trans hs)⟩
    · cases haccepted
  | scheduleReservedNextDelta phase key task =>
    obtain rfl : phase = .postponed := by simpa [Op.entersEndOfSlot] using hop
    simp only [perform, scheduleReservedNextDelta] at haccepted ⊢
    have hkey := not_of_accepted haccepted
    rw [if_neg hkey]
    exact ⟨m, _, made_reserved task (not_not.mp hkey), enqueueNextDelta_postponed hs⟩
  | scheduleReservedNextDeltaCancelable phase key task =>
    obtain rfl : phase = .postponed := by simpa [Op.entersEndOfSlot] using hop
    simp only [perform, scheduleReservedNextDeltaCancelable] at haccepted ⊢
    have hkey := not_of_accepted haccepted
    rw [if_neg hkey]
    have hm := makeCancelable_made task (not_not.mp hkey)
    exact ⟨_, _, hm, enqueueNextDelta_postponed (hm.admits.frame.1.trans hs)⟩
  | scheduleReservedCurrent phase key task | scheduleReservedCurrentCancelable phase key task =>
    simp [perform, scheduleReservedCurrent, scheduleReservedCurrentCancelable, inOrdinaryCallback,
      hl, Response.isFailed] at haccepted
  | scheduleEndOfTimeSlot order task =>
    simp only [perform, scheduleEndOfTimeSlot, hs] at haccepted ⊢
    split at haccepted
    · next e made hmade => exact ⟨made, e, (makeEntry_made hmade).1, rfl⟩
    · cases haccepted
  | _ => cases hop

theorem Bypasses.inserts (h : m.Bypasses op) (hin : m.Inv) (hw : m.slots.Wf) :
    ∃ e, m.Inserts (m.perform op).1 e ∧ (m.perform op).1.revision = m.revision := by
  obtain ⟨haccepted, slot, hs, ⟨hl, hop, hactive⟩ | ⟨hl, hop⟩⟩ := h
  · cases op with
    | scheduleInternalSystemverilogRunningActive order task =>
      rw [Option.mem_def] at hs
      simp only [perform, scheduleInternalSystemverilogRunningActive, hs, hactive, if_true]
        at haccepted ⊢
      split at haccepted
      · next e made hmade => exact ⟨e, (makeEntry_made hmade).1.inserts hw hl hs⟩
      · cases haccepted
    | _ => cases hop
  · obtain ⟨made, e, hm, hperform⟩ := perform_endOfSlot hin hl hs hop haccepted
    rw [hperform]
    exact ⟨e, hm.inserts hw hl hs⟩

end Machine

open Machine

/-- An insertion into the dispatched queue changes the revision, except exactly for the operations
that bypass it; without them a batch executor runs no member after an insertion. -/
theorem insertion_revises (maxDeltaCycles : ℕ) (before : List Step) :
    let m := (start maxDeltaCycles).steps before
    ∀ drain, m.location = .inCallback drain →
      (∀ op, (∀ e, m.Inserts (m.perform op).1 e → m.revision < (m.perform op).1.revision) ↔
        ¬m.Bypasses op) ∧
      ∀ members : List Member, (∀ k op, (members.flatMap (·.ops))[k]? = some op →
          ¬(m.performs ((members.flatMap (·.ops)).take k)).Bypasses op) →
        ∀ k < (m.execute members).1, ∀ e,
          ¬m.Inserts (m.performs ((members.take k).flatMap (·.ops))) e := by
  intro m drain hl
  obtain ⟨hin, hs⟩ := start_sound maxDeltaCycles before
  refine ⟨fun op => ⟨fun hrevises hbypasses => ?_, fun ho e hi => ?_⟩,
    fun members ho k hk e hi => ?_⟩
  · obtain ⟨e, hinserts, hsame⟩ := hbypasses.inserts hin hs.slots
    exact absurd hsame (hrevises e hinserts).ne'
  · rcases (perform_revised hin hl ho).queue with hq | hr
    · exact absurd hi.1 (hq ▸ lt_irrefl _)
    · exact hr
  · exact absurd hi.1 (executed_before_insertion hin hl ho hk ▸ lt_irrefl _)

theorem inserting_update_revises :
    let m := (start 100).steps ([.op (.scheduleSystemverilog .update 1 (.task (.task 0))),
      .call none, .advance, .advance, .advance].map .act)
    let op : Op := .scheduleInternalSystemverilogRunningActive 2 (.task (.task 1))
    let members : List Member :=
      [⟨⟨1, 0, .task (.task 0), none⟩, [op], false⟩,
        ⟨⟨3, 0, .task (.task 2), none⟩, [], false⟩]
    ¬m.Bypasses op ∧
      (∀ e, m.Inserts (m.perform op).1 e → m.revision < (m.perform op).1.revision) ∧
      (m.execute members).1 = 2 ∧
      ∀ k < 2, ∀ e, ¬m.Inserts (m.performs ((members.take k).flatMap (·.ops))) e := by
  intro m op members
  have hl : m.location = .inCallback .systemverilog := by decide +kernel
  have hop : ¬m.Bypasses op := by decide +kernel
  have hexecuted : (m.execute members).1 = 2 := by decide +kernel
  obtain ⟨hexact, hbatch⟩ := insertion_revises 100 ([.op (.scheduleSystemverilog .update 1
    (.task (.task 0))), .call none, .advance, .advance, .advance].map .act) .systemverilog hl
  refine ⟨hop, (hexact op).mpr hop, hexecuted, fun k hk => ?_⟩
  refine hbatch members (fun i op' hi => ?_) k (hexecuted ▸ hk)
  cases i with
  | zero =>
    cases hi
    exact hop
  | succ i => simp [members] at hi

/-- Neither the insertion into the running batch nor the one into the end-of-slot queue changes the
revision; the batch goes on to a member behind the inserted task. -/
theorem insertions_unrevised : (let m := (start 100).run insertingRun
     let op : Op := .scheduleInternalSystemverilogRunningActive 2 (.task (.task 1))
     let inserted : Entry := ⟨2, 1, .task (.task 1), none⟩
     let later : Entry := ⟨3, 0, .task (.task 2), none⟩
     m.location = .inCallback .systemverilog ∧ m.Inserts (m.perform op).1 inserted ∧
       (m.perform op).1.revision = m.revision ∧ keyLess inserted later ∧
       (m.execute
         [⟨⟨1, 0, .task (.task 0), none⟩, [op], false⟩, ⟨later, [], false⟩]).1 = 2) ∧
    (let m := (start 100).run (.op (.scheduleEndOfTimeSlot 1 (.task (.task 0))) :: .call none ::
        replicate 19 .advance)
     let op : Op := .schedule .postponed 2 (.task (.task 1))
     m.location = .inCallback .endOfSlot ∧
       m.Inserts (m.perform op).1 ⟨2, 1, .task (.task 1), none⟩ ∧
       (m.perform op).1.revision = m.revision) := by decide +kernel

end FsimRuntime.Scheduler
