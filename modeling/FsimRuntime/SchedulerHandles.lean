import FsimRuntime.SchedulerReceipts

/-!
# Handles of cancelable tasks

`CancellationSlots` is a map from handles to callbacks, in which `acquire` enters
a handle that was never issued before and `release` removes one. A handle tests
true as long as no step has run, cancelled or discarded its task.
-/

namespace FsimRuntime.Queue.CancellationSlots
open List

variable {c : CancellationSlots} {task : Callback} {g h : Identity}

def holds (c : CancellationSlots) (h : Identity) : Option Callback :=
  match c.slots[h.slot]? with
  | some slot => if slot.generation = h.generation ∧ slot.active then slot.task else none
  | none => none

def Issued (c : CancellationSlots) (h : Identity) : Prop :=
  ∃ slot : Slot, c.slots[h.slot]? = some slot ∧ h.generation ≤ slot.generation

structure Wf (c : CancellationSlots) : Prop where
  nodup : c.free.Nodup
  free : ∀ i ∈ c.free, ∃ slot : Slot, c.slots[i]? = some slot ∧ slot.active = false ∧
    slot.generation < generationLimit
  slots : ∀ (i : ℕ) (slot : Slot), c.slots[i]? = some slot →
    slot.generation ≤ generationLimit ∧ (slot.active = true → slot.task.isSome)

theorem active_iff : c.active h = true ↔ ∃ slot : Slot,
    c.slots[h.slot]? = some slot ∧ slot.generation = h.generation ∧ slot.active = true := by
  rw [active]
  split
  · next slot hs => simp [hs]
  · next hs => simp [hs]

theorem active_eq (hw : c.Wf) : c.active h = (c.holds h).isSome := by
  rw [Bool.eq_iff_iff, active_iff, holds]
  cases hs : c.slots[h.slot]? with
  | none => simp
  | some slot =>
    have ht := (hw.slots _ slot hs).2
    grind

theorem holds_release : (c.release h).holds g = if g = h then none else c.holds g := by
  obtain ⟨i, n⟩ := g
  obtain ⟨j, k⟩ := h
  by_cases ha : c.active ⟨j, k⟩ = true
  · obtain ⟨slot, hs, hg, -⟩ := active_iff.mp ha
    rw [release]
    simp only [holds, Identity.mk.injEq]
    grind
  · rw [release, if_neg ha]
    rw [active_iff] at ha
    simp only [holds]
    grind

theorem Issued.release (hi : c.Issued g) : (c.release h).Issued g := by
  obtain ⟨slot, hs, hg⟩ := hi
  rw [CancellationSlots.release]
  split
  · next ha =>
    obtain ⟨slot', hs', hg', -⟩ := active_iff.mp ha
    simp only [Issued]
    grind
  · exact ⟨slot, hs, hg⟩

section
variable (hw : c.Wf)
include hw

theorem Wf.release (h : Identity) : (c.release h).Wf := by
  rw [CancellationSlots.release]
  split
  · next ha =>
    obtain ⟨slot, hs, hg, ha⟩ := active_iff.mp ha
    have hb := (hw.slots _ slot hs).1
    have hf : h.slot ∉ c.free := fun hm => by
      obtain ⟨slot', hs', hi, -⟩ := hw.free _ hm
      grind
    refine ⟨?_, fun i hi => ?_, fun i slot' hs' => ?_⟩
    · split
      · exact hw.nodup
      · exact nodup_cons.mpr ⟨hf, hw.nodup⟩
    · have hi' := hw.free i
      grind
    · have hw' := hw.slots i slot'
      grind
  · exact hw

theorem isCancelled_release (e : Entry) :
    e.isCancelled (c.release h) = (e.isCancelled c || e.cancellation = some h) := by
  rw [Entry.isCancelled, Entry.isCancelled]
  cases e.cancellation with
  | none => simp
  | some g =>
    simp only [active_eq (hw.release h), active_eq hw, holds_release]
    grind

theorem acquire_cases (task : Callback) :
    (∃ (index : ℕ) (f : List ℕ) (slot : Slot), c.free = index :: f ∧
      c.slots[index]? = some slot ∧ slot.active = false ∧ slot.generation < generationLimit ∧
      c.acquire task = (⟨index, slot.generation + 1⟩,
        ⟨c.slots.set index ⟨slot.generation + 1, true, some task⟩, f⟩)) ∨
    c.free = [] ∧ c.acquire task =
      (⟨c.slots.length, 1⟩, ⟨c.slots ++ [⟨1, true, some task⟩], []⟩) := by
  rw [acquire]
  split
  · next index f hf =>
    obtain ⟨slot, hs, ha, hl⟩ := hw.free index (hf ▸ mem_cons_self ..)
    exact .inl ⟨index, f, slot, hf, hs, ha, hl, by simp [hs]⟩
  · next hf => exact .inr ⟨hf, rfl⟩

theorem holds_acquire : (c.acquire task).2.holds g =
    if g = (c.acquire task).1 then some task else c.holds g := by
  obtain ⟨i, n⟩ := g
  rcases acquire_cases hw task with ⟨index, f, slot, -, hs, ha, -, he⟩ | ⟨-, he⟩
  · simp only [holds]
    grind
  · simp only [holds]
    grind

theorem not_issued_acquire (task : Callback) : ¬c.Issued (c.acquire task).1 := by
  rintro ⟨slot', hs', hg⟩
  rcases acquire_cases hw task with ⟨index, f, slot, -, hs, -, -, he⟩ | ⟨-, he⟩
  · grind
  · grind

theorem issued_acquire (hi : g = (c.acquire task).1 ∨ c.Issued g) :
    (c.acquire task).2.Issued g := by
  rcases acquire_cases hw task with ⟨index, f, slot, -, hs, -, -, he⟩ | ⟨-, he⟩
  · simp only [Issued] at hi ⊢
    grind
  · rw [he] at hi ⊢
    rcases hi with rfl | ⟨slot, hs, hg⟩
    · exact ⟨⟨1, true, some task⟩, by simp, le_rfl⟩
    · exact ⟨slot, by grind, hg⟩

theorem Wf.acquire (task : Callback) : (c.acquire task).2.Wf := by
  rcases acquire_cases hw task with ⟨index, f, slot, hf, hs, ha, hlt, he⟩ | ⟨hf, he⟩
  · obtain ⟨hn, hd⟩ := nodup_cons.mp (hf ▸ hw.nodup)
    rw [he]
    refine ⟨hd, fun i hi => ?_, fun i slot' hs' => ?_⟩
    · have hi' := hw.free i (hf ▸ mem_cons_of_mem _ hi)
      grind
    · have hw' := hw.slots i slot'
      grind
  · rw [he]
    refine ⟨.nil, forall_mem_nil _, fun i slot' hs' => ?_⟩
    have hw' := hw.slots i slot'
    have hl : 1 ≤ generationLimit := by decide +kernel
    grind

end

end FsimRuntime.Queue.CancellationSlots

namespace FsimRuntime.Scheduler

open Queue

def carries (h : Identity) (e : Entry) : Bool := e.task = .empty && e.cancellation = some h

def Op.cancelable : Op → Option Callback
  | .scheduleAfterCancelable _ _ _ task | .scheduleReservedNextDeltaCancelable _ _ task
  | .scheduleReservedCurrentCancelable _ _ task
  | .scheduleSystemverilogAfterCancelable _ _ _ task => some task
  | _ => none

/-- The operations that do something while queued tasks are discarded. -/
def Op.whileDiscarding : Op → Bool
  | .cancel _ | .reserveOrderKey _ | .requestStop | .clearStop => true
  | _ => false

namespace Machine

/-- What destructors and discard hooks do while queued tasks are discarded. -/
def reenter (m : Machine) (ops : List Op) : Machine :=
  ops.foldl (fun m op => if op.whileDiscarding then (m.perform op).1 else m) m

def complete (m : Machine) : List Entry → List (List Op) → Machine
  | [], ops => m.reenter ops.flatten
  | e :: entries, ops =>
    let released := { m with slots := (e.cancellation.map m.slots.release).getD m.slots }
    complete (released.reenter (ops.headD [])) entries ops.tail

/-- `discard_queued_and_notify`. The queues are moved out before the first task is destroyed. -/
def discardQueued (m : Machine) (ops : List (List Op)) : Machine :=
  { { m with current := none, future := [] }.complete m.waiting ops with reserved := [] }

def discard (m : Machine) (ops : List (List Op)) : Machine :=
  if m.location ≠ .idle then m else m.discardQueued ops

def reset (m : Machine) (ops : List (List Op)) : Machine :=
  if m.location ≠ .idle then m
  else { m.discardQueued ops with now := 0, nextSequence := 0, stop := false, trace := [] }

inductive Step
  | act (action : Action)
  | discard (ops : List (List Op))
  | reset (ops : List (List Op))
  deriving DecidableEq, Repr

def step (m : Machine) : Step → Machine
  | .act action => m.act action
  | .discard ops => m.discard ops
  | .reset ops => m.reset ops

def steps (m : Machine) (steps : List Step) : Machine := steps.foldl step m

def dispatches (m : Machine) : Option Entry :=
  match m.location, m.current with
  | .innerLoop drain false, some slot =>
    if m.stop then none else next m.slots (slot.queues (slot.drained drain))
  | _, _ => none

def ends (m : Machine) (h : Identity) : Step → Bool
  | .act .advance => m.dispatches.any (·.cancellation = some h)
  | .act (.op (.cancel handle)) => m.Permits (.cancel handle) && handle = h
  | .act (.op .discardPending) | .discard _ | .reset _ => m.location = .idle
  | _ => false

end Machine

structure Core.Sound (s : Core) : Prop where
  slots : s.slots.Wf
  fresh : ∀ h, ¬s.slots.Issued h → s.waiting.countP (carries h) = 0

/-- What is known of a handle with a task: `pending` until a step ends it. -/
structure Core.Keeps (s : Core) (h : Identity) (task : Callback) (pending : Bool) : Prop where
  issued : s.slots.Issued h
  holds : s.slots.holds h = if pending then some task else none
  waiting : pending = true → s.waiting.countP (carries h) = 1

section Steps

variable {m m' made : Machine} {s s' : Core} {op : Op} {e : Entry} {h g : Identity}
  {task : Callback} {pending : Bool}

theorem mem_waiting_of_queued {slot : CurrentSlot} {place : Place} (hs : s.current = some slot)
    (he : e ∈ slot.queues place) : e ∈ s.waiting := by
  simp only [Core.waiting, hs, Option.elim_some, List.mem_append, List.mem_flatMap]
  exact .inl ⟨place, place.mem_all, he⟩

theorem Core.Keeps.callback (hk : s.Keeps h task true) (hc : carries h e = true) :
    callback s.slots e = some task := by
  have hh := hk.holds
  rw [if_pos rfl, CancellationSlots.holds] at hh
  simp only [carries, Bool.and_eq_true, decide_eq_true_eq] at hc
  rw [Scheduler.callback, hc.1, hc.2, Option.bind_some]
  split at hh
  · next slot hsl =>
    rw [hsl, Option.bind_some]
    split at hh
    · exact hh
    · cases hh
  · cases hh

theorem Core.Keeps.lasting (hk : s.Keeps h task true) (hs : s.Sound) : s.Lasting (carries h) := by
  intro e _ hc
  simp only [carries, Bool.and_eq_true, decide_eq_true_eq] at hc
  simp [Entry.isCancelled, hc.2, CancellationSlots.active_eq hs.slots, hk.holds]

theorem Machine.Grants.spec {slots slots' : CancellationSlots} (hg : Machine.Grants slots e slots')
    (hw : slots.Wf) : slots'.Wf ∧ (∀ h, slots.Issued h → slots'.Issued h) ∧
      ∀ h, (slots.Issued h → slots'.holds h = slots.holds h) ∧
        (carries h e = true → slots'.Issued h ∧ ¬slots.Issued h) := by
  cases hg with
  | plain hc => exact ⟨hw, fun _ => id, fun h => ⟨fun _ => rfl, by simp [carries, hc]⟩⟩
  | acquired task ht hc =>
    have hn := CancellationSlots.not_issued_acquire hw task
    refine ⟨hw.acquire task, fun h hi => CancellationSlots.issued_acquire hw (.inr hi),
      fun h => ⟨fun hi => ?_, fun hh => ?_⟩⟩
    · rw [CancellationSlots.holds_acquire hw, if_neg (by grind)]
    · simp only [carries, hc, Bool.and_eq_true, decide_eq_true_eq] at hh
      obtain rfl := Option.some.inj hh.2
      exact ⟨CancellationSlots.issued_acquire hw (.inl rfl), hn⟩

theorem Machine.Effect.cases_slots {response : Response} (he : Machine.Effect op response m m') :
    (m'.slots = m.slots ∧ m'.waiting = m.waiting) ∨
    (∃ handle, op = .cancel handle ∧ m'.slots = m.slots.release handle ∧
      m'.waiting = m.waiting) ∨
    ∃ e, Machine.Grants m.slots e m'.slots ∧
      ∀ p, m'.waiting.countP p = m.waiting.countP p + if p e then 1 else 0 := by
  cases he with
  | stop | burn | reserve => exact .inl ⟨rfl, rfl⟩
  | release ho => exact .inr (.inl ⟨_, ho, rfl, rfl⟩)
  | @enter made _ e hm he =>
    obtain ⟨hs, hc⟩ := he.spec hm
    exact .inr (.inr ⟨e, hs ▸ hm.grants, hc⟩)

/-- The invariant is kept, and so is a handle that the step does not end. -/
structure Core.Follows (s s' : Core) (ended : Identity → Bool) : Prop where
  sound : s'.Sound
  keeps : ∀ h task pending, s.Keeps h task pending → s'.Keeps h task (pending && !ended h)

theorem Core.Sound.same (hs : s.Sound) (hl : s'.slots = s.slots)
    (hf : ∀ h, ¬s.slots.Issued h → s'.waiting.countP (carries h) = 0)
    (hw : ∀ h task, s.Keeps h task true → s'.waiting.countP (carries h) = 1) :
    s.Follows s' fun _ => false := by
  refine ⟨⟨hl ▸ hs.slots, hl ▸ hf⟩, fun h task pending hk => ?_⟩
  rw [Bool.not_false, Bool.and_true]
  exact ⟨hl ▸ hk.issued, hl ▸ hk.holds, fun hp => hw h task (hp ▸ hk)⟩

theorem Core.Sound.release (hs : s.Sound) (hl : s'.slots = s.slots.release g)
    (hf : ∀ h, ¬s.slots.Issued h → s'.waiting.countP (carries h) = 0)
    (hw : ∀ h task, g ≠ h → s.Keeps h task true → s'.waiting.countP (carries h) = 1) :
    s.Follows s' (g = ·) := by
  refine ⟨⟨hl ▸ hs.slots.release g, fun h hi => hf h fun hi' => hi (hl ▸ hi'.release)⟩,
    fun h task pending hk => ⟨hl ▸ hk.issued.release, ?_, fun hp => ?_⟩⟩
  · rw [hl, CancellationSlots.holds_release, hk.holds]
    grind
  · simp only [Bool.and_eq_true, Bool.not_eq_true', decide_eq_false_iff_not] at hp
    exact hw h task hp.2 (hp.1 ▸ hk)

theorem Machine.Effects.follows {response : Response}
    (he : Machine.Effects op response m m') (hs : m.toCore.Sound)
    (ho : ∀ h, op ≠ .cancel h) : m.toCore.Follows m'.toCore fun _ => false := by
  induction he with
  | refl => exact hs.same rfl hs.fresh fun _ _ hk => hk.waiting rfl
  | @tail m₁ m₂ _ he ih =>
    suffices hf : m₁.toCore.Follows m₂.toCore fun _ => false from
      ⟨hf.sound,
        fun h task pending hk => by simpa using hf.keeps h task _ (ih.keeps h task _ hk)⟩
    have hs := ih.sound
    rcases he.cases_slots with ⟨hl, hw⟩ | ⟨handle, rfl, -⟩ | ⟨e, hg, hc⟩
    · exact hs.same hl (hw ▸ hs.fresh) fun _ _ hk => hw ▸ hk.waiting rfl
    · exact absurd rfl (ho handle)
    · obtain ⟨hw, hi, hh⟩ := hg.spec hs.slots
      refine ⟨⟨hw, fun h hn => ?_⟩, fun h task pending hk => ?_⟩
      · rw [hc, hs.fresh h (fun h' => hn (hi h h')), if_neg fun hp => hn ((hh h).2 hp).1]
      · rw [Bool.not_false, Bool.and_true]
        refine ⟨hi h hk.issued, ((hh h).1 hk.issued).trans hk.holds, fun hp => ?_⟩
        rw [hc, hk.waiting hp, if_neg fun hp => ((hh h).2 hp).2 hk.issued]

theorem Machine.Made.keeps (hm : m.Made made e) (op : Op) (he : Machine.Enters op m made e m')
    (hs : m.toCore.Sound) (ht : e.task = .empty)
    (hc : e.cancellation = some (m.slots.acquire task).1)
    (hl : made.slots = (m.slots.acquire task).2) :
    m'.toCore.Keeps (m.slots.acquire task).1 task true := by
  obtain ⟨hl', hw⟩ := he.spec hm
  have hn := CancellationSlots.not_issued_acquire hs.slots task
  refine ⟨?_, ?_, fun _ => ?_⟩
  · rw [hl', hl]
    exact CancellationSlots.issued_acquire hs.slots (.inl rfl)
  · rw [hl', hl, CancellationSlots.holds_acquire hs.slots, if_pos rfl, if_pos rfl]
  · rw [hw, hs.fresh _ hn, if_pos (by simp [carries, ht, hc])]

theorem Machine.handle_of_finish {b : Machine} {r : Response} {result : Except Error Machine}
    (h : (Machine.finish b r result).2 = .handle g) : r = .handle g := by
  cases result with
  | ok => exact h
  | error => cases h

namespace Machine

theorem keeps_guard {c : Prop} [Decidable c] {error : Error} {b : Machine × Response}
    (hh : (if c then (m, .failed error) else b).2 = .handle h)
    (hb : ¬c → b.2 = .handle h → b.1.toCore.Keeps h task true) :
    (if c then (m, .failed error) else b).1.toCore.Keeps h task true := by
  split_ifs at hh ⊢ with hc
  exact hb hc hh

theorem perform_keeps (hs : m.toCore.Sound) (hc : op.cancelable = some task)
    (hh : (m.perform op).2 = .handle h) : (m.perform op).1.toCore.Keeps h task true := by
  cases op with
  | scheduleAfterCancelable d p o task =>
    cases hc
    refine keeps_guard hh fun _ hh => keeps_guard hh fun _ hh => ?_
    cases handle_of_finish hh
    have hm := makeCancelable_made_fresh m o task
    exact hm.keeps (.scheduleEndOfTimeSlot 0 .empty)
      (hm.enqueueAt (Nat.le_add_right ..) fun _ => rfl) hs rfl rfl rfl
  | scheduleReservedNextDeltaCancelable p key task =>
    cases hc
    refine keeps_guard hh fun hk hh => ?_
    cases hh
    have hm := makeCancelable_made task (not_not.mp hk)
    exact hm.keeps (.scheduleEndOfTimeSlot 0 .empty) (hm.enqueueNextDelta fun _ _ => rfl)
      hs rfl rfl rfl
  | scheduleReservedCurrentCancelable p key task =>
    cases hc
    refine keeps_guard hh fun _ hh => keeps_guard hh fun hk hh => ?_
    cases handle_of_finish hh
    have hm := makeCancelable_made task (not_not.mp hk)
    exact hm.keeps (.scheduleEndOfTimeSlot 0 .empty) (hm.enqueueAt le_rfl fun _ => rfl)
      hs rfl rfl rfl
  | scheduleSystemverilogAfterCancelable d p o task =>
    cases hc
    refine keeps_guard hh fun _ hh => keeps_guard hh fun _ hh => ?_
    cases handle_of_finish hh
    have hm := makeCancelable_made_fresh m o task
    exact hm.keeps .requestStop (hm.enqueueSystemverilogAt (Nat.le_add_right ..)) hs rfl rfl rfl
  | _ => cases hc

theorem advance_dispatches (hd : m.dispatches = some e) : ∃ slot drain, m.current = some slot ∧
    e ∈ slot.queues (slot.drained drain) ∧ m.advance.toCore = m.toCore.take slot drain e := by
  rw [dispatches] at hd
  split at hd
  · next drain slot hl hs =>
    split at hd
    · cases hd
    · next hn =>
      refine ⟨slot, drain, hs, (mem_of_next hd).1, ?_⟩
      simp [advance, hl, hs, innerLoop, hd, hn]
  · cases hd

theorem dispatches_uncancelled (hd : m.dispatches = some e) : e.isCancelled m.slots = false := by
  rw [dispatches] at hd
  split at hd
  · split at hd
    · cases hd
    · exact (mem_of_next hd).2
  · cases hd

theorem advance_trace (hd : m.dispatches = none) : m.advance.trace = m.trace := by
  rw [advance]
  split
  · rfl
  · simp only [nextSlot]
    repeat' split
    all_goals rfl
  · simp only [selectQueue, endDelta]
    repeat' split
    all_goals rfl
  · next drain executed slot hl hs =>
    rw [innerLoop]
    split
    · rfl
    · next e hn =>
      split
      · rfl
      · next hx =>
        split
        · rfl
        · next hst =>
          simp [dispatches, hl, hs, hx, hst, hn] at hd
  · rfl
  · rfl

theorem advance_awaiting (hin : m.Inv) {p : Entry → Bool} (hl : m.toCore.Lasting p) :
    m.advance.slots = (m.dispatches.bind (·.cancellation)).elim m.slots m.slots.release ∧
      m.advance.waiting.countP p + (if m.dispatches.any p then 1 else 0) = m.waiting.countP p := by
  have hmv := (advance_moves hin.control fun slot hs => (hin.wf.slot slot hs).phase_le).1
  cases hd : m.dispatches with
  | some e =>
    obtain ⟨slot, drain, hs, he, ht⟩ := advance_dispatches hd
    rw [ht]
    refine ⟨?_, awaiting_take hs he⟩
    cases hc : e.cancellation <;> simp [Core.take, hc]
  | none =>
    rcases hmv.awaiting_cases hin.wf hl with ⟨-, hsl, hc⟩ | ⟨slot, drain, e, -, -, ht, -⟩
    · exact ⟨hsl, hc⟩
    · have htr := advance_trace hd
      rw [ht] at htr
      simp [Core.take] at htr

theorem ends_advance :
    m.ends h (.act .advance) = ((m.dispatches.bind (·.cancellation)) = some h : Bool) := by
  rw [ends]
  cases m.dispatches <;> rfl

theorem advance_follows (hin : m.Inv) (hs : m.toCore.Sound) :
    m.toCore.Follows m.advance.toCore fun h => m.ends h (.act .advance) := by
  have hf (h : Identity) (hi : ¬m.slots.Issued h) : m.advance.waiting.countP (carries h) = 0 := by
    have hz := hs.fresh h hi
    have hl : m.toCore.Lasting (carries h) := fun e he hp =>
      absurd hp (List.countP_eq_zero.mp hz e he)
    have hc := (advance_awaiting hin hl).2
    omega
  have hw (h : Identity) (task : Callback) (hn : m.dispatches.bind (·.cancellation) ≠ some h)
      (hk : m.toCore.Keeps h task true) : m.advance.waiting.countP (carries h) = 1 := by
    have hc := (advance_awaiting hin (hk.lasting hs)).2
    rw [hk.waiting rfl, if_neg] at hc
    · exact hc
    · simp only [Option.any_eq_true, carries, Bool.and_eq_true, decide_eq_true_eq]
      rintro ⟨e, he, -, hc⟩
      exact hn (by rw [he, Option.bind_some, hc])
  have hl := (advance_awaiting hin (p := fun _ => false) fun _ _ hp => nomatch hp).1
  simp only [ends_advance]
  cases hd : m.dispatches.bind (·.cancellation) with
  | none =>
    rw [hd] at hl hw
    simpa using hs.same hl hf fun h task => hw h task nofun
  | some g =>
    rw [hd] at hl hw
    simpa using hs.release hl hf fun h task hn => hw h task fun h => hn (Option.some.inj h)

theorem discarded_slots (r : List Identity) (hw : m.slots.Wf) :
    (r.foldl CancellationSlots.release m.slots).Wf ∧
      ∀ h, (m.slots.Issued h → (r.foldl CancellationSlots.release m.slots).Issued h) ∧
        (r.foldl CancellationSlots.release m.slots).holds h =
          if h ∈ r then none else m.slots.holds h := by
  induction r using List.reverseRecOn with
  | nil => exact ⟨hw, fun h => ⟨id, by simp⟩⟩
  | append_singleton r g ih =>
    rw [List.foldl_append, List.foldl_cons, List.foldl_nil]
    refine ⟨ih.1.release g, fun h => ⟨fun hi => ((ih.2 h).1 hi).release, ?_⟩⟩
    rw [CancellationSlots.holds_release]
    grind

theorem discards_follows {r : List Identity} (hs : m.toCore.Sound)
    (hl : m'.slots = r.foldl CancellationSlots.release m.slots)
    (hr : ∀ e ∈ m.waiting, ∀ h, e.cancellation = some h → h ∈ r)
    (hw : m'.waiting = []) : m.toCore.Follows m'.toCore fun _ => true := by
  obtain ⟨hwf, hi⟩ := discarded_slots r hs.slots
  refine ⟨⟨hl ▸ hwf, fun h _ => by rw [hw, List.countP_nil]⟩, fun h task pending hk => ?_⟩
  rw [Bool.not_true, Bool.and_false]
  refine ⟨hl ▸ (hi h).1 hk.issued, ?_, nofun⟩
  rw [hl, (hi h).2, hk.holds]
  cases pending with
  | false => simp
  | true =>
    obtain ⟨e, he, hc⟩ := List.countP_pos_iff.mp (hk.waiting rfl ▸ Nat.one_pos)
    simp only [carries, Bool.and_eq_true, decide_eq_true_eq] at hc
    exact if_pos (hr e he h hc.2)

structure Releases (m m' : Machine) (r : List Identity) : Prop where
  slots : m'.slots = r.foldl CancellationSlots.release m.slots
  current : m'.current = m.current
  future : m'.future = m.future
  trace : m'.trace = m.trace
  loads : m'.loads = m.loads
  now : m'.now = m.now
  location : m'.location = m.location
  next : m.nextSequence ≤ m'.nextSequence

theorem Releases.refl (m : Machine) : m.Releases m [] :=
  ⟨rfl, rfl, rfl, rfl, rfl, rfl, rfl, le_rfl⟩

theorem Releases.trans {m'' : Machine} {r r' : List Identity} (h : m.Releases m' r)
    (h' : m'.Releases m'' r') : m.Releases m'' (r ++ r') :=
  ⟨by rw [h'.slots, h.slots, List.foldl_append], h'.current.trans h.current,
    h'.future.trans h.future, h'.trace.trans h.trace, h'.loads.trans h.loads, h'.now.trans h.now,
    h'.location.trans h.location, h.next.trans h'.next⟩

theorem reenter_releases (m : Machine) (ops : List Op) : ∃ r, m.Releases (m.reenter ops) r := by
  induction ops generalizing m with
  | nil => exact ⟨[], .refl m⟩
  | cons op ops ih =>
    rw [reenter, List.foldl_cons]
    have hstep : ∃ r, m.Releases (if op.whileDiscarding then (m.perform op).1 else m) r := by
      split
      · next hop =>
        cases op with
        | cancel handle => exact ⟨[handle], rfl, rfl, rfl, rfl, rfl, rfl, rfl, le_rfl⟩
        | requestStop | clearStop => exact ⟨[], rfl, rfl, rfl, rfl, rfl, rfl, rfl, le_rfl⟩
        | reserveOrderKey order =>
          simp only [perform, reserveOrderKey]
          split
          · exact ⟨[], .refl m⟩
          · exact ⟨[], rfl, rfl, rfl, rfl, rfl, rfl, rfl, Nat.le_succ _⟩
        | _ => cases hop
      · exact ⟨[], .refl m⟩
    obtain ⟨r, hr⟩ := hstep
    obtain ⟨r', hr'⟩ := ih (if op.whileDiscarding then (m.perform op).1 else m)
    exact ⟨r ++ r', hr.trans hr'⟩

theorem complete_releases (m : Machine) (entries : List Entry) (ops : List (List Op)) :
    ∃ r, m.Releases (m.complete entries ops) r ∧
      ∀ e ∈ entries, ∀ h, e.cancellation = some h → h ∈ r := by
  induction entries generalizing m ops with
  | nil =>
    obtain ⟨r, hr⟩ := reenter_releases m ops.flatten
    exact ⟨r, hr, List.forall_mem_nil _⟩
  | cons e entries ih =>
    rw [complete]
    have hreleased : m.Releases
        { m with slots := (e.cancellation.map m.slots.release).getD m.slots }
        e.cancellation.toList := by
      cases e.cancellation <;> exact ⟨rfl, rfl, rfl, rfl, rfl, rfl, rfl, le_rfl⟩
    obtain ⟨r, hr⟩ := reenter_releases
      { m with slots := (e.cancellation.map m.slots.release).getD m.slots } (ops.headD [])
    obtain ⟨r', hr', hmem⟩ := ih _ ops.tail
    refine ⟨_, (hreleased.trans hr).trans hr', List.forall_mem_cons.mpr ⟨fun h hh => ?_,
      fun e' he' h hh => List.mem_append_right _ (hmem e' he' h hh)⟩⟩
    simp [hh]

theorem discardQueued_spec (m : Machine) (ops : List (List Op)) : ∃ r : List Identity,
    { m with current := none, future := [] }.Releases { m.discardQueued ops with reserved :=
      ({ m with current := none, future := [] }.complete m.waiting ops).reserved } r ∧
      ∀ e ∈ m.waiting, ∀ h, e.cancellation = some h → h ∈ r :=
  complete_releases { m with current := none, future := [] } m.waiting ops

theorem discardQueued_follows (hs : m.toCore.Sound) (ops : List (List Op))
    (hl : m'.slots = (m.discardQueued ops).slots) (hc : m'.current = (m.discardQueued ops).current)
    (hf : m'.future = (m.discardQueued ops).future) : m.toCore.Follows m'.toCore fun _ => true := by
  obtain ⟨r, hr, hmem⟩ := discardQueued_spec m ops
  refine discards_follows hs (hl.trans hr.slots) hmem ?_
  rw [Core.waiting, hc.trans hr.current, hf.trans hr.future]
  rfl

theorem emptied_inv (hl : m.location = .idle) (hc : m.current = none) (hf : m.future = [])
    (hr : m.reserved = []) (he : ∀ event ∈ m.trace, event.sequence < m.nextSequence ∧
      event.slot ≤ m.loads ∧ event.time ≤ m.now) (hs : m.trace.Pairwise Executed.Before) :
    m.Inv := by
  refine ⟨.of_none hc ?_ ?_ ?_ ?_ he hs, fun h => absurd hl h, fun _ _ h => ?_, fun _ h => ?_⟩
  all_goals simp_all

section
variable (hin : m.Inv)
include hin

theorem discard_inv (ops : List (List Op)) : (m.discard ops).Inv := by
  rw [discard]
  split
  · exact hin
  · next hl =>
    obtain ⟨r, hr, -⟩ := discardQueued_spec m ops
    have htrace : (m.discardQueued ops).trace = m.trace := hr.trace
    refine emptied_inv (hr.location.trans (not_not.mp hl)) hr.current hr.future rfl
      (fun event hevent => ?_) (htrace ▸ hin.wf.sorted)
    obtain ⟨hsequence, hslot, htime, -⟩ := hin.wf.executed event (htrace ▸ hevent)
    exact ⟨hsequence.trans_le hr.next, hslot.trans_eq hr.loads.symm, htime.trans_eq hr.now.symm⟩

theorem reset_inv (ops : List (List Op)) : (m.reset ops).Inv := by
  rw [reset]
  split
  · exact hin
  · next hl =>
    obtain ⟨r, hr, -⟩ := discardQueued_spec m ops
    exact emptied_inv (hr.location.trans (not_not.mp hl)) hr.current hr.future rfl
      (List.forall_mem_nil _) .nil

theorem step_follows (hs : m.toCore.Sound) (step : Step) :
    m.toCore.Follows (m.step step).toCore fun h => m.ends h step := by
  have hsame : m.toCore.Follows m.toCore fun _ => false :=
    hs.same rfl hs.fresh fun _ _ hk => hk.waiting rfl
  have hdiscard {m' : Machine} (hl : m.location ≠ .idle → m' = m)
      (hd : m.location = .idle → m.toCore.Follows m'.toCore fun _ => true) :
      m.toCore.Follows m'.toCore fun _ => m.location = .idle := by
    by_cases hi : m.location = .idle
    · simpa [hi] using hd hi
    · simpa [hi, hl hi] using hsame
  cases step with
  | discard ops =>
    refine hdiscard (fun hl => if_pos hl) fun hl => ?_
    simp only [step, discard, hl]
    exact discardQueued_follows hs ops rfl rfl rfl
  | reset ops =>
    refine hdiscard (fun hl => if_pos hl) fun hl => ?_
    simp only [step, reset, hl]
    exact discardQueued_follows hs ops rfl rfl rfl
  | act a =>
    cases a with
    | advance => exact advance_follows hin hs
    | call l =>
      simp only [step, act, call]
      repeat' split
      all_goals exact hsame
    | throw =>
      simp only [step, act, throw]
      split <;> exact hsame
    | op op =>
      simp only [step, act]
      by_cases hp : m.Permits op
      · rw [if_pos hp]
        by_cases hd : op = .discardPending
        · subst hd
          refine hdiscard (fun hl => by simp [perform, discardPending, hl]) fun hl => ?_
          simp only [perform, discardPending, hl]
          exact discards_follows hs rfl
            (fun e he h hh => List.mem_filterMap.mpr ⟨e, he, hh⟩) rfl
        · by_cases hc : ∃ h, op = .cancel h
          · obtain ⟨g, rfl⟩ := hc
            have hf : m.toCore.Follows (m.perform (.cancel g)).1.toCore (g = ·) :=
              hs.release rfl hs.fresh fun _ _ _ hk => hk.waiting rfl
            simpa [ends, hp] using hf
          · have hf := (perform_effects (m := m) hd).follows hs fun h he => hc ⟨h, he⟩
            cases op <;> first | exact hf | exact absurd ⟨_, rfl⟩ hc | exact absurd rfl hd
      · have hl : m.location ≠ .idle := fun hl => hp (by simp [Permits, hl])
        cases op <;> simpa [ends, hp, hl] using hsame

theorem step_inv (step : Step) : (m.step step).Inv := by
  cases step with
  | act a => exact hin.act a
  | discard ops => exact discard_inv hin ops
  | reset ops => exact reset_inv hin ops

theorem steps_sound (hs : m.toCore.Sound) (l : List Step) :
    (m.steps l).Inv ∧ (m.steps l).toCore.Sound := by
  induction l generalizing m with
  | nil => exact ⟨hin, hs⟩
  | cons step l ih => exact ih (step_inv hin step) (step_follows hin hs step).sound

theorem steps_keeps (hs : m.toCore.Sound) (l : List Step)
    (hk : m.toCore.Keeps h task pending) : ∃ kept, (m.steps l).toCore.Keeps h task kept ∧
      (kept = true ↔ pending = true ∧
        ∀ k step, l[k]? = some step → (m.steps (l.take k)).ends h step = false) := by
  induction l generalizing m pending with
  | nil => exact ⟨pending, hk, by simp⟩
  | cons step l ih =>
    have hf := step_follows hin hs step
    obtain ⟨kept, hkept, hi⟩ := ih (step_inv hin step) hf.sound (hf.keeps h task pending hk)
    refine ⟨kept, hkept, hi.trans ?_⟩
    rw [Bool.and_eq_true, Bool.not_eq_true', and_assoc]
    refine and_congr_right fun _ =>
      ⟨fun ⟨h0, hl⟩ k => ?_, fun hl => ⟨hl 0 step rfl, fun k => hl (k + 1)⟩⟩
    cases k with
    | zero =>
      rintro _ ⟨⟩
      exact h0
    | succ k => exact hl k

end

theorem start_sound (maxDeltaCycles : ℕ) (l : List Step) :
    ((start maxDeltaCycles).steps l).Inv ∧ ((start maxDeltaCycles).steps l).toCore.Sound :=
  steps_sound (start_inv maxDeltaCycles)
    ⟨⟨.nil, List.forall_mem_nil _, nofun⟩, fun _ _ => rfl⟩ l

end Machine

end Steps

open Machine

/-- In every run a handle tests true until a step runs, cancels or discards its task, which waits
in the queues until then and is dispatched at most while the handle tests true; to cancel it is to
remove that task, or nothing once the task is gone. -/
theorem handles_exact (maxDeltaCycles : ℕ) (before : List Step) :
    let m := (start maxDeltaCycles).steps before
    (m.slots.free.Nodup ∧ ∀ i ∈ m.slots.free, ∃ slot, m.slots.slots[i]? = some slot ∧
      slot.active = false ∧ slot.generation < CancellationSlots.generationLimit) ∧
    (∀ handle, (m.perform (.cancel handle)).1.waiting = m.waiting ∧
      (∀ e : Entry, e.isCancelled (m.perform (.cancel handle)).1.slots =
        (e.isCancelled m.slots || e.cancellation = some handle)) ∧
      (m.slots.active handle = false → (m.perform (.cancel handle)).1 = m)) ∧
    (m.dispatches = none → m.advance.trace = m.trace) ∧
    (∀ e, m.dispatches = some e → e ∈ m.waiting ∧ e.isCancelled m.slots = false ∧
      ∃ event : Executed, event.callback = callback m.slots e ∧
        m.advance.trace = m.trace ++ [event]) ∧
    ∀ op task handle, op.cancelable = some task → (m.perform op).2 = .handle handle →
      ∀ after, let issued := (m.perform op).1
        let last := issued.steps after
        (last.slots.active handle = true ↔ ∀ k step, after[k]? = some step →
          (issued.steps (after.take k)).ends handle step = false) ∧
        (last.slots.active handle = true → last.waiting.countP (carries handle) = 1 ∧
          ∀ e ∈ last.waiting, carries handle e = true → callback last.slots e = some task) ∧
        (last.slots.active handle = false →
          ∀ e, last.dispatches = some e → e.cancellation ≠ some handle) := by
  intro m
  obtain ⟨hin, hs⟩ := start_sound maxDeltaCycles before
  refine ⟨⟨hs.slots.nodup, hs.slots.free⟩, fun handle => ⟨rfl, fun e => ?_, fun ha => ?_⟩,
    advance_trace, fun e he => ?_, ?_⟩
  · exact CancellationSlots.isCancelled_release hs.slots e
  · simp [perform, cancel, CancellationSlots.release, ha]
  · obtain ⟨slot, drain, hslot, hmem, htake⟩ := advance_dispatches he
    refine ⟨mem_waiting_of_queued hslot hmem, dispatches_uncancelled he,
      Core.executed m.toCore slot drain e, rfl, ?_⟩
    rw [htake]
    rfl
  · intro op task handle hc hh after issued last
    have hd : op ≠ .discardPending := fun h => by simp [h, Op.cancelable] at hc
    have hn : ∀ h, op ≠ .cancel h := fun h he => by simp [he, Op.cancelable] at hc
    have hi : issued.toCore.Sound := ((perform_effects hd).follows hs hn).sound
    have hli := (steps_sound (hin.perform hd) hi after).2
    obtain ⟨kept, hkept, hk⟩ :=
      steps_keeps (hin.perform hd) hi after (perform_keeps hs hc hh)
    have ha : last.slots.active handle = kept := by
      rw [CancellationSlots.active_eq hli.slots, hkept.holds]
      cases kept <;> rfl
    refine ⟨ha ▸ by simpa using hk, fun hp => ?_, fun hp e he hcancel => ?_⟩
    · obtain rfl : kept = true := ha.symm.trans hp
      exact ⟨hkept.waiting rfl, fun e _ hc => hkept.callback hc⟩
    · have hlive := dispatches_uncancelled he
      rw [Entry.isCancelled, hcancel] at hlive
      simp [hp] at hlive

/-- The slot of a cancelled task is given to the next one; the old handle leaves it alone, and a
discard ends it, although a destructor tries to schedule another task meanwhile. -/
theorem reused_slot_kept :
    let m := (start 100).steps
      [.act (.op (.scheduleAfterCancelable 5 .active 0 (.task 1))), .act (.op (.cancel ⟨0, 1⟩))]
    let issued := (m.perform (.scheduleAfterCancelable 7 .active 0 (.task 2))).1
    let last := issued.steps [.act (.op (.cancel ⟨0, 1⟩))]
    let discarded := issued.steps [.act (.op (.cancel ⟨0, 1⟩)),
      .discard [[.cancel ⟨0, 1⟩, .scheduleAfterCancelable 1 .active 0 (.task 3)]]]
    last.slots.active ⟨0, 2⟩ = true ∧ last.waiting.countP (carries ⟨0, 2⟩) = 1 ∧
      discarded.slots.active ⟨0, 2⟩ = false ∧ discarded.waiting = [] := by
  intro m issued last discarded
  have h := (handles_exact 100 [.act (.op (.scheduleAfterCancelable 5 .active 0 (.task 1))),
    .act (.op (.cancel ⟨0, 1⟩))]).2.2.2.2
      (.scheduleAfterCancelable 7 .active 0 (.task 2)) (.task 2)
    ⟨0, 2⟩ rfl (by decide +kernel)
  have hp : last.slots.active ⟨0, 2⟩ = true := by
    refine (h [.act (.op (.cancel ⟨0, 1⟩))]).1.mpr fun k step hk => ?_
    cases k with
    | zero =>
      cases hk
      decide +kernel
    | succ k => simp at hk
  exact ⟨hp,
    ((h [.act (.op (.cancel ⟨0, 1⟩))]).2.1 hp).1, by decide +kernel, by decide +kernel⟩

end FsimRuntime.Scheduler
