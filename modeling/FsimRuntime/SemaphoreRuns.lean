import FsimRuntime.EventRuns
import FsimRuntime.SynchronizationQueues

/-!
# Runs of a semaphore

The keys balance in every run and the waiters are served in the order of their
arrival. A waiter that is killed at the head of the queue stays there until
the next put; in the runs that kill no such waiter nobody is turned away
without reason.
-/

namespace FsimRuntime.Synchronization
open EventRuns SemaphoreEvent

def SemaphoreEvent.returned : SemaphoreEvent → ℤ
  | .put keys => keys
  | _ => 0

def SemaphoreEvent.taken : SemaphoreEvent → ℤ
  | .granted _ keys | .woken _ keys => keys
  | _ => 0

def SemaphoreEvent.turnedAway : SemaphoreEvent → Option ℤ
  | .refused _ keys | .blocked _ keys => some keys
  | _ => none

def balance (initial : ℤ) (history : List SemaphoreEvent) : ℤ :=
  initial + (history.map SemaphoreEvent.returned).sum - (history.map SemaphoreEvent.taken).sum

def lineAfter (line : List SemaphoreWaiter) : SemaphoreEvent → List SemaphoreWaiter
  | .blocked process keys => line ++ [⟨process, keys⟩]
  | .woken process _ | .killed process => line.filter (·.process ≠ process)
  | _ => line

def waitingLine (history : List SemaphoreEvent) : List SemaphoreWaiter := history.foldl lineAfter []

theorem balance_append (initial : ℤ) (history events : List SemaphoreEvent) :
    balance initial (history ++ events) = balance (balance initial history) events := by
  simp only [balance, List.map_append, List.sum_append]
  omega

theorem waitingLine_concat (history : List SemaphoreEvent) (e : SemaphoreEvent) :
    waitingLine (history ++ [e]) = lineAfter (waitingLine history) e := by simp [waitingLine]

def ServesFirst (before : List SemaphoreEvent) (event : SemaphoreEvent) : Prop :=
  ∀ process keys, event = .woken process keys →
    (waitingLine before).head? = some ⟨process, keys⟩

/-- Who is turned away asks for more than there is, or stands behind a live process. -/
def TurnsAwayForReason (initial : ℤ) (before : List SemaphoreEvent)
    (event : SemaphoreEvent) : Prop :=
  ∀ keys, event.turnedAway = some keys → balance initial before < keys ∨
    waitingLine before ≠ []

section Steps

structure Accounted (initial : ℤ) (history : List SemaphoreEvent)
    (world : SemaphoreWorld) : Prop where
  keys : world.semaphore.keys = balance initial history
  line : waitingLine history = alive (·.process) world.processes world.semaphore.waiters
  queued : Queued world.processes (world.semaphore.waiters.map (·.process))
  order : AtEvery ServesFirst history

variable {initial : ℤ} {history : List SemaphoreEvent} {w : SemaphoreWorld}

variable {processes : Processes} {waiters : List SemaphoreWaiter} {keys : ℤ} {process : ProcessId}
  {w' : SemaphoreWorld} {events : List SemaphoreEvent} {waiter : SemaphoreWaiter} {r : ℤ}

section
variable (h : Accounted initial history ⟨⟨keys, waiter :: waiters⟩, processes⟩)
include h

theorem Accounted.discard (hd : (processes waiter.process).halted = true) :
    Accounted initial history ⟨⟨keys, waiters⟩, processes⟩ where
  keys := h.keys
  line := h.line.trans (alive_cons_dead hd)
  queued := h.queued.discard hd (List.Perm.refl _)
  order := h.order

theorem Accounted.wake (hl : (processes waiter.process).halted = false) :
    Accounted initial (history ++ [.woken waiter.process waiter.keys])
      ⟨⟨keys - waiter.keys, waiters⟩, synchronizationWake processes waiter.process⟩ where
  keys := by
    have := h.keys
    simp only [balance_append] at this ⊢
    simp [balance, returned, taken, this]
  line := by
    rw [waitingLine_concat, h.line, lineAfter, alive_cons_live hl, alive_congr (halted_wake _ _)]
    simpa using filter_ne_of_nodup h.queued.nodup
  queued := h.queued.wake hl (List.Perm.refl _)
  order := h.order.concat fun process keys he => by
    obtain ⟨rfl, rfl⟩ := woken.inj he
    rw [h.line, alive_cons_live hl]
    rfl

end

theorem Accounted.serve (h : Accounted initial history ⟨⟨keys, waiters⟩, processes⟩) :
    Accounted initial (history ++ (serve waiters keys processes).2)
      (serve waiters keys processes).1 := by
  induction waiters generalizing history keys processes with
  | nil => simpa [Synchronization.serve] using h
  | cons waiter waiters ih =>
    by_cases hd : (processes waiter.process).halted
    · simpa [Synchronization.serve, synchronizationHalted, hd] using ih (h.discard hd)
    · have hl := eq_false_of_ne_true hd
      by_cases hk : keys < waiter.keys
      · simpa [Synchronization.serve, synchronizationHalted, hl, hk] using h
      · simpa [Synchronization.serve, synchronizationHalted, hl, hk] using ih (h.wake hl)

theorem semaphoreGet_cases {n : Bool} (h : semaphoreGet w process r n = .ok (w', events)) :
    (w.semaphore.waiters = [] ∧ r ≤ w.semaphore.keys ∧
        w' = ⟨⟨w.semaphore.keys - r, []⟩, w.processes⟩ ∧
        events = [.granted process r]) ∨
      ((w.semaphore.waiters = [] → w.semaphore.keys < r) ∧
        ((w' = w ∧ events = [.refused process r]) ∨
          (w' = ⟨⟨w.semaphore.keys, w.semaphore.waiters ++ [⟨process, r⟩]⟩,
              wait w.processes process⟩ ∧ events = [.blocked process r]))) := by
  obtain ⟨_, _, h⟩ := bind_ok.mp h
  obtain ⟨⟨keys, waiters⟩, processes⟩ := w
  by_cases ha : waiters = [] ∧ r ≤ keys
  · obtain ⟨rfl, hk⟩ := ha
    obtain ⟨rfl, rfl⟩ : _ ∧ _ := by simpa [hk, pure, Except.pure] using h
    exact .inl ⟨rfl, hk, rfl, rfl⟩
  · refine .inr ⟨fun hn => Int.not_le.mp fun hl => ha ⟨hn, hl⟩, ?_⟩
    have hc : (waiters.isEmpty && decide (r ≤ keys)) = false := by simpa using ha
    simp only [hc] at h
    cases n with
    | true =>
      obtain ⟨rfl, rfl⟩ : _ ∧ _ := by simpa [pure, Except.pure] using h
      exact .inl ⟨rfl, rfl⟩
    | false =>
      obtain ⟨rfl, rfl⟩ : _ ∧ _ := by simpa [pure, Except.pure] using h
      exact .inr ⟨rfl, rfl⟩

theorem semaphorePut_ok {returned : ℤ} (h : semaphorePut w returned = .ok (w', events)) :
    w' = (serve w.semaphore.waiters (w.semaphore.keys + returned) w.processes).1 ∧
      events = .put returned ::
        (serve w.semaphore.waiters (w.semaphore.keys + returned) w.processes).2 := by
  obtain ⟨_, _, h⟩ := bind_ok.mp h
  obtain ⟨_, _, h⟩ := bind_ok.mp h
  simpa [pure, Except.pure, eq_comm] using h

section
variable (h : Accounted initial history w)
include h

theorem Accounted.plain {e : SemaphoreEvent} {s : SemaphoreState}
    (hl : lineAfter (waitingLine history) e = waitingLine history)
    (hwo : ∀ process keys, e ≠ .woken process keys) (hk : s.keys = balance w.semaphore.keys [e])
    (hw : s.waiters = w.semaphore.waiters) :
    Accounted initial (history ++ [e]) ⟨s, w.processes⟩ where
  keys := by rw [balance_append, ← h.keys, hk]
  line := by rw [waitingLine_concat, hl, h.line, hw]
  queued := by simpa [hw] using h.queued
  order := h.order.concat fun process keys he => absurd he (hwo process keys)

theorem Accounted.blocked
    (ha : Active w.processes process) : Accounted initial (history ++ [.blocked process r])
      ⟨⟨w.semaphore.keys, w.semaphore.waiters ++ [⟨process, r⟩]⟩,
        wait w.processes process⟩ where
  keys := by
    rw [balance_append, ← h.keys]
    simp [balance, returned, taken]
  line := by
    rw [waitingLine_concat, h.line, alive_append, alive_congr (halted_wait _ _),
      alive_congr (halted_wait _ _), alive_cons_live ha.1]
    rfl
  queued := h.queued.wait ha (by simp)
  order := h.order.concat fun _ _ he => by simp at he

theorem Accounted.killed
    (hl : (w.processes process).halted = false) : Accounted initial (history ++ [.killed process])
      { w with processes := kill w.processes process } where
  keys := by
    rw [balance_append, ← h.keys]
    simp [balance, returned, taken]
  line := by rw [waitingLine_concat, h.line, lineAfter, alive_kill hl]
  queued := h.queued.kill hl
  order := h.order.concat fun _ _ he => by simp at he

theorem Accounted.step {call : SemaphoreCall}
    (he : call.Enabled w) (hs : w.step call = .ok (w', events)) :
    Accounted initial (history ++ events) w' := by
  cases call with
  | get process r n =>
    obtain ⟨hn, _, rfl, rfl⟩ | ⟨_, ⟨rfl, rfl⟩ | ⟨rfl, rfl⟩⟩ := semaphoreGet_cases hs
    · refine h.plain rfl (by simp) ?_ hn.symm
      simp [balance, returned, taken]
    · refine h.plain rfl (by simp) ?_ rfl
      simp [balance, returned, SemaphoreEvent.taken]
    · exact h.blocked he
  | put process returned =>
    obtain ⟨rfl, rfl⟩ := semaphorePut_ok hs
    have hp : Accounted initial (history ++ [.put returned])
        ⟨⟨w.semaphore.keys + returned, w.semaphore.waiters⟩, w.processes⟩ := by
      refine h.plain rfl (by simp) ?_ rfl
      simp [balance, SemaphoreEvent.returned, SemaphoreEvent.taken]
    simpa using hp.serve
  | kill process =>
    obtain ⟨rfl, rfl⟩ : _ ∧ _ := by simpa [SemaphoreWorld.step] using hs
    exact h.killed he

end

end Steps

def semaphoreStart (keys : ℤ) : SemaphoreWorld := ⟨⟨keys, []⟩, freshProcesses⟩

abbrev SemaphoreRun (initial : ℤ) : List SemaphoreEvent → SemaphoreWorld → Prop :=
  Run (fun world call => SemaphoreCall.Enabled world call) SemaphoreWorld.step
    (semaphoreStart initial)

theorem accounted_start (initial : ℤ) : Accounted initial [] (semaphoreStart initial) where
  keys := by simp [balance, semaphoreStart]
  line := rfl
  queued := queued_fresh
  order := .nil

/-- A kill that spares the process at the head of the semaphore's queue. -/
def SemaphoreCall.SparesFirst (world : SemaphoreWorld) : SemaphoreCall → Prop
  | .kill process => (world.semaphore.waiters.head?.map (·.process)) ≠ some process
  | _ => True

/-- The head of the queue is alive and asks for more than there is. -/
def HeadWaits (world : SemaphoreWorld) : Prop :=
  ∀ waiter ∈ world.semaphore.waiters.head?,
    (world.processes waiter.process).halted = false ∧ world.semaphore.keys < waiter.keys

theorem serve_spec (waiters : List SemaphoreWaiter) (keys : ℤ) (processes : Processes) :
    HeadWaits (serve waiters keys processes).1 ∧
      ∀ e ∈ (serve waiters keys processes).2, e.turnedAway = none := by
  induction waiters generalizing keys processes with
  | nil => simp [serve, HeadWaits]
  | cons waiter waiters ih =>
    by_cases hd : (processes waiter.process).halted
    · simpa [serve, synchronizationHalted, hd] using ih keys processes
    · have hl := eq_false_of_ne_true hd
      by_cases hk : keys < waiter.keys
      · simp [serve, synchronizationHalted, hl, hk, HeadWaits]
      · simpa [serve, synchronizationHalted, hl, hk, turnedAway] using
          ih (keys - waiter.keys) (synchronizationWake processes waiter.process)

variable {w : SemaphoreWorld} {initial : ℤ} {history : List SemaphoreEvent} {w' : SemaphoreWorld}
  {call : SemaphoreCall} {events : List SemaphoreEvent}

theorem Accounted.fair_step (h : Accounted initial history w) (hh : HeadWaits w)
    (hr : AtEvery (TurnsAwayForReason initial) history) (he : call.Enabled w)
    (hsp : call.SparesFirst w) (hst : w.step call = .ok (w', events)) :
    HeadWaits w' ∧ AtEvery (TurnsAwayForReason initial) (history ++ events) := by
  have hs : ∀ e : SemaphoreEvent, e.turnedAway = none →
      ∀ b, TurnsAwayForReason initial b e := by
    intro e hn b keys hk
    simp [hn] at hk
  cases call with
  | get process r n =>
    have ht : (w.semaphore.waiters = [] → w.semaphore.keys < r) →
        ∀ e : SemaphoreEvent, e.turnedAway = some r → TurnsAwayForReason initial history e := by
      intro hc e ha keys hk
      obtain rfl := Option.some.inj (ha.symm.trans hk)
      cases hq : w.semaphore.waiters with
      | nil => exact .inl (h.keys ▸ hc hq)
      | cons waiter waiters =>
        rw [h.line, hq, alive_cons_live (hh waiter (by simp [hq])).1]
        simp
    obtain ⟨_, _, rfl, rfl⟩ | ⟨hc, ⟨rfl, rfl⟩ | ⟨rfl, rfl⟩⟩ :=
      semaphoreGet_cases hst
    · exact ⟨by simp [HeadWaits], hr.concat (hs _ rfl _)⟩
    · exact ⟨hh, hr.concat (ht hc _ rfl)⟩
    · refine ⟨?_, hr.concat (ht hc _ rfl)⟩
      cases hq : w.semaphore.waiters with
      | nil => simpa [HeadWaits] using ⟨he.1, hc hq⟩
      | cons waiter waiters => simpa [HeadWaits] using hh waiter (by simp [hq])
  | put process returned =>
    obtain ⟨rfl, rfl⟩ := semaphorePut_ok hst
    obtain ⟨hw, ha⟩ := serve_spec w.semaphore.waiters (w.semaphore.keys + returned) w.processes
    refine ⟨hw, hr.append fun b e hm => hs e ?_ b⟩
    rcases List.mem_cons.mp hm with rfl | hm
    · rfl
    · exact ha e hm
  | kill process =>
    obtain ⟨rfl, rfl⟩ : _ ∧ _ := by simpa [SemaphoreWorld.step] using hst
    refine ⟨fun waiter hw => ?_, hr.concat (hs _ rfl _)⟩
    have hn : waiter.process ≠ process := by
      rintro rfl
      exact hsp (by rw [Option.mem_def.mp hw]; rfl)
    simpa [kill_eq he, hn] using hh waiter hw

abbrev SparingRun (initial : ℤ) : List SemaphoreEvent → SemaphoreWorld → Prop :=
  Run (fun world call => SemaphoreCall.Enabled world call ∧ call.SparesFirst world)
    SemaphoreWorld.step (semaphoreStart initial)

theorem SparingRun.fair (run : SparingRun initial history w) :
    Accounted initial history w ∧ HeadWaits w ∧
      AtEvery (TurnsAwayForReason initial) history := by
  refine run.keeps (fun history w => Accounted initial history w ∧ HeadWaits w ∧
    AtEvery (TurnsAwayForReason initial) history)
    ⟨accounted_start initial, by simp [HeadWaits, semaphoreStart], .nil⟩ ?_
  rintro history w call w' events ⟨h, hh, hr⟩ ⟨he, hsp⟩ hs
  exact ⟨h.step he hs, h.fair_step hh hr he hsp hs⟩

theorem first_asks_for_more (h : Accounted initial history w) (hh : HeadWaits w) :
    ∀ waiter ∈ (waitingLine history).head?, w.semaphore.keys < waiter.keys := by
  intro waiter hw
  rw [h.line] at hw
  cases hq : w.semaphore.waiters with
  | nil => simp [hq, alive] at hw
  | cons first waiters =>
    have hf := hh first (by simp [hq])
    rw [hq, alive_cons_live hf.1] at hw
    obtain rfl : first = waiter := by simpa using hw
    exact hf.2

/-- In every run the keys balance and the waiters are served in the order of their arrival. In a
run that kills no process at the head of the queue a get is turned away only for want of keys or
behind a live process, and the live process that waits longest asks for more than there is. -/
theorem semaphore_runs_fair (initial : ℤ) :
    (∀ history world, SemaphoreRun initial history world →
      world.semaphore.keys = balance initial history ∧ AtEvery ServesFirst history) ∧
    ∀ history world, SparingRun initial history world →
      AtEvery (TurnsAwayForReason initial) history ∧
        ∀ waiter ∈ (waitingLine history).head?, world.semaphore.keys < waiter.keys := by
  refine ⟨fun history world run => ?_, fun history world run => ?_⟩
  · have h := run.keeps (Accounted initial) (accounted_start initial) fun h he hs => h.step he hs
    exact ⟨h.keys, h.order⟩
  · obtain ⟨h, hhead, hreason⟩ := run.fair
    exact ⟨hreason, first_asks_for_more h hhead⟩

/-- Process 1 blocks for two keys and gets them from the three that process 2 puts. -/
theorem semaphore_put_serves : ∃ world, SparingRun 0 [.blocked 1 2, .put 3, .woken 1 2] world ∧
    world.semaphore.keys = 1 ∧
    AtEvery (TurnsAwayForReason 0) [.blocked 1 2, .put 3, .woken 1 2] := by
  have run : SparingRun 0 ([] ++ [.blocked 1 2] ++ [.put 3, .woken 1 2]) _ :=
    .snoc (.put 2 3) (.snoc (.get 1 2 false) .nil ⟨by decide, trivial⟩ rfl)
      ⟨by decide, trivial⟩ rfl
  exact ⟨_, run, rfl, ((semaphore_runs_fair 0).2 _ _ run).1⟩

/-- Process 1 asks for two keys where there is one and is killed; the one key stays, and nobody
waits, but process 2 is turned away. -/
theorem killed_waiter_turns_away : ∃ history world, SemaphoreRun 1 history world ∧
    ¬ AtEvery (TurnsAwayForReason 1) history := by
  have run : SemaphoreRun 1 ([] ++ [.blocked 1 2] ++ [.killed 1] ++ [.refused 2 1]) _ :=
    .snoc (.get 2 1 true)
      (.snoc (.kill 1) (.snoc (.get 1 2 false) .nil (by decide) rfl) rfl rfl) (by decide) rfl
  refine ⟨_, _, run, fun hreason => ?_⟩
  have := hreason [.blocked 1 2, .killed 1] (.refused 2 1) [] rfl 1 rfl
  revert this
  decide

/-- The keys are a natural number of 63 bits and nobody waits for a negative number of keys. -/
structure Counted (s : SemaphoreState) : Prop where
  nonneg : 0 ≤ s.keys
  fits : s.keys ≤ 2 ^ 63 - 1
  asked : ∀ waiter ∈ s.waiters, 0 ≤ waiter.keys

theorem serve_counted {waiters : List SemaphoreWaiter} {keys : ℤ} {processes : Processes}
    (h : Counted ⟨keys, waiters⟩) : Counted (serve waiters keys processes).1.semaphore := by
  obtain ⟨hn, hf, ha⟩ := h
  induction waiters generalizing keys processes with
  | nil => exact ⟨hn, hf, ha⟩
  | cons waiter waiters ih =>
    obtain ⟨hw, ha'⟩ := List.forall_mem_cons.mp ha
    unfold serve
    split_ifs with hd hk
    · exact ih hn hf ha'
    · exact ⟨hn, hf, ha⟩
    · have hl := Int.not_lt.mp hk
      exact ih (Int.sub_nonneg.mpr hl) (by dsimp only at hf ⊢; omega) ha'

theorem Counted.step (h : Counted w.semaphore) (hs : w.step call = .ok (w', events)) :
    Counted w'.semaphore := by
  cases call with
  | get process r n =>
    obtain ⟨_, hr, -⟩ := bind_ok.mp hs
    have hr : 0 ≤ r := by simpa [refuse] using hr
    obtain ⟨_, hk, rfl, -⟩ | ⟨-, ⟨rfl, -⟩ | ⟨rfl, -⟩⟩ := semaphoreGet_cases hs
    · have := h.fits
      exact ⟨Int.sub_nonneg.mpr hk, by dsimp only; omega, by simp⟩
    · exact h
    · refine ⟨h.nonneg, h.fits, fun waiter hw => ?_⟩
      rcases List.mem_append.mp hw with hw | hw
      · exact h.asked waiter hw
      · rwa [List.mem_singleton.mp hw]
  | put process returned =>
    obtain ⟨_, hr, ho⟩ := bind_ok.mp hs
    obtain ⟨_, ho, -⟩ := bind_ok.mp ho
    have hr : 0 ≤ returned := by simpa [refuse] using hr
    have ho : w.semaphore.keys ≤ 2 ^ 63 - 1 - returned := by simpa [refuse] using ho
    obtain ⟨rfl, -⟩ := semaphorePut_ok hs
    have := h.nonneg
    exact serve_counted ⟨by dsimp only; omega, by dsimp only; omega, h.asked⟩
  | kill process =>
    obtain ⟨rfl, -⟩ : _ ∧ _ := by simpa [SemaphoreWorld.step] using hs
    exact h

/-- In no run do the keys of a semaphore become negative or overflow their 64 bits. -/
theorem semaphore_keys_bounded (h0 : 0 ≤ initial) (h1 : initial ≤ 2 ^ 63 - 1)
    (run : SemaphoreRun initial history w) : Counted w.semaphore :=
  run.keeps (fun _ w => Counted w.semaphore) ⟨h0, h1, by simp [semaphoreStart]⟩
    fun h _ hs => h.step hs

theorem full_semaphore_bounded : ∃ w, SemaphoreRun (2 ^ 63 - 1) [.granted 1 (2 ^ 31 - 1)] w ∧
    Counted w.semaphore := by
  have run : SemaphoreRun (2 ^ 63 - 1) ([] ++ [.granted 1 (2 ^ 31 - 1)]) _ :=
    .snoc (.get 1 (2 ^ 31 - 1) false) .nil (by decide) rfl
  exact ⟨_, run, semaphore_keys_bounded (by norm_num) le_rfl run⟩

end FsimRuntime.Synchronization
