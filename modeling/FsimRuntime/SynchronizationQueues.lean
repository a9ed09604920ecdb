import FsimRuntime.SynchronizationModel

/-!
# Queues of blocked processes

A killed process stays in the queue it waits in. What the queues of a mailbox
or a semaphore keep is that its live processes are exactly those that wait.
-/

namespace FsimRuntime.Synchronization
open List

variable {procs : Processes} {p : ProcessId}

theorem kill_eq (h : (procs p).halted = false) :
    kill procs p = Function.update procs p ⟨true, .killed⟩ := by
  simp [kill, synchronizationHalted, h]

@[simp] theorem halted_wake (procs : Processes) (p q : ProcessId) :
    (synchronizationWake procs p q).halted = (procs q).halted := by
  unfold synchronizationWake
  by_cases hp : synchronizationHalted procs p
  · simp [hp]
  · by_cases hq : q = p <;> simp [hp, hq]

@[simp] theorem halted_wait (procs : Processes) (p q : ProcessId) :
    (wait procs p q).halted = (procs q).halted := by by_cases hq : q = p <;> simp [wait, hq]

structure Queued (processes : Processes) (queue : List ProcessId) : Prop where
  nodup : queue.Nodup
  waits : ∀ p, (processes p).halted = false → ((processes p).status = .waiting ↔ p ∈ queue)

namespace Queued

variable {procs : Processes} {queue queue' : List ProcessId} {p : ProcessId}

section
variable (h : Queued procs queue)
include h

theorem not_mem (hp : Active procs p) : p ∉ queue := by
  rw [← h.waits p hp.1, hp.2]
  decide

theorem wait (hp : Active procs p) (hpe : queue'.Perm (p :: queue)) :
    Queued (wait procs p) queue' := by
  refine ⟨hpe.nodup_iff.mpr (nodup_cons.mpr ⟨h.not_mem hp, h.nodup⟩), fun q hq => ?_⟩
  rw [hpe.mem_iff]
  by_cases hqp : q = p
  · simp [Synchronization.wait, hp.1, hqp]
  · have hq' : (procs q).halted = false := by simpa using hq
    simp [Synchronization.wait, hp.1, hqp, h.waits q hq']

theorem wake (hp : (procs p).halted = false)
    (hpe : queue.Perm (p :: queue')) : Queued (synchronizationWake procs p) queue' := by
  have hn := nodup_cons.mp (hpe.nodup_iff.mp h.nodup)
  refine ⟨hn.2, fun q hq => ?_⟩
  by_cases hqp : q = p
  · simp [synchronizationWake, synchronizationHalted, hp, hqp, hn.1]
  · have hq' : (procs q).halted = false := by simpa using hq
    have := h.waits q hq'
    rw [hpe.mem_iff, mem_cons] at this
    simp [synchronizationWake, synchronizationHalted, hp, hqp, this]

theorem discard (hp : (procs p).halted = true) (hpe : queue.Perm (p :: queue')) :
    Queued procs queue' := by
  refine ⟨(nodup_cons.mp (hpe.nodup_iff.mp h.nodup)).2, fun q hq => ?_⟩
  have hqp : q ≠ p := by
    rintro rfl
    simp [hp] at hq
  rw [h.waits q hq, hpe.mem_iff, mem_cons, or_iff_right hqp]

theorem kill (hp : (procs p).halted = false) : Queued (kill procs p) queue := by
  refine ⟨h.nodup, fun q hq => ?_⟩
  rw [kill_eq hp] at hq ⊢
  by_cases hqp : q = p
  · simp [hqp] at hq
  · simp only [Function.update_of_ne hqp] at hq ⊢
    exact h.waits q hq

end

end Queued

def freshProcesses : Processes := fun _ => ⟨false, .running⟩

theorem queued_fresh : Queued freshProcesses [] :=
  ⟨nodup_nil, fun p _ => by simp [freshProcesses]⟩

def alive {α : Type} (process : α → ProcessId) (processes : Processes)
    (queue : List α) : List α :=
  queue.filter fun waiter => !(processes (process waiter)).halted

section Alive

variable {α : Type} {process : α → ProcessId} {procs : Processes} {queue : List α} {w : α}

theorem alive_congr {procs' : Processes} (h : ∀ p, (procs' p).halted = (procs p).halted) :
    alive process procs' queue = alive process procs queue := by simp [alive, h]

theorem alive_append (queue' : List α) : alive process procs (queue ++ queue') =
      alive process procs queue ++ alive process procs queue' := by simp [alive]

theorem alive_cons_live (h : (procs (process w)).halted = false) :
    alive process procs (w :: queue) = w :: alive process procs queue := by simp [alive, h]

theorem alive_cons_dead (h : (procs (process w)).halted = true) :
    alive process procs (w :: queue) = alive process procs queue := by simp [alive, h]

theorem alive_kill {p : ProcessId} (h : (procs p).halted = false) :
    alive process (kill procs p) queue = (alive process procs queue).filter (process · ≠ p) := by
  rw [alive, alive, filter_filter]
  refine filter_congr fun w _ => ?_
  by_cases hp : process w = p <;> simp [kill_eq h, hp]

theorem filter_ne_of_nodup (h : ((w :: queue).map process).Nodup) :
    (alive process procs queue).filter (process · ≠ process w) = alive process procs queue := by
  refine filter_eq_self.mpr fun o ho => ?_
  have hm : process o ∈ queue.map process :=
    mem_map_of_mem (mem_filter.mp ho).1
  have hn := (nodup_cons.mp h).1
  exact decide_eq_true fun he => hn (he ▸ hm)

end Alive

end FsimRuntime.Synchronization
