import FsimRuntime.KernelPoolCalls

/-!
# Runs of the worker pool

Every interleaving of the calling thread and the workers, for every sequence
of calls whose `runLanes` calls begin in settled states.
-/

namespace FsimRuntime.KernelPool
open Finset

variable {lanes : ℕ} {calls : List Call} {s : State}

def Begins (calls : List Call) (s : State) (choice : Choice) : Prop :=
  choice.lane = 0 ∧ s.leader = .between ∧ calls[s.index]? = some .runLanes

/-- Every `runLanes` call of the run begins in a settled state. -/
def SettledCalls (lanes : ℕ) (calls : List Call) : State → List Choice → Prop
  | _, [] => True
  | s, choice :: choices => (Begins calls s choice → Settled lanes s) ∧
      SettledCalls lanes calls (step lanes calls s choice) choices

instance (o : Option TakePc) : Decidable (∀ word, o ≠ some (.checkPinned word)) :=
  match o with
  | some (.checkPinned word) => .isFalse fun h => h word rfl
  | none | some (.checkState _) | some (.loadPinned _) | some (.startPinned _ _)
  | some (.runPinned _ _) | some (.storeDone _) | some (.claim _ _) | some (.exchange _ _ _)
  | some (.loadBody _ _ _) | some (.runItems _ _ _ _ _) | some (.inItem _ _ _ _ _)
  | some (.reload _) => .isTrue fun _ => nofun

instance : Decidable (Settled lanes s) :=
  decidable_of_iff (∀ lane < lanes, 1 ≤ lane → s.seen lane = s.shared.word.epoch ∧
    (∀ word, s.take lane ≠ some (.checkPinned word)) ∧
    s.shared.done lane ≠ some ((s.shared.word.epoch + 1) % epochLimit))
    ⟨fun h lane hpos hlane => h lane hlane hpos, fun h lane hlane hpos => h lane hpos hlane⟩

instance (choice : Choice) : Decidable (Begins calls s choice) := by
  unfold Begins
  infer_instance

instance : ∀ s choices, Decidable (SettledCalls lanes calls s choices)
  | _, [] => .isTrue trivial
  | s, choice :: choices =>
    have := instDecidableSettledCalls (step lanes calls s choice) choices
    inferInstanceAs (Decidable (_ ∧ _))

theorem SettledCalls.left {s : State} {b after : List Choice}
    (h : SettledCalls lanes calls s (b ++ after)) : SettledCalls lanes calls s b := by
  induction b generalizing s with
  | nil => trivial
  | cons c b ih => exact ⟨h.1, ih h.2⟩

theorem Inv.start : Inv lanes calls .start := by
  refine .rest ⟨nofun, le_rfl, nofun, nofun, nofun⟩ ⟨trivial, rfl, nofun,
    .inl le_rfl, nofun, nofun, nofun, fun hn => (hn rfl).elim, fun hn => (hn rfl).elim, ?_,
    nofun⟩
  rintro (h | ⟨_, h⟩) <;> cases h

theorem Inv.step {c : Choice} (hl : 1 ≤ lanes) (h : Inv lanes calls s)
    (hs : Begins calls s c → Settled lanes s) : Inv lanes calls (step lanes calls s c) := by
  rw [KernelPool.step]
  split
  · next hz =>
    cases h with
    | rest base h => exact h.leaderStep base fun hle hc => hs ⟨hz, hle, hc⟩
    | run count base h | lanes base h => exact h.leaderStep hl base
  · next hz =>
    split
    · next hla => exact h.workerStep (Nat.one_le_iff_ne_zero.mpr hz) hla
    · exact h

theorem run_inv {c : List Choice} (hl : 1 ≤ lanes) (h : Inv lanes calls s)
    (hs : SettledCalls lanes calls s c) : Inv lanes calls (run lanes calls s c) := by
  induction c generalizing s with
  | nil => exact h
  | cons choice c ih => exact ih (h.step hl hs.1) hs.2

theorem Inv.base (h : Inv lanes calls s) : Base lanes calls s := by
  cases h <;> assumption

def Within (lanes k : ℕ) (call : Call) (log : List Invocation) : Prop :=
  match call with
  | .run count => items k log ≤ Multiset.range count
  | .runLanes => pairs k log ≤ (Multiset.range lanes).map fun lane => (lane, lane)

variable {log : List Invocation} {k : ℕ} {call : Call}

theorem Covers.within (h : Covers lanes k call log) : Within lanes k call log := by
  cases call <;> exact le_of_eq h

theorem within_of_forall_ne (h : ∀ i ∈ log, i.body ≠ some k) : Within lanes k call log := by
  cases call with
  | run count =>
    simp only [Within, items_of_forall_ne h]
    exact Multiset.zero_le _
  | runLanes =>
    simp only [Within, pairs_of_forall_ne h]
    exact Multiset.zero_le _

theorem begun_le {epoch seen l : ℕ} {o : Option TakePc} : begun epoch seen l o ≤ {(l, l)} := by
  rw [begun.eq_def]
  split
  · exact le_rfl
  · exact le_rfl
  · split
    · exact le_rfl
    · exact Multiset.zero_le _
  · exact Multiset.zero_le _

theorem Inv.within (h : Inv lanes calls s) (hc : calls[k]? = some call) :
    Within lanes k call s.shared.started := by
  rcases lt_trichotomy k s.index with hl | rfl | hg
  · obtain ⟨c', hc', hexa⟩ := h.base.past k hl
    obtain rfl : c' = call := Option.some.inj (hc'.symm.trans hc)
    exact hexa.1.within
  · cases h with
    | rest base h => exact within_of_forall_ne h.started
    | run count base h =>
      obtain rfl : .run count = call := Option.some.inj (h.call.symm.trans hc)
      calc items s.index s.shared.started
          ≤ Multiset.range s.shared.word.item := h.started ▸ Multiset.le_add_right _ _
        _ ≤ Multiset.range count := Multiset.range_le.mpr h.item_le
    | lanes base h =>
      obtain rfl : .runLanes = call := Option.some.inj (h.call.symm.trans hc)
      rw [Within, h.started, ← sum_singleton_pair]
      exact sum_le_sum fun l _ => begun_le
  · refine within_of_forall_ne fun i hi he => ?_
    obtain ⟨k', hk', hb⟩ := h.base.started i hi
    have := Option.some.inj (hb.symm.trans he)
    omega

def invocations (k : ℕ) (log : List Invocation) : List Invocation :=
  log.filter fun i => i.body = some k

def Grows (s s' : State) : Prop :=
  s.index ≤ s'.index ∧ s.shared.started <+: s'.shared.started

theorem Grows.refl (s : State) : Grows s s := ⟨le_rfl, List.prefix_rfl⟩

theorem Grows.stepTake (l : ℕ) (fails : Bool) (t : TakePc) : Grows s (stepTake l fails t s) :=
  ⟨le_rfl, _, takeStep_started.symm⟩

theorem Grows.leaderStep (fails : Bool) : Grows s (leaderStep lanes calls fails s) := by
  rw [KernelPool.leaderStep]
  split
  · exact .refl s
  · split
    case h_7 =>
      split
      · exact .stepTake ..
      · exact .refl s
      · split
        · exact .refl s
        · exact ⟨Nat.le_succ _, List.prefix_rfl⟩
    all_goals repeat' split
    all_goals first
      | exact ⟨le_rfl, List.prefix_rfl⟩
      | exact ⟨Nat.le_succ _, List.prefix_rfl⟩

theorem Grows.step (c : Choice) : Grows s (step lanes calls s c) := by
  rw [KernelPool.step]
  split
  · exact .leaderStep c.spurious
  · split
    · rw [workerStep]
      split
      · exact .stepTake ..
      · split <;> exact .refl s
    · exact .refl s

theorem Grows.run (c : List Choice) : Grows s (run lanes calls s c) := by
  induction c generalizing s with
  | nil => exact .refl s
  | cons choice c ih =>
    have hs : Grows s (KernelPool.step lanes calls s choice) := .step choice
    have hl := @ih (KernelPool.step lanes calls s choice)
    exact ⟨hs.1.trans hl.1, hs.2.trans hl.2⟩

theorem covers_card {log' : List Invocation} (h : Covers lanes k call log)
    (h' : Covers lanes k call log') : (invocations k log).length = (invocations k log').length := by
  cases call with
  | run count => simpa [items, invocations] using congrArg Multiset.card (h.trans h'.symm)
  | runLanes => simpa [pairs, invocations] using congrArg Multiset.card (h.trans h'.symm)

theorem invocations_stable {new : List Invocation} (h : Covers lanes k call log)
    (h' : Covers lanes k call (log ++ new)) : invocations k (log ++ new) = invocations k log := by
  have ha : invocations k (log ++ new) = invocations k log ++ invocations k new :=
    List.filter_append ..
  have hl := covers_card h h'
  rw [ha, List.length_append] at hl
  rw [ha, List.eq_nil_of_length_eq_zero (l := invocations k new) (by omega), List.append_nil]

/-- In every state no body has been invoked more often than its call requires.
In every state after a call's return, its body has been invoked exactly as
required, these invocations have finished, and none follows. -/
theorem returned_calls_exact (hlanes : 1 ≤ lanes) (calls : List Call)
    (before after : List Choice) (hsettled : SettledCalls lanes calls .start (before ++ after)) :
    let s := run lanes calls .start before
    let s' := run lanes calls .start (before ++ after)
    (∀ k call, calls[k]? = some call → Within lanes k call s.shared.started) ∧
      ∀ k < s.index, ∃ call, calls[k]? = some call ∧ Exact lanes k call s.shared ∧
        invocations k s'.shared.started = invocations k s.shared.started := by
  intro s s'
  have hinv : Inv lanes calls s := run_inv hlanes .start hsettled.left
  have hinv' : Inv lanes calls s' := run_inv hlanes .start hsettled
  have hgrows : Grows s s' := by
    have happend : s' = run lanes calls s after := List.foldl_append ..
    exact happend ▸ .run after
  refine ⟨fun k call hcall => hinv.within hcall, fun k hk => ?_⟩
  obtain ⟨call, hcall, hexact⟩ := hinv.base.past k hk
  obtain ⟨call', hcall', hexact'⟩ := hinv'.base.past k (Nat.lt_of_lt_of_le hk hgrows.1)
  obtain rfl : call' = call := Option.some.inj (hcall'.symm.trans hcall)
  obtain ⟨new, hnew⟩ := hgrows.2
  rw [← hnew]
  exact ⟨call', hcall', hexact, invocations_stable hexact.1 (hnew ▸ hexact'.1)⟩

def leads (n : ℕ) : List Choice := List.replicate n ⟨0, false⟩

def works (n : ℕ) : List Choice := List.replicate n ⟨1, false⟩

/-- The worker has read the mode of the `run` batch and still holds its old
word when `runLanes` begins. -/
theorem settledWorker_exact :
    let calls := [.run 1, .runLanes]
    let before := leads 6 ++ works 2 ++ leads 11
    let after := leads 6 ++ works 11 ++ leads 12
    (run 2 calls .start before).index = 1 ∧
      (run 2 calls .start before).take 1 ≠ none ∧
      (run 2 calls .start (before ++ after)).index = 2 ∧
      ∃ call, calls[0]? = some call ∧ Exact 2 0 call (run 2 calls .start before).shared ∧
        invocations 0 (run 2 calls .start (before ++ after)).shared.started =
          invocations 0 (run 2 calls .start before).shared.started := by
  intro calls before after
  have hindex : (run 2 calls .start before).index = 1 := by decide +kernel
  have hsettled : SettledCalls 2 calls .start (before ++ after) := by decide +kernel
  refine ⟨hindex, by decide +kernel, by decide +kernel, ?_⟩
  exact (returned_calls_exact (by decide) calls before after hsettled).2 0 (by omega)

/-- The worker has read the word of the `run` batch and not yet its mode when
`runLanes` begins: it invokes the returned call's body. -/
theorem lateWorker_invokes_returned_body :
    let calls := [.run 1, .runLanes]
    let before := leads 6 ++ works 1 ++ leads 11
    let after := leads 1 ++ works 4
    (run 2 calls .start before).index = 1 ∧
      ⟨some 0, 1, 1⟩ ∉ (run 2 calls .start before).shared.started ∧
      ⟨some 0, 1, 1⟩ ∈ (run 2 calls .start (before ++ after)).shared.started := by
        decide +kernel

end FsimRuntime.KernelPool
