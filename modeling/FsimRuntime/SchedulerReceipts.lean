import FsimRuntime.SchedulerRegions

/-!
# Key receipts

A receipt names the time, delta, round, region, order and sequence at which its
task is to be executed. No task is lost or executed twice; the round is right as
long as no work waits in a region that starts another round first.
-/

namespace FsimRuntime.Scheduler

open Queue List Function Scheduler.Core

section Copies

/-- How often the task with a sequence number waits or has been executed. -/
def Core.copies (s : Core) (n : ℕ) : ℕ :=
  s.waiting.countP (·.sequence = n) + s.trace.countP (·.sequence = n)

def Core.Plain (s : Core) (n : ℕ) : Prop :=
  ∀ e ∈ s.waiting, e.sequence = n → e.cancellation = none

def Core.Lasting (s : Core) (p : Entry → Bool) : Prop :=
  ∀ e ∈ s.waiting, p e = true → e.isCancelled s.slots = false

variable {s s' : Core} {n : ℕ} {p : Entry → Bool} {slot slot' : CurrentSlot}
  {queues queues' : Place → List Entry} {place : Place} {l : List Entry} {e : Entry}

theorem Place.all_nodup : Place.all.Nodup := by decide

def tally (p : Entry → Bool) (queues : Place → List Entry) : ℕ :=
  (Place.all.flatMap queues).countP p

theorem tally_eq_sum :
    tally p queues = (Place.all.map fun place => (queues place).countP p).sum := by
  rw [tally, countP_flatMap]
  rfl

theorem tally_update : tally p (update queues place l) + (queues place).countP p =
    tally p queues + l.countP p := by
  have hr : (Place.all.erase place).map (fun q => ((update queues place l) q).countP p) =
      (Place.all.erase place).map fun q => (queues q).countP p :=
    map_congr_left fun q hq => by
      rw [update_of_ne (Place.all_nodup.mem_erase_iff.mp hq).1]
  rw [tally_eq_sum, tally_eq_sum, ← sum_map_erase _ place.mem_all,
    ← sum_map_erase (fun q => (queues q).countP p) place.mem_all, hr, update_self]
  omega

def Place.swap : Place → Place
  | .current phase => .nextDelta phase
  | .nextDelta phase => .current phase
  | other => other

theorem tally_swapDelta : tally p slot.swapDelta.queues = tally p slot.queues := by
  have hs : slot.swapDelta.queues = slot.queues ∘ Place.swap := by
    funext place
    cases place <;> rfl
  have hp : (Place.all.map Place.swap).Perm Place.all := by decide
  rw [tally_eq_sum, tally_eq_sum]
  have hm := (hp.map fun place => (slot.queues place).countP p).sum_eq
  exact hm

def loaded (future : List Timed) (time : ℕ) (place : Place) : List Entry :=
  (future.filter fun t => t.time = time ∧ t.place = place).map Timed.entry

variable {t : Timed} {time : ℕ}

theorem loaded_cons {future : List Timed} : loaded (t :: future) t.time =
      update (loaded future t.time) t.place (t.entry :: loaded future t.time t.place) := by
  funext place
  by_cases hp : place = t.place
  · simp [loaded, hp]
  · simp [loaded, hp, Ne.symm hp]

theorem loaded_cons_of_ne {future : List Timed} (h : t.time ≠ time) :
    loaded (t :: future) time = loaded future time := by
  funext place
  simp [loaded, h]

theorem tally_loaded {future : List Timed} : tally p (loaded future time) =
    (future.filter fun t => t.time = time).countP (p ·.entry) := by
  induction future with
  | nil => simp [tally, loaded]
  | cons t future ih =>
    by_cases ht : t.time = time
    · subst ht
      have hu : tally p (update (loaded future t.time) t.place
          (t.entry :: loaded future t.time t.place)) + _ = _ + _ := tally_update
      rw [← loaded_cons, countP_cons] at hu
      simp only [decide_true, filter_cons_of_pos, countP_cons]
      omega
    · rw [loaded_cons_of_ne ht, ih]
      simp [ht]

theorem awaiting_eq (hs : s.current = some slot) : s.waiting.countP p =
    tally p slot.queues + s.future.countP (p ·.entry) := by
  simp [waiting, hs, countP_append, countP_map, tally, comp_def]

theorem awaiting_eq_of_none (hs : s.current = none) :
    s.waiting.countP p = s.future.countP (p ·.entry) := by
  simp [waiting, hs, comp_def]

theorem Core.Plain.lasting (h : s.Plain n) : s.Lasting (·.sequence = n) :=
  fun e he hn => isCancelled_eq_false _ (h e he (by simpa using hn))

section
variable (h : s.Lasting p)
include h

theorem Core.Lasting.future (ht : t ∈ s.future) (hp : p t.entry = true) :
    t.entry.isCancelled s.slots = false :=
  h t.entry (mem_append_right _ (mem_map_of_mem ht)) hp

theorem countP_of_empty (hs : s.current = some slot)
    (hem : empty s.slots (slot.queues place) = true) : (slot.queues place).countP p = 0 := by
  refine countP_eq_zero.mpr fun e he hp => ?_
  have hw : e ∈ s.waiting := by
    simp only [waiting, hs, Option.elim_some, mem_append, mem_flatMap]
    exact .inl ⟨place, place.mem_all, he⟩
  have hc := empty_iff.mp hem e he
  rw [h e hw hp] at hc
  cases hc

theorem countP_clearConsumed (hs : s.current = some slot) :
    (clearConsumed s.slots (slot.queues place)).countP p = (slot.queues place).countP p := by
  rw [clearConsumed]
  split
  · next he => rw [countP_of_empty h hs he, countP_nil]
  · rfl

theorem countP_dropEmptySlots :
    s.dropEmptySlots.future.countP (p ·.entry) = s.future.countP (p ·.entry) := by
  cases hti : s.nextPendingTime with
  | none =>
    simp only [dropEmptySlots, hti]
    refine (countP_eq_zero.mpr fun t ht hp => ?_).symm
    exact nextPendingTime_none hti ht (h.future ht hp)
  | some time =>
    simp only [dropEmptySlots, hti, Option.elim_some, countP_filter]
    refine countP_congr fun t ht => ?_
    simp only [Bool.and_eq_true, decide_eq_true_eq, and_iff_left_iff_imp]
    intro hp
    exact (nextPendingTime_some hti).2 t ht (h.future ht hp)

end

theorem awaiting_slot (hs : s.current = some slot)
    (ht : tally p slot'.queues = tally p slot.queues) :
    ({ s with current := some slot' } : Core).waiting.countP p = s.waiting.countP p := by
  have hn : ({ s with current := some slot' } : Core).current = some slot' := rfl
  rw [awaiting_eq hs, awaiting_eq hn, ht]

theorem awaiting_load (hsl : s.current = none) (hl : ∀ t ∈ s.future, time ≤ t.time) :
    (s.loadNextSlot time).waiting.countP p = s.waiting.countP p := by
  have hs : (s.future.filter fun t => t.time = time).countP (p ·.entry) +
      (s.future.filter fun t => time < t.time).countP (p ·.entry) =
        s.future.countP (p ·.entry) := by
    rw [countP_eq_countP_filter_add s.future (p ·.entry) (fun t => t.time = time)]
    congr 1
    refine congrArg _ (filter_congr fun t ht => ?_)
    have hl := hl t ht
    simp only [← decide_not, decide_eq_decide]
    omega
  have hto : tally p (loaded s.future time) = _ := tally_loaded
  rw [awaiting_eq_of_none hsl, awaiting_eq rfl, ← hs, ← hto]
  rfl

theorem awaiting_take {drain : Drain} (hs : s.current = some slot)
    (he : e ∈ slot.queues (slot.drained drain)) :
    (s.take slot drain e).waiting.countP p + (if p e then 1 else 0) = s.waiting.countP p := by
  have her := countP_erase p (slot.queues (slot.drained drain)) e
  have hu : tally p (update slot.queues (slot.drained drain)
      ((slot.queues (slot.drained drain)).erase e)) + _ = _ + _ := tally_update
  rw [awaiting_eq hs, awaiting_eq rfl]
  change tally p (update _ _ _) + s.future.countP _ + _ = _
  by_cases hp : p e = true
  · have hpos : 0 < (slot.queues (slot.drained drain)).countP p :=
      countP_pos_iff.mpr ⟨e, he, hp⟩
    simp only [he, hp, and_self, if_true] at her ⊢
    omega
  · simp only [hp, Bool.false_eq_true, and_false, if_false] at her ⊢
    omega

theorem tally_eq_zero (h : ∀ place, (queues place).countP p = 0) : tally p queues = 0 := by
  rw [tally_eq_sum]
  exact sum_eq_zero fun k hk => by
    obtain ⟨place, -, rfl⟩ := mem_map.mp hk
    exact h place

theorem Core.Move.awaiting_cases (hm : s.Move s') (hwf : s.Wf) (h : s.Lasting p) :
    (s'.trace = s.trace ∧ s'.slots = s.slots ∧ s'.waiting.countP p = s.waiting.countP p) ∨
      ∃ slot drain e, s.current = some slot ∧
        next s.slots (slot.queues (slot.drained drain)) = some e ∧ s' = s.take slot drain e ∧
          s'.waiting.countP p + (if p e then 1 else 0) = s.waiting.countP p := by
  cases hm with
  | stay => exact .inl ⟨rfl, rfl, rfl⟩
  | clean hc =>
    refine .inl ⟨rfl, rfl, ?_⟩
    rw [awaiting_eq_of_none hc, awaiting_eq_of_none (s := s.dropEmptySlots) hc,
      countP_dropEmptySlots h]
  | @wait limit hc =>
    refine .inl ⟨rfl, rfl, ?_⟩
    rw [awaiting_eq_of_none hc,
      awaiting_eq_of_none (s := { s.dropEmptySlots with now := limit }) hc]
    exact countP_dropEmptySlots h
  | @load time hc hti =>
    have hl (t : Timed) (ht : t ∈ s.dropEmptySlots.future) : time ≤ t.time := by
      obtain ⟨-, t', ht', hl⟩ := mem_dropEmptySlots ht
      obtain rfl := Option.some.inj (hti.symm.trans ht')
      exact hl
    refine .inl ⟨rfl, rfl, ?_⟩
    rw [awaiting_load (s := s.dropEmptySlots) hc hl, awaiting_eq_of_none hc,
      awaiting_eq_of_none (s := s.dropEmptySlots) hc, countP_dropEmptySlots h]
  | mark hc => exact .inl ⟨rfl, rfl, awaiting_slot hc rfl⟩
  | nextDelta hc => exact .inl ⟨rfl, rfl, awaiting_slot hc tally_swapDelta⟩
  | @batch slot slot' postponed hc hid hb =>
    obtain ⟨r, round, -, -, -, rfl⟩ := begin_started hb
    refine .inl ⟨rfl, rfl, awaiting_slot hc ?_⟩
    have hf : tally p (update slot.queues .systemverilogRunning
        (slot.queues (.systemverilog r))) + _ = _ + _ := tally_update
    have hse : tally p (update (update slot.queues .systemverilogRunning
        (slot.queues (.systemverilog r))) (.systemverilog r)
        (slot.queues .systemverilogRunning)) + _ = _ + _ := tally_update
    rw [update_of_ne (nofun : Place.systemverilog r ≠ .systemverilogRunning)] at hse
    change tally p (update _ _ _) = _
    omega
  | @take slot drain e hc _ hn =>
    exact .inr ⟨slot, drain, e, hc, hn, rfl, awaiting_take hc (mem_of_next hn).1⟩
  | @finish slot drain hc =>
    have hu : tally p (update slot.queues (slot.drained drain)
        (clearConsumed s.slots (slot.queues (slot.drained drain)))) + _ = _ + _ := tally_update
    rw [countP_clearConsumed h hc] at hu
    have hto := add_right_cancel hu
    refine .inl ⟨rfl, rfl, ?_⟩
    cases drain <;> exact awaiting_slot hc hto
  | @drop slot hc hp hid hs hn he =>
    have hw := hwf.slot slot hc
    have hz : tally p slot.queues = 0 := tally_eq_zero fun place => by
      cases place with
      | current phase =>
        rw [hw.finished phase (hp ▸ phase.index_lt), countP_nil]
      | nextDelta phase =>
        exact countP_of_empty h hc (all_eq_true.mp hn phase phase.mem_all)
      | systemverilog r => exact countP_of_empty h hc (hs r)
      | systemverilogRunning => rw [hw.idle hid, countP_nil]
      | endOfSlot => exact countP_of_empty h hc he
    refine .inl ⟨rfl, rfl, ?_⟩
    rw [awaiting_eq hc, hz, zero_add]
    exact awaiting_eq_of_none (s := { s with current := none }) rfl

theorem Core.Move.copies_eq (hm : s.Move s') (hwf : s.Wf) (h : s.Plain n) :
    s'.copies n = s.copies n := by
  rcases hm.awaiting_cases hwf h.lasting with ⟨ht, -, hc⟩ | ⟨slot, drain, e, -, -, rfl, hc⟩
  · rw [copies, copies, ht, hc]
  · have ht : (s.take slot drain e).trace = s.trace ++ [executed s slot drain e] := rfl
    have he : (executed s slot drain e).sequence = e.sequence := rfl
    rw [copies, copies, ht, countP_append, countP_singleton, he]
    omega

theorem awaiting_push (hs : s.current = some slot) :
    ({ s with current := some (slot.push place e) } : Core).waiting.countP p =
      s.waiting.countP p + if p e then 1 else 0 := by
  have hu : tally p (update slot.queues place (slot.queues place ++ [e])) + _ =
      _ + _ := tally_update
  rw [countP_append, countP_singleton] at hu
  rw [awaiting_eq hs, awaiting_eq rfl]
  change tally p (update _ _ _) + s.future.countP _ = _
  omega

theorem Core.Edit.copies_eq (he : s.Edit s') (his : n < s.nextSequence)
    (hu : ∀ key ∈ s.reserved, key.sequence ≠ n) : s'.copies n = s.copies n := by
  have had {e : Entry} {s' : Core} (ha : s.Admits e s') :
      s'.copies n = s.copies n ∧ e.sequence ≠ n := by
    cases ha with
    | fresh slots hf => exact ⟨rfl, hf ▸ (ne_of_lt his).symm⟩
    | reserved slots hk => exact ⟨rfl, hu _ hk⟩
  cases he with
  | slots | burn | reserve => rfl
  | place ha hc =>
    obtain ⟨hs, hn⟩ := had ha
    rw [← hs, copies, awaiting_push (ha.frame.1.trans hc), if_neg (by simpa using hn)]
    rfl
  | @later t place e s' ha =>
    obtain ⟨hs, hn⟩ := had ha
    rw [← hs]
    simp [copies, waiting, ha.frame.2.2, hn]

end Copies

section Honouring

/-- Executed where the receipt says, with the task it was given for. -/
def Executed.Honours (event : Executed) (R : KeyReceipt) (task : Callback) : Prop :=
  event.time = R.time ∧ event.delta = R.delta ∧ event.round = R.round ∧
    event.phase = R.phase ∧
    event.systemverilog = true ∧ event.order = R.order ∧ event.callback = some task

/-- The batch of the receipt's region would get the receipt's round now. -/
def CurrentSlot.Predicts (slot : CurrentSlot) (R : KeyReceipt) : Prop :=
  (∀ last, slot.lastSystemverilogPhase = some last → last.index < R.phase.index →
      R.round = slot.systemverilogRound) ∧
    ((∀ last, slot.lastSystemverilogPhase = some last → R.phase.index ≤ last.index) →
      R.round = slot.systemverilogRound + 1)

structure Entry.Answers (e : Entry) (order : ℕ) (task : Callback) : Prop where
  order : e.order = order
  plain : e.cancellation = none
  task : ∀ slots, callback slots e = some task

def honours (R : KeyReceipt) (task : Callback) : Tracker where
  holds := fun _ slot place e => Entry.Answers e R.order task ∧ slot.time = R.time ∧
    slot.delta = R.delta ∧ (place = .systemverilog R.phase ∧ slot.Predicts R ∨
      place = .systemverilogRunning ∧ slot.systemverilogPhase = some R.phase ∧
        slot.systemverilogRound = R.round)
  waits := fun t => t.place = .systemverilog R.phase ∧ t.time = R.time ∧ R.delta = 0 ∧
    R.round = 1 ∧ Entry.Answers t.entry R.order task
  done := fun event => event.Honours R task
  quiet := by
    rintro l slot slot' place e hquiet ⟨hanswers, htime, hdelta, hplace⟩
    refine ⟨hanswers, hquiet.time.trans htime, hquiet.delta.trans hdelta, ?_⟩
    rcases hplace with ⟨hplace, hpredicts⟩ | ⟨hplace, hphase, hround⟩
    · exact .inl ⟨hplace, by rwa [CurrentSlot.Predicts, hquiet.round, hquiet.last]⟩
    · exact .inr ⟨hplace, (hquiet.running hplace).trans hphase, hquiet.round.trans hround⟩

/-- While the receipt's task waits for a region after the last started one, nothing waits in a
region up to that one; and nothing waits for the next delta while it waits for Postponed. -/
def Core.Steady (s : Core) (R : KeyReceipt) : Prop :=
  match s.current with
  | none => True
  | some slot =>
    (∃ e ∈ slot.queues (.systemverilog R.phase), e.sequence = R.sequence) →
      (∀ last ∈ slot.lastSystemverilogPhase, last.index < R.phase.index →
        ∀ region ∈ Phase.all, region.index ≤ last.index →
          empty s.slots (slot.queues (.systemverilog region)) = true) ∧
      (R.phase = .postponed → s.nextDeltaEmpty slot = true)

instance (s : Core) (R : KeyReceipt) : Decidable (s.Steady R) := by
  unfold Core.Steady
  split <;> infer_instance

variable {s : Core} {slot : CurrentSlot} {R : KeyReceipt} {task : Callback}

theorem predicts_of_round {mdc : ℕ}
    (h : Machine.systemverilogRoundAfterPendingPhase mdc slot R.phase = some R.round) :
    slot.Predicts R := by
  rcases round_after_cases h with ⟨hr, ha⟩ | ⟨hr, later, hl, hlt⟩
  · refine ⟨fun later hl hlt => absurd hlt (not_lt.mpr (ha later hl)), fun _ => hr⟩
  · refine ⟨fun _ _ _ => hr, fun ha => absurd hlt (not_lt.mpr (ha later hl))⟩

theorem honours_closed (hwf : s.Wf) (hs : s.Steady R) : (honours R task).Closed R.sequence s := by
  refine ⟨fun slot slot' place p' e hsl he hn hg hh => ?_,
    fun t slot _ _ hw hf ht => ?_, fun slot drain e hsl _ _ hh => ?_⟩
  · cases hg with
    | quiet hq => exact (honours R task).quiet hq hh
    | toCurrent hp =>
      subst hp
      obtain ⟨-, -, -, ⟨h, -⟩ | ⟨h, -⟩⟩ := hh <;> cases h
    | nextDelta hnx hp =>
      obtain ⟨⟨-, hpl, -⟩, -, -, ⟨rfl, -⟩ | ⟨rfl, -⟩⟩ := hh
      · simp only [Core.Steady, hsl] at hs
        have hem := (hs ⟨e, he, hn⟩).2
        rcases hp with h | h | ⟨-, h⟩
        · cases h
        · rw [hem (Place.systemverilog.inj h)] at hnx
          cases hnx
        · rw [isCancelled_eq_false _ hpl] at h
          cases h
      · rcases hp with h | h | ⟨⟨_, h⟩, -⟩ <;> cases h
    | @batch slot' p' r ht hd hr hla hru hwo hfi hp =>
      obtain ⟨hanswers, ht', hd', ⟨rfl, hpr⟩ | ⟨rfl, -⟩⟩ := hh
      · refine ⟨hanswers, ht.trans ht', hd.trans hd', ?_⟩
        have hca := round_after_cases hr
        rcases hp with ⟨heq, rfl⟩ | ⟨rfl, hne, -⟩
        · cases heq
          refine .inr ⟨rfl, hru, ?_⟩
          rcases hca with ⟨heq, ha⟩ | ⟨heq, later, hl, hlt⟩
          · exact heq.trans (hpr.2 ha).symm
          · exact heq.trans (hpr.1 later hl hlt).symm
        · -- The started region comes before the receipt's, which has work.
          have hb : r.index < R.phase.index := by
            by_contra hco
            rcases lt_or_eq_of_le (not_lt.mp hco) with hlt | heq
            · have hc := empty_iff.mp (hfi R.phase hlt) e he
              rw [isCancelled_eq_false _ hanswers.plain] at hc
              cases hc
            · exact hne (congrArg _ (Phase.index_injective heq))
          refine .inl ⟨rfl, fun later hl _ => ?_, fun ha => ?_⟩
          · rcases hca with ⟨heq, ha⟩ | ⟨heq, l', hl', hlt⟩
            · rw [heq]
              refine hpr.2 fun l' hl' => ?_
              by_contra hco
              simp only [Core.Steady, hsl] at hs
              have hem := (hs ⟨e, he, hn⟩).1 l' hl' (not_le.mp hco) r r.mem_all (ha l' hl')
              rw [hwo] at hem
              cases hem
            · exact (hpr.1 l' hl' (hlt.trans hb)).trans heq.symm
          · exact absurd hb (not_lt.mpr (ha r hla))
      · rcases hp with ⟨h, -⟩ | ⟨-, -, h⟩
        · cases h
        · exact absurd rfl h
  · obtain ⟨hp, ht', hd, hr, hanswers⟩ := hw
    refine ⟨hanswers, ht.trans ht', hf.delta.trans hd.symm, .inl ⟨hp, ?_, ?_⟩⟩
    · intro later hla
      simp [hf.last] at hla
    · intro _
      rw [hf.round, hr]
  · obtain ⟨hanswers, ht, hd, ⟨hp, -⟩ | ⟨hp, hph, hr⟩⟩ := hh
    · cases drain <;> cases hp
    · cases drain with
      | systemverilog =>
        refine ⟨(hwf.time slot hsl).symm.trans ht, hd, hr, ?_, rfl, hanswers.order,
          hanswers.task s.slots⟩
        simp [executed, hph]
      | generic | endOfSlot => cases hp

def Executed.HonoursGeneric (event : Executed) (G : GenericKeyReceipt) (executor : ℕ) : Prop :=
  event.time = G.time ∧ event.delta = G.delta ∧ event.phase = G.phase ∧
    event.systemverilog = false ∧ event.endOfSlot = false ∧ event.order = G.order ∧
    event.callback = some (.fallback executor G.payload)

def honoursGeneric (G : GenericKeyReceipt) (executor : ℕ) : Tracker where
  holds := fun _ slot place e => Entry.Answers e G.order (.fallback executor G.payload) ∧
    slot.time = G.time ∧ (place = .nextDelta G.phase ∧ slot.delta + 1 = G.delta ∨
      place = .current G.phase ∧ slot.delta = G.delta)
  waits := fun _ => False
  done := fun event => event.HonoursGeneric G executor
  quiet := by
    rintro l slot slot' place e hquiet ⟨hanswers, htime, hplace⟩
    exact ⟨hanswers, hquiet.time.trans htime, by rwa [hquiet.delta]⟩

variable {G : GenericKeyReceipt} {n executor : ℕ}

theorem honoursGeneric_closed (hw : s.Wf) : (honoursGeneric G executor).Closed n s := by
  refine ⟨fun slot slot' place p' e _ _ _ hg hh => ?_, fun _ _ _ _ h => h.elim,
    fun slot drain e hs _ _ hh => ?_⟩
  · cases hg with
    | quiet hq => exact (honoursGeneric G executor).quiet hq hh
    | toCurrent hp =>
      subst hp
      obtain ⟨hanswers, hti, ⟨hp, hd⟩ | ⟨hp, -⟩⟩ := hh
      · cases hp
        exact ⟨hanswers, hti, .inr ⟨rfl, hd⟩⟩
      · cases hp
    | nextDelta _ hp =>
      obtain ⟨-, -, ⟨rfl, -⟩ | ⟨rfl, -⟩⟩ := hh <;>
        rcases hp with h | h | ⟨⟨_, h⟩, -⟩ <;> cases h
    | batch hti hd _ _ _ _ _ hp =>
      obtain ⟨hanswers, ht', hh⟩ := hh
      rcases hp with ⟨rfl, rfl⟩ | ⟨rfl, -, -⟩
      · obtain ⟨h, -⟩ | ⟨h, -⟩ := hh <;> cases h
      · exact ⟨hanswers, hti.trans ht', by rwa [hd]⟩
  · obtain ⟨hanswers, hti, ⟨hp, -⟩ | ⟨hp, hd⟩⟩ := hh
    · cases drain <;> cases hp
    · cases drain with
      | generic =>
        exact ⟨(hw.time slot hs).symm.trans hti, hd, Place.current.inj hp, rfl, rfl,
          hanswers.order, hanswers.task s.slots⟩
      | systemverilog | endOfSlot => cases hp

theorem mem_waiting {e : Entry} (h : e ∈ s.waiting) :
    (∃ slot place, s.current = some slot ∧ e ∈ slot.queues place) ∨
      ∃ t ∈ s.future, t.entry = e := by
  rcases mem_append.mp h with h | h
  · cases hs : s.current with
    | none => simp [hs] at h
    | some slot =>
      simp only [hs, Option.elim_some, mem_flatMap] at h
      obtain ⟨place, -, he⟩ := h
      exact .inl ⟨slot, place, rfl, he⟩
  · obtain ⟨t, ht, rfl⟩ := mem_map.mp h
    exact .inr ⟨t, ht, rfl⟩

def Tracker.Uncancelable (T : Tracker) : Prop :=
  (∀ loads slot place e, T.holds loads slot place e → e.cancellation = none) ∧
    ∀ t, T.waits t → t.entry.cancellation = none

theorem honours_uncancelable : (honours R task).Uncancelable :=
  ⟨fun _ _ _ _ h => h.1.plain, fun _ h => h.2.2.2.2.plain⟩

theorem honoursGeneric_uncancelable : (honoursGeneric G executor).Uncancelable :=
  ⟨fun _ _ _ _ h => h.1.plain, fun _ h => h.elim⟩

variable {T : Tracker}

theorem Tracker.Tracks.plain (hT : T.Uncancelable) (h : T.Tracks n s) : s.Plain n := by
  intro e he hn
  rcases mem_waiting he with ⟨slot, place, hs, he⟩ | ⟨t, ht, rfl⟩
  · exact hT.1 _ _ _ _ (h.queued slot hs place e he hn)
  · exact hT.2 t (h.future t ht hn)

theorem Tracker.Tracks.edits_copies {s' : Core} (h : T.Tracks n s)
    (he : s.Edits s') : s'.copies n = s.copies n := by
  induction he with
  | refl => rfl
  | tail hb hed ih =>
    have hm := h.edits hb
    rw [hed.copies_eq hm.issued hm.unreserved, ih]

theorem Tracker.Tracks.run_copies {m : Machine}
    {a : List Machine.Action} (hT : T.Uncancelable) (h : T.Tracks n m.toCore) (hin : m.Inv)
    (hke : .op .discardPending ∉ a) (hc : ∀ k < a.length, (m.run (a.take k)).toCore.Wf →
      T.Tracks n (m.run (a.take k)).toCore → T.Closed n (m.run (a.take k)).toCore) :
    (m.run a).toCore.copies n = m.toCore.copies n := by
  induction a generalizing m with
  | nil => rfl
  | cons action a ih =>
    have hf := hc 0 (Nat.zero_lt_succ _) hin.wf h
    obtain ⟨hn, hr⟩ := ne_and_not_mem_of_not_mem_cons hke
    have hs : (m.act action).toCore.copies n = m.toCore.copies n := by
      rcases (hin.changes action).1 with he | hm | ⟨rfl, -⟩
      · exact h.edits_copies he
      · exact hm.copies_eq hin.wf (h.plain hT)
      · exact absurd rfl hn
    rw [← hs]
    exact ih (h.act hin hf action) (hin.act action) hr fun k hk =>
      hc (k + 1) (Nat.succ_lt_succ hk)

def Tracker.Due (T : Tracker) (time : ℕ) : Prop :=
  (∀ loads slot place e, T.holds loads slot place e → slot.time = time) ∧
    ∀ t, T.waits t → t.time = time

theorem honours_due : (honours R task).Due R.time :=
  ⟨fun _ _ _ _ h => h.2.1, fun _ h => h.2.1⟩

theorem honoursGeneric_due : (honoursGeneric G executor).Due G.time :=
  ⟨fun _ _ _ _ h => h.2.1, fun _ h => h.elim⟩

theorem Tracker.Tracks.waiting_of_past {time : ℕ} (hT : T.Due time) (h : T.Tracks n s)
    (hw : s.Wf) (hpast : time < s.now) : s.waiting.countP (·.sequence = n) = 0 := by
  refine countP_eq_zero.mpr fun e he hn => ?_
  rw [decide_eq_true_eq] at hn
  rcases mem_waiting he with ⟨slot, place, hs, he⟩ | ⟨t, ht, rfl⟩
  · have hslot := hT.1 _ _ _ _ (h.queued slot hs place e he hn)
    exact absurd (hw.time slot hs) (hslot ▸ ne_of_lt hpast)
  · have hfuture := hT.2 t (h.future t ht hn)
    exact absurd (hw.ahead t ht) (not_le.mpr (hfuture ▸ hpast))

end Honouring

def Op.keyedTasks : Op → List Callback
  | .scheduleGenericNextDeltaReadinessMember _ executor _ payload => [.fallback executor payload]
  | .scheduleSystemverilogGroupBatchable _ _ task
  | .scheduleSystemverilogReadinessMember _ _ task => [task.fallback]
  | .commitSystemverilogGroupBatch _ members => members.map fun member => member.2.fallback
  | .commitSystemverilogCompactGroupBatch _ executor members =>
    members.map fun member => .fallback executor member.2
  | _ => []

namespace Machine

variable {m made m' : Machine} {slot : CurrentSlot} {R : KeyReceipt} {place : Place}
  {new : List Entry} {e : Entry} {n o : ℕ} {phase : Phase} {task : Callback}

/-- The valid receipts of an operation, each with the task it was given for. -/
def issued (m : Machine) (op : Op) : List (KeyReceipt × Callback) :=
  match (m.perform op).2 with
  | .receipts receipts => (receipts.zip op.keyedTasks).filterMap fun given =>
    given.1.map fun receipt => (receipt, given.2)
  | _ => []

def Completed (m : Machine) : Prop := m.location = .idle ∧ m.status = some .completed

def Completes (m : Machine) : Prop := m.location ≠ .idle ∧ m.advance.Completed

instance (m : Machine) : Decidable m.Completes := by
  unfold Completes Completed
  infer_instance

theorem not_completed_selectQueue (hl : m.location = .outerLoop) :
    ¬(m.selectQueue slot).Completed := by
  rintro ⟨hidle, hstatus⟩
  rw [selectQueue] at hidle hstatus
  split at hidle
  · simp_all [leave]
  · split at hidle
    · cases hidle
    · split at hidle
      · cases hidle
      · simp_all [fail, leave]
      · split at hidle
        · rw [endDelta] at hidle
          split at hidle
          · split at hidle
            · simp_all [endDelta, fail, leave]
            · simp [hl] at hidle
          · split at hidle
            · cases hidle
            · simp_all [endDelta, fail, leave]
            · split at hidle
              · simp [hl] at hidle
              · cases hidle
        · cases hidle

theorem Completes.spec (h : m.Completes) : m.current = none ∧
    m.toCore.nextPendingTime = none := by
  obtain ⟨hrun, hcompleted⟩ := h
  rw [advance] at hcompleted
  split at hcompleted
  · next hl => exact absurd hl hrun
  · next hl hn =>
    refine ⟨hn, ?_⟩
    cases ht : m.toCore.nextPendingTime with
    | none => rfl
    | some time =>
      obtain ⟨hidle, hstatus⟩ := hcompleted
      simp only [nextSlot, ht] at hidle hstatus
      repeat' split at hstatus
      all_goals simp_all [leave]
  · next hl hs => exact absurd hcompleted (not_completed_selectQueue hl)
  · obtain ⟨hidle, hstatus⟩ := hcompleted
    rw [innerLoop] at hidle hstatus
    split at hidle
    · cases hidle
    · split at hidle
      · cases hidle
      · split at hidle
        · simp_all [leave]
        · cases hidle
  · cases hcompleted.1
  · cases hcompleted.1

theorem Completes.waiting (h : m.Completes) {p : Entry → Bool} (hp : m.toCore.Lasting p) :
    m.waiting.countP p = 0 := by
  obtain ⟨hnone, htime⟩ := h.spec
  rw [awaiting_eq_of_none hnone]
  exact countP_eq_zero.mpr fun t ht hpt => nextPendingTime_none htime ht (hp.future ht hpt)

theorem copies_fresh (h : m.toCore.Wf) (hn : m.nextSequence ≤ n) : m.toCore.copies n = 0 := by
  have hne {k : ℕ} (hk : k < m.nextSequence) : k ≠ n := ne_of_lt (hk.trans_le hn)
  rw [copies, countP_eq_zero.mpr, countP_eq_zero.mpr]
  · intro event he
    simpa using hne (h.executed event he).1
  · intro e he
    rcases mem_waiting he with ⟨slot, place, hs, he⟩ | ⟨t, ht, rfl⟩
    · simpa using hne (h.queued slot hs place e he)
    · simpa using hne (h.future t ht)

theorem copies_adds {s' : Core} (h : m.toCore.Wf) (ha : m.toCore.Adds s' slot place new)
    (hs : m.current = some slot) (he : e ∈ new) : s'.copies e.sequence = 1 := by
  have hm : e.sequence ∈ range' m.nextSequence new.length :=
    ha.sequences ▸ mem_map_of_mem he
  have hf := copies_fresh h (mem_range'_1.mp hm).1
  have ho : new.countP (·.sequence = e.sequence) = 1 := by
    have hn : (range' m.nextSequence new.length).Nodup := nodup_range'
    have hc := count_eq_one_of_mem hn hm
    rw [← ha.sequences, count, countP_map] at hc
    rw [← hc]
    exact countP_congr fun x _ => by simp
  have hu : tally (·.sequence = e.sequence) (update slot.queues place (slot.queues place ++ new)) +
      _ = _ + _ := tally_update
  rw [copies, awaiting_eq hs] at hf
  rw [copies, awaiting_eq ha.current, ha.future, ha.trace]
  rw [countP_append] at hu
  change tally _ (update _ _ _) + _ + _ = _
  omega

variable {t : EntryTask}

theorem makeEntry_entry {c : Option Identity}
    (h : m.makeEntry o t c = .ok (e, made)) : e = ⟨o, m.nextSequence, t, c⟩ := by
  rw [makeEntry] at h
  split at h <;> cases h
  rfl

def Issues (m' : Machine) (R : KeyReceipt) (task : Callback) : Prop :=
  (honours R task).Tracks R.sequence m'.toCore ∧ m'.toCore.copies R.sequence = 1

theorem issues_of_adds {round : ℕ} (h : m.toCore.Wf) (hsl : m.current = some slot)
    (ha : m.toCore.Adds m'.toCore slot (.systemverilog phase) new)
    (he : e ∈ new) (hp : e.cancellation = none) (ht : ∀ slots, callback slots e = some task)
    (hr : systemverilogRoundAfterPendingPhase m.maxDeltaCycles slot phase = some round) :
    m'.Issues ⟨slot.time, slot.delta, round, phase, e.order, e.sequence⟩ task := by
  have hm : e.sequence ∈ range' m.nextSequence new.length :=
    ha.sequences ▸ mem_map_of_mem he
  obtain ⟨hl, hlt⟩ := mem_range'_1.mp hm
  refine ⟨.of_adds h ha hsl hl (hlt.trans_le ha.next) fun x hx hs => ?_,
    copies_adds h ha hsl he⟩
  have hn : (new.map Entry.sequence).Nodup := ha.sequences ▸ nodup_range'
  obtain rfl := inj_on_of_nodup_map hn hx he hs
  exact ⟨⟨rfl, hp, ht⟩, rfl, rfl, .inl ⟨rfl, predicts_of_round hr⟩⟩

theorem issues_of_future {slots : CancellationSlots} (h : m.toCore.Wf) (hn : m.current = none)
    (hc : m'.toCore = { m.toCore with
      slots := slots
      nextSequence := m.nextSequence + 1
      future := m.future ++ [⟨m.now, .systemverilog phase, e⟩] })
    (hs : e.sequence = m.nextSequence) (hp : e.cancellation = none)
    (htask : ∀ slots, callback slots e = some task) :
    m'.Issues ⟨m.now, 0, 1, phase, e.order, e.sequence⟩ task := by
  have hne {k : ℕ} (hk : k < m.nextSequence) : k ≠ e.sequence := hs ▸ ne_of_lt hk
  have hf := copies_fresh h hs.ge
  refine ⟨⟨?_, ?_, ?_, ?_, ?_⟩, ?_⟩ <;> simp only [hc]
  · exact hs ▸ Nat.lt_succ_self _
  · exact fun key hke => hne (h.reserved key hke)
  · simp [hn]
  · intro t ht heq
    rcases mem_append.mp ht with ht | ht
    · exact absurd heq (hne (h.future t ht))
    · obtain rfl := mem_singleton.mp ht
      exact ⟨rfl, rfl, rfl, rfl, rfl, hp, htask⟩
  · exact fun event he heq => absurd heq (hne (h.executed event he).1)
  · simp only [copies, waiting, hn, Option.elim_none, nil_append] at hf
    simp only [copies, waiting, hn, Option.elim_none, nil_append, map_append,
      map_cons, map_nil, countP_append, countP_singleton, decide_true, if_true]
    omega

variable {r : List (Option KeyReceipt)}

theorem groupBatchable_issues {t : BatchEntry} (h : m.toCore.Wf)
    (hr : (m.scheduleSystemverilogGroupBatchable phase o t).2 = .receipts r) (hR : some R ∈ r) :
    (m.scheduleSystemverilogGroupBatchable phase o t).1.Issues R t.fallback := by
  rw [scheduleSystemverilogGroupBatchable] at hr ⊢
  split at hr
  · next e made hm =>
    have hf := makeEntry_fresh hm
    have he := makeEntry_entry hm
    cases ho : made.enqueueSystemverilogAt m.now phase e with
    | error => simp [ho, finish] at hr
    | ok m' =>
      simp only [ho, finish, Response.receipts.injEq] at hr ⊢
      subst hr
      have hre := (mem_singleton.mp hR).symm
      simp only [systemverilogKeyReceipt, hf.current, hf.now] at hre
      split at hre
      · next slot hs =>
        obtain ⟨round, hro, rfl⟩ := Option.map_eq_some_iff.mp hre
        have hma : made.maxDeltaCycles = m.maxDeltaCycles := by
          obtain ⟨slots, hc⟩ := hf.core
          rw [hc]
        have his := issues_of_adds h hs (hf.enqueueSystemverilogAt h hs ho)
          (mem_singleton.mpr rfl) (by simp [he]) (fun _ => by rw [he]; rfl) (hma ▸ hro)
        rwa [he] at his ⊢
      · next hn =>
        cases hre
        obtain ⟨slots, hc⟩ := hf.core
        rw [enqueueSystemverilogAt, hf.now, if_neg (lt_irrefl _), hf.current, hn] at ho
        cases ho
        have hfu : (made.pushFuture m.now (.systemverilog phase) e).toCore = { m.toCore with
            slots := slots
            nextSequence := m.nextSequence + 1
            future := m.future ++ [⟨m.now, .systemverilog phase, e⟩] } := by
              simp [pushFuture, hc]
        have his := issues_of_future h hn hfu hf.sequence (by simp [he]) fun _ => by rw [he]; rfl
        rwa [he] at his ⊢
  · cases hr

theorem commitGroup_issues {a : Bool} {members : List (ℕ × EntryTask)} {tasks : List Callback}
    (h : m.toCore.Wf) (hr : (m.commitGroup a members).2 = .receipts r)
    (hR : (some R, task) ∈ r.zip tasks)
    (ht : ∀ (i : ℕ) (given : EntryTask), (members.map Prod.snd)[i]? = some given →
      tasks[i]? = some task → ∀ slots o n, callback slots ⟨o, n, given, none⟩ = some task) :
    (m.commitGroup a members).1.Issues R task := by
  rw [commitGroup] at hr ⊢
  split at hr
  · next slot hs =>
    split at hr
    · next round hro =>
      split at hr
      · next ha =>
        obtain ⟨new, had, hp, hts, hm⟩ := @commitMembers_adds m slot members round hs
        simp only [Response.receipts.injEq, hm] at hr
        subst hr
        obtain ⟨i, hi⟩ := mem_iff_getElem?.mp hR
        obtain ⟨hi, hti⟩ := getElem?_zip_eq_some.mp hi
        rw [getElem?_map] at hi
        obtain ⟨e, he, hR⟩ := Option.map_eq_some_iff.mp hi
        obtain rfl := Option.some.inj hR
        have hmem := mem_of_getElem? he
        have hplain := hp e hmem
        have hgiven : (members.map Prod.snd)[i]? = some e.task := by
          rw [← hts, getElem?_map, he]; rfl
        simp only [if_pos ha]
        refine issues_of_adds h hs had hmem hplain (fun slots => ?_) hro
        obtain ⟨order, sequence, given, cancellation⟩ := e
        obtain rfl : cancellation = none := hplain
        exact ht i given hgiven hti slots order sequence
      · cases hr
    · cases hr
  · cases hr

def Receipted : Response → Prop
  | .receipts _ | .genericReceipt _ => True
  | _ => False

theorem not_receipted_finish {b : Machine} {r : Response}
    {result : Except Error Machine} (h : ¬Receipted r) : ¬Receipted (finish b r result).2 := by
  cases result with
  | ok => exact h
  | error => exact id

variable {time : ℕ}

theorem scheduleAt_not_receipted : ¬Receipted (m.scheduleAt time phase o t).2 := by
  rw [scheduleAt]
  split
  · exact id
  · split
    · exact not_receipted_finish id
    · exact id

theorem scheduleSystemverilogAt_not_receipted :
    ¬Receipted (m.scheduleSystemverilogAt time phase o t).2 := by
  rw [scheduleSystemverilogAt]
  split
  · exact not_receipted_finish id
  · exact id

def Keyed : Op → Prop
  | .scheduleGenericNextDeltaReadinessMember .. | .scheduleSystemverilogGroupBatchable ..
  | .scheduleSystemverilogReadinessMember .. | .commitSystemverilogGroupBatch ..
  | .commitSystemverilogCompactGroupBatch .. => True
  | _ => False

variable {op : Op}

theorem perform_not_receipted (ho : ¬Keyed op) : ¬Receipted (m.perform op).2 := by
  cases op with
  | scheduleAt | schedule => exact scheduleAt_not_receipted
  | scheduleSystemverilogAt | scheduleSystemverilog => exact scheduleSystemverilogAt_not_receipted
  | scheduleAfter =>
    simp only [perform, scheduleAfter]
    split
    · exact id
    · exact scheduleAt_not_receipted
  | scheduleSystemverilogAfter =>
    simp only [perform, scheduleSystemverilogAfter]
    split
    · exact id
    · exact scheduleSystemverilogAt_not_receipted
  | scheduleAfterCancelable | scheduleSystemverilogAfterCancelable | scheduleReservedCurrent
  | scheduleReservedCurrentCancelable =>
    simp only [perform, scheduleAfterCancelable, scheduleSystemverilogAfterCancelable,
      scheduleReservedCurrent, scheduleReservedCurrentCancelable]
    repeat' split
    all_goals first | exact id | exact not_receipted_finish id
  | scheduleNextDelta | reserveOrderKey | scheduleReservedNextDelta
  | scheduleReservedNextDeltaCancelable | scheduleEndOfTimeSlot | discardPending =>
    simp only [perform, scheduleNextDelta, reserveOrderKey, scheduleReservedNextDelta,
      scheduleReservedNextDeltaCancelable, scheduleEndOfTimeSlot, discardPending]
    split <;> exact id
  | scheduleInternalSystemverilogRunningActive =>
    simp only [perform, scheduleInternalSystemverilogRunningActive]
    split
    · split
      · split <;> exact id
      · exact scheduleSystemverilogAt_not_receipted
    · exact scheduleSystemverilogAt_not_receipted
  | cancel | requestStop | clearStop => exact id
  | _ => exact absurd trivial ho

theorem receipts_of_issued (h : (R, task) ∈ m.issued op) :
    ∃ receipts, (m.perform op).2 = .receipts receipts ∧
      (some R, task) ∈ receipts.zip op.keyedTasks := by
  rw [issued] at h
  split at h
  · next receipts he =>
    obtain ⟨⟨receipt, given⟩, hmem, hgiven⟩ := mem_filterMap.mp h
    obtain ⟨receipt, rfl, heq⟩ := Option.map_eq_some_iff.mp hgiven
    cases heq
    exact ⟨receipts, he, hmem⟩
  · cases h

theorem perform_issues (h : m.toCore.Wf) (hR : (R, task) ∈ m.issued op) :
    (m.perform op).1.Issues R task := by
  obtain ⟨r, hr, hm⟩ := receipts_of_issued hR
  have hk : Keyed op := not_not.mp fun ho =>
    perform_not_receipted ho (by rw [hr]; trivial)
  cases op with
  | scheduleSystemverilogGroupBatchable | scheduleSystemverilogReadinessMember =>
    have htask := mem_singleton.mp (of_mem_zip hm).2
    subst htask
    exact groupBatchable_issues h hr (of_mem_zip hm).1
  | commitSystemverilogGroupBatch | commitSystemverilogCompactGroupBatch =>
    refine commitGroup_issues h hr hm fun i given hgiven htask slots o n => ?_
    simp only [map_map, getElem?_map, Op.keyedTasks] at hgiven htask
    obtain ⟨member, hmember, rfl⟩ := Option.map_eq_some_iff.mp hgiven
    rw [hmember] at htask
    exact htask
  | scheduleGenericNextDeltaReadinessMember =>
    simp only [perform, scheduleGenericNextDeltaReadinessMember] at hr
    split at hr
    · split at hr <;> cases hr
    · cases hr
  | _ => exact hk.elim

theorem perform_issues_generic {G : GenericKeyReceipt} (h : m.toCore.Wf)
    (hG : (m.perform op).2 = .genericReceipt G) :
    ∃ executor, op.keyedTasks = [.fallback executor G.payload] ∧
      (honoursGeneric G executor).Tracks G.sequence (m.perform op).1.toCore ∧
        (m.perform op).1.toCore.copies G.sequence = 1 := by
  have hk : Keyed op := by
    by_contra ho
    exact perform_not_receipted ho (by rw [hG]; trivial)
  cases op with
  | scheduleGenericNextDeltaReadinessMember a ex o pa =>
    simp only [perform, scheduleGenericNextDeltaReadinessMember] at hG ⊢
    split at hG
    · next slot _ hs =>
      split at hG
      · next ha =>
        cases hG
        simp only [if_pos ha]
        have hf : m.MakesFresh { m with nextSequence := m.nextSequence + 1 }
            ⟨o, m.nextSequence, .compactFallback (.fallback ex pa), none⟩ :=
          ⟨⟨m.slots, rfl⟩, rfl⟩
        have had : m.toCore.Adds _ slot _ _ := hf.pushCurrent (.nextDelta .active)
        refine ⟨ex, rfl, .of_adds h had hs le_rfl (Nat.lt_succ_self _) fun e he _ => ?_,
          copies_adds h had hs (mem_singleton.mpr rfl)⟩
        obtain rfl := mem_singleton.mp he
        exact ⟨⟨rfl, rfl, fun _ => rfl⟩, rfl, .inl ⟨rfl, rfl⟩⟩
      · cases hG
    · cases hG
  | scheduleSystemverilogGroupBatchable | scheduleSystemverilogReadinessMember =>
    simp only [perform, scheduleSystemverilogGroupBatchable, finish] at hG
    split at hG
    · split at hG <;> cases hG
    · cases hG
  | commitSystemverilogGroupBatch | commitSystemverilogCompactGroupBatch =>
    simp only [perform, commitGroup] at hG
    repeat' split at hG
    all_goals cases hG
  | _ => exact hk.elim

theorem executed_once {T : Tracker} {time : ℕ} (hU : T.Uncancelable) (hD : T.Due time)
    (ht : T.Tracks n m.toCore) (hw : m.toCore.Wf) (hc : m.toCore.copies n = 1)
    (hend : time < m.now ∨ m.Completes) : m.trace.countP (·.sequence = n) = 1 := by
  have hz : m.waiting.countP (·.sequence = n) = 0 := by
    rcases hend with hpast | hcompletes
    · exact ht.waiting_of_past hD hw hpast
    · exact hcompletes.waiting (ht.plain hU).lasting
  rwa [copies, hz, zero_add] at hc

end Machine

section Receipts

open Machine

/-- Every receipt of every run is honoured, those of SystemVerilog work as long as the run is
steady for them: its task waits or has been executed, once, it has been executed when the time of
the receipt is over or the run completes, and then where the receipt says. -/
theorem receipts_honoured (maxDeltaCycles : ℕ) (before : List Action) (op : Op)
    (after : List Action) (hkeep : .op .discardPending ∉ after) :
    let m := (start maxDeltaCycles).run before
    let last := (m.perform op).1.run after
    (∀ R task, (R, task) ∈ m.issued op →
      (∀ k < after.length, ((m.perform op).1.run (after.take k)).toCore.Steady R) →
        last.toCore.copies R.sequence = 1 ∧
          (R.time < last.now ∨ last.Completes →
            last.trace.countP (·.sequence = R.sequence) = 1) ∧
          ∀ event ∈ last.trace, event.sequence = R.sequence → event.Honours R task) ∧
    (∀ G, (m.perform op).2 = .genericReceipt G →
      ∃ executor, op.keyedTasks = [.fallback executor G.payload] ∧
        last.toCore.copies G.sequence = 1 ∧
        (G.time < last.now ∨ last.Completes →
          last.trace.countP (·.sequence = G.sequence) = 1) ∧
        ∀ event ∈ last.trace, event.sequence = G.sequence →
        event.HonoursGeneric G executor) := by
  intro m last
  have hinv : m.Inv := (start_inv maxDeltaCycles).run before
  have hperformed (hreceipt : Receipted (m.perform op).2) : (m.perform op).1.Inv := by
    refine hinv.perform ?_
    rintro rfl
    exact perform_not_receipted id hreceipt
  refine ⟨fun R task hR hsteady => ?_, fun G hG => ?_⟩
  · obtain ⟨htracks, hcopies⟩ := perform_issues hinv.wf hR
    obtain ⟨receipts, hreceipts, -⟩ := receipts_of_issued hR
    have hinv' := hperformed (by rw [hreceipts]; trivial)
    have hclosed (k : ℕ) (hk : k < after.length)
        (hwf : ((m.perform op).1.run (after.take k)).toCore.Wf) :
        (honours R task).Closed R.sequence _ := honours_closed hwf (hsteady k hk)
    have hlast := htracks.run hinv' fun k hk hwf _ => hclosed k hk hwf
    have hone := (htracks.run_copies honours_uncancelable hinv' hkeep
      fun k hk hwf _ => hclosed k hk hwf).trans hcopies
    exact ⟨hone, executed_once honours_uncancelable honours_due hlast (hinv'.run after).wf hone,
      hlast.executed⟩
  · obtain ⟨executor, htasks, htracks, hcopies⟩ := perform_issues_generic hinv.wf hG
    have hinv' := hperformed (by rw [hG]; trivial)
    have hlast := htracks.run (a := after) hinv' fun _ _ hwf _ => honoursGeneric_closed hwf
    have hone := (htracks.run_copies honoursGeneric_uncancelable hinv' hkeep
      fun _ _ hwf _ => honoursGeneric_closed hwf).trans hcopies
    exact ⟨executor, htasks, hone, executed_once honoursGeneric_uncancelable honoursGeneric_due
      hlast (hinv'.run after).wf hone, hlast.executed⟩

def updateOp : Op :=
  .scheduleSystemverilogGroupBatchable .update 2 ⟨0, 0, .task 1, ⟨0, 0⟩⟩

/-- The callback schedules one more Active task: the update task's round is no longer the one of
its receipt. -/
theorem update_receipt_missed :
    let m := (start 100).run insertingRun
    m.issued updateOp = [(⟨0, 0, 1, .update, 2, 1⟩, .task 1)] ∧
      ((m.perform updateOp).1.run
        (.op (.scheduleSystemverilog .active 3 (.task (.task 2))) ::
          replicate 12 .advance)).trace.map
            (fun event => (event.sequence, event.phase, event.round)) =
        [(0, .active, 1), (2, .active, 2), (1, .update, 2)] := by decide +kernel

theorem update_receipt_honoured :
    let m := (start 100).run insertingRun
    let last := (m.perform updateOp).1.run (replicate 23 .advance)
    last.Completes ∧ last.trace.countP (·.sequence = 1) = 1 ∧
      ∃ event ∈ last.trace, event.sequence = 1 ∧
        event.Honours ⟨0, 0, 1, .update, 2, 1⟩ (.task 1) := by
  have hsteady : ∀ k < (replicate 23 Action.advance).length,
      ((((start 100).run insertingRun).perform updateOp).1.run
        ((replicate 23 .advance).take k)).toCore.Steady ⟨0, 0, 1, .update, 2, 1⟩ := by
    decide +kernel
  have hissued : (⟨0, 0, 1, .update, 2, 1⟩, .task 1) ∈
      ((start 100).run insertingRun).issued updateOp := by decide +kernel
  have hcompletes : ((((start 100).run insertingRun).perform updateOp).1.run
      (replicate 23 .advance)).Completes := by decide +kernel
  obtain ⟨-, hexecuted, hhonours⟩ := (receipts_honoured 100 insertingRun updateOp
    (replicate 23 .advance) (by decide)).1 _ _ hissued hsteady
  have hone := hexecuted (.inr hcompletes)
  obtain ⟨event, hmem, hsequence⟩ := countP_pos_iff.mp (hone.symm ▸ Nat.one_pos)
  rw [decide_eq_true_eq] at hsequence
  exact ⟨hcompletes, hone, event, hmem, hsequence, hhonours event hmem hsequence⟩

end Receipts

section Conservation

def uncancelable : Tracker where
  holds := fun _ _ _ e => e.cancellation = none
  waits := fun t => t.entry.cancellation = none
  done := fun _ => True
  quiet := fun _ h => h

variable {s s' : Core} {n : ℕ} {m made m' : Machine} {op : Op} {e : Entry}

theorem uncancelable_closed : uncancelable.Closed n s where
  goes _ _ _ _ _ _ _ _ _ h := h
  load _ _ _ _ h _ _ := h
  take _ _ _ _ _ _ _ := trivial

theorem Core.Plain.tracks (h : s.Plain n) (hn : n < s.nextSequence)
    (hu : ∀ key ∈ s.reserved, key.sequence ≠ n) : uncancelable.Tracks n s where
  issued := hn
  unreserved := hu
  queued slot hs place e he := h e (by
    simp only [Core.waiting, hs, Option.elim_some, mem_append, mem_flatMap]
    exact .inl ⟨place, place.mem_all, he⟩)
  future t ht := h t.entry (mem_append_right _ (mem_map_of_mem ht))
  executed _ _ _ := trivial

theorem Core.Edit.reserved_subset (he : s.Edit s') : s.reserved ⊆ s'.reserved := by
  cases he with
  | slots | burn => exact Subset.refl _
  | reserve => exact subset_cons_self ..
  | place ha | later ha => cases ha <;> exact Subset.refl _

theorem Core.Edits.reserved_subset (he : s.Edits s') : s.reserved ⊆ s'.reserved := by
  induction he with
  | refl => exact Subset.refl _
  | tail _ hc ih => exact Subset.trans ih hc.reserved_subset

theorem Core.Edits.copies_eq (he : s.Edits s') (hn : n < s.nextSequence)
    (hu : ∀ key ∈ s.reserved, key.sequence ≠ n) : s'.copies n = s.copies n := by
  let anywhere : Tracker := ⟨fun _ _ _ _ => True, fun _ => True, fun _ => True, fun _ h => h⟩
  have htracks : anywhere.Tracks n s := ⟨hn, hu, by simp [anywhere], by simp [anywhere],
    by simp [anywhere]⟩
  exact htracks.edits_copies he

theorem Core.Admits.given (h : s.Admits e s') : s'.trace = s.trace ∧
    (s'.nextSequence = s.nextSequence ∨
      s'.nextSequence = s.nextSequence + 1 ∧ e.sequence = s.nextSequence) := by
  cases h with
  | fresh slots hfresh => exact ⟨rfl, .inr ⟨rfl, hfresh⟩⟩
  | reserved => exact ⟨rfl, .inl rfl⟩

theorem Core.Wf.copies_fresh (hw : s.Wf) (hn : s.nextSequence ≤ n) : s.copies n = 0 :=
  Machine.copies_fresh (m := { start 0 with toCore := s }) hw hn

theorem Machine.Enters.spec (he : Machine.Enters op m made e m') (hm : m.Made made e) :
    m'.slots = made.slots ∧
      ∀ p, m'.waiting.countP p = m.waiting.countP p + if p e then 1 else 0 := by
  obtain ⟨hc, -, hf⟩ := hm.admits.frame
  cases he with
  | push hs =>
    refine ⟨rfl, fun p => ?_⟩
    have hw : made.waiting = m.waiting := by simp [Core.waiting, hc, hf]
    rw [← hw]
    exact awaiting_push (hc.trans hs)
  | later =>
    refine ⟨rfl, fun p => ?_⟩
    simp only [Machine.pushFuture, Core.waiting, hc, hf, List.map_append, List.countP_append,
      List.map_cons, List.map_nil, List.countP_singleton]
    omega

theorem Machine.Effect.copies_given {response : Response} (he : Machine.Effect op response m m')
    (hw : m.toCore.Wf) (hn : m.nextSequence ≤ n) (hlt : n < m'.nextSequence)
    (hu : ∀ key ∈ m'.reserved, key.sequence ≠ n) :
    m'.toCore.copies n = if response.isFailed then 0 else 1 := by
  have hfresh := hw.copies_fresh hn
  cases he with
  | stop | release => exact absurd hlt (not_lt.mpr hn)
  | burn hfailed =>
    rw [if_pos hfailed]
    exact hfresh
  | reserve order =>
    have heq : m.nextSequence = n := le_antisymm hn (Nat.le_of_lt_succ hlt)
    exact absurd heq (hu ⟨order, m.nextSequence⟩ (mem_cons_self ..))
  | @enter made _ e hm he haccepted =>
    have hmade : m'.nextSequence = made.nextSequence ∧ m'.trace = made.trace := by
      cases he <;> exact ⟨rfl, rfl⟩
    obtain ⟨htrace, hnext | ⟨hnext, hsequence⟩⟩ := hm.admits.given
    · exact absurd (hmade.1.trans hnext ▸ hlt) (not_lt.mpr hn)
    · obtain rfl : e.sequence = n := by omega
      rw [Core.copies] at hfresh
      rw [Core.copies, (he.spec hm).2, hmade.2, htrace, if_pos (by simp),
        if_neg (by simp [haccepted])]
      omega

theorem Machine.Effects.copies_given {response : Response}
    (he : Machine.Effects op response m m') (hw : m.toCore.Wf) (hn : m.nextSequence ≤ n)
    (hlt : n < m'.nextSequence) (hu : ∀ key ∈ m'.reserved, key.sequence ≠ n) :
    m'.toCore.copies n = if response.isFailed then 0 else 1 := by
  induction he with
  | refl => exact absurd hlt (not_lt.mpr hn)
  | @tail b c hb hc ih =>
    have hedits := hc.performs.edits
    have hub : ∀ key ∈ b.reserved, key.sequence ≠ n := fun key hk =>
      hu key (hedits.reserved_subset hk)
    rcases Nat.lt_or_ge n b.nextSequence with hbefore | hafter
    · exact (hedits.copies_eq hbefore hub).trans (ih hbefore hub)
    · exact hc.copies_given (Core.Edits.wf (Effects.performs hb).edits hw) hafter hlt hu

end Conservation

/-- No work is lost or done twice. A number that an operation gives out and does not reserve stands
for one task if the operation succeeds and for none if it fails. A task that cannot be cancelled
waits or has been executed as often after any run that does not discard it, and has been executed
when such a run completes. -/
theorem issued_tasks_conserved (maxDeltaCycles : ℕ) (before later : List Machine.Action) (op : Op)
    (n : ℕ) (hop : op ≠ .discardPending) (hkept : .op .discardPending ∉ later) :
    let m := (start maxDeltaCycles).run before
    let issued := (m.perform op).1
    let last := issued.run later
    m.nextSequence ≤ n → n < issued.nextSequence →
      (∀ key ∈ issued.reserved, key.sequence ≠ n) →
      issued.toCore.copies n = (if (m.perform op).2.isFailed then 0 else 1) ∧
      (issued.toCore.Plain n → last.toCore.copies n = issued.toCore.copies n ∧
        (last.Completes → last.trace.countP (·.sequence = n) = issued.toCore.copies n)) := by
  intro m issued last hn hlt hu
  have hin : m.Inv := (Machine.start_inv maxDeltaCycles).run before
  have hinv := hin.perform hop
  refine ⟨(Machine.perform_effects hop).copies_given hin.wf hn hlt hu, fun hplain => ?_⟩
  have hU : uncancelable.Uncancelable := ⟨fun _ _ _ _ h => h, fun _ h => h⟩
  have htracks := hplain.tracks hlt hu
  have hkeeps : last.toCore.copies n = issued.toCore.copies n :=
    htracks.run_copies hU hinv hkept fun _ _ _ _ => uncancelable_closed
  refine ⟨hkeeps, fun hcompletes => ?_⟩
  have hlast := htracks.run (a := later) hinv fun _ _ _ _ => uncancelable_closed
  rw [← hkeeps, Core.copies, hcompletes.waiting (hlast.plain hU).lasting, zero_add]

theorem scheduled_task_conserved :
    let issued := ((start 100).perform (.schedule .active 1 (.task (.task 0)))).1
    let last := issued.run (.call none :: replicate 20 .advance)
    issued.toCore.copies 0 = 1 ∧ last.Completes ∧ last.trace.countP (·.sequence = 0) = 1 := by
  have hcompletes : ((((start 100).perform (.schedule .active 1 (.task (.task 0)))).1).run
      (.call none :: replicate 20 .advance)).Completes := by decide +kernel
  obtain ⟨hone, hkept⟩ := issued_tasks_conserved 100 [] (.call none :: replicate 20 .advance)
    (.schedule .active 1 (.task (.task 0))) 0 (by decide) (by decide) (by decide) (by decide)
    (by decide)
  exact ⟨hone, hcompletes, ((hkept (by unfold Core.Plain; decide)).2 hcompletes).trans hone⟩

end FsimRuntime.Scheduler
