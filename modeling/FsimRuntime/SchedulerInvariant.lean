import FsimRuntime.SchedulerChanges

/-!
# The scheduler's invariant

The clock, the drained queues of a slot and the order of the trace, kept by
every action.
-/

namespace FsimRuntime.Scheduler

open Queue List Function Nat

theorem Place.mem_all (place : Place) : place ∈ Place.all := by
  cases place with
  | current p | nextDelta p | systemverilog p => cases p <;> decide
  | systemverilogRunning | endOfSlot => decide

variable {q : List Entry} {slots : CancellationSlots}

theorem next_eq_none_iff : next slots q = none ↔ empty slots q = true := by
  rw [next, List.argmin_eq_none, empty, List.isEmpty_iff]

theorem empty_iff : empty slots q = true ↔ ∀ e ∈ q, e.isCancelled slots = true := by
  rw [empty, List.isEmpty_iff, pending]
  simp

theorem mem_of_next {e : Entry}
    (h : next slots q = some e) : e ∈ q ∧ e.isCancelled slots = false := by
  have hm := mem_filter.mp (argmin_mem h)
  exact ⟨hm.1, by simpa using hm.2⟩

structure CurrentSlot.Wf (slot : CurrentSlot) : Prop where
  phase_le : slot.phase ≤ phaseCount
  finished : ∀ phase : Phase, phase.index < slot.phase → slot.queues (.current phase) = []
  idle : slot.systemverilogPhase = none → slot.queues .systemverilogRunning = []
  last : ∀ region, slot.systemverilogPhase = some region →
    slot.lastSystemverilogPhase = some region

def Executed.Before (a b : Executed) : Prop :=
  a.time ≤ b.time ∧ a.slot ≤ b.slot ∧ (a.slot = b.slot → a.delta ≤ b.delta)

namespace Core

structure Wf (s : Core) : Prop where
  slot : ∀ slot, s.current = some slot → slot.Wf
  time : ∀ slot, s.current = some slot → slot.time = s.now
  later : ∀ slot, s.current = some slot → ∀ t ∈ s.future, s.now < t.time
  ahead : ∀ t ∈ s.future, s.now ≤ t.time
  place : ∀ t ∈ s.future, t.place ≠ .systemverilogRunning
  queued : ∀ slot, s.current = some slot → ∀ place, ∀ e ∈ slot.queues place,
    e.sequence < s.nextSequence
  future : ∀ t ∈ s.future, t.entry.sequence < s.nextSequence
  reserved : ∀ key ∈ s.reserved, key.sequence < s.nextSequence
  executed : ∀ event ∈ s.trace, event.sequence < s.nextSequence ∧ event.slot ≤ s.loads ∧
    event.time ≤ s.now ∧ ∀ slot, s.current = some slot → event.slot = s.loads →
      event.delta ≤ slot.delta
  sorted : s.trace.Pairwise Executed.Before

theorem Wf.of_none {s : Core} (hc : s.current = none) (ha : ∀ t ∈ s.future, s.now ≤ t.time)
    (hp : ∀ t ∈ s.future, t.place ≠ .systemverilogRunning)
    (hf : ∀ t ∈ s.future, t.entry.sequence < s.nextSequence)
    (hr : ∀ key ∈ s.reserved, key.sequence < s.nextSequence)
    (hexe : ∀ event ∈ s.trace, event.sequence < s.nextSequence ∧ event.slot ≤ s.loads ∧
      event.time ≤ s.now)
    (hso : s.trace.Pairwise Executed.Before) : s.Wf := by
  have hn {slot : CurrentSlot} (h : s.current = some slot) : False := by simp [hc] at h
  refine ⟨fun _ h => (hn h).elim, fun _ h => (hn h).elim, fun _ h => (hn h).elim, ha,
    hp, fun _ h => (hn h).elim, hf, hr, fun event he => ?_, hso⟩
  obtain ⟨hs, hsl, ht⟩ := hexe event he
  exact ⟨hs, hsl, ht, fun _ h => (hn h).elim⟩

section Edits

variable {s s' : Core} {slot : CurrentSlot} {place : Place} {e : Entry}

theorem mem_push {e' : Entry} {p' : Place} (h : e' ∈ (slot.push place e).queues p') :
    e' ∈ slot.queues p' ∨ (e' = e ∧ p' = place) := by
  simp only [CurrentSlot.push, update_apply] at h
  split at h
  · next he =>
    rcases mem_append.mp h with h | h
    · exact .inl (he ▸ h)
    · exact .inr ⟨mem_singleton.mp h, he⟩
  · exact .inl h

theorem push_wf (h : slot.Wf) (ho : place.Open slot) : (slot.push place e).Wf := by
  refine ⟨h.phase_le, fun p hp => ?_, fun hid => ?_, h.last⟩
  · have hn : Place.current p ≠ place := by
      rintro rfl
      exact absurd hp (not_lt.mpr ho)
    simpa [CurrentSlot.push, update_of_ne hn] using h.finished p hp
  · have hn : Place.systemverilogRunning ≠ place := by
      rintro rfl
      exact Option.some_ne_none _ (ho.symm.trans hid)
    simpa [CurrentSlot.push, update_of_ne hn] using h.idle hid

theorem Admits.wf (ha : s.Admits e s') (h : s.Wf) : s'.Wf ∧ e.sequence < s'.nextSequence := by
  cases ha with
  | fresh slots hf =>
    refine ⟨⟨h.slot, h.time, h.later, h.ahead, h.place, fun slot hsl place e he => ?_,
      fun t ht => ?_, fun key hk => ?_, fun event he => ?_, h.sorted⟩, ?_⟩
    · exact (h.queued slot hsl place e he).trans (lt_succ_self _)
    · exact (h.future t ht).trans (lt_succ_self _)
    · exact (h.reserved key hk).trans (lt_succ_self _)
    · obtain ⟨hs, hr⟩ := h.executed event he
      exact ⟨hs.trans (lt_succ_self _), hr⟩
    · rw [hf]
      exact lt_succ_self _
  | reserved slots hk =>
    exact ⟨{ h with }, h.reserved _ hk⟩

theorem Edit.wf (hed : s.Edit s') (h : s.Wf) : s'.Wf := by
  cases hed with
  | slots slots =>
    exact { h with }
  | burn slots =>
    exact ((Admits.fresh (e := ⟨0, s.nextSequence, .empty, none⟩) slots rfl).wf h).1
  | reserve o =>
    have hb := ((Admits.fresh (e := ⟨0, s.nextSequence, .empty, none⟩) s.slots rfl).wf h).1
    refine { hb with reserved := fun key hk => ?_ }
    rcases mem_cons.mp hk with rfl | hk
    · exact lt_succ_self _
    · exact hb.reserved key hk
  | @place slot place e s' ha hc ho =>
    obtain ⟨h', he⟩ := ha.wf h
    have hsl := ha.frame.1.trans hc
    refine ⟨fun slot' hs => ?_, fun slot' hs => ?_, fun slot' hs => ?_, h'.ahead, h'.place,
      fun slot' hs p' e' he' => ?_, h'.future, h'.reserved, fun event hev => ?_, h'.sorted⟩
    · cases hs
      exact push_wf (h'.slot slot hsl) ho
    · cases hs
      exact h'.time slot hsl
    · exact h'.later slot hsl
    · cases hs
      rcases mem_push he' with he' | ⟨rfl, -⟩
      · exact h'.queued slot hsl p' e' he'
      · exact he
    · obtain ⟨hse, hslo, hti, hd⟩ := h'.executed event hev
      refine ⟨hse, hslo, hti, fun slot' hs => ?_⟩
      cases hs
      exact hd slot hsl
  | @later time place e s' ha hti hp hc =>
    obtain ⟨h', he⟩ := ha.wf h
    obtain ⟨hsl, hn, hf⟩ := ha.frame
    have hm {t : Timed} (ht : t ∈ s.future ++ [⟨time, place, e⟩]) :
        t ∈ s'.future ∨ t = ⟨time, place, e⟩ := by
      rw [hf]
      simpa using ht
    refine ⟨h'.slot, h'.time, fun slot hs t ht => ?_, fun t ht => ?_, fun t ht => ?_, h'.queued,
      fun t ht => ?_, h'.reserved, h'.executed, h'.sorted⟩
    · rcases hm ht with ht | rfl
      · exact h'.later slot hs t ht
      · refine lt_of_le_of_ne (hn ▸ hti) fun heq => ?_
        exact hc slot (hsl.symm.trans hs) ((h'.time slot hs).trans heq)
    · rcases hm ht with ht | rfl
      · exact h'.ahead t ht
      · exact hn ▸ hti
    · rcases hm ht with ht | rfl
      · exact h'.place t ht
      · exact hp
    · rcases hm ht with ht | rfl
      · exact h'.future t ht
      · exact he

theorem discard_wf (h : s.Wf) (slots : CancellationSlots) : (s.discard slots).Wf := by
  refine .of_none rfl (forall_mem_nil _) (forall_mem_nil _) (forall_mem_nil _)
    (forall_mem_nil _) (fun event he => ?_) h.sorted
  obtain ⟨hs, hsl, ht, -⟩ := h.executed event he
  exact ⟨hs, hsl, ht⟩

theorem Edits.wf (he : s.Edits s') (h : s.Wf) : s'.Wf := by
  induction he with
  | refl => exact h
  | tail _ hed ih => exact hed.wf ih

end Edits

section Moves

variable {s s' : Core} {slot slot' : CurrentSlot} {place : Place} {e : Entry} {drain : Drain}
  {time : ℕ} {slots : CancellationSlots} {q : List Entry}

theorem dropEmptySlots_wf (h : s.Wf) : s.dropEmptySlots.Wf :=
  ⟨h.slot, h.time, fun slot hs t ht => h.later slot hs t (mem_dropEmptySlots ht).1,
    fun t ht => h.ahead t (mem_dropEmptySlots ht).1,
    fun t ht => h.place t (mem_dropEmptySlots ht).1,
    h.queued, fun t ht => h.future t (mem_dropEmptySlots ht).1, h.reserved, h.executed, h.sorted⟩

theorem wait_wf {l : ℕ} (h : s.Wf) (hc : s.current = none) (hn : s.now ≤ l)
    (hf : ∀ t ∈ s.future, l < t.time) : Wf { s with now := l } := by
  refine ⟨h.slot, fun slot hs => ?_, fun slot hs => ?_, fun t ht => (hf t ht).le, h.place,
    h.queued, h.future, h.reserved, fun event he => ?_, h.sorted⟩
  · simp [hc] at hs
  · simp [hc] at hs
  · obtain ⟨hse, hsl, hti, hd⟩ := h.executed event he
    exact ⟨hse, hsl, hti.trans hn, hd⟩

theorem loadNextSlot_wf (h : s.Wf) (hti : ∃ t ∈ s.future, t.time = time) :
    (s.loadNextSlot time).Wf := by
  have hn : s.now ≤ time := by
    obtain ⟨t, ht, rfl⟩ := hti
    exact h.ahead t ht
  have hm {place : Place} {e : Entry} (he : e ∈
      (s.future.filter fun t => t.time = time ∧ t.place = place).map Timed.entry) :
      ∃ t ∈ s.future, t.place = place ∧ t.entry = e := by
    obtain ⟨t, ht, rfl⟩ := mem_map.mp he
    simp only [mem_filter, decide_eq_true_eq] at ht
    exact ⟨t, ht.1, ht.2.2, rfl⟩
  refine ⟨fun slot hs => ?_, fun slot hs => ?_, fun slot hs t ht => ?_, fun t ht => ?_,
    fun t ht => h.place t (mem_of_mem_filter ht), fun slot hs place e he => ?_,
    fun t ht => h.future t (mem_of_mem_filter ht), h.reserved, fun event he => ?_, h.sorted⟩
  · cases hs
    refine ⟨zero_le _, fun p hp => absurd hp (not_lt_zero _), fun _ => ?_, nofun⟩
    refine eq_nil_iff_forall_not_mem.mpr fun e he => ?_
    obtain ⟨t, ht, hpl, -⟩ := hm he
    exact h.place t ht hpl
  · cases hs
    rfl
  · exact of_decide_eq_true (mem_filter.mp ht).2
  · exact le_of_lt (of_decide_eq_true (mem_filter.mp ht).2)
  · cases hs
    obtain ⟨t, ht, -, rfl⟩ := hm he
    exact h.future t ht
  · obtain ⟨hse, hsl, hti, -⟩ := h.executed event he
    refine ⟨hse, hsl.trans (Nat.le_succ _), hti.trans hn, fun slot hs heq => ?_⟩
    exact absurd heq (Nat.ne_of_lt (Nat.lt_succ_of_le hsl))

theorem slot_wf (h : s.Wf) (hsl : s.current = some slot) (hw : slot'.Wf)
    (ht : slot'.time = slot.time) (hd : slot.delta ≤ slot'.delta)
    (hq : ∀ p', ∀ e ∈ slot'.queues p', ∃ place, e ∈ slot.queues place) :
    Wf { s with current := some slot' } := by
  refine ⟨fun _ hs => ?_, fun _ hs => ?_, fun _ _ => h.later slot hsl, h.ahead, h.place,
    fun _ hs p' e he => ?_, h.future, h.reserved, fun event he => ?_, h.sorted⟩
  · cases hs
    exact hw
  · cases hs
    exact ht.trans (h.time slot hsl)
  · cases hs
    obtain ⟨place, he⟩ := hq p' e he
    exact h.queued slot hsl place e he
  · obtain ⟨hse, hslo, ht, hl⟩ := h.executed event he
    refine ⟨hse, hslo, ht, fun _ hs heq => ?_⟩
    cases hs
    exact (hl slot hsl heq).trans hd

theorem swapDelta_wf (h : slot.Wf) : slot.swapDelta.Wf :=
  ⟨zero_le _, fun _ hl => absurd hl (not_lt_zero _), h.idle, h.last⟩

theorem started_wf {mdc : ℕ} {postponed : Bool} (h : slot.Wf)
    (hb : beginSystemverilogBatch mdc slots slot postponed = .started slot') :
    slot'.Wf ∧ ∀ p', ∀ e ∈ slot'.queues p', ∃ place, e ∈ slot.queues place := by
  obtain ⟨r, round, -, -, -, rfl⟩ := begin_started hb
  refine ⟨⟨h.phase_le, fun p hp => ?_, nofun, fun _ hr => hr⟩, fun p' e he => ?_⟩
  · simpa using h.finished p hp
  · simp only [update_apply] at he
    split at he
    · exact ⟨_, he⟩
    · split at he
      · exact ⟨_, he⟩
      · exact ⟨_, he⟩

theorem mem_update_of_subset {queues : Place → List Entry} {l : List Entry} {p' : Place}
    (hs : l ⊆ queues place) (he : e ∈ update queues place l p') : e ∈ queues p' := by
  rw [update_apply] at he
  split at he
  · next heq => exact heq ▸ hs he
  · exact he

theorem take_wf (h : s.Wf) (hsl : s.current = some slot)
    (hn : next s.slots (slot.queues (slot.drained drain)) = some e) : (s.take slot drain e).Wf := by
  have hw := h.slot slot hsl
  have hm {place : Place} {e' : Entry} (he : e' ∈ update slot.queues (slot.drained drain)
      ((slot.queues (slot.drained drain)).erase e) place) : e' ∈ slot.queues place :=
    mem_update_of_subset erase_subset he
  have hwf : CurrentSlot.Wf { slot with
      queues := (update slot.queues (slot.drained drain)
        ((slot.queues (slot.drained drain)).erase e)) } := by
    refine ⟨hw.phase_le, fun p hp => ?_, fun hid => ?_, hw.last⟩
    · exact eq_nil_iff_forall_not_mem.mpr fun e' he =>
        not_mem_nil (hw.finished p hp ▸ hm he)
    · exact eq_nil_iff_forall_not_mem.mpr fun e' he =>
        not_mem_nil (hw.idle hid ▸ hm he)
  have hb := slot_wf h hsl hwf rfl le_rfl fun place e he => ⟨place, hm he⟩
  have hse := h.queued slot hsl _ e (mem_of_next hn).1
  refine { hb with executed := fun event he => ?_, sorted := ?_ }
  · rcases mem_append.mp he with he | he
    · exact hb.executed event he
    · obtain rfl := mem_singleton.mp he
      refine ⟨hse, le_rfl, le_rfl, fun _ hs _ => ?_⟩
      cases hs
      exact le_rfl
  · refine pairwise_append.mpr ⟨h.sorted, pairwise_singleton .., fun event he event' he' => ?_⟩
    obtain rfl := mem_singleton.mp he'
    obtain ⟨-, hslo, ht, hd⟩ := h.executed event he
    exact ⟨ht, hslo, hd slot hsl⟩

theorem clearConsumed_subset : clearConsumed slots q ⊆ q := by
  rw [clearConsumed]
  split
  · exact nil_subset _
  · exact List.Subset.refl _

theorem clearConsumed_of_empty (h : empty slots q = true) : clearConsumed slots q = [] := if_pos h

theorem finishQueue_wf (h : s.Wf) (hs : s.current = some slot) (hd : slot.Drains drain)
    (hdo : next s.slots (slot.queues (slot.drained drain)) = none ∨ drain = .endOfSlot) :
    (s.finishQueue slot drain).Wf := by
  have hw := h.slot slot hs
  have hm {place : Place} {e : Entry} (he : e ∈ update slot.queues (slot.drained drain)
      (clearConsumed s.slots (slot.queues (slot.drained drain))) place) : e ∈ slot.queues place :=
    mem_update_of_subset clearConsumed_subset he
  have hf (p : Phase) (hp : p.index < slot.phase) :
      update slot.queues (slot.drained drain)
        (clearConsumed s.slots (slot.queues (slot.drained drain))) (.current p) = [] :=
    eq_nil_iff_forall_not_mem.mpr fun e he =>
      not_mem_nil (hw.finished p hp ▸ hm he)
  have hr (hid : slot.systemverilogPhase = none) :
      update slot.queues (slot.drained drain)
        (clearConsumed s.slots (slot.queues (slot.drained drain))) .systemverilogRunning = [] :=
    eq_nil_iff_forall_not_mem.mpr fun e he => not_mem_nil (hw.idle hid ▸ hm he)
  cases drain with
  | generic =>
    have hem := next_eq_none_iff.mp (hdo.resolve_right nofun)
    refine slot_wf h hs ⟨Nat.succ_le_of_lt hd.1, fun p hp => ?_, hr, hw.last⟩
      rfl le_rfl fun place e he => ⟨place, hm he⟩
    rcases Nat.lt_succ_iff_lt_or_eq.mp hp with hl | heq
    · exact hf p hl
    · obtain ⟨p', hp'⟩ : ∃ phase, Phase.all[slot.phase]? = some phase :=
        ⟨_, getElem?_eq_getElem hd.1⟩
      obtain rfl : p' = p :=
        Phase.index_injective ((Phase.getElem?_all hp').trans heq.symm)
      have hpl : slot.drained .generic = .current p' := by
        simp [CurrentSlot.drained, CurrentSlot.genericPhase, hp']
      rw [hpl] at hem ⊢
      exact (update_self ..).trans (clearConsumed_of_empty hem)
  | systemverilog =>
    have hem := next_eq_none_iff.mp (hdo.resolve_right nofun)
    refine slot_wf h hs ⟨hw.phase_le, hf, fun _ => ?_, nofun⟩ rfl le_rfl
      fun place e he => ⟨place, hm he⟩
    change update slot.queues .systemverilogRunning _ .systemverilogRunning = []
    exact clearConsumed_of_empty hem
  | endOfSlot =>
    exact slot_wf h hs ⟨hw.phase_le, hf, hr, hw.last⟩ rfl le_rfl
      fun place e he => ⟨place, hm he⟩

theorem Move.wf (hm : s.Move s') (h : s.Wf) : s'.Wf := by
  cases hm with
  | stay => exact h
  | clean => exact dropEmptySlots_wf h
  | wait hc hno hf =>
    refine wait_wf (dropEmptySlots_wf h) hc hno fun t ht => ?_
    obtain ⟨-, time, hti, hl⟩ := mem_dropEmptySlots ht
    exact (hf time hti).trans_le hl
  | @load time hc hti =>
    refine loadNextSlot_wf (dropEmptySlots_wf h) ?_
    obtain ⟨⟨t, ht, rfl⟩, -⟩ := nextPendingTime_some hti
    refine ⟨t, ?_, rfl⟩
    simp [dropEmptySlots, hti, ht]
  | mark hc executed =>
    exact slot_wf h hc { h.slot _ hc with } rfl le_rfl fun place e he => ⟨place, he⟩
  | nextDelta hc =>
    exact slot_wf h hc (swapDelta_wf (h.slot _ hc)) rfl (le_succ _)
      fun place e he => by cases place <;> exact ⟨_, he⟩
  | batch hc hid hb =>
    obtain ⟨hw, hme⟩ := started_wf (h.slot _ hc) hb
    obtain ⟨r, round, -, -, -, rfl⟩ := begin_started hb
    exact slot_wf h hc { hw with } rfl le_rfl hme
  | take hc _ hn => exact take_wf h hc hn
  | finish hc hd hdo => exact finishQueue_wf h hc hd hdo
  | drop hc =>
    refine .of_none rfl h.ahead h.place h.future h.reserved (fun event he => ?_) h.sorted
    obtain ⟨hs, hsl, hti, -⟩ := h.executed event he
    exact ⟨hs, hsl, hti⟩

end Moves

end Core

structure Machine.Inv (m : Machine) : Prop where
  wf : m.toCore.Wf
  control : m.Control

namespace Machine

variable {m : Machine}

theorem start_inv (mdc : ℕ) : (start mdc).Inv :=
  ⟨.of_none rfl (forall_mem_nil _) (forall_mem_nil _) (forall_mem_nil _)
    (forall_mem_nil _) (forall_mem_nil _) .nil, ⟨fun h => absurd rfl h, nofun, nofun⟩⟩

theorem Inv.changes (h : m.Inv) (a : Action) :
    (m.toCore.Edits (m.act a).toCore ∨ m.toCore.Move (m.act a).toCore ∨
      a = .op .discardPending ∧ ∃ slots, (m.act a).toCore = m.toCore.discard slots) ∧
      (m.act a).Control :=
  act_changes h.control (fun slot hs => (h.wf.slot slot hs).phase_le) a

theorem Inv.act (h : m.Inv) (a : Action) : (m.act a).Inv := by
  obtain ⟨hch, hc⟩ := h.changes a
  rcases hch with he | hm | ⟨-, slots, hd⟩
  · exact ⟨he.wf h.wf, hc⟩
  · exact ⟨hm.wf h.wf, hc⟩
  · exact ⟨hd ▸ Core.discard_wf h.wf slots, hc⟩

theorem Inv.perform {op : Op} (h : m.Inv) (ho : op ≠ .discardPending) : (m.perform op).1.Inv :=
  ⟨(perform_performs ho).edits.wf h.wf, (perform_performs ho).control h.control⟩

theorem Inv.run (h : m.Inv) (a : List Action) : (m.run a).Inv := by
  induction a generalizing m with
  | nil => exact h
  | cons action a ih => exact ih (h.act action)

end Machine

end FsimRuntime.Scheduler
