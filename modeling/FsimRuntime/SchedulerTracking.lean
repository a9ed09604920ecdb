import FsimRuntime.SchedulerInvariant

/-!
# Following one task

Where a waiting task can go in one step, and what is then known of the callback
that executes it.
-/

namespace FsimRuntime.Scheduler

open Queue List

structure CurrentSlot.Quiet (slot slot' : CurrentSlot) (place : Place) : Prop where
  time : slot'.time = slot.time
  delta : slot'.delta = slot.delta
  round : slot'.systemverilogRound = slot.systemverilogRound
  last : slot'.lastSystemverilogPhase = slot.lastSystemverilogPhase
  running : place = .systemverilogRunning → slot'.systemverilogPhase = slot.systemverilogPhase

inductive Goes (s : Core) (slot : CurrentSlot) (e : Entry) (place : Place) :
    CurrentSlot → Place → Prop
  | quiet {slot' : CurrentSlot} (hquiet : slot.Quiet slot' place) : Goes s slot e place slot' place
  | toCurrent {phase : Phase} (hplace : place = .nextDelta phase) :
      Goes s slot e place slot.swapDelta (.current phase)
  | nextDelta (hnext : s.nextDeltaEmpty slot = false)
      (hplace : place = .endOfSlot ∨ place = .systemverilog .postponed ∨
        (∃ region, place = .systemverilog region) ∧ e.isCancelled s.slots = true) :
      Goes s slot e place slot.swapDelta place
  | batch {slot' : CurrentSlot} {place' : Place} {region : Phase}
      (htime : slot'.time = slot.time) (hdelta : slot'.delta = slot.delta)
      (hround : Machine.systemverilogRoundAfterPendingPhase s.maxDeltaCycles slot region =
        some slot'.systemverilogRound)
      (hlast : slot'.lastSystemverilogPhase = some region)
      (hrunning : slot'.systemverilogPhase = some region)
      (hwork : empty s.slots (slot.queues (.systemverilog region)) = false)
      (hfirst : ∀ earlier : Phase, earlier.index < region.index →
        empty s.slots (slot.queues (.systemverilog earlier)) = true)
      (hplace : place = .systemverilog region ∧ place' = .systemverilogRunning ∨
        place' = place ∧ place ≠ .systemverilog region ∧ place ≠ .systemverilogRunning) :
      Goes s slot e place slot' place'

structure CurrentSlot.Fresh (slot : CurrentSlot) : Prop where
  delta : slot.delta = 0
  round : slot.systemverilogRound = 0
  last : slot.lastSystemverilogPhase = none

namespace Core

variable {s s' : Core} {slot slot' : CurrentSlot} {place place' : Place} {e : Entry}

theorem Move.goes (hm : s.Move s') (h : s.Wf) (hs' : s'.current = some slot')
    (he : e ∈ slot'.queues place') :
        (∃ slot place, s.current = some slot ∧ e ∈ slot.queues place ∧
        Goes s slot e place slot' place' ∧ s'.loads = s.loads) ∨
      ∃ t ∈ s.future, t.entry = e ∧ t.place = place' ∧ slot'.time = t.time ∧
      slot'.Fresh ∧
        s.current = none ∧ s.nextPendingTime = some t.time ∧ s'.loads = s.loads + 1 := by
  have hqu {slot : CurrentSlot} (hsl : s.current = some slot) (hme : e ∈ slot.queues place')
      (hq : slot.Quiet slot' place') (hl : s'.loads = s.loads) :
      ∃ slot place, s.current = some slot ∧ e ∈ slot.queues place ∧
        Goes s slot e place slot' place' ∧ s'.loads = s.loads :=
    ⟨slot, place', hsl, hme, .quiet hq, hl⟩
  cases hm with
  | stay => exact .inl (hqu hs' he ⟨rfl, rfl, rfl, rfl, fun _ => rfl⟩ rfl)
  | clean hc | wait hc => simp [dropEmptySlots, hc] at hs'
  | @load time hc hti =>
    cases hs'
    obtain ⟨t, ht, rfl⟩ := mem_map.mp he
    simp only [mem_filter, decide_eq_true_eq] at ht
    obtain ⟨ht, rfl, rfl⟩ := ht
    exact .inr ⟨t, (mem_dropEmptySlots ht).1, rfl, rfl, rfl, ⟨rfl, rfl, rfl⟩, hc, hti, rfl⟩
  | mark hc =>
    cases hs'
    exact .inl (hqu hc he ⟨rfl, rfl, rfl, rfl, fun _ => rfl⟩ rfl)
  | @nextDelta slot hc hp hid hs hn =>
    cases hs'
    have hw := h.slot slot hc
    left
    cases place' with
    | current p => exact ⟨slot, _, hc, he, .toCurrent rfl, rfl⟩
    | nextDelta p =>
      have hni := hw.finished p (hp ▸ p.index_lt)
      exact absurd (hni ▸ he) not_mem_nil
    | systemverilog r =>
      refine ⟨slot, _, hc, he, .nextDelta hn ?_, rfl⟩
      by_cases hr : r = .postponed
      · exact .inr (.inl (by rw [hr]))
      · exact .inr (.inr ⟨⟨r, rfl⟩, empty_iff.mp (hs r hr) e he⟩)
    | systemverilogRunning => exact absurd (hw.idle hid ▸ he) not_mem_nil
    | endOfSlot => exact ⟨slot, _, hc, he, .nextDelta hn (.inl rfl), rfl⟩
  | @batch slot status postponed hc hid hb =>
    cases hs'
    obtain ⟨r, round, hwo, hf, hro, rfl⟩ := begin_started hb
    have hru := (h.slot slot hc).idle hid
    left
    simp only [Function.update_apply, hru] at he
    split at he
    · exact absurd he not_mem_nil
    · next hne =>
      split at he
      · next heq =>
        exact ⟨slot, .systemverilog r, hc, he,
          .batch rfl rfl hro rfl rfl hwo hf (.inl ⟨rfl, heq⟩), rfl⟩
      · next hn' =>
        exact ⟨slot, place', hc, he,
          .batch rfl rfl hro rfl rfl hwo hf (.inr ⟨rfl, hne, hn'⟩), rfl⟩
  | take hc =>
    cases hs'
    exact .inl
      (hqu hc (mem_update_of_subset erase_subset he) ⟨rfl, rfl, rfl, rfl, fun _ => rfl⟩ rfl)
  | @finish slot drain hc hdr hd =>
    cases hs'
    left
    cases drain with
    | generic | endOfSlot =>
      exact hqu hc (mem_update_of_subset clearConsumed_subset he)
        ⟨rfl, rfl, rfl, rfl, fun _ => rfl⟩ rfl
    | systemverilog =>
      refine hqu hc (mem_update_of_subset clearConsumed_subset he)
        ⟨rfl, rfl, rfl, rfl, fun hpl => ?_⟩ rfl
      subst hpl
      have hem := next_eq_none_iff.mp (hd.resolve_right (by rintro ⟨⟩))
      change e ∈ Function.update slot.queues .systemverilogRunning
        (clearConsumed s.slots (slot.queues (slot.drained .systemverilog)))
        .systemverilogRunning at he
      rw [clearConsumed_of_empty hem] at he
      exact absurd he not_mem_nil
  | drop => cases hs'

theorem Move.trace_cases (hm : s.Move s') :
    s'.trace = s.trace ∨ ∃ slot drain e, s.current = some slot ∧ slot.Drains drain ∧
      next s.slots (slot.queues (slot.drained drain)) = some e ∧
      s'.trace = s.trace ++ [s.executed slot drain e] := by
  cases hm with
  | take hc hd hn => exact .inr ⟨_, _, _, hc, hd, hn, rfl⟩
  | _ => exact .inl rfl

theorem Move.frame (hm : s.Move s') :
    (∀ t ∈ s'.future, t ∈ s.future) ∧ s'.nextSequence = s.nextSequence ∧
      s'.reserved = s.reserved := by
  cases hm with
  | clean | wait => exact ⟨fun t ht => (mem_dropEmptySlots ht).1, rfl, rfl⟩
  | load => exact ⟨fun t ht => (mem_dropEmptySlots (mem_of_mem_filter ht)).1, rfl, rfl⟩
  | _ => exact ⟨fun _ ht => ht, rfl, rfl⟩

end Core

/-- A promise about the task with a given sequence number: where it may wait, in the slot with
the given number or in a future one, and which callbacks may execute it. -/
structure Tracker where
  holds : ℕ → CurrentSlot → Place → Entry → Prop
  waits : Timed → Prop
  done : Executed → Prop
  quiet : ∀ {loads slot slot' place e}, CurrentSlot.Quiet slot slot' place →
    holds loads slot place e → holds loads slot' place e

structure Tracker.Tracks (T : Tracker) (n : ℕ) (s : Core) : Prop where
  issued : n < s.nextSequence
  unreserved : ∀ key ∈ s.reserved, key.sequence ≠ n
  queued : ∀ slot, s.current = some slot → ∀ place, ∀ e ∈ slot.queues place,
    e.sequence = n → T.holds s.loads slot place e
  future : ∀ t ∈ s.future, t.entry.sequence = n → T.waits t
  executed : ∀ event ∈ s.trace, event.sequence = n → T.done event

structure Tracker.Closed (T : Tracker) (n : ℕ) (s : Core) : Prop where
  goes : ∀ slot slot' place place' e, s.current = some slot → e ∈ slot.queues place →
    e.sequence = n → Goes s slot e place slot' place' → T.holds s.loads slot place e →
    T.holds s.loads slot' place' e
  load : ∀ t slot, t ∈ s.future → t.entry.sequence = n → T.waits t → slot.Fresh →
    slot.time = t.time → T.holds (s.loads + 1) slot t.place t.entry
  take : ∀ slot drain e, s.current = some slot → slot.Drains drain → e.sequence = n →
    T.holds s.loads slot (slot.drained drain) e → T.done (s.executed slot drain e)

namespace Tracker

variable {T : Tracker} {n : ℕ} {s s' : Core} {m : Machine}

section
variable (h : T.Tracks n s)
include h

theorem Tracks.move (hw : s.Wf) (hc : T.Closed n s) (hm : s.Move s') : T.Tracks n s' := by
  obtain ⟨hf, hse, hr⟩ := hm.frame
  refine ⟨hse ▸ h.issued, hr ▸ h.unreserved, fun slot' hs' place' e he hn => ?_,
    fun t ht => h.future t (hf t ht), fun event he hn => ?_⟩
  · rcases hm.goes hw hs' he with ⟨slot, place, hs, he, hg, hl⟩ |
      ⟨t, ht, rfl, rfl, hti, hfr, -, -, hl⟩
    · rw [hl]
      exact hc.goes slot slot' place place' e hs he hn hg (h.queued slot hs place e he hn)
    · rw [hl]
      exact hc.load t slot' ht hn (h.future t ht hn) hfr hti
  · rcases hm.trace_cases with htr | ⟨slot, drain, e, hs, hd, hne, htr⟩
    · exact h.executed event (htr ▸ he) hn
    · rw [htr] at he
      rcases mem_append.mp he with he | he
      · exact h.executed event he hn
      · obtain rfl := mem_singleton.mp he
        exact hc.take slot drain e hs hd hn (h.queued slot hs _ e (mem_of_next hne).1 hn)

theorem Tracks.edit (he : s.Edit s') : T.Tracks n s' := by
  have had {e : Entry} {s' : Core} (ha : s.Admits e s') : T.Tracks n s' ∧ e.sequence ≠ n := by
    cases ha with
    | fresh slots hf =>
      exact ⟨{ h with issued := h.issued.trans (Nat.lt_succ_self _) },
        hf ▸ (Nat.ne_of_lt h.issued).symm⟩
    | reserved slots hk =>
      exact ⟨{ h with }, h.unreserved _ hk⟩
  cases he with
  | slots slots => exact { h with }
  | burn slots =>
    exact { h with issued := h.issued.trans (Nat.lt_succ_self _) }
  | reserve o =>
    refine { h with issued := h.issued.trans (Nat.lt_succ_self _), unreserved := fun key hk => ?_ }
    rcases mem_cons.mp hk with rfl | hk
    · exact (Nat.ne_of_lt h.issued).symm
    · exact h.unreserved key hk
  | @place slot place e s' ha hc ho =>
    obtain ⟨h', hne⟩ := had ha
    refine { h' with queued := fun slot' hs' place' e' he' hn => ?_ }
    cases hs'
    rcases Core.mem_push he' with he' | ⟨rfl, -⟩
    · have hq : slot.Quiet (slot.push place e) place' := ⟨rfl, rfl, rfl, rfl, fun _ => rfl⟩
      exact T.quiet hq (h'.queued slot (ha.frame.1.trans hc) place' e' he' hn)
    · exact absurd hn hne
  | @later time place e s' ha =>
    obtain ⟨h', hne⟩ := had ha
    refine { h' with future := fun t ht hn => ?_ }
    rcases mem_append.mp ht with ht | ht
    · exact h'.future t (ha.frame.2.2 ▸ ht) hn
    · obtain rfl := mem_singleton.mp ht
      exact absurd hn hne

theorem Tracks.discard (slots : CancellationSlots) : T.Tracks n (s.discard slots) := by
  refine ⟨h.issued, forall_mem_nil _, fun slot hs => ?_, forall_mem_nil _, h.executed⟩
  cases hs

theorem Tracks.edits (he : s.Edits s') : T.Tracks n s' := by
  induction he with
  | refl => exact h
  | tail _ hed ih => exact ih.edit hed

end

theorem Tracks.act (h : T.Tracks n m.toCore) (hin : m.Inv) (hc : T.Closed n m.toCore)
    (a : Machine.Action) : T.Tracks n (m.act a).toCore := by
  rcases (hin.changes a).1 with he | hm | ⟨-, slots, hd⟩
  · exact h.edits he
  · exact h.move hin.wf hc hm
  · exact hd ▸ h.discard slots

theorem Tracks.run {a : List Machine.Action} (h : T.Tracks n m.toCore) (hin : m.Inv)
    (hc : ∀ k < a.length, (m.run (a.take k)).toCore.Wf →
      T.Tracks n (m.run (a.take k)).toCore → T.Closed n (m.run (a.take k)).toCore) :
    T.Tracks n (m.run a).toCore := by
  induction a generalizing m with
  | nil => exact h
  | cons action a ih =>
    have hf := hc 0 (Nat.zero_lt_succ _) hin.wf h
    exact ih (h.act hin hf action) (hin.act action) fun k hk =>
      hc (k + 1) (Nat.succ_lt_succ hk)

end Tracker

end FsimRuntime.Scheduler
