import FsimRuntime.FstWriter

/-!
# Staged changes and the first pass

Whatever was spilled and merged, the staged events come out in order. A first
pass that is not refused has seen strictly increasing identities, and has staged
the same events with their handles and their places in the table of times.
-/

namespace FsimRuntime.Fst

open ExternalSort KeyedSort List

section Staging

variable {β : Type} [LinearOrder β] {key : SpoolEvent → β} {l : FstWriterLimits}
variable {retained workLimit : ℕ} {s staged : Staging} {event : SpoolEvent}

def Staging.events (staging : Staging) : List SpoolEvent :=
  staging.runs.flatten.flatten ++ staging.buffer

def Staging.SortedRuns (key : SpoolEvent → β) (staging : Staging) : Prop :=
  ∀ level ∈ staging.runs, ∀ run ∈ level, Sorted key run

theorem spill_events : (spillEventBuffer key s).events.Perm s.events := by
  rw [spillEventBuffer]
  split
  · exact .refl _
  · simp only [Staging.events, append_nil]
    exact addRun_perm.trans ((sortBy_perm key s.buffer).append_left _)

theorem spill_sorted (h : s.SortedRuns key) : (spillEventBuffer key s).SortedRuns key := by
  rw [spillEventBuffer]
  split
  · exact h
  · exact addRun_sorted (sortBy_sorted key s.buffer) h

theorem spill_buffer : (spillEventBuffer key s).buffer = [] := by
  rw [spillEventBuffer]
  split
  · next h => exact isEmpty_iff.mp h
  · rfl

theorem makeRoom_ok {room : Staging × ℕ}
    (h : makeRoom key l retained workLimit s event = .ok room) :
    room.1 = s ∨ room.1 = spillEventBuffer key s := by
  rw [makeRoom] at h
  split at h
  · cases h
    exact .inl rfl
  · obtain ⟨_, -, h⟩ := bind_ok.mp h
    cases h
    exact .inr rfl

theorem stage_ok (hs : s.SortedRuns key)
    (h : stageSpoolEvent key l retained workLimit s event = .ok staged) :
    staged.events.Perm (s.events ++ [event]) ∧ staged.SortedRuns key := by
  obtain ⟨_, -, h⟩ := bind_ok.mp h
  obtain ⟨⟨room, capacity⟩, hr, h⟩ := bind_ok.mp h
  obtain ⟨_, -, h⟩ := bind_ok.mp h
  cases h
  have hk : room.events.Perm s.events ∧ room.SortedRuns key := by
    rcases makeRoom_ok hr with he | he <;> rw [show room = _ from he]
    · exact ⟨.refl _, hs⟩
    · exact ⟨spill_events, spill_sorted hs⟩
  refine ⟨?_, hk.2⟩
  show (room.runs.flatten.flatten ++ (room.buffer ++ [event])).Perm _
  rw [← append_assoc]
  exact hk.1.append_right _

theorem mergedEvents_spec (hso : s.SortedRuns key) :
    (mergedEvents key s).Perm s.events ∧ Sorted key (mergedEvents key s) := by
  have hm : (mergedEvents key s).Perm (spillEventBuffer key s).runs.flatten.flatten ∧
      Sorted key (mergedEvents key s) := finishRuns_merge (spill_sorted hso)
  have hs : (spillEventBuffer key s).events.Perm s.events := spill_events
  rw [Staging.events, spill_buffer, append_nil] at hs
  exact ⟨hm.1.trans hs, hm.2⟩

theorem empty_sorted : ({} : Staging).SortedRuns key := nofun

end Staging

section FirstPass

variable {l : FstWriterLimits} {retained finalTime : ℕ} {handles : Handles}
variable {p p' : IndexPass} {event : SpoolEvent} {events : List SpoolEvent}

def placeEvent (handles : Handles) (times : List ℕ) (event : SpoolEvent) : SpoolEvent :=
  { event with
    handle := (handleOf handles event.event.signal).getD 0, timeIndex := times.length - 1 }

def placeEvents (handles : Handles) : List ℕ → List SpoolEvent → List SpoolEvent
  | _, [] => []
  | times, event :: events =>
    placeEvent handles (extendTimes times event.event.time) event ::
      placeEvents handles (extendTimes times event.event.time) events

theorem timestampFor_ok {times t' : List ℕ} {time : ℕ}
    (h : timestampFor l times time = .ok t') : t' = extendTimes times time := by
  rw [timestampFor] at h
  rw [extendTimes]
  split at h
  · next hl =>
    rw [if_pos hl]
    exact (Except.ok.inj h).symm
  · next hl =>
    rw [if_neg hl]
    obtain ⟨_, -, h⟩ := bind_ok.mp h
    exact (Except.ok.inj h).symm

theorem handleFor_ok {signal handle : ℕ} (h : handleFor handles signal = .ok handle) :
    handleOf handles signal = some handle := by
  rw [handleFor] at h
  split at h
  · next hf => rw [hf, Except.ok.inj h]
  · nomatch h

theorem indexEvent_ok (h : indexEvent l retained finalTime handles p event = .ok p') :
    (event.event.time ≤ finalTime ∧ (handleOf handles event.event.signal).isSome ∧
      p.previousEvent ≠ some event.event) ∧
    p'.times = extendTimes p.times event.event.time ∧ p'.previousEvent = some event.event ∧
    stageSpoolEvent indexedKey l retained (l.maximumEventWorkBytes / 4) p.staging
      (placeEvent handles p'.times event) = .ok p'.staging := by
  obtain ⟨_, hl, h⟩ := bind_ok.mp h
  obtain ⟨_, hsa, h⟩ := bind_ok.mp h
  obtain ⟨handle, hh, h⟩ := bind_ok.mp h
  obtain ⟨times, ht, h⟩ := bind_ok.mp h
  obtain ⟨s, hs, h⟩ := bind_ok.mp h
  cases h
  have hf := handleFor_ok hh
  refine ⟨⟨?_, by simp [hf], by simpa [refuse_ok] using hsa⟩, timestampFor_ok ht, rfl, ?_⟩
  · simpa [refuse_ok] using hl
  · rw [placeEvent, hf]
    exact hs

structure Indexed (handles : Handles) (finalTime : ℕ) (pass : IndexPass)
    (events : List SpoolEvent) (pass' : IndexPass) : Prop where
  inTime : ∀ event ∈ events, event.event.time ≤ finalTime
  handled : ∀ event ∈ events, (handleOf handles event.event.signal).isSome
  distinct : (pass.previousEvent.toList ++ events.map (·.event)).IsChain (· ≠ ·)
  times : pass'.times = (events.map (·.event.time)).foldl extendTimes pass.times
  staged : pass'.staging.events.Perm (pass.staging.events ++ placeEvents handles pass.times events)
  sorted : pass'.staging.SortedRuns indexedKey

theorem Indexed.of_fold (hs : p.staging.SortedRuns indexedKey)
    (h : events.foldlM (indexEvent l retained finalTime handles) p = .ok p') :
    Indexed handles finalTime p events p' := by
  induction events generalizing p with
  | nil =>
    cases h
    refine ⟨nofun, nofun, ?_, rfl, by simp [placeEvents], hs⟩
    cases p'.previousEvent with
    | none => exact .nil
    | some event => exact .singleton event
  | cons event events ih =>
    obtain ⟨next, hste, h⟩ := foldlM_cons_ok.mp h
    obtain ⟨⟨hti, hh, hn⟩, ht, hp, hst⟩ := indexEvent_ok hste
    obtain ⟨hpe, hs'⟩ := stage_ok hs hst
    have hr := ih hs' h
    refine ⟨forall_mem_cons.mpr ⟨hti, hr.inTime⟩,
      forall_mem_cons.mpr ⟨hh, hr.handled⟩, ?_, ?_, ?_, hr.sorted⟩
    · have hc := hr.distinct
      rw [hp] at hc
      cases hl : p.previousEvent with
      | none => exact hc
      | some previous =>
        refine .cons_cons (fun he => hn ?_) hc
        rw [hl, he]
    · rw [hr.times, ht, map_cons, foldl_cons]
    · refine hr.staged.trans ((hpe.append_right _).trans (.of_eq ?_))
      rw [append_assoc, ht]
      rfl

theorem identity_injective : Function.Injective TraceEvent.identity := by
  rintro ⟨s, t, d, r, q⟩ ⟨s', t', d', r', q'⟩ h
  simp only [TraceEvent.identity, EmbeddingLike.apply_eq_iff_eq, Prod.mk.injEq] at h
  obtain ⟨rfl, rfl, hr, rfl, rfl⟩ := h
  cases r <;> cases r' <;> first | rfl | nomatch hr

def identityOf (event : SpoolEvent) : ℕ ×ₗ ℕ ×ₗ ℕ ×ₗ ℕ ×ₗ ℕ :=
  event.event.identity

theorem Indexed.increasing (h : Indexed handles finalTime p events p')
    (hp : p.previousEvent = none) (hs : Sorted eventKey events) : Increasing identityOf events := by
  have hc := h.distinct
  rw [hp, Option.toList_none, nil_append, isChain_map] at hc
  exact increasing_of_sorted_of_isChain (hs.imp fun h => Prod.Lex.monotone_fst _ _ h)
    (hc.imp fun _ _ hn he => hn (identity_injective he))

end FirstPass

section Times

variable {times : List ℕ} {time : ℕ}

abbrev extendedBy (times later : List ℕ) : List ℕ := later.foldl extendTimes times

theorem extendTimes_extends : times <+: extendTimes times time := by
  rw [extendTimes]
  split
  · exact prefix_rfl
  · exact prefix_append _ _

variable {later : List ℕ} {a b : SpoolEvent}

theorem extendedBy_extends : times <+: extendedBy times later := by
  induction later generalizing times with
  | nil => exact prefix_rfl
  | cons time later ih => exact extendTimes_extends.trans ih

theorem extendTimes_last : ∃ b, extendTimes times time = b ++ [time] ∧
    ∀ t ∈ b, t ∈ times := by
  rw [extendTimes]
  split
  · next hl =>
    obtain ⟨b, hb⟩ := getLast?_eq_some_iff.mp hl
    exact ⟨b, hb, fun t ht => hb ▸ mem_append_left _ ht⟩
  · exact ⟨times, rfl, fun _ ht => ht⟩

theorem extendTimes_increasing (h : times.Pairwise (· < ·)) (hle : ∀ t ∈ times, t ≤ time) :
    (extendTimes times time).Pairwise (· < ·) := by
  rw [extendTimes]
  split
  · exact h
  · next hl =>
    refine pairwise_append.mpr ⟨h, pairwise_singleton _ _, fun t ht u hu => ?_⟩
    obtain rfl := mem_singleton.mp hu
    refine lt_of_le_of_ne (hle t ht) fun he => hl ?_
    subst he
    -- an increasing table whose members are not above `t` ends in `t`
    obtain ⟨b, after, rfl⟩ := append_of_mem ht
    cases after with
    | nil => simp
    | cons v after =>
      have hlt : t < v := by
        have := (pairwise_append.mp h).2.1
        exact (pairwise_cons.mp this).1 v mem_cons_self
      exact absurd (hle v (by simp)) (not_le.mpr hlt)

theorem extendTimes_le (hl : ∀ t ∈ times, t ≤ time) : ∀ t ∈ extendTimes times time,
    t ≤ time := by
  obtain ⟨b, he, hb⟩ : ∃ b, extendTimes times time = b ++ [time] ∧
      ∀ t ∈ b, t ∈ times := extendTimes_last
  intro t ht
  rw [he] at ht
  rcases mem_append.mp ht with ht | ht
  · exact hl t (hb t ht)
  · exact (mem_singleton.mp ht).le

theorem idxOf_extendedBy (h : times.Pairwise (· < ·)) (hl : ∀ t ∈ times, t ≤ time) :
    (extendedBy (extendTimes times time) later).idxOf time =
    (extendTimes times time).length - 1 := by
  obtain ⟨r, hr⟩ : extendTimes times time <+: extendedBy (extendTimes times time) later :=
    extendedBy_extends
  obtain ⟨b, he, -⟩ : ∃ b, extendTimes times time = b ++ [time] ∧
      ∀ t ∈ b, t ∈ times := extendTimes_last
  have hn : time ∉ b := by
    have hin := extendTimes_increasing h hl
    rw [he] at hin
    intro hm
    exact lt_irrefl time ((pairwise_append.mp hin).2.2 time hm time (mem_singleton_self time))
  rw [← hr, he, idxOf_append_of_mem (by simp), idxOf_append_of_notMem hn]
  simp

theorem extendedBy_increasing (h : times.Pairwise (· < ·))
    (hle : ∀ t ∈ times, ∀ u ∈ later, t ≤ u)
    (hl : later.Pairwise (· ≤ ·)) : (extendedBy times later).Pairwise (· < ·) := by
  induction later generalizing times with
  | nil => exact h
  | cons time later ih =>
    obtain ⟨hti, hl⟩ := pairwise_cons.mp hl
    have hl' : ∀ t ∈ times, t ≤ time := fun t ht => hle t ht time mem_cons_self
    exact ih (extendTimes_increasing h hl')
      (fun t ht u hu => (extendTimes_le hl' t ht).trans (hti u hu)) hl

variable {handles : Handles} {events : List SpoolEvent}

def placedIn (handles : Handles) (times : List ℕ) (event : SpoolEvent) : SpoolEvent :=
  { event with
    handle := (handleOf handles event.event.signal).getD 0
    timeIndex := times.idxOf event.event.time }

theorem placeEvents_eq (h : times.Pairwise (· < ·))
    (hl : ∀ t ∈ times, ∀ event ∈ events, t ≤ event.event.time)
    (hev : events.Pairwise fun a b => a.event.time ≤ b.event.time) :
    placeEvents handles times events =
      events.map (placedIn handles (extendedBy times (events.map (·.event.time)))) := by
  induction events generalizing times with
  | nil => rfl
  | cons event events ih =>
    obtain ⟨hf, hev⟩ := pairwise_cons.mp hev
    have hl' : ∀ t ∈ times, t ≤ event.event.time := fun t ht => hl t ht event mem_cons_self
    rw [map_cons, map_cons]
    refine congrArg₂ cons ?_ (ih (extendTimes_increasing h hl')
      (fun t ht e he => (extendTimes_le hl' t ht).trans (hf e he)) hev)
    rw [placeEvent, placedIn, extendedBy, foldl_cons, idxOf_extendedBy h hl']

theorem mem_extendedBy (h : time ∈ later) : time ∈ extendedBy times later := by
  induction later generalizing times with
  | nil => nomatch h
  | cons first later ih =>
    rcases mem_cons.mp h with rfl | h
    · obtain ⟨b, he, -⟩ : ∃ b, extendTimes times time = b ++ [time] ∧
          ∀ t ∈ b, t ∈ times := extendTimes_last
      have hin : extendTimes times time <+: extendedBy (extendTimes times time) later :=
        extendedBy_extends
      exact hin.subset (he ▸ by simp)
    · exact ih h

theorem idxOf_le_idxOf {a b : ℕ} (h : times.Pairwise (· < ·)) (ha : a ∈ times)
    (hb : b ∈ times) (hab : a ≤ b) : times.idxOf a ≤ times.idxOf b := by
  by_contra hl
  have hl := pairwise_iff_getElem.mp h _ _ (idxOf_lt_length_of_mem hb)
    (idxOf_lt_length_of_mem ha) (not_le.mp hl)
  rw [getElem_idxOf, getElem_idxOf] at hl
  exact absurd hab (not_le.mpr hl)

theorem handleOf_pos {signal handle : ℕ} (h : handleOf handles signal = some handle) :
    0 < handle ∧ handle - 1 < handles.length := by
  obtain ⟨index, hin, rfl⟩ := Option.map_eq_some_iff.mp h
  exact ⟨Nat.succ_pos _, (findIdx?_eq_some_iff_findIdx_eq.mp hin).1⟩

theorem indexedKey_lt
    (h : a.handle < b.handle ∨ a.handle = b.handle ∧ (a.timeIndex < b.timeIndex ∨
      a.timeIndex = b.timeIndex ∧ identityOf a < identityOf b)) : indexedKey a <
        indexedKey b := by
  simp only [indexedKey, eventKey, Prod.Lex.toLex_lt_toLex]
  rcases h with h | ⟨hh, h | ⟨ht, h⟩⟩
  · exact .inl h
  · exact .inr ⟨hh, .inl h⟩
  · exact .inr ⟨hh, .inr ⟨ht, .inl h⟩⟩

theorem time_le_of_identity (h : identityOf a < identityOf b) :
    a.event.time ≤ b.event.time := Prod.Lex.monotone_fst _ _ h.le

theorem mergedEvents_placed {s : Staging} (hso : s.SortedRuns indexedKey)
    (hin : Increasing identityOf events) (ht : times.Pairwise (· < ·))
    (hmm : ∀ event ∈ events, event.event.time ∈ times)
    (hha : ∀ event ∈ events, (handleOf handles event.event.signal).isSome)
    (hpe : s.events.Perm (events.map (placedIn handles times))) : mergedEvents indexedKey s =
      (groups (·.handle - 1) handles.length (events.map (placedIn handles times))).flatten := by
  have hp : ∀ event ∈ events.map (placedIn handles times),
      0 < event.handle ∧ event.handle - 1 < handles.length := by
    intro event he
    obtain ⟨o, ho, rfl⟩ := mem_map.mp he
    obtain ⟨handle, hh⟩ := Option.isSome_iff_exists.mp (hha o ho)
    rw [placedIn, hh]
    exact handleOf_pos hh
  have hg : Increasing indexedKey
      (groups (·.handle - 1) handles.length (events.map (placedIn handles times))).flatten := by
    refine groups_increasing (fun a ha b hb hl => indexedKey_lt (.inl ?_)) ?_
    · omega
    · refine pairwise_map.mpr (List.Pairwise.imp_of_mem ?_ hin)
      intro a b ha hb hl hc
      have hpa := (hp _ (mem_map_of_mem ha)).1
      have hpb := (hp _ (mem_map_of_mem hb)).1
      refine indexedKey_lt (.inr ⟨by omega, ?_⟩)
      have hle : times.idxOf a.event.time ≤ times.idxOf b.event.time :=
        idxOf_le_idxOf ht (hmm a ha) (hmm b hb) (time_le_of_identity hl)
      exact (lt_or_eq_of_le hle).imp_right fun heq => ⟨heq, hl⟩
  obtain ⟨hme, hm⟩ := mergedEvents_spec hso
  have hgr := (groups_perm fun event he => (hp event he).2).symm
  have hs := hme.trans (hpe.trans hgr)
  exact (increasing_of_sorted hm ((hs.map indexedKey).nodup_iff.mpr hg.nodup)).eq_of_perm hg hs

end Times

end FsimRuntime.Fst
