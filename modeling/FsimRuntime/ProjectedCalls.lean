import FsimRuntime.ProjectedTasks

/-!
# Effect of one call

A valid call is accepted. Either it stages its value directly, or it edits the
transactions of each bit it covers and leaves every other bit alone.
-/

namespace FsimRuntime.Projected
open List Function Call
open Waveform (Transaction DelayMode keep marks)

theorem keep_perm {α : Type*} {f : List Bool} {l : List α} (h : f.length = l.length) :
    (keep f l ++ keep (f.map not) l).Perm l := by
  induction f generalizing l with
  | nil => simp [keep, length_eq_zero_iff.mp h.symm]
  | cons flag f ih =>
    cases l with
    | nil => simp at h
    | cons x xs =>
      have hx := ih (l := xs) (by simpa using h)
      cases flag with
      | true => simpa [keep] using hx
      | false =>
        exact perm_middle.trans (hx.cons x)

def editedBit (mode : DelayMode) (rejection : ℕ) (retainedOld : Option (List Bool))
    (new transactions : List (Transaction Logic9)) : List (Transaction Logic9) :=
  match new with
  | [] => transactions
  | first :: _ =>
    let old := transactions.takeWhile fun t => t.time < first.time
    keep (editMarks mode rejection retainedOld old first) old ++ new

def keptTransactions (mode : DelayMode) (rejection : ℕ) (retainedOld : Option (List Bool))
    (transactions : List ProjectedTransaction) (first : ProjectedTransaction) :
    List ProjectedTransaction :=
  keep (editMarks mode rejection retainedOld
    ((oldTransactions first.time transactions).map (·.strip)) first.strip)
    (oldTransactions first.time transactions)

section Edit
variable {m : DelayMode} {r : ℕ} {retainedOld : Option (List Bool)}
  {queued rest : List ProjectedTransaction} {first : ProjectedTransaction}

theorem editTransactions_fst :
    (editTransactions m r first.time retainedOld queued (first :: rest)).1 =
      keptTransactions m r retainedOld queued first ++ first :: rest := by
  rw [editTransactions_eq]
  rfl

theorem keptTransactions_sublist : (keptTransactions m r retainedOld queued first).Sublist queued :=
  (Waveform.keep_sublist _ _).trans (takeWhile_sublist _)

theorem editTransactions_strip :
    (keptTransactions m r retainedOld queued first ++ first :: rest).map
        (·.strip) = editedBit m r retainedOld ((first :: rest).map (·.strip))
        (queued.map (·.strip)) := by
  simp only [keptTransactions, editedBit, map_append, takeWhile_map, ← Waveform.keep_map]
  rfl

theorem editTransactions_handles (hn : (queued.map (·.id)).Nodup) :
    ∀ handle ∈ (editTransactions m r first.time retainedOld queued
      (first :: rest)).2, ∃ t ∈ queued, t.handle = handle ∧
        ∀ u ∈ keptTransactions m r retainedOld queued first, u.id ≠ t.id := by
  rw [editTransactions_eq]
  set flags := editMarks m r retainedOld
    ((oldTransactions first.time queued).map (·.strip)) first.strip with hf
  have hs : queued = oldTransactions first.time queued ++
      queued.dropWhile fun t => t.time < first.time :=
    takeWhile_append_dropWhile.symm
  have hp : (keep flags (oldTransactions first.time queued) ++
      keep (flags.map not) (oldTransactions first.time queued)).Perm
        (oldTransactions first.time queued) := by
    refine keep_perm ?_
    rw [editMarks_length, length_map]
  have hid := hs ▸ hn
  rw [map_append] at hid
  intro handle hh
  rcases mem_append.mp hh with hm | hm
  · obtain ⟨t, ht, rfl⟩ := mem_map.mp hm
    refine ⟨t, (dropWhile_sublist _).subset ht, rfl, fun u hu he => ?_⟩
    have hu := mem_map_of_mem (f := fun t => t.id) ((Waveform.keep_sublist _ _).subset hu)
    exact (nodup_append.mp hid).2.2 _ hu _ (mem_map_of_mem ht) he
  · obtain ⟨t, ht, rfl⟩ := mem_map.mp (mem_reverse.mp hm)
    refine ⟨t, ((Waveform.keep_sublist _ _).trans (takeWhile_sublist _)).subset ht, rfl,
      fun u hu he => ?_⟩
    have hk := ((hp.map (·.id)).nodup_iff).mpr (nodup_append.mp hid).1
    rw [map_append] at hk
    exact (nodup_append.mp hk).2.2 _ (mem_map_of_mem hu) _ (mem_map_of_mem ht) he

end Edit

structure Edits (f : DriverKey → List (Transaction Logic9) → List (Transaction Logic9))
    (s s' : State) : Prop where
  sched : Sched (fun _ _ => False) s'
  now : s'.now = s.now
  pending : s'.pending = s.pending
  driving : s'.driving = s.driving
  matured : s'.matured = s.matured
  drivers : ∀ key, (s'.drivers key).map (·.strip) = f key ((s.drivers key).map (·.strip))

variable {s : State}

theorem checkDelays_ok {now : ℕ} {previous : Option ℕ} {d : List ℕ}
    (hpr : ∀ p ∈ previous, ∀ delay ∈ d, p < delay)
    (ha : d.Pairwise (· < ·)) (hm : ∀ delay ∈ d, delay ≤ maxTick - now) :
    checkDelays now previous d = .ok () := by
  induction d generalizing previous with
  | nil => rfl
  | cons delay rest ih =>
    obtain ⟨hl, hr⟩ := pairwise_cons.mp ha
    obtain ⟨hd, hm⟩ := forall_mem_cons.mp hm
    rw [checkDelays, if_neg, if_neg (by omega), ih (by simpa using hl) hr hm]
    rw [Option.any_eq_true]
    rintro ⟨p, hp, hle⟩
    have := hpr p hp delay mem_cons_self
    simp only [decide_eq_true_eq] at hle
    omega

section
variable (now nextId : ℕ) (elements : List (Logic9 × ℕ))
include now nextId elements

theorem newTransactions_strip :
    (newTransactions now nextId elements).map (·.strip) = elements.map fun e =>
      ⟨now + e.2, e.1⟩ := by
  induction elements generalizing nextId with
  | nil => rfl
  | cons e rest ih =>
    simp only [newTransactions, map_cons, ih]
    rfl

theorem newTransactions_id :
    (newTransactions now nextId elements).map (·.id) = range' nextId elements.length := by
  induction elements generalizing nextId with
  | nil => rfl
  | cons e rest ih => simp [newTransactions, ih, range'_succ]

theorem newTransactions_handle : ∀ t ∈ newTransactions now nextId elements,
    t.handle = none := by
  induction elements generalizing nextId with
  | nil => simp [newTransactions]
  | cons e rest ih => exact forall_mem_cons.mpr ⟨rfl, ih _⟩

end

@[mk_iff]
structure ValidElements (now rejection : ℕ) (mode : DelayMode) (delays : List ℕ) : Prop where
  nonempty : delays ≠ []
  ascending : delays.Pairwise (· < ·)
  le_max : ∀ delay ∈ delays, delay ≤ maxTick - now
  rejection_le : mode = .inertial → rejection ≤ delays.headD 0

instance (now rejection : ℕ) (mode : DelayMode) (delays : List ℕ) :
    Decidable (ValidElements now rejection mode delays) :=
  decidable_of_iff' _ (validElements_iff now rejection mode delays)

theorem scheduleProjectedScalarWaveform_spec (h : Sched (fun _ _ => False) s) (key : DriverKey)
    (elements : List (Logic9 × ℕ)) {r : ℕ} {m : DelayMode} (retainedOld : Option (List Bool))
    (hv : ValidElements s.now r m (elements.map (·.2))) :
    ∃ s', scheduleProjectedScalarWaveform key elements r m retainedOld s = .ok s' ∧
      Edits (fun k w => if k = key then
        editedBit m r retainedOld (elements.map fun e => ⟨s.now + e.2, e.1⟩) w
          else w) s s' := by
  obtain ⟨⟨value, d⟩, rest, rfl⟩ : ∃ e rest, elements = e :: rest :=
    exists_cons_of_ne_nil (by simpa using hv.nonempty)
  have hch : checkDelays s.now none (((value, d) :: rest).map (·.2)) = .ok () :=
    checkDelays_ok (by simp) hv.ascending hv.le_max
  set new := newTransactions s.now s.nextId ((value, d) :: rest) with hn
  obtain ⟨first, tail, hc, hti⟩ : ∃ first tail, new = first :: tail ∧
      first.time = s.now + d := ⟨_, _, rfl, rfl⟩
  set kept := keptTransactions m r retainedOld (s.drivers key) first
  have hl : new.length = ((value, d) :: rest).length := by
    simpa using congrArg length (newTransactions_id s.now s.nextId ((value, d) :: rest))
  have hids : ∀ t ∈ new, s.nextId ≤ t.id ∧ t.id < s.nextId + new.length := by
    intro t ht
    have hm := mem_map_of_mem (f := fun t => t.id) ht
    rw [newTransactions_id, mem_range'_1] at hm
    rwa [hl]
  have hno : (new.map (·.id)).Nodup := by
    rw [newTransactions_id]
    exact nodup_range'
  have hed := h.edit key kept new (editTransactions m r first.time retainedOld
      (s.drivers key) (first :: tail)).2 keptTransactions_sublist hno
    (fun t ht => ⟨(hids t ht).1, (hids t ht).2, newTransactions_handle _ _ _ t ht⟩)
    (editTransactions_handles (h.nodup key))
  obtain ⟨result, ha, hs, hst, hid⟩ := armTransactions_spec hed key new
    (fun t ht => ⟨t, by simp [ht], rfl, rfl⟩)
  simp only [update_self] at ha hst hid
  refine ⟨{ s with
      drivers := update s.drivers key result.1
      nextId := s.nextId + ((value, d) :: rest).length
      scheduled := result.2.1
      nextSequence := result.2.2 }, ?_, ?_, rfl, rfl, rfl, rfl, ?_⟩
  · have hr : ¬ (m = .inertial ∧ r > d) := by
      rintro ⟨hmo, hg⟩
      have := hv.rejection_le hmo
      simp at this
      omega
    rw [scheduleProjectedScalarWaveform, if_neg hr, hch]
    simp only [← hn, hc, ← hti, editTransactions_fst] at ha ⊢
    rw [ha]
    rfl
  · simp only [State.armed, update_idem, hl] at hs
    refine hs.mono ?_
    rintro k t ht ⟨ho, hnt⟩
    obtain ⟨rfl, hle⟩ := ho.resolve_left id
    simp only [update_self] at ht
    have hm := mem_map_of_mem (f := fun t => t.id) ht
    rw [hid, map_append, mem_append] at hm
    rcases hm with hm | hm
    · obtain ⟨u, hu, he⟩ := mem_map.mp hm
      have := h.id_lt k u (keptTransactions_sublist.subset hu)
      omega
    · exact hnt ⟨rfl, hm⟩
  · intro k
    by_cases hk : k = key
    · subst hk
      simp only [update_self, if_pos]
      rw [hst, hc, editTransactions_strip, ← hc, newTransactions_strip]
    · simp [update_of_ne hk, if_neg hk]

def Call.newBit (c : Call) (now bit : ℕ) : List (Transaction Logic9) :=
  c.elements.map fun e => ⟨now + e.delay, e.value.getLogic9 bit⟩

def Call.editedBits (c : Call) (now : ℕ) (retainedOld : Option (List Bool)) (bits : List ℕ)
    (key : DriverKey) (w : List (Transaction Logic9)) : List (Transaction Logic9) :=
  if key ∈ bits.map c.key then
    editedBit c.mode c.rejection retainedOld (c.newBit now (key.offset - c.first)) w
  else w

theorem Call.key_injective (c : Call) : Function.Injective c.key := by
  intro a b h
  have := congrArg DriverKey.offset h
  simp only [key] at this
  omega

theorem Call.key_offset_sub (c : Call) (bit : ℕ) : (c.key bit).offset - c.first = bit := by
  simp [key]

variable {c : Call} {element : ProjectedWaveformValue}

theorem scheduleBits_spec (h : Sched (fun _ _ => False) s) {bits : List ℕ}
    (retainedOld : Option (List Bool)) (hn : bits.Nodup)
    (hv : ValidElements s.now c.rejection c.mode (c.elements.map (·.delay))) :
    ∃ s', scheduleBits c retainedOld bits s = .ok s' ∧
      Edits (c.editedBits s.now retainedOld bits) s s' := by
  induction bits generalizing s with
  | nil => exact ⟨s, rfl, h, rfl, rfl, rfl, rfl, fun key => by simp [editedBits]⟩
  | cons bit rest ih =>
    obtain ⟨hb, hr⟩ := nodup_cons.mp hn
    obtain ⟨s₁, ho₁, he₁⟩ := scheduleProjectedScalarWaveform_spec h (c.key bit)
      (c.elements.map fun e => (e.value.getLogic9 bit, e.delay)) retainedOld
      (by simpa [comp_def] using hv)
    obtain ⟨s₂, ho₂, he₂⟩ := ih he₁.sched hr (he₁.now ▸ hv)
    refine ⟨s₂, ?_, he₂.sched, he₂.now.trans he₁.now, he₂.pending.trans he₁.pending,
      he₂.driving.trans he₁.driving, he₂.matured.trans he₁.matured, fun key => ?_⟩
    · rw [scheduleBits, ho₁]
      exact ho₂
    · rw [he₂.drivers, he₁.drivers, he₁.now]
      have hno : c.key bit ∉ rest.map c.key := by rwa [mem_map_of_injective c.key_injective]
      simp only [editedBits]
      by_cases hk : key = c.key bit
      · subst hk
        simp [hno, key_offset_sub, newBit, comp_def]
      · simp [hk]

structure PackedEdits (c : Call) (element : ProjectedWaveformValue) (s : State) (count : ℕ)
    (s' : State) : Prop where
  sched : Sched (fun k id => ∃ bit < count, k = c.key bit ∧ id = s.nextId + bit) s'
  now : s'.now = s.now
  pending : s'.pending = s.pending
  driving : s'.driving = s.driving
  matured : s'.matured = s.matured
  nextId : s'.nextId = s.nextId + count
  nextSequence : s'.nextSequence = s.nextSequence
  drivers : ∀ key, (s'.drivers key).map (·.strip) =
    c.editedBits s.now none (List.range count) key ((s.drivers key).map (·.strip))
  fresh : ∀ bit < count, ∀ t ∈ s'.drivers (c.key bit), t.id < s.nextId ∨
    t = ⟨s.nextId + bit, s.now + element.delay, element.value.getLogic9 bit, none⟩
  others : ∀ bit, count ≤ bit → s'.drivers (c.key bit) = s.drivers (c.key bit)

theorem editPackedBit_spec {s s' : State} {count : ℕ} (hel : c.elements = [element])
    (hs : Sched (fun _ _ => False) s) (h : PackedEdits c element s count s') :
    PackedEdits c element s (count + 1) (editPackedBit c element s' count) := by
  set new : ProjectedTransaction :=
    ⟨s'.nextId, s'.now + element.delay, element.value.getLogic9 count, none⟩ with hn
  set kept := keptTransactions c.mode c.rejection none (s'.drivers (c.key count)) new
  have hed := h.sched.edit (c.key count) kept [new] (editTransactions c.mode c.rejection
      new.time none (s'.drivers (c.key count)) [new]).2 keptTransactions_sublist (by simp)
    (by simp [hn]) (editTransactions_handles (h.sched.nodup _))
  have hst : editPackedBit c element s' count =
      { s' with
        drivers := update s'.drivers (c.key count) (kept ++ [new])
        nextId := s'.nextId + 1
        scheduled := cancelAll (editTransactions c.mode c.rejection new.time none
          (s'.drivers (c.key count)) [new]).2 s'.scheduled } := by
    rw [← editTransactions_fst]
    rfl
  rw [hst]
  refine { h with sched := ?_, nextId := ?_, drivers := ?_, fresh := ?_, others := ?_ }
  · refine hed.mono fun k t ht ho => ?_
    rcases ho with ⟨bit, hb, hk⟩ | ⟨rfl, hl⟩
    · exact ⟨bit, by omega, hk⟩
    · refine ⟨count, by omega, rfl, ?_⟩
      simp only [update_self] at ht
      rcases mem_append.mp ht with ht | ht
      · have := h.sched.id_lt _ t (keptTransactions_sublist.subset ht)
        omega
      · rw [mem_singleton.mp ht, ← h.nextId]
  · simp only [h.nextId]
    omega
  · intro key
    simp only [editedBits, range_succ, map_append, mem_append, map_cons, map_nil, mem_singleton]
    by_cases hke : key = c.key count
    · subst hke
      simp only [update_self, key_offset_sub]
      rw [editTransactions_strip, h.others count le_rfl]
      simp [newBit, hel, hn, h.now, ProjectedTransaction.strip]
    · simp only [update_of_ne hke, hke, or_false]
      exact h.drivers key
  · intro bit hb t ht
    by_cases hc : bit = count
    · subst hc
      simp only [update_self] at ht
      rcases mem_append.mp ht with ht | ht
      · have hold := keptTransactions_sublist.subset ht
        rw [h.others bit le_rfl] at hold
        exact .inl (hs.id_lt _ t hold)
      · rw [mem_singleton.mp ht, hn, h.nextId, h.now]
        exact .inr rfl
    · simp only [update_of_ne (fun he => hc (c.key_injective he))] at ht
      exact h.fresh bit (by omega) t ht
  · intro bit hb
    have hne : c.key bit ≠ c.key count := fun he => absurd (c.key_injective he) (by omega)
    simp only [update_of_ne hne]
    exact h.others bit (by omega)

theorem foldl_editPackedBit_spec
    (he : c.elements = [element]) (h : Sched (fun _ _ => False) s) (count : ℕ) :
    PackedEdits c element s count ((range count).foldl (editPackedBit c element) s) := by
  induction count with
  | zero =>
    refine ⟨h.mono fun _ _ _ hf => hf.elim, rfl, rfl, rfl, rfl, rfl, rfl, ?_, ?_, ?_⟩
    · simp [editedBits]
    · omega
    · intro bit _
      rfl
  | succ count ih =>
    rw [range_succ, foldl_append]
    exact editPackedBit_spec he h ih

theorem schedulePacked_spec (h : Sched (fun _ _ => False) s) (he : c.elements = [element])
    (hv : ValidElements s.now c.rejection c.mode (c.elements.map (·.delay))) :
    ∃ s', schedulePacked c element s = .ok s' ∧
      Edits (c.editedBits s.now none (range c.width)) s s' := by
  have hp := foldl_editPackedBit_spec he h c.width
  rw [he] at hv
  have hre : ¬ (c.mode = .inertial ∧ c.rejection > element.delay) := by
    rintro ⟨hm, hg⟩
    exact absurd (hv.rejection_le hm) (by simpa using hg)
  have hma : ¬ element.delay > maxTick - s.now := by simpa using hv.le_max
  have hw : element.value.length = c.width := by simp [width, he]
  rw [schedulePacked, if_neg hre, if_neg hma]
  set callback : Callback := .group c.process c.signal c.first c.width
    ((range c.width).map fun bit => s.nextId + bit) element.value with hc
  have hta : ∀ key id, callback.target key = some id ↔
      ∃ bit < c.width, key = c.key bit ∧ id = s.nextId + bit := by
    intro key id
    refine Callback.group_target_iff.trans (exists_congr fun bit => and_congr_right fun hb => ?_)
    simp [hb, Call.key]
  have hs := hp.sched.schedule (s.now + element.delay) c.process callback ?_ hw ?_
  · refine ⟨_, rfl, ?_, hp.now, hp.pending, hp.driving, hp.matured, hp.drivers⟩
    rw [hp.nextSequence] at hs
    refine hs.mono ?_
    rintro key t - ⟨ho, hn⟩
    exact hn ((hta key t.id).mpr ho)
  · intro key id hid
    obtain ⟨bit, hb, -, rfl⟩ := (hta key id).mp hid
    rw [hp.nextId]
    omega
  · intro key t ht hid
    obtain ⟨bit, hb, rfl, hid⟩ := (hta key t.id).mp hid
    rcases hp.fresh bit hb t ht with hl | rfl
    · omega
    · simp [hc, Callback.Carries, key_offset_sub]

@[mk_iff]
structure Call.Valid (design : Design) (now : ℕ) (c : Call) : Prop where
  widths : ∀ e ∈ c.elements, e.value.length = c.width
  width_pos : 0 < c.width
  range : c.first + c.width ≤ design.width c.signal
  whole : c.offset = none → c.width = design.width c.signal
  uint32 : c.first + c.width ≤ maxUint32
  delays : ValidElements now c.rejection c.mode (c.elements.map (·.delay))

instance (design : Design) (now : ℕ) (c : Call) : Decidable (c.Valid design now) :=
  decidable_of_iff' _ (Call.valid_iff design now c)

/-- The zero-delay shortcut. -/
def Call.Shortcut (c : Call) (s : State) : Prop :=
  c.elements.length = 1 ∧ c.mode = .inertial ∧ c.rejection = 0 ∧ c.firstDelay = 0 ∧
    targetHasPendingTransaction s c = false

instance (c : Call) (s : State) : Decidable (c.Shortcut s) :=
  inferInstanceAs (Decidable (_ ∧ _))

/-- The single-element packed path compares bits, the other one whole scalars. -/
def Call.retainedOld (design : Design) (c : Call) (s : State) : Option (List Bool) :=
  if 1 < c.width ∧ c.elements.length = 1 then none else scalarRetained design s c

theorem scheduleProjectedWaveform_spec (h : Sched (fun _ _ => False) s) {d : Design}
    (hv : c.Valid d s.now) : (c.Shortcut s → scheduleProjectedWaveform d c s =
      .ok (stageUpdateSlice c.process c.signal c.value c.first s)) ∧
    (¬ c.Shortcut s → ∃ s', scheduleProjectedWaveform d c s = .ok s' ∧
      Edits (c.editedBits s.now (c.retainedOld d s) (range c.width)) s s') := by
  obtain ⟨element, rest, hel⟩ : ∃ e rest, c.elements = e :: rest :=
    exists_cons_of_ne_nil (by simpa using hv.delays.nonempty)
  have hw : ¬ (rest.any fun e => decide (e.value.length ≠ c.width)) = true := by
    simp only [any_eq_true, not_exists, decide_eq_true_eq]
    rintro e ⟨he, hn⟩
    exact hn (hv.widths e (hel ▸ mem_cons_of_mem _ he))
  have hr : ¬ (c.width = 0 ∨ c.first > d.width c.signal ∨
      c.width > d.width c.signal - c.first ∨
      (c.offset = none ∧ c.width ≠ d.width c.signal) ∨
      c.first > maxUint32 ∨ c.width > maxUint32 ∨ c.first + c.width > maxUint32) := by
    have hpo := hv.width_pos
    have hr := hv.range
    have hui := hv.uint32
    rintro (h | h | h | ⟨ho, hn⟩ | h | h | h)
    case inr.inr.inr.inl => exact hn (hv.whole ho)
    all_goals omega
  have hsh : c.Shortcut s ↔ rest = [] ∧ c.mode = .inertial ∧ c.rejection = 0 ∧
      element.delay = 0 ∧ targetHasPendingTransaction s c = false := by
    simp [Call.Shortcut, hel, firstDelay]
  have hu : scheduleProjectedWaveform d c s =
      if c.Shortcut s then .ok (stageUpdateSlice c.process c.signal element.value c.first s)
      else if c.width > 1 ∧ rest = [] then schedulePacked c element s
      else scheduleBits c (scalarRetained d s c) (range c.width) s := by
    rw [scheduleProjectedWaveform, hel]
    simp only [if_neg hw, if_neg hr, hsh]
  rw [hu]
  constructor
  · intro hs
    rw [if_pos hs, value, hel]
    rfl
  · intro hs
    rw [if_neg hs, retainedOld]
    by_cases hp : c.width > 1 ∧ rest = []
    · rw [if_pos hp, if_pos ⟨hp.1, by simp [hel, hp.2]⟩]
      exact schedulePacked_spec h (by rw [hel, hp.2]) hv.delays
    · rw [if_neg hp, if_neg (by simpa [hel] using hp)]
      exact scheduleBits_spec h _ nodup_range hv.delays

end FsimRuntime.Projected
