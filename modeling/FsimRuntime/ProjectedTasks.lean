import FsimRuntime.ProjectedEditing

/-!
# Transactions and their tasks

Every pending transaction is named by a scheduled task of the same time, and a
handle only ever cancels the task of its own transaction. While a call edits a
driver, its new transactions are orphans that no task names yet.
-/

namespace FsimRuntime.Projected
open List Function
open Waveform (Transaction DelayMode keep)

def Callback.target (callback : Callback) (key : DriverKey) : Option ℕ :=
  match callback with
  | .scalar own id => if key = own then some id else none
  | .group process signal first width ids _ =>
    if key.process = process ∧ key.signal = signal ∧ first ≤ key.offset ∧
        key.offset < first + width then
      some (ids.getD (key.offset - first) 0)
    else none

def Callback.WellFormed : Callback → Prop
  | .scalar _ _ => True
  | .group _ _ _ width _ value => value.length = width

def Callback.Carries (key : DriverKey) (value : Logic9) : Callback → Prop
  | .scalar _ _ => True
  | .group _ _ first _ _ packed => packed.getLogic9 (key.offset - first) = value

theorem Callback.group_target_iff {p signal first width id : ℕ} {ids : List ℕ} {value : Packed}
    {key : DriverKey} : (group p signal first width ids value).target key = some id ↔
      ∃ bit < width, key = ⟨p, signal, first + bit⟩ ∧ id = ids.getD bit 0 := by
  rw [target]
  constructor
  · intro h
    split_ifs at h with hr
    obtain ⟨rfl, rfl, hl, hlt⟩ := hr
    exact ⟨key.offset - first, by omega, DriverKey.ext rfl rfl (Nat.add_sub_cancel' hl).symm,
      (Option.some.inj h).symm⟩
  · rintro ⟨bit, hb, rfl, rfl⟩
    simp [hb]

structure Sched (orphan : DriverKey → ℕ → Prop) (s : State) : Prop where
  id_lt : ∀ key, ∀ t ∈ s.drivers key, t.id < s.nextId
  nodup : ∀ key, ((s.drivers key).map (·.id)).Nodup
  target_lt : ∀ task ∈ s.scheduled, ∀ key id, task.callback.target key = some id →
    id < s.nextId
  wellFormed : ∀ task ∈ s.scheduled, task.callback.WellFormed
  agree : ∀ task ∈ s.scheduled, ∀ key, ∀ t ∈ s.drivers key,
    task.callback.target key = some t.id → task.time = t.time ∧
    task.callback.Carries key t.value
  due : ∀ key, ∀ t ∈ s.drivers key, ¬ orphan key t.id →
    ∃ task ∈ s.scheduled, task.callback.target key = some t.id
  sequence_lt : ∀ task ∈ s.scheduled, task.sequence < s.nextSequence
  handle : ∀ key, ∀ t ∈ s.drivers key, ∀ n ∈ t.handle, n < s.nextSequence ∧
    ∀ task ∈ s.scheduled, task.sequence = n → task.callback = .scalar key t.id

theorem mem_cancelAll {handles : List (Option ℕ)} {tasks : List ScheduledTask}
    {t : ScheduledTask} : t ∈ cancelAll handles tasks ↔ t ∈ tasks ∧
      some t.sequence ∉ handles := by
  induction handles generalizing tasks with
  | nil => simp [cancelAll]
  | cons handle handles ih =>
    have hc : cancelAll (handle :: handles) tasks = cancelAll handles (cancel handle tasks) := rfl
    rw [hc, ih]
    cases handle with
    | none => simp [cancel]
    | some n =>
      simp only [cancel, mem_filter, mem_cons, Option.some.injEq, decide_eq_true_eq]
      tauto

variable {s : State} {o : DriverKey → ℕ → Prop}

theorem Sched.mono (h : Sched o s) {o' : DriverKey → ℕ → Prop}
    (hs : ∀ key, ∀ t ∈ s.drivers key, o key t.id → o' key t.id) : Sched o' s :=
  { h with due := fun key t ht ho => h.due key t ht fun h' => ho (hs key t ht h') }

theorem Sched.edit (h : Sched o s) (key : DriverKey) (kept new : List ProjectedTransaction)
    (handles : List (Option ℕ)) (hke : kept.Sublist (s.drivers key))
    (hno : (new.map (·.id)).Nodup)
    (hnw : ∀ t ∈ new, s.nextId ≤ t.id ∧ t.id < s.nextId + new.length ∧ t.handle = none)
    (hh : ∀ handle ∈ handles, ∃ t ∈ s.drivers key, t.handle = handle ∧
      ∀ u ∈ kept, u.id ≠ t.id) :
    Sched (fun k id => o k id ∨ k = key ∧ s.nextId ≤ id)
      { s with
        drivers := update s.drivers key (kept ++ new)
        nextId := s.nextId + new.length
        scheduled := cancelAll handles s.scheduled } := by
  have hm : ∀ k t, t ∈ update s.drivers key (kept ++ new) k →
      t ∈ s.drivers k ∧ (k = key → t ∈ kept) ∨ k = key ∧ t ∈ new := by
    intro k t ht
    by_cases hk : k = key
    · subst hk
      rw [update_self] at ht
      rcases mem_append.mp ht with ht | ht
      · exact .inl ⟨hke.subset ht, fun _ => ht⟩
      · exact .inr ⟨rfl, ht⟩
    · rw [update_of_ne hk] at ht
      exact .inl ⟨ht, fun he => absurd he hk⟩
  refine ⟨?_, ?_, ?_, ?_, ?_, ?_, ?_, ?_⟩
  · intro k t ht
    rcases hm k t ht with ⟨ht, -⟩ | ⟨-, ht⟩
    · exact (h.id_lt k t ht).trans_le (Nat.le_add_right _ _)
    · exact (hnw t ht).2.1
  · intro k
    by_cases hk : k = key
    · subst hk
      simp only [update_self, map_append]
      refine nodup_append.mpr ⟨(h.nodup k).sublist (hke.map _), hno, ?_⟩
      intro a ha b hb
      obtain ⟨t, ht, rfl⟩ := mem_map.mp ha
      obtain ⟨u, hu, rfl⟩ := mem_map.mp hb
      have := h.id_lt k t (hke.subset ht)
      have := (hnw u hu).1
      omega
    · simpa [update_of_ne hk] using h.nodup k
  · intro task hta k id htr
    exact (h.target_lt task (mem_cancelAll.mp hta).1 k id htr).trans_le (Nat.le_add_right _ _)
  · intro task hta
    exact h.wellFormed task (mem_cancelAll.mp hta).1
  · intro task hta k t ht htr
    have hta := (mem_cancelAll.mp hta).1
    rcases hm k t ht with ⟨ht, -⟩ | ⟨-, ht⟩
    · exact h.agree task hta k t ht htr
    · have := h.target_lt task hta k t.id htr
      have := (hnw t ht).1
      omega
  · intro k t ht hor
    rcases hm k t ht with ⟨ht, hk⟩ | ⟨hk, ht⟩
    · obtain ⟨task, hta, htr⟩ := h.due k t ht fun ho => hor (.inl ho)
      refine ⟨task, mem_cancelAll.mpr ⟨hta, fun hca => ?_⟩, htr⟩
      -- A cancelled task belongs to a transaction that was not kept.
      obtain ⟨u, hu, hha, hne⟩ := hh _ hca
      have hc := (h.handle key u hu task.sequence (by simp [hha])).2 task hta rfl
      rw [hc, Callback.target] at htr
      split at htr
      next hky => exact hne t (hk hky) (Option.some.inj htr.symm)
      next => cases htr
    · exact absurd (.inr ⟨hk, (hnw t ht).1⟩) hor
  · intro task hta
    exact h.sequence_lt task (mem_cancelAll.mp hta).1
  · intro k t ht n hn
    rcases hm k t ht with ⟨ht, -⟩ | ⟨-, ht⟩
    · obtain ⟨hl, hc⟩ := h.handle k t ht n hn
      exact ⟨hl, fun task hta => hc task (mem_cancelAll.mp hta).1⟩
    · simp [(hnw t ht).2.2] at hn

theorem Sched.schedule (h : Sched o s) (time order : ℕ) (callback : Callback)
    (hl : ∀ key id, callback.target key = some id → id < s.nextId) (hw : callback.WellFormed)
    (ha : ∀ key, ∀ t ∈ s.drivers key, callback.target key = some t.id →
      time = t.time ∧ callback.Carries key t.value) :
    Sched (fun k id => o k id ∧ callback.target k ≠ some id)
      { s with
        scheduled := s.scheduled ++ [⟨s.nextSequence, time, order, callback⟩]
        nextSequence := s.nextSequence + 1 } := by
  refine ⟨h.id_lt, h.nodup, ?_, ?_, ?_, ?_, ?_, ?_⟩
  · simp only [forall_mem_append, forall_mem_singleton]
    exact ⟨h.target_lt, hl⟩
  · simp only [forall_mem_append, forall_mem_singleton]
    exact ⟨h.wellFormed, hw⟩
  · simp only [forall_mem_append, forall_mem_singleton]
    exact ⟨h.agree, ha⟩
  · intro key t ht hor
    by_cases hta : callback.target key = some t.id
    · exact ⟨_, mem_append_right _ mem_cons_self, hta⟩
    · obtain ⟨task, hts, how⟩ := h.due key t ht fun ho => hor ⟨ho, hta⟩
      exact ⟨task, mem_append_left _ hts, how⟩
  · simp only [forall_mem_append, forall_mem_singleton]
    exact ⟨fun task hts => (h.sequence_lt task hts).trans (Nat.lt_succ_self _),
      Nat.lt_succ_self _⟩
  · intro key t ht n hn
    obtain ⟨hl, hc⟩ := h.handle key t ht n hn
    refine ⟨hl.trans (Nat.lt_succ_self _), ?_⟩
    simp only [forall_mem_append, forall_mem_singleton]
    exact ⟨hc, fun he => absurd he hl.ne'⟩

def setHandle (id n : ℕ) (t : ProjectedTransaction) : ProjectedTransaction :=
  if t.id = id then { t with handle := some n } else t

section
variable (id n : ℕ) (t : ProjectedTransaction)
include id n t

theorem setHandle_id : (setHandle id n t).id = t.id := by
  unfold setHandle
  split <;> rfl

theorem setHandle_strip : (setHandle id n t).strip = t.strip := by
  unfold setHandle
  split <;> rfl

theorem setHandle_handle :
    (setHandle id n t).handle = t.handle ∨ t.id = id ∧ (setHandle id n t).handle = some n := by
  unfold setHandle
  split
  next h => exact .inr ⟨h, rfl⟩
  next => exact .inl rfl

end

theorem Sched.arm (h : Sched o s) {key : DriverKey} {t : ProjectedTransaction}
    (ht : t ∈ s.drivers key) (order : ℕ) :
    Sched (fun k id => o k id ∧ ¬ (k = key ∧ id = t.id)) { s with
      drivers := update s.drivers key ((s.drivers key).map (setHandle t.id s.nextSequence))
      scheduled := s.scheduled ++ [⟨s.nextSequence, t.time, order, .scalar key t.id⟩]
      nextSequence := s.nextSequence + 1 } := by
  have hta : ∀ k id, (Callback.scalar key t.id).target k = some id ↔ k = key ∧ t.id = id := by
    simp [Callback.target]
  have how : ∀ k, ∀ u ∈ s.drivers k, (Callback.scalar key t.id).target k = some u.id →
      t.time = u.time ∧ (Callback.scalar key t.id).Carries k u.value := by
    intro k u hu hk
    obtain ⟨rfl, hid⟩ := (hta k u.id).mp hk
    rw [inj_on_of_nodup_map (h.nodup k) ht hu hid]
    exact ⟨rfl, trivial⟩
  have hl : ∀ k id, (Callback.scalar key t.id).target k = some id → id < s.nextId := by
    intro k id hk
    obtain ⟨rfl, rfl⟩ := (hta k id).mp hk
    exact h.id_lt k t ht
  have hs := h.schedule t.time order (.scalar key t.id) hl trivial how
  have hm : ∀ k u, u ∈ update s.drivers key
      ((s.drivers key).map (setHandle t.id s.nextSequence)) k →
      ∃ v ∈ s.drivers k, u.id = v.id ∧ u.strip = v.strip ∧
        (u.handle = v.handle ∨ k = key ∧ v.id = t.id ∧ u.handle = some s.nextSequence) := by
    intro k u hu
    by_cases hk : k = key
    · subst hk
      rw [update_self] at hu
      obtain ⟨v, hv, rfl⟩ := mem_map.mp hu
      exact ⟨v, hv, setHandle_id _ _ _, setHandle_strip _ _ _,
        (setHandle_handle _ _ v).imp_right fun hh => ⟨rfl, hh⟩⟩
    · rw [update_of_ne hk] at hu
      exact ⟨u, hu, rfl, rfl, .inl rfl⟩
  refine ⟨?_, ?_, hs.target_lt, hs.wellFormed, ?_, ?_, hs.sequence_lt, ?_⟩
  · intro k u hu
    obtain ⟨v, hv, hid, -⟩ := hm k u hu
    rw [hid]
    exact h.id_lt k v hv
  · intro k
    by_cases hk : k = key
    · subst hk
      simp only [update_self, map_map, comp_def, setHandle_id]
      exact h.nodup k
    · simpa [update_of_ne hk] using h.nodup k
  · intro task hts k u hu hk
    obtain ⟨v, hv, hid, hst, -⟩ := hm k u hu
    obtain ⟨hti, hva⟩ := Transaction.mk.inj hst
    rw [hti, hva]
    exact hs.agree task hts k v hv (hid ▸ hk)
  · intro k u hu hor
    obtain ⟨v, hv, hid, -⟩ := hm k u hu
    rw [hid] at hor ⊢
    refine hs.due k v hv fun ho => hor ⟨ho.1, fun ⟨hk, hv⟩ => ho.2 ?_⟩
    exact (hta k v.id).mpr ⟨hk, hv.symm⟩
  · intro k u hu n hn
    obtain ⟨v, hv, hid, -, hha⟩ := hm k u hu
    rw [hid]
    rcases hha with hha | ⟨rfl, hv, hha⟩
    · exact hs.handle k v hv n (hha ▸ hn)
    · rw [hha, Option.mem_some_iff] at hn
      subst hn
      refine ⟨Nat.lt_succ_self _, ?_⟩
      simp only [forall_mem_append, forall_mem_singleton]
      refine ⟨fun task hts he => absurd he (h.sequence_lt task hts).ne, fun _ => ?_⟩
      rw [hv]

def State.armed (s : State) (key : DriverKey)
    (result : List ProjectedTransaction × List ScheduledTask × ℕ) : State :=
  { s with
    drivers := Function.update s.drivers key result.1
    scheduled := result.2.1
    nextSequence := result.2.2 }

theorem armTransactions_spec (h : Sched o s) (key : DriverKey) (new : List ProjectedTransaction)
    (hn : ∀ t ∈ new, ∃ u ∈ s.drivers key, u.id = t.id ∧ u.time = t.time) :
    ∃ result, armTransactions key new
      (s.drivers key, s.scheduled, s.nextSequence) = .ok result ∧
      Sched (fun k id => o k id ∧ ¬ (k = key ∧ id ∈ new.map (·.id)))
      (s.armed key result) ∧
      result.1.map (·.strip) = (s.drivers key).map (·.strip) ∧
      result.1.map (·.id) = (s.drivers key).map (·.id) := by
  induction new generalizing s o with
  | nil =>
    refine ⟨_, rfl, ?_, rfl, rfl⟩
    simpa [State.armed] using h
  | cons t r ih =>
    obtain ⟨u, hu, hid, ht⟩ := hn t mem_cons_self
    have ha := h.arm hu key.process
    obtain ⟨result, hok, hs, hst, hids⟩ := ih ha (by
      intro v hv
      obtain ⟨w, hw, hwi, hwt⟩ := hn v (mem_cons_of_mem _ hv)
      refine ⟨setHandle u.id s.nextSequence w, ?_, ?_, ?_⟩
      · simpa [update_self] using mem_map_of_mem hw
      · rw [setHandle_id, hwi]
      · rw [← hwt]
        exact congrArg Transaction.time (setHandle_strip _ _ w))
    refine ⟨result, ?_, ?_, ?_, ?_⟩
    · rw [armTransactions, if_pos (any_eq_true.mpr ⟨u, hu, by simpa using hid⟩)]
      simp only [update_self, hid, ht] at hok
      exact hok
    · simp only [State.armed, update_idem] at hs
      refine hs.mono fun k v _ ⟨⟨ho, hne⟩, hr⟩ => ⟨ho, fun ⟨hk, hv⟩ => ?_⟩
      rcases mem_cons.mp hv with hv | hv
      · exact hne ⟨hk, hv.trans hid.symm⟩
      · exact hr ⟨hk, hv⟩
    · rw [hst]
      simp [update_self, map_map, comp_def, setHandle_strip]
    · rw [hids]
      simp [update_self, map_map, comp_def, setHandle_id]

end FsimRuntime.Projected
