import FsimRuntime.ProjectedCalls
import FsimRuntime.StagedDriver

/-!
# The update phase

The due tasks take the transactions of the current time off their drivers and
stage them, whatever their order, and the commit makes the last staged value of
each bit its driving value.
-/

namespace FsimRuntime.Projected
open List Callback
open Waveform (Transaction Pending)

theorem lastStaged_append (pending : List PendingUpdate) (update : PendingUpdate)
    (key : DriverKey) :
    lastStaged (pending ++ [update]) key = (update.bit key).or (lastStaged pending key) := by
  simp [lastStaged]

structure Matures (named : DriverKey → ℕ → Bool) (s s' : State) : Prop where
  now : s'.now = s.now
  nextId : s'.nextId = s.nextId
  nextSequence : s'.nextSequence = s.nextSequence
  scheduled : s'.scheduled = s.scheduled
  driving : s'.driving = s.driving
  matured : s'.matured = s.matured
  drivers : ∀ key, s'.drivers key = (s.drivers key).filter fun t => !named key t.id
  staged : ∀ key, ∀ t ∈ s.drivers key, named key t.id = true →
    lastStaged s'.pending key = some t.value
  unstaged : ∀ key, (∀ t ∈ s.drivers key, named key t.id = false) →
    lastStaged s'.pending key = lastStaged s.pending key

variable {s s₁ s₂ : State} {queued : List ProjectedTransaction} {key : DriverKey}
  {tasks : List ScheduledTask} {t : ProjectedTransaction}

theorem Matures.refl (s : State) : Matures (fun _ _ => false) s s :=
  ⟨rfl, rfl, rfl, rfl, rfl, rfl, by simp, by simp, by simp⟩

theorem Matures.trans {n₁ named₂ : DriverKey → ℕ → Bool} (h₁ : Matures n₁ s s₁)
    (h₂ : Matures named₂ s₁ s₂)
    (hun : ∀ key, ∀ t ∈ s.drivers key, ∀ u ∈ s.drivers key, n₁ key t.id = true →
      named₂ key u.id = true → t = u) :
    Matures (fun key id => n₁ key id || named₂ key id) s s₂ := by
  have hm : ∀ key t, t ∈ s₁.drivers key ↔ t ∈ s.drivers key ∧
      n₁ key t.id = false := by
    intro key t
    rw [h₁.drivers, mem_filter, Bool.not_eq_true']
  refine ⟨h₂.now.trans h₁.now, h₂.nextId.trans h₁.nextId,
    h₂.nextSequence.trans h₁.nextSequence,
    h₂.scheduled.trans h₁.scheduled, h₂.driving.trans h₁.driving,
    h₂.matured.trans h₁.matured,
    ?_, ?_, ?_⟩
  · intro key
    rw [h₂.drivers, h₁.drivers, filter_filter]
    refine filter_congr fun t _ => ?_
    rw [Bool.not_or, Bool.and_comm]
  · intro key t ht hn
    cases hf : n₁ key t.id with
    | true =>
      rw [h₂.unstaged key, h₁.staged key t ht hf]
      intro u hu
      obtain ⟨hu, hnt⟩ := (hm key u).mp hu
      by_contra hs
      have := hun key t ht u hu hf (by simpa using hs)
      simp [← this, hf] at hnt
    | false =>
      exact h₂.staged key t ((hm key t).mpr ⟨ht, hf⟩) (by simpa [hf] using hn)
  · intro key hno
    have hb : ∀ t ∈ s.drivers key, n₁ key t.id = false ∧ named₂ key t.id = false := by
      simpa using hno
    rw [h₂.unstaged key, h₁.unstaged key fun t ht => (hb t ht).1]
    exact fun t ht => (hb t ((hm key t).mp ht).1).2

theorem eraseP_id_eq_filter (id : ℕ) (h : (queued.map (·.id)).Nodup) :
    (queued.eraseP fun t => t.id = id) = queued.filter fun t => !decide (t.id = id) := by
  induction queued with
  | nil => rfl
  | cons t r ih =>
    obtain ⟨hn, hr⟩ := nodup_cons.mp h
    by_cases ht : t.id = id
    · have ha : r.filter (fun t => !decide (t.id = id)) = r := by
        rw [filter_eq_self]
        intro u hu
        have : u.id ≠ id := fun he => hn (mem_map.mpr ⟨u, hu, he.trans ht.symm⟩)
        simpa using this
      simp [ht, ha]
    · simp [ht, ih hr]

def IdsNodup (s : State) : Prop := ∀ key, ((s.drivers key).map (·.id)).Nodup

theorem Matures.idsNodup {named : DriverKey → ℕ → Bool} (h : Matures named s s₁)
    (hn : IdsNodup s) : IdsNodup s₁ := by
  intro key
  rw [h.drivers]
  exact (hn key).sublist (filter_sublist.map _)

theorem eraseTransaction_drivers (hn : IdsNodup s) (own : DriverKey) (id : ℕ) (key : DriverKey) :
    (eraseTransaction own id s).drivers key =
      (s.drivers key).filter fun t => !decide (key = own ∧ t.id = id) := by
  by_cases hk : key = own
  · subst hk
    simp [eraseTransaction, eraseP_id_eq_filter id (hn key)]
  · simp [eraseTransaction, hk]

theorem bit_single (own key : DriverKey) (value : Logic9) :
    (PendingUpdate.mk own.process own.signal own.offset [value]).bit key =
      if key = own then some value else none := by
  by_cases hk : key = own
  · simp [PendingUpdate.bit, hk]
  · rw [PendingUpdate.bit]
    split
    next h =>
      obtain ⟨hp, hs, hl⟩ := h
      have hn : key.offset ≠ own.offset := fun he =>
        hk (DriverKey.ext hp.symm hs.symm he)
      have hlt : own.offset < key.offset := lt_of_le_of_ne hl hn.symm
      exact getElem?_eq_none (Nat.sub_pos_of_lt hlt)
    next => rfl

theorem stageBit_matures (hnd : IdsNodup s) (own : DriverKey) (id : ℕ) :
    Matures (fun key id' => decide (key = own ∧ id' = id)) s (stageBit own id s) := by
  cases hf : findTransaction s own id with
  | none =>
    have hno : ∀ t ∈ s.drivers own, t.id ≠ id := by simpa [findTransaction] using hf
    have hfi : ∀ key, ∀ t ∈ s.drivers key, ¬ (key = own ∧ t.id = id) := by
      rintro key t ht ⟨rfl, hid⟩
      exact hno t ht hid
    have hs : stageBit own id s = s := by simp [stageBit, hf]
    rw [hs]
    refine ⟨rfl, rfl, rfl, rfl, rfl, rfl, fun key => ?_, fun key t ht hn => ?_, fun _ _ => rfl⟩
    · refine (filter_eq_self.mpr fun t ht => ?_).symm
      rw [decide_eq_false (hfi key t ht)]
      rfl
    · exact absurd (by simpa using hn) (hfi key t ht)
  | some found =>
    have hm : found ∈ s.drivers own := mem_of_find?_eq_some hf
    have hid : found.id = id := by simpa using find?_some hf
    have hs : stageBit own id s = stageUpdateSlice own.process own.signal [found.value]
        own.offset (eraseTransaction own id s) := by simp [stageBit, hf]
    have hp : ∀ key, lastStaged (stageBit own id s).pending key =
        (if key = own then some found.value else none).or (lastStaged s.pending key) := by
      intro key
      rw [hs, ← bit_single]
      exact lastStaged_append _ _ _
    rw [hs] at hp ⊢
    refine ⟨rfl, rfl, rfl, rfl, rfl, rfl, fun key => ?_, fun key t ht hn => ?_,
      fun key hno => ?_⟩
    · exact eraseTransaction_drivers hnd own id key
    · obtain ⟨rfl, ht'⟩ : key = own ∧ t.id = id := by simpa using hn
      rw [hp, inj_on_of_nodup_map (hnd key) ht hm (ht'.trans hid.symm)]
      simp
    · have hk : key ≠ own := by
        rintro rfl
        simpa [hid] using hno found hm
      rw [hp, if_neg hk]
      rfl

def Callback.named (callback : Callback) (key : DriverKey) (id : ℕ) : Bool :=
  decide (callback.target key = some id)

section Group
variable {p signal first : ℕ} {ids : List ℕ} {value : Packed}

theorem group_named_zero (key : DriverKey) (id : ℕ) :
    (Callback.group p signal first 0 ids value).named key id = false := by
  simp [named, target]

theorem group_named_succ (count : ℕ) (key : DriverKey) (id : ℕ) :
    (Callback.group p signal first (count + 1) ids value).named key id =
      ((Callback.group p signal first count ids value).named key id ||
        decide (key = ⟨p, signal, first + count⟩ ∧ id = ids.getD count 0)) := by
  rw [named, named, ← Bool.decide_or]
  simp only [group_target_iff, Nat.exists_lt_succ_right]

theorem foldl_stageBit_matures (hn : IdsNodup s) (count : ℕ) :
    Matures (Callback.group p signal first count ids value).named s ((range count).foldl
        (fun s bit => stageBit ⟨p, signal, first + bit⟩ (ids.getD bit 0) s) s) := by
  induction count with
  | zero =>
    have hno : (group p signal first 0 ids value).named = fun _ _ => false :=
      funext₂ group_named_zero
    rw [hno]
    exact Matures.refl s
  | succ count ih =>
    rw [range_succ, foldl_append]
    have hb := stageBit_matures (ih.idsNodup hn) ⟨p, signal, first + count⟩ (ids.getD count 0)
    have hna : (group p signal first (count + 1) ids value).named =
        fun key id => (group p signal first count ids value).named key id ||
          decide (key = ⟨p, signal, first + count⟩ ∧ id = ids.getD count 0) := by
      funext key id
      exact group_named_succ count key id
    rw [hna]
    refine ih.trans hb fun key t _ u _ ht hu => ?_
    -- The bits of a group are different drivers.
    obtain ⟨rfl, -⟩ := of_decide_eq_true hu
    simp [named, target] at ht

theorem foldl_eraseTransaction_drivers (value : Packed) (hn : IdsNodup s) (count : ℕ) :
    (range count).foldl
        (fun s bit => eraseTransaction ⟨p, signal, first + bit⟩ (ids.getD bit 0) s) s =
      { s with drivers := fun key => (s.drivers key).filter fun t =>
          !(Callback.group p signal first count ids value).named key t.id } := by
  induction count with
  | zero =>
    simp [group_named_zero]
  | succ count ih =>
    have hs : IdsNodup { s with drivers := fun key => (s.drivers key).filter fun t =>
        !(group p signal first count ids value).named key t.id } := fun key =>
      (hn key).sublist (filter_sublist.map _)
    rw [range_succ, foldl_append, ih]
    refine congrArg (fun drivers => { s with drivers := drivers }) (funext fun key => ?_)
    refine (eraseTransaction_drivers hs _ _ key).trans ?_
    rw [filter_filter]
    refine filter_congr fun t _ => ?_
    rw [group_named_succ, Bool.not_or, Bool.and_comm]

end Group

theorem group_bit {p signal first : ℕ} (ids : List ℕ) {value : Packed} :
    (PendingUpdate.mk p signal first value).bit key =
      ((Callback.group p signal first value.length ids value).target key).map fun _ =>
        value.getLogic9 (key.offset - first) := by
  rw [PendingUpdate.bit, target]
  split
  next h =>
    obtain ⟨hp, hs, hl⟩ := h
    by_cases hlt : key.offset - first < value.length
    · rw [if_pos ⟨hp.symm, hs.symm, hl, by omega⟩]
      simp [Packed.getLogic9, hlt]
    · rw [if_neg (by omega), getElem?_eq_none (Nat.le_of_not_lt hlt)]
      rfl
  next h =>
    rw [if_neg]
    · rfl
    · rintro ⟨hp, hs, hl, -⟩
      exact h ⟨hp.symm, hs.symm, hl⟩

theorem Callback.run_matures (hn : IdsNodup s) {callback : Callback} (hwe : callback.WellFormed)
    (hca : ∀ key, ∀ t ∈ s.drivers key, callback.target key = some t.id →
      callback.Carries key t.value) : Matures callback.named s (callback.run s) := by
  cases callback with
  | scalar own id =>
    have hna : (scalar own id).named =
        fun key id' => decide (key = own ∧ id' = id) := by
      funext key id'
      simp [named, target, eq_comm]
    rw [hna]
    exact stageBit_matures hn own id
  | group p signal first width ids value =>
    have hw : value.length = width := hwe
    subst hw
    simp only [run]
    split
    next hc =>
      rw [foldl_eraseTransaction_drivers value hn]
      set drivers := fun key => (s.drivers key).filter fun t =>
        !(group p signal first value.length ids value).named key t.id
      have hp : ∀ key, lastStaged (stageUpdateSlice p signal value first
          { s with drivers := drivers }).pending key =
          (((group p signal first value.length ids value).target key).map
            fun _ => value.getLogic9 (key.offset - first)).or (lastStaged s.pending key) := by
        intro key
        rw [← group_bit]
        exact lastStaged_append _ _ _
      refine ⟨rfl, rfl, rfl, rfl, rfl, rfl, fun _ => rfl, fun key t ht hna => ?_,
        fun key hno => ?_⟩
      · have hta := of_decide_eq_true hna
        rw [hp, hta, ← hca key t ht hta]
        rfl
      · have hta : (group p signal first value.length ids value).target
            key = none := by
          -- A complete group finds a transaction on every bit it covers.
          by_contra hso
          obtain ⟨id, hid⟩ := Option.ne_none_iff_exists'.mp hso
          obtain ⟨bit, hb, rfl, rfl⟩ := group_target_iff.mp hid
          obtain ⟨t, ht⟩ :=
            Option.isSome_iff_exists.mp (all_eq_true.mp hc bit (mem_range.mpr hb))
          have hti : t.id = ids.getD bit 0 := by simpa using find?_some ht
          have hnt := hno t (mem_of_find?_eq_some ht)
          simp [named, hid, hti] at hnt
        rw [hp, hta]
        rfl
    next => exact foldl_stageBit_matures hn value.length

def namedBy (tasks : List ScheduledTask) (key : DriverKey) (id : ℕ) : Bool :=
  tasks.any fun task => task.callback.named key id

theorem namedBy_iff {id : ℕ} :
    namedBy tasks key id = true ↔ ∃ t ∈ tasks, t.callback.target key = some id := by
  simp [namedBy, named]

theorem foldl_run_matures (hno : IdsNodup s)
    (hw : ∀ task ∈ tasks, task.callback.WellFormed)
    (hc : ∀ task ∈ tasks, ∀ key, ∀ t ∈ s.drivers key,
      task.callback.target key = some t.id → task.callback.Carries key t.value)
    (huni : ∀ key, ∀ t ∈ s.drivers key, ∀ u ∈ s.drivers key,
      namedBy tasks key t.id = true → namedBy tasks key u.id = true → t = u) :
    Matures (namedBy tasks) s (tasks.foldl (fun s task => task.callback.run s) s) := by
  induction tasks generalizing s with
  | nil => exact Matures.refl s
  | cons task r ih =>
    obtain ⟨hw, hwr⟩ := forall_mem_cons.mp hw
    obtain ⟨hc, hcr⟩ := forall_mem_cons.mp hc
    have hn : namedBy (task :: r) =
        fun key id => task.callback.named key id || namedBy r key id := rfl
    have hta := run_matures hno hw hc
    have hs : ∀ key t, t ∈ (task.callback.run s).drivers key → t ∈ s.drivers key := by
      intro key t ht
      rw [hta.drivers] at ht
      exact (mem_filter.mp ht).1
    have hr := ih (hta.idsNodup hno) hwr (fun task hta key t ht => hcr task hta key t (hs key t ht))
      (fun key t ht u hu htn hun => huni key t (hs key t ht) u (hs key u hu)
        (by simp [hn, htn]) (by simp [hn, hun]))
    rw [hn] at huni ⊢
    exact hta.trans hr fun key t ht u hu htn hun =>
      huni key t ht u hu (by simp [htn]) (by simp [hun])

def dueValue (s : State) (key : DriverKey) : Option Logic9 :=
  (((s.drivers key).find? fun t => t.time ≤ s.now).map (·.value)).or (lastStaged s.pending key)

def updatedDriving (s : State) (key : DriverKey) : Logic9 := (dueValue s key).getD (s.driving key)

structure Updated (s s' : State) : Prop where
  sched : Sched (fun _ _ => False) s'
  now : s'.now = s.now
  pending : s'.pending = []
  drivers : ∀ key, (s'.drivers key).map (·.strip) =
    ((s.drivers key).map (·.strip)).filter fun t => s.now < t.time
  driving : s'.driving = updatedDriving s
  matured : ∀ d, s'.matured d =
    if (List.range d.width).any fun bit => (dueValue s (d.key bit)).isSome then
      s.matured d ++ [⟨s.now, (List.range d.width).map fun bit => updatedDriving s (d.key bit)⟩]
    else s.matured d

theorem mem_dueTasks {t : ScheduledTask} : t ∈ dueTasks s ↔ t ∈ s.scheduled ∧
    t.time = s.now := by
  rw [dueTasks, mem_insertionSort, mem_filter, decide_eq_true_eq]

theorem namedBy_dueTasks (h : Sched (fun _ _ => False) s) (ht : t ∈ s.drivers key) :
    namedBy (dueTasks s) key t.id = true ↔ t.time = s.now := by
  rw [namedBy_iff]
  constructor
  · rintro ⟨task, hta, htr⟩
    obtain ⟨hta, hti⟩ := mem_dueTasks.mp hta
    exact (h.agree task hta key t ht htr).1.symm.trans hti
  · intro hti
    obtain ⟨task, hta, htr⟩ := h.due key t ht id
    refine ⟨task, mem_dueTasks.mpr ⟨hta, ?_⟩, htr⟩
    exact (h.agree task hta key t ht htr).1.trans hti

def staged (s : State) : State :=
  (dueTasks s).foldl (fun s task => task.callback.run s) s

theorem strip_unique {now : ℕ} (h : Pending now (queued.map (·.strip)))
    {u : ProjectedTransaction}
    (ht : t ∈ queued) (hu : u ∈ queued) (htu : t.time = u.time) : t = u := by
  have ha : (queued.map (·.strip)).Pairwise fun a b => a.time < b.time := h.ascending
  have hn : (queued.map (·.time)).Nodup := by
    rw [List.Nodup, pairwise_map]
    exact (pairwise_map.mp ha).imp fun hab => Nat.ne_of_lt hab
  exact inj_on_of_nodup_map hn ht hu htu

section
variable (h : Sched (fun _ _ => False) s)
include h

section
variable (hp : ∀ key, Pending s.now ((s.drivers key).map (·.strip)))
include hp

theorem staged_matures : Matures (namedBy (dueTasks s)) s (staged s) := by
  refine foldl_run_matures h.nodup (fun task hta => ?_) (fun task hta key t ht htr => ?_)
    fun key t ht u hu htn hun => ?_
  · exact h.wellFormed task (mem_dueTasks.mp hta).1
  · exact (h.agree task (mem_dueTasks.mp hta).1 key t ht htr).2
  · rw [namedBy_dueTasks h ht] at htn
    rw [namedBy_dueTasks h hu] at hun
    exact strip_unique (hp key) ht hu (htn.trans hun.symm)

theorem lastStaged_staged (key : DriverKey) :
    lastStaged (staged s).pending key = dueValue s key := by
  have hm := staged_matures h hp
  have hl : ∀ t ∈ s.drivers key, s.now ≤ t.time := fun t ht =>
    (hp key).le_time t.strip (mem_map_of_mem ht)
  rw [dueValue]
  cases hf : (s.drivers key).find? fun t => t.time ≤ s.now with
  | none =>
    rw [hm.unstaged key fun t ht => ?_]
    · rfl
    · have hlt : s.now < t.time := by simpa using find?_eq_none.mp hf t ht
      rw [Bool.eq_false_iff, Ne, namedBy_dueTasks h ht]
      omega
  | some t =>
    have ht := mem_of_find?_eq_some hf
    have hti : t.time ≤ s.now := by simpa using find?_some hf
    rw [hm.staged key t ht ((namedBy_dueTasks h ht).mpr (le_antisymm hti (hl t ht)))]
    rfl

theorem runUpdatePhase_spec : Updated s (runUpdatePhase s) := by
  have hm := staged_matures h hp
  have hl := lastStaged_staged h hp
  have hd : ∀ key, (staged s).drivers key =
      (s.drivers key).filter fun t => decide (t.time ≠ s.now) := by
    intro key
    rw [hm.drivers]
    refine filter_congr fun t ht => ?_
    rw [Bool.eq_iff_iff, Bool.not_eq_true', Bool.eq_false_iff, Ne, namedBy_dueTasks h ht]
    simp
  have hs : ∀ key t, t ∈ (staged s).drivers key → t ∈ s.drivers key ∧
      t.time ≠ s.now := by
    intro key t ht
    rw [hd] at ht
    simpa using ht
  have hdr : (fun key => (lastStaged (staged s).pending key).getD ((staged s).driving key)) =
      updatedDriving s := by
    funext key
    rw [hl, hm.driving]
    rfl
  have hst : runUpdatePhase s = commitUpdates { staged s with
      scheduled := s.scheduled.filter fun task => task.time ≠ s.now } := rfl
  rw [hst]
  refine ⟨⟨?_, ?_, ?_, ?_, ?_, ?_, ?_, ?_⟩, hm.now, rfl, ?_, hdr, ?_⟩
  · intro key t ht
    exact hm.nextId ▸ h.id_lt key t (hs key t ht).1
  · intro key
    exact hm.idsNodup h.nodup key
  · intro task hta key id hid
    exact hm.nextId ▸ h.target_lt task (mem_filter.mp hta).1 key id hid
  · intro task hta
    exact h.wellFormed task (mem_filter.mp hta).1
  · intro task hta key t ht htr
    exact h.agree task (mem_filter.mp hta).1 key t (hs key t ht).1 htr
  · intro key t ht _
    obtain ⟨ht, hne⟩ := hs key t ht
    obtain ⟨task, hta, htr⟩ := h.due key t ht id
    refine ⟨task, mem_filter.mpr ⟨hta, ?_⟩, htr⟩
    simpa [(h.agree task hta key t ht htr).1] using hne
  · intro task hta
    exact hm.nextSequence ▸ h.sequence_lt task (mem_filter.mp hta).1
  · intro key t ht n hn
    obtain ⟨hlt, hc⟩ := h.handle key t (hs key t ht).1 n hn
    exact ⟨hm.nextSequence ▸ hlt, fun task hta => hc task (mem_filter.mp hta).1⟩
  · intro key
    change ((staged s).drivers key).map (·.strip) = _
    rw [hd, filter_map]
    refine congrArg (map _) (filter_congr fun t ht => ?_)
    have hle := (hp key).le_time t.strip (mem_map_of_mem ht)
    have hif : t.time ≠ s.now ↔ s.now < t.time := by
      simp only [ProjectedTransaction.strip] at hle
      omega
    exact decide_eq_decide.mpr hif
  · intro d
    have ha : ((range d.width).any fun bit =>
        (lastStaged (staged s).pending (d.key bit)).isSome) =
        (range d.width).any fun bit => (dueValue s (d.key bit)).isSome := by simp only [hl]
    have hv : ∀ key, (lastStaged (staged s).pending key).getD ((staged s).driving key) =
        updatedDriving s key := congrFun hdr
    simp only [commitUpdates, hv, ha, hm.now, hm.matured]

end

end

end FsimRuntime.Projected
