import FsimRuntime.Waveform

/-!
# Drivers with a staged value

A driver may stage a value for the coming update phase next to its projected
waveform, instead of projecting a transaction for the current time. The staged
value stands for a transaction that nothing edits any more, so the two designs
agree only as long as no later assignment of the same time would have rejected
that transaction.
-/

namespace FsimRuntime.Waveform
open List
variable {α : Type*}

structure StagedDriver (α : Type*) where
  waveform : List (Transaction α)
  staged : Option α
  driving : α
  matured : List (Transaction α)

def StagedDriver.projected (now : ℕ) (d : StagedDriver α) : List (Transaction α) :=
  if d.waveform.head?.any fun t => t.time = now then d.waveform
  else d.staged.toList.map (fun v => ⟨now, v⟩) ++ d.waveform

def StagedDriver.due (now : ℕ) (d : StagedDriver α) : Option α :=
  ((d.waveform.find? fun t => t.time ≤ now).map (·.value)).or d.staged

def StagedDriver.stage (value : α) (d : StagedDriver α) : StagedDriver α :=
  { d with staged := some value }

def StagedDriver.assign [DecidableEq α] (mode : DelayMode) (rejection : ℕ)
    (new : List (Transaction α)) (d : StagedDriver α) : StagedDriver α :=
  { d with waveform := edit mode rejection d.waveform new }

def StagedDriver.update (now : ℕ) (d : StagedDriver α) : StagedDriver α where
  waveform := d.waveform.filter fun t => now < t.time
  staged := none
  driving := (d.due now).getD d.driving
  matured := d.matured ++ (d.due now).toList.map fun v => ⟨now, v⟩

structure Pending (now : ℕ) (w : List (Transaction α)) : Prop where
  ascending : Ascending w
  le_time : ∀ t ∈ w, now ≤ t.time

theorem Pending.nil (now : ℕ) : Pending now ([] : List (Transaction α)) :=
  ⟨List.Pairwise.nil, by simp⟩

variable {w : List (Transaction α)} {now : ℕ} {d : StagedDriver α} {t first : Transaction α}
  {rest : List (Transaction α)}

theorem Pending.sublist {w' : List (Transaction α)} (h : Pending now w)
    (hs : w'.Sublist w) : Pending now w' :=
  ⟨h.ascending.sublist hs, fun t ht => h.le_time t (hs.subset ht)⟩

theorem Pending.lt_of_mem_tail (h : Pending now (t :: w)) : ∀ u ∈ w, now < u.time := by
  intro u hu
  have hl := h.le_time t mem_cons_self
  have hlt := (pairwise_cons.mp h.ascending).1 u hu
  omega

theorem Pending.append {kept : List (Transaction α)}
    (hw : Pending now w) (hn : Pending now (first :: rest))
    (hk : kept.Sublist (live first.time w)) : Pending now (kept ++ first :: rest) := by
  have hp := hw.sublist (hk.trans (live_sublist _ _))
  refine ⟨pairwise_append.mpr ⟨hp.ascending, hn.ascending, ?_⟩, ?_⟩
  · intro a ha b hb
    have hl : a.time < first.time := by simpa [live] using (mem_filter.mp (hk.subset ha)).2
    rcases mem_cons.mp hb with rfl | hb
    · exact hl
    · have := (pairwise_cons.mp hn.ascending).1 b hb
      omega
  · intro t ht
    rcases mem_append.mp ht with ht | ht
    · exact hp.le_time t ht
    · exact hn.le_time t ht

structure Accepted (now rejection : ℕ) (mode : DelayMode) (new : List (Transaction α)) :
    Prop where
  pending : Pending now new
  nonempty : new ≠ []
  rejection_le : mode = .inertial → ∀ t ∈ new.head?, now + rejection ≤ t.time

theorem StagedDriver.projected_of_unstaged
    (h : d.staged = none) : d.projected now = d.waveform := by simp [StagedDriver.projected, h]

theorem StagedDriver.projected_of_head
    (h : d.waveform.head? = some t) (ht : t.time = now) : d.projected now = d.waveform := by
  simp [StagedDriver.projected, h, ht]

theorem StagedDriver.projected_of_lt (h : ∀ t ∈ d.waveform, now < t.time) :
    d.projected now = d.staged.toList.map (fun v => ⟨now, v⟩) ++ d.waveform := by
  rw [StagedDriver.projected, if_neg]
  rw [Option.any_eq_true]
  rintro ⟨t, ht, he⟩
  have hl := h t (mem_of_mem_head? ht)
  simp only [decide_eq_true_eq] at he
  omega

theorem Pending.cases (h : Pending now w) : (∀ t ∈ w, now < t.time) ∨
      ∃ t rest, w = t :: rest ∧ t.time = now ∧ ∀ u ∈ rest, now < u.time := by
  cases w with
  | nil => exact .inl (by simp)
  | cons t rest =>
    have hr := h.lt_of_mem_tail
    rcases (h.le_time t mem_cons_self).eq_or_lt with he | hl
    · exact .inr ⟨t, rest, rfl, he.symm, hr⟩
    · exact .inl (forall_mem_cons.mpr ⟨hl, hr⟩)

theorem StagedDriver.projected_pending
    (h : Pending now d.waveform) : Pending now (d.projected now) := by
  rcases h.cases with hl | ⟨t, rest, hw, ht, -⟩
  · rw [d.projected_of_lt hl]
    cases d.staged with
    | none => simpa using h
    | some v =>
      refine ⟨pairwise_cons.mpr ⟨hl, h.ascending⟩, ?_⟩
      exact forall_mem_cons.mpr ⟨le_rfl, h.le_time⟩
  · rw [d.projected_of_head (by rw [hw]; rfl) ht]
    exact h

variable [DecidableEq α]

variable {new w : List (Transaction α)} {r now : ℕ} {m : DelayMode} {d : StagedDriver α}
  {P : α → Prop} {i : Driver α}

theorem Pending.edit (hw : Pending now w) (hn : Pending now new) :
    Pending now (edit m r w new) := by
  cases new with
  | nil => exact hw
  | cons first rest =>
    cases m with
    | transport => exact hw.append hn (List.Sublist.refl _)
    | inertial => exact hw.append hn (retained_sublist _ _ _)

theorem mem_edit (ht : t ∈ edit m r w new) : t ∈ w ∨ t ∈ new := by
  cases new with
  | nil => exact .inl ht
  | cons first rest =>
    cases m with
    | transport =>
      exact (mem_append.mp ht).imp_left fun h => (live_sublist _ _).subset h
    | inertial =>
      exact (mem_append.mp ht).imp_left fun h =>
        ((retained_sublist _ _ _).trans (live_sublist _ _)).subset h

/-- The rejection limit reaches back to the current time while a value is
staged: every transaction before the new ones must then have the new value. -/
def StagedDriver.Keeps (now rejection : ℕ) (mode : DelayMode) (new : List (Transaction α))
    (d : StagedDriver α) : Prop :=
  ∀ first ∈ new.head?, mode = .inertial → d.staged ≠ none →
    first.time = now + rejection →
    ∀ t ∈ live first.time (d.projected now), t.value = first.value

instance (now rejection : ℕ) (mode : DelayMode) (new : List (Transaction α))
    (d : StagedDriver α) : Decidable (d.Keeps now rejection mode new) :=
  inferInstanceAs (Decidable (∀ first ∈ new.head?, mode = .inertial → d.staged ≠ none →
    first.time = now + rejection → ∀ t ∈ live first.time (d.projected now),
    t.value = first.value))

structure Simulates (now : ℕ) (d : StagedDriver α) (i : Driver α) : Prop where
  pending : Pending now d.waveform
  waveform : i.waveform = d.projected now
  matured : i.matured = d.matured

structure StagedDriver.Holds (P : α → Prop) (d : StagedDriver α) : Prop where
  waveform : ∀ t ∈ d.waveform, P t.value
  staged : ∀ v ∈ d.staged, P v
  driving : P d.driving

omit [DecidableEq α] in
theorem StagedDriver.Holds.stage (h : d.Holds P) {v : α} (hv : P v) : (d.stage v).Holds P :=
  { h with staged := by simpa [StagedDriver.stage] using hv }

theorem StagedDriver.Holds.assign (h : d.Holds P) (m : DelayMode) (r : ℕ)
    (hn : ∀ t ∈ new, P t.value) : (d.assign m r new).Holds P :=
  { h with waveform := fun t ht => (mem_edit ht).elim (h.waveform t) (hn t) }

omit [DecidableEq α] in
theorem StagedDriver.Holds.update (h : d.Holds P) (now : ℕ) : (d.update now).Holds P := by
  refine ⟨fun t ht => h.waveform t (mem_filter.mp ht).1, by simp [StagedDriver.update], ?_⟩
  simp only [StagedDriver.update, StagedDriver.due]
  cases hf : d.waveform.find? fun t => t.time ≤ now with
  | some t => exact h.waveform t (mem_of_find?_eq_some hf)
  | none =>
    cases hs : d.staged with
    | some v => exact h.staged v hs
    | none => exact h.driving

theorem edit_cons_of_kept (hw : Pending now (t :: w)) (ht : t.time = now)
    (hf : now < first.time) (hk : m = .inertial → now + r < first.time ∨
      ∀ u ∈ live first.time (t :: w), u.value = first.value) :
        edit m r (t :: w) (first :: rest) =
      t :: edit m r w (first :: rest) := by
  have hl : live first.time (t :: w) = t :: live first.time w := by simp [live, ht, hf]
  cases m with
  | transport => simp [edit, hl]
  | inertial =>
    have ha : Ascending (t :: live first.time w) :=
      hl ▸ hw.ascending.sublist (live_sublist _ _)
    have hm : marked (first.time - r) (t :: live first.time w) first = true := by
      rw [marked_cons_iff ha, ← hl]
      refine (hk rfl).imp_left fun hlt => ?_
      omega
    simp [edit, hl, retained, hm]

section
variable (h : Simulates now d i)
include h

theorem Simulates.stage (hw : d.waveform = []) (v : α) :
    Simulates now (d.stage v) (i.assign .inertial 0 [⟨now, v⟩]) := by
  have hl : live now (d.projected now) = [] :=
    live_of_forall_le (d.projected_pending h.pending).le_time
  refine { h with waveform := ?_ }
  have he : edit .inertial 0 (d.projected now) [⟨now, v⟩] = [⟨now, v⟩] := by
    simp [edit, hl, retained]
  rw [Driver.assign, h.waveform, he]
  simp [StagedDriver.stage, StagedDriver.projected, hw]

theorem Simulates.assign (hn : Accepted now r m new)
    (hke : d.Keeps now r m new) : Simulates now (d.assign m r new) (i.assign m r new) := by
  refine ⟨h.pending.edit hn.pending, ?_, h.matured⟩
  obtain ⟨first, rest, rfl⟩ := exists_cons_of_ne_nil hn.nonempty
  simp only [Driver.assign, h.waveform]
  have hp := d.projected_pending h.pending
  rcases (hn.pending.le_time first mem_cons_self).eq_or_lt with heq | hl
  · -- A new transaction for the current time replaces everything.
    have he : ∀ w, Pending now w → edit m r w (first :: rest) = first :: rest := by
      intro w hw
      have hli : live first.time w = [] := live_of_forall_le (heq ▸ hw.le_time)
      cases m <;> simp [edit, hli, retained]
    rw [he _ hp, StagedDriver.projected_of_head (t := first), StagedDriver.assign, he _ h.pending]
    · simp [StagedDriver.assign, he _ h.pending]
    · exact heq.symm
  · cases hs : d.staged with
    | none =>
      rw [d.projected_of_unstaged hs, StagedDriver.projected_of_unstaged (by exact hs)]
      rfl
    | some v =>
      have hk : m = .inertial → now + r < first.time ∨
          ∀ u ∈ live first.time (d.projected now), u.value = first.value := by
        intro hm
        rcases (hn.rejection_le hm first rfl).eq_or_lt with heq | hl
        · exact .inr (hke first rfl hm (by simp [hs]) heq.symm)
        · exact .inl hl
      rcases h.pending.cases with hw | ⟨t, w, hw, ht, hr⟩
      · rw [d.projected_of_lt hw] at hp hk ⊢
        simp only [hs, Option.toList_some, map_cons, map_nil, singleton_append] at hp hk ⊢
        rw [edit_cons_of_kept hp rfl hl hk, StagedDriver.projected_of_lt]
        · simp [StagedDriver.assign, hs]
        · have he : Pending (now + 1) (edit m r d.waveform (first :: rest)) := by
            refine Pending.edit ⟨h.pending.ascending, hw⟩ ⟨hn.pending.ascending, ?_⟩
            exact forall_mem_cons.mpr ⟨hl, fun u hu =>
              hl.trans ((pairwise_cons.mp hn.pending.ascending).1 u hu)⟩
          exact he.le_time
      · rw [d.projected_of_head (by rw [hw]; rfl) ht] at hp hk ⊢
        rw [hw] at hp hk
        have he : edit m r (t :: w) (first :: rest) =
            t :: edit m r w (first :: rest) :=
          edit_cons_of_kept hp ht hl hk
        rw [StagedDriver.projected_of_head (t := t) _ ht]
        · rfl
        · simp [StagedDriver.assign, hw, he]

omit [DecidableEq α] in
theorem Simulates.update : Simulates now (d.update now) (i.update now) := by
  suffices hf : (d.projected now).filter (fun t => now < t.time) =
        d.waveform.filter (fun t => now < t.time) ∧
      (d.projected now).filter (fun t => t.time ≤ now) =
        (d.due now).toList.map fun v => ⟨now, v⟩ by
    refine ⟨h.pending.sublist filter_sublist, ?_, ?_⟩
    · rw [StagedDriver.projected_of_unstaged rfl, Driver.update, h.waveform]
      exact hf.1
    · rw [Driver.update, h.waveform, h.matured, hf.2]
      rfl
  rcases h.pending.cases with hl | ⟨t, w, hw, ht, hl⟩
  · have hla : d.waveform.filter (fun t => t.time ≤ now) = [] := by simpa using hl
    have hfi : d.waveform.find? (fun t => t.time ≤ now) = none := by simpa using hl
    rw [d.projected_of_lt hl, StagedDriver.due, hfi]
    cases d.staged <;> simp [hla]
  · have hla : w.filter (fun t => t.time ≤ now) = [] := by simpa using hl
    rw [d.projected_of_head (by rw [hw]; rfl) ht, StagedDriver.due, hw]
    cases t
    simp_all

omit [DecidableEq α] in
theorem Simulates.advance {time : ℕ} (hs : d.staged = none)
    (ht : ∀ t ∈ d.waveform, time ≤ t.time) : Simulates time d i := by
  refine ⟨⟨h.pending.ascending, ht⟩, ?_, h.matured⟩
  rw [h.waveform, d.projected_of_unstaged hs, d.projected_of_unstaged hs]

end

end FsimRuntime.Waveform
