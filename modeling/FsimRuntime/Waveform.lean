import Mathlib

/-!
# Projected waveforms of one scalar driver

The editing rule for projected waveforms, over an arbitrary value type.
An assignment deletes the old transactions at or after its first new time and
appends the new ones. In inertial mode an old transaction also has to be
marked: it is earlier than the first new time by more than the rejection
limit, or it immediately precedes a marked transaction of the same value.
A driver is driven by assignments and by update phases, which take out the
transactions whose time has come.
-/

namespace FsimRuntime.Waveform
open List

@[ext]
structure Transaction (α : Type*) where
  time : ℕ
  value : α
  deriving DecidableEq, Repr

inductive DelayMode
  | transport
  | inertial
  deriving DecidableEq, Repr

variable {α : Type*} [DecidableEq α]

def marked (threshold : ℕ) : List (Transaction α) → Transaction α → Bool
  | [], _ => true
  | t :: rest, next =>
    decide (t.time < threshold) ||
      (marked threshold rest next && decide (t.value = (rest.head?.getD next).value))

def retained (threshold : ℕ) : List (Transaction α) → Transaction α → List (Transaction α)
  | [], _ => []
  | t :: rest, next =>
    if marked threshold (t :: rest) next then t :: retained threshold rest next
    else retained threshold rest next

def live (firstTime : ℕ) (old : List (Transaction α)) : List (Transaction α) :=
  old.filter fun t => t.time < firstTime

def edit (mode : DelayMode) (rejection : ℕ) (old new : List (Transaction α)) :
    List (Transaction α) :=
  match new with
  | [] => old
  | first :: _ =>
    match mode with
    | .transport => live first.time old ++ new
    | .inertial => retained (first.time - rejection) (live first.time old) first ++ new

structure Driver (α : Type*) where
  waveform : List (Transaction α)
  matured : List (Transaction α)

def Driver.idle : Driver α := ⟨[], []⟩

def Driver.assign (mode : DelayMode) (rejection : ℕ) (new : List (Transaction α))
    (d : Driver α) : Driver α :=
  { d with waveform := edit mode rejection d.waveform new }

def Driver.update (now : ℕ) (d : Driver α) : Driver α :=
  ⟨d.waveform.filter fun t => now < t.time,
    d.matured ++ d.waveform.filter fun t => t.time ≤ now⟩

def Ascending (l : List (Transaction α)) : Prop :=
  l.Pairwise fun a b => a.time < b.time

def Transaction.map {β : Type*} (f : α → β) (t : Transaction α) : Transaction β :=
  ⟨t.time, f t.value⟩

def marks (threshold : ℕ) : List (Transaction α) → Transaction α → List Bool
  | [], _ => []
  | t :: rest, next => marked threshold (t :: rest) next :: marks threshold rest next

def keep {β : Type*} : List Bool → List β → List β
  | true :: flags, x :: xs => x :: keep flags xs
  | false :: flags, _ :: xs => keep flags xs
  | _, _ => []

/-- The last old transaction that is late enough to be rejected and has
another value than the first new one. -/
def lastOther (threshold : ℕ) (old : List (Transaction α)) (next : Transaction α) :
    Option (Transaction α) :=
  (old.filter fun t => threshold ≤ t.time ∧ t.value ≠ next.value).getLast?

section Lists
variable {α β : Type*} {first : ℕ} {old : List (Transaction α)}

theorem keep_map (f : α → β) (flags : List Bool) (l : List α) :
    keep flags (l.map f) = (keep flags l).map f := by
  induction flags generalizing l with
  | nil => rfl
  | cons flag flags ih =>
    cases l with
    | nil => cases flag <;> rfl
    | cons x xs => cases flag <;> simp [keep, ih]

theorem keep_sublist (f : List Bool) (l : List β) : (keep f l).Sublist l := by
  induction f generalizing l with
  | nil => exact nil_sublist l
  | cons flags f ih =>
    cases l with
    | nil => cases flags <;> exact List.Sublist.slnil
    | cons x xs =>
      cases flags with
      | false => exact (ih xs).cons x
      | true => exact (ih xs).cons_cons x

theorem live_of_forall_le (h : ∀ t ∈ old, first ≤ t.time) : live first old = [] := by
  rw [live, filter_eq_nil_iff]
  intro t ht
  simpa using h t ht

theorem live_sublist (first : ℕ) (old : List (Transaction α)) : (live first old).Sublist old :=
  filter_sublist

theorem live_eq_takeWhile (h : Ascending old) :
    live first old = old.takeWhile fun t => t.time < first := by
  induction old with
  | nil => rfl
  | cons t rest ih =>
    obtain ⟨hl, hr⟩ := pairwise_cons.mp h
    by_cases ht : t.time < first
    · simpa [live, ht] using ih hr
    · have hn : live first (t :: rest) = [] := by
        apply live_of_forall_le
        intro u hu
        rcases mem_cons.mp hu with rfl | hu
        · omega
        · have := hl u hu
          omega
      simp [hn, ht]

end Lists

variable {next t : Transaction α} {rest old : List (Transaction α)} {limit : ℕ}
  {u : Transaction α}

theorem marked_cons_eq_true : marked limit (t :: rest) next = true ↔ t.time < limit ∨
        marked limit rest next = true ∧ t.value = (rest.head?.getD next).value := by
  rw [marked]
  simp

theorem marks_length (limit : ℕ) (old : List (Transaction α)) (next : Transaction α) :
    (marks limit old next).length = old.length := by
  induction old with
  | nil => rfl
  | cons t rest ih => simp [marks, ih]

theorem take_eq_marks {f : List Bool} (enabled : ℕ → Bool) (hl : f.getD old.length false = true)
    (hf : ∀ i < old.length, f.getD i false = (decide ((old.getD i next).time < limit) ||
        (f.getD (i + 1) false && enabled i))) (heq : ∀ i < old.length, enabled i = true ↔
      (old.getD i next).value = (old.getD (i + 1) next).value) :
    f.take old.length = marks limit old next := by
  induction old generalizing f enabled with
  | nil => rfl
  | cons t rest ih =>
    cases f with
    | nil => simp at hl
    | cons flags f =>
      have ht : f.take rest.length = marks limit rest next := by
        refine ih (fun i => enabled (i + 1)) hl ?_ ?_
        · intro i hi
          simpa using hf (i + 1) (by simpa using hi)
        · intro i hi
          simpa using heq (i + 1) (by simpa using hi)
      have hn : f.getD 0 false = marked limit rest next := by
        cases rest with
        | nil => simpa [marked] using hl
        | cons u rest =>
          rw [marks] at ht
          cases f with
          | nil => simp at ht
          | cons b f => simpa using (cons.inj ht).1
      have hh : flags = marked limit (t :: rest) next := by
        have h0 := hf 0 (by simp)
        have he := heq 0 (by simp)
        simp only [getD_cons_zero, getD_cons_succ, hn] at h0 he
        rw [Bool.eq_iff_iff, h0, marked_cons_eq_true, Bool.or_eq_true, Bool.and_eq_true, he,
          decide_eq_true_eq]
        cases rest <;> rfl
      rw [length_cons, take_succ_cons, ht, marks, hh]

theorem retained_eq_keep (limit : ℕ) (old : List (Transaction α)) (next : Transaction α) :
    retained limit old next = keep (marks limit old next) old := by
  induction old with
  | nil => rfl
  | cons t rest ih =>
    simp only [retained, marks]
    cases marked limit (t :: rest) next <;> simp [keep, ih]

theorem retained_sublist (limit : ℕ) (old : List (Transaction α)) (next : Transaction α) :
    (retained limit old next).Sublist old := by
  rw [retained_eq_keep]
  exact keep_sublist _ _

theorem marked_cons_iff (h : Ascending (t :: rest)) : marked limit (t :: rest) next = true ↔
      t.time < limit ∨ ∀ u ∈ t :: rest, u.value = next.value := by
  induction rest generalizing t with
  | nil =>
    rw [marked_cons_eq_true]
    simp [marked]
  | cons u rest ih =>
    obtain ⟨hl, hr⟩ := pairwise_cons.mp h
    have htu := hl u mem_cons_self
    rw [marked_cons_eq_true]
    by_cases ht : t.time < limit
    · simp [ht]
    · have hu : ¬ u.time < limit := by omega
      have hi := ih hr
      rw [or_iff_right hu] at hi
      rw [or_iff_right ht, or_iff_right ht, forall_mem_cons, ← hi, head?_cons]
      constructor
      · rintro ⟨hm, hv⟩
        exact ⟨hv.trans (hi.mp hm u mem_cons_self), hm⟩
      · rintro ⟨hv, hm⟩
        exact ⟨hm, hv.trans (hi.mp hm u mem_cons_self).symm⟩

theorem lastOther_cons (h : lastOther limit rest next = some u) :
    lastOther limit (t :: rest) next = some u := by
  rw [lastOther, filter_cons]
  split
  · rw [getLast?_cons, ← lastOther, h]
    rfl
  · exact h

theorem mem_of_lastOther (h : lastOther limit old next = some t) : t ∈ old ∧
    t.value ≠ next.value := by
  obtain ⟨hm, hp⟩ := mem_filter.mp (mem_of_getLast? h)
  exact ⟨hm, (of_decide_eq_true hp).2⟩

theorem exists_lastOther (hu : u ∈ old) (ht : limit ≤ u.time) (hv : u.value ≠ next.value) :
    ∃ w ∈ old, lastOther limit old next = some w := by
  cases hw : lastOther limit old next with
  | none =>
    rw [lastOther, getLast?_eq_none_iff, filter_eq_nil_iff] at hw
    exact absurd (by simpa using ⟨ht, hv⟩) (hw u hu)
  | some w => exact ⟨w, (mem_of_lastOther hw).1, rfl⟩

theorem marks_map {β : Type*} [DecidableEq β] (f : α → β) (ha : Ascending old)
    (ho : ∀ t, lastOther limit old next = some t → f t.value ≠ f next.value) :
    marks limit (old.map (Transaction.map f)) (next.map f) = marks limit old next := by
  induction old with
  | nil => rfl
  | cons t rest ih =>
    obtain ⟨hlt, hr⟩ := pairwise_cons.mp ha
    have hm : Ascending (t.map f :: rest.map (Transaction.map f)) := by
      simpa [Ascending, pairwise_map, Transaction.map] using ha
    have hh : marked limit (t.map f :: rest.map (Transaction.map f)) (next.map f) =
        marked limit (t :: rest) next := by
      rw [Bool.eq_iff_iff, marked_cons_iff hm, marked_cons_iff ha, ← map_cons]
      by_cases ht : t.time < limit
      · simp [Transaction.map, ht]
      · refine or_congr Iff.rfl ⟨fun hal u hu => ?_, fun hal u hu => ?_⟩
        · by_contra hv
          have htu : limit ≤ u.time := by
            rcases mem_cons.mp hu with rfl | hu
            · omega
            · have := hlt u hu
              omega
          obtain ⟨w, hw, hl⟩ := exists_lastOther hu htu hv
          exact ho w hl (hal _ (mem_map_of_mem hw))
        · obtain ⟨v, hv, rfl⟩ := mem_map.mp hu
          exact congrArg f (hal v hv)
    rw [map_cons, marks, marks, hh, ih hr fun u hu => ho u (lastOther_cons hu)]

end FsimRuntime.Waveform
