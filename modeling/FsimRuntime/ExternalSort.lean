import FsimRuntime.KeyedSort

/-!
# External merge sort

Sorted runs merged by least head, kept on levels of at most `fanIn` runs. The
levels hold sorted runs whose events are those added; whatever the runs were,
the last merge gives the events in order.
-/

namespace FsimRuntime.ExternalSort

open KeyedSort List

variable {α β : Type*} [LinearOrder β] {key : α → β}

def pickLeast (key : α → β) : List (List α) → Option (α × List (List α))
  | [] => none
  | [] :: runs => (pickLeast key runs).map fun (a, runs) => (a, [] :: runs)
  | (a :: run) :: runs =>
    match pickLeast key runs with
    | none => some (a, run :: runs)
    | some (b, rest) => if key b < key a then some (b, (a :: run) :: rest)
        else some (a, run :: runs)

def mergeFuel (key : α → β) : ℕ → List (List α) → List α
  | 0, _ => []
  | fuel + 1, runs =>
    match pickLeast key runs with
    | none => []
    | some (a, runs) => a :: mergeFuel key fuel runs

def mergeRuns (key : α → β) (runs : List (List α)) : List α :=
  mergeFuel key runs.flatten.length runs

/-- A run joins the first level; a full level is merged into a run of the next. -/
def addRun (key : α → β) (fanIn : ℕ) (run : List α) : List (List (List α)) →
    List (List (List α))
  | [] => [[run]]
  | level :: levels =>
    if (level ++ [run]).length < fanIn then (level ++ [run]) :: levels
    else [] :: addRun key fanIn (mergeRuns key (level ++ [run])) levels

def mergeGroup (key : α → β) : List (List α) → List α
  | [run] => run
  | runs => mergeRuns key runs

def mergePass (key : α → β) (fanIn : ℕ) : ℕ → List (List α) → List (List α)
  | _, [] => []
  | 0, run :: runs => run :: runs
  | fuel + 1, run :: runs =>
    mergeGroup key ((run :: runs).take fanIn) ::
      mergePass key fanIn fuel ((run :: runs).drop fanIn)

def reduceRuns (key : α → β) (fanIn : ℕ) : ℕ → List (List α) → List (List α)
  | 0, runs => runs
  | fuel + 1, runs =>
    if runs.length ≤ fanIn then runs
    else reduceRuns key fanIn fuel (mergePass key fanIn runs.length runs)

def finishRuns (key : α → β) (fanIn : ℕ) (levels : List (List (List α))) : List (List α) :=
  reduceRuns key fanIn levels.flatten.length levels.flatten

abbrev Sorted (key : α → β) (l : List α) : Prop := l.Pairwise fun a b => key a ≤ key b

def Merges (key : α → β) (runs : List (List α)) (l : List α) : Prop :=
  l.Perm runs.flatten ∧ ((∀ run ∈ runs, Sorted key run) → Sorted key l)

def Reduces (key : α → β) (runs runs' : List (List α)) : Prop :=
  runs'.flatten.Perm runs.flatten ∧
    ((∀ run ∈ runs, Sorted key run) → ∀ run ∈ runs', Sorted key run)

section Merge

variable {runs rest : List (List α)} {a : α} {fuel : ℕ}

theorem pickLeast_none (h : pickLeast key runs = none) : runs.flatten = [] := by
  induction runs with
  | nil => rfl
  | cons run runs ih =>
    cases run with
    | nil => exact ih (Option.map_eq_none_iff.mp h)
    | cons a run =>
      rw [pickLeast] at h
      split at h
      · nomatch h
      · split at h <;> nomatch h

theorem pickLeast_some (h : pickLeast key runs = some (a, rest)) :
    (a :: rest.flatten).Perm runs.flatten ∧ ((∀ run ∈ runs, Sorted key run) →
      (∀ run ∈ rest, Sorted key run) ∧ ∀ b ∈ rest.flatten, key a ≤ key b) := by
  induction runs generalizing a rest with
  | nil => nomatch h
  | cons run runs ih =>
    rw [forall_mem_cons]
    cases run with
    | nil =>
      obtain ⟨⟨b, r'⟩, hp, he⟩ := Option.map_eq_some_iff.mp h
      cases he
      simpa using ih hp
    | cons c run =>
      rw [pickLeast] at h
      split at h
      · next hp =>
        cases h
        refine ⟨.refl _, fun ⟨hru, hr⟩ => ?_⟩
        obtain ⟨hc, hr'⟩ := pairwise_cons.mp hru
        rw [flatten_cons, pickLeast_none hp, append_nil]
        exact ⟨forall_mem_cons.mpr ⟨hr', hr⟩, hc⟩
      · next b r' hp =>
        obtain ⟨hpe, hs⟩ := ih hp
        split at h
        · next hlt =>
          cases h
          refine ⟨perm_middle.symm.trans (hpe.append_left (c :: run)), fun ⟨hru, hr⟩ => ?_⟩
          obtain ⟨hre, hl⟩ := hs hr
          refine ⟨forall_mem_cons.mpr ⟨hru, hre⟩, fun x hx => ?_⟩
          rcases mem_append.mp hx with hx | hx
          · rcases mem_cons.mp hx with rfl | hx
            · exact hlt.le
            · exact hlt.le.trans ((pairwise_cons.mp hru).1 x hx)
          · exact hl x hx
        · next hn =>
          cases h
          refine ⟨.refl _, fun ⟨hru, hr⟩ => ?_⟩
          obtain ⟨hc, hr'⟩ := pairwise_cons.mp hru
          refine ⟨forall_mem_cons.mpr ⟨hr', hr⟩, fun x hx => ?_⟩
          rcases mem_append.mp hx with hx | hx
          · exact hc x hx
          · refine (not_lt.mp hn).trans ?_
            rcases mem_cons.mp (hpe.mem_iff.mpr hx) with rfl | hx
            · exact le_rfl
            · exact (hs hr).2 x hx

theorem mergeFuel_merges (hf : runs.flatten.length ≤ fuel) :
    Merges key runs (mergeFuel key fuel runs) := by
  induction fuel generalizing runs with
  | zero =>
    rw [Merges, eq_nil_of_length_eq_zero (Nat.le_zero.mp hf), mergeFuel]
    exact ⟨.refl _, fun _ => .nil⟩
  | succ fuel ih =>
    rw [mergeFuel]
    split
    · next hp =>
      rw [Merges, pickLeast_none hp]
      exact ⟨.refl _, fun _ => .nil⟩
    · next a rest hp =>
      obtain ⟨hpe, hs⟩ := pickLeast_some hp
      have hl := hpe.length_eq
      rw [length_cons] at hl
      have hm := @ih rest (by omega)
      exact ⟨(hm.1.cons a).trans hpe, fun hr =>
        .cons (fun b hb => (hs hr).2 b (hm.1.mem_iff.mp hb)) (hm.2 (hs hr).1)⟩

theorem mergeRuns_merges : Merges key runs (mergeRuns key runs) := mergeFuel_merges le_rfl

end Merge

section Levels

variable {fanIn fuel : ℕ} {run : List α} {runs : List (List α)} {levels : List (List (List α))}

theorem addRun_perm : (addRun key fanIn run levels).flatten.flatten.Perm
    (levels.flatten.flatten ++ run) := by
  induction levels generalizing run with
  | nil => simp [addRun]
  | cons l levels ih =>
    rw [addRun]
    have hl : (l ++ [run]).flatten = l.flatten ++ run := by simp
    split
    · simp only [flatten_cons, flatten_append, append_assoc]
      exact perm_append_comm.append_left _
    · simp only [flatten_cons, flatten_append]
      refine ih.trans (perm_append_comm.trans ?_)
      refine (mergeRuns_merges.1.append_right _).trans ?_
      rw [hl, append_assoc, append_assoc]
      exact perm_append_comm.append_left _

theorem addRun_sorted (hru : Sorted key run)
    (hl : ∀ l ∈ levels, ∀ run ∈ l, Sorted key run) :
    ∀ l ∈ addRun key fanIn run levels, ∀ run ∈ l, Sorted key run := by
  induction levels generalizing run with
  | nil => simpa [addRun] using hru
  | cons l levels ih =>
    obtain ⟨hle, hr⟩ := forall_mem_cons.mp hl
    have hj : ∀ r ∈ l ++ [run], Sorted key r := by
      simpa [or_imp, forall_and] using ⟨hle, hru⟩
    rw [addRun]
    split
    · exact forall_mem_cons.mpr ⟨hj, hr⟩
    · exact forall_mem_cons.mpr ⟨nofun, ih (mergeRuns_merges.2 hj) hr⟩

theorem mergeGroup_merges : Merges key runs (mergeGroup key runs) := by
  rw [mergeGroup.eq_def]
  split
  · exact ⟨by simp, fun hs => hs _ (mem_singleton_self _)⟩
  · exact mergeRuns_merges

theorem mergePass_reduces : Reduces key runs (mergePass key fanIn fuel runs) := by
  induction fuel generalizing runs with
  | zero => cases runs <;> exact ⟨.refl _, id⟩
  | succ fuel ih =>
    cases runs with
    | nil => exact ⟨.refl _, id⟩
    | cons run runs =>
      refine ⟨(mergeGroup_merges.1.append ih.1).trans ?_, fun hs => forall_mem_cons.mpr
        ⟨mergeGroup_merges.2 fun r hr => hs r (mem_of_mem_take hr),
          ih.2 fun r hr => hs r (mem_of_mem_drop hr)⟩⟩
      rw [← flatten_append, take_append_drop]

theorem reduceRuns_reduces : Reduces key runs (reduceRuns key fanIn fuel runs) := by
  induction fuel generalizing runs with
  | zero => exact ⟨.refl _, id⟩
  | succ fuel ih =>
    rw [reduceRuns]
    split
    · exact ⟨.refl _, id⟩
    · exact ⟨ih.1.trans mergePass_reduces.1, fun hs => ih.2 (mergePass_reduces.2 hs)⟩

theorem finishRuns_merge (hl : ∀ l ∈ levels, ∀ run ∈ l, Sorted key run) :
    (mergeRuns key (finishRuns key fanIn levels)).Perm levels.flatten.flatten ∧
      Sorted key (mergeRuns key (finishRuns key fanIn levels)) := by
  have hs : ∀ run ∈ levels.flatten, Sorted key run := by
    intro run hr
    obtain ⟨l, hle, hr⟩ := mem_flatten.mp hr
    exact hl l hle run hr
  exact ⟨mergeRuns_merges.1.trans reduceRuns_reduces.1,
    mergeRuns_merges.2 (reduceRuns_reduces.2 hs)⟩

end Levels

end FsimRuntime.ExternalSort
