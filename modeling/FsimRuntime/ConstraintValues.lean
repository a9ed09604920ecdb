import FsimRuntime.ConstraintRuns

/-!
# The values that a search can assign

A search assigns domain values that the unguarded distributions weigh and
solutions of equalities. What all of these keep, the values of an answer keep.
-/

namespace FsimRuntime.Constraint
open Function List

open Simir (Value)

variable {solver : Solver} {e : Evaluator} {s : ℕ → Value → Prop} {lists : Lists} {id : ℕ}

/-- An equality is solved for its open variable where a search checks its assignment. -/
def SolvedAt (context : SearchContext) (unit : ℕ) (value : Value) : Prop :=
  ∃ enforced assignment lists clause, Checked context enforced assignment lists ∧
    clause ∈ context.solver.clauses ∧ openVariables clause assignment = [unit] ∧
    SolvedBy context.solver context.evaluator assignment clause unit value

structure Closes (context : SearchContext) (suits : ℕ → Value → Prop) : Prop where
  domain : ∀ {id index}, index < (domainOf context.solver id).length →
    (∀ distribution ∈ context.solver.distributions, distribution.variableId = id →
      distribution.guard = none → distribution.weights.getD index 0 ≠ 0) →
    suits id ((domainOf context.solver id).getD index [])
  solved : ∀ {unit value}, SolvedAt context unit value → suits unit value

def FitLists (solver : Solver) (suits : ℕ → Value → Prop) (lists : Lists) : Prop :=
  ∀ id, ∀ index ∈ lists.candidates id, suits id (valueAt solver lists id index)

variable {value : Value}

theorem getD_append_singleton {v : List Value} (index : ℕ) :
    (v ++ [value]).getD index [] = v.getD index [] ∨ (v ++ [value]).getD index [] = value := by
  rcases lt_trichotomy index v.length with hl | he | hg
  · exact .inl (getD_append _ _ _ _ hl)
  · exact .inr (by simp [he])
  · refine .inl ?_
    rw [getD_eq_default _ _ (by simp; omega), getD_eq_default _ _ hg.le]

theorem FitLists.addSolved {unit : ℕ} (h : FitLists solver s lists)
    (hv : s unit value) : FitLists solver s (addSolved solver lists unit value) := by
  intro id index hin
  unfold Constraint.addSolved at hin ⊢
  by_cases hid : id = unit
  · subst hid
    simp only [update_self, mem_cons] at hin
    simp only [valueAt, update_self]
    rcases hin with rfl | hin
    · rwa [if_neg (by omega), Nat.add_sub_cancel_left, getD_append_right _ _ _ _ le_rfl,
        Nat.sub_self]
    · have hold := h id index hin
      unfold valueAt at hold
      split_ifs at hold ⊢ with hd
      · exact hold
      · rcases getD_append_singleton (index - (domainOf solver id).length) with he | he
        · rwa [he]
        · rwa [he]
  · simp only [update_of_ne hid] at hin
    simpa [valueAt, update_of_ne hid] using h id index hin

theorem Solves.fits {c : SearchContext} {enforced : ℕ → Bool} {a : Assignment} {l l' : Lists}
    (hc : Closes c s) (hch : Checked c enforced a l)
    (h : Solves c.solver c.evaluator a c.solver.clauses l l') (hl : FitLists c.solver s l) :
    FitLists c.solver s l' := by
  induction h with
  | unchanged => exact hl
  | solved _ hcl hu hs ih =>
    exact ih.addSolved (hc.solved ⟨enforced, a, l, _, hch, hcl, hu, hs⟩)

def FitAssignment (suits : ℕ → Value → Prop) (assignment : Assignment) : Prop :=
  ∀ id value, assignment id = some value → suits id value

theorem FitAssignment.update {a : Assignment} {value : Option Value} (h : FitAssignment s a)
    (hv : ∀ fit, value = some fit → s id fit) : FitAssignment s (update a id value) := by
  intro o fit hf
  by_cases ho : o = id
  · subst ho
    rw [update_self] at hf
    exact hv fit hf
  · rw [update_of_ne ho] at hf
    exact h o fit hf

structure FitState (context : SearchContext) (enforced : ℕ → Bool)
    (suits : ℕ → Value → Prop) (state : SearchState) : Prop where
  reached : Reached context enforced state
  placed : Placed context state
  lists : FitLists context.solver suits state.lists
  assignment : FitAssignment suits state.assignment

structure Solution (solver : Solver) (suits : ℕ → Value → Prop)
    (assignment : Assignment) : Prop where
  hard : ∀ clause ∈ solver.clauses, clause.soft = false →
    clause.evaluate assignment = .satisfied
  fits : FitAssignment suits assignment
  total : Total solver assignment

def Answers (solver : Solver) (suits : ℕ → Value → Prop) (result : SolveResult) : Prop :=
  result.status = .satisfied → ∃ assignment, Solution solver suits assignment ∧
    result.values = retainValues solver assignment

section Searches

variable {c : SearchContext} {enforced : ℕ → Bool} {state next : SearchState} {f : ℕ}
  {result : SolveResult} (hw : WellFormed c.solver) (hc : Closes c s)
include hw hc

theorem rebuild_fits (hl : FitLists c.solver s state.lists) (h : rebuild c state id = .ok lists) :
    FitLists c.solver s lists := by
  unfold rebuild at h
  split_ifs at h
  · obtain ⟨order, hor, h⟩ := bind_ok.mp h
    cases h
    intro o index hin
    by_cases ho : o = id
    · subst ho
      simp only [update_self] at hin
      obtain ⟨hlt, hz⟩ := (mem_valueOrder hw (mapError_ok.mp hor)).mp (mem_of_mem_filter hin)
      simp only [valueAt, if_pos hlt]
      exact hc.domain hlt fun d hm hid hg =>
        hz d (mem_weighing.mpr ⟨hm, hid, .inl hg⟩)
    · simp only [update_of_ne ho] at hin
      exact hl o index hin
  · cases h
    exact hl

theorem Attempt.fits {index : ℕ} {v : Bool} (hs : FitState c enforced s state)
    (h : Attempt c enforced state lists index v next) :
    FitLists c.solver s next.lists ∧ FitAssignment s next.assignment := by
  have hl := rebuild_fits hw hc hs.lists h.rebuilt
  refine ⟨h.solves.fits hc ⟨state, index, v, next, hs.reached, h, rfl⟩ hl, ?_⟩
  rw [h.assignment]
  refine hs.assignment.update fun fit hf => ?_
  cases hf
  exact hl _ index (mem_of_getElem? h.candidate)

theorem Round.fits {ended : Option Outcome} (hs : FitState c enforced s state)
    (h : Round c enforced state ended next) : FitLists c.solver s next.lists := by
  cases h with
  | exhausted _ _ hl =>
    rcases hl with hl | hl
    · exact hl ▸ hs.lists
    · exact rebuild_fits hw hc hs.lists hl
  | unsatisfiable hd | back hd => exact rebuild_fits hw hc hs.lists hd.rebuilt
  | conflict ha | deeper ha | rejected ha | found ha => exact (ha.fits hw hc hs).1

theorem FitState.step (ho : c.Ordered) (hs : FitState c enforced s state)
    (hst : searchStep c enforced state = .ok (none, next)) : FitState c enforced s next := by
  have h := searchStep_round hst
  refine ⟨hs.reached.round hst, hs.placed.round ho h, h.fits hw hc hs, ?_⟩
  cases h with
  | back _ _ hass _ =>
    rw [hass]
    exact hs.assignment.update fun _ h => nomatch h
  | conflict ha | rejected ha => exact (ha.fits hw hc hs).2
  | deeper ha =>
    have hf := (ha.fits hw hc hs).2
    exact hf

theorem search_fits {steps r : ℕ} {o : Outcome} (ho : c.Ordered) (hv : c.solver.vars ≠ [])
    (hre : Reached c enforced ⟨unassigned, fun _ => 0, 0, lists, steps, r⟩)
    (hli : FitLists c.solver s lists) (h : search c enforced f lists steps r = .ok (o, next)) :
    FitLists c.solver s next.lists ∧ (o = .found → EnforcesHard c.solver enforced →
        Solution c.solver s next.assignment) := by
  have hst : FitState c enforced s ⟨unassigned, fun _ => 0, 0, lists, steps, r⟩ :=
    ⟨hre, placed_start lists steps r (length_pos_iff.mpr hv), hli, fun _ _ h => nomatch h⟩
  obtain ⟨last, hl, hr⟩ := searchLoop_invariant (fun _ _ hsta => hsta.step hw hc ho) hst h
  have hr := searchStep_round hr
  refine ⟨hr.fits hw hc hl, fun hf he => ?_⟩
  subst hf
  obtain ⟨ht, hs⟩ := search_found ho hv h
  refine ⟨fun clause hcl hh => ?_, ?_, ht⟩
  · obtain ⟨index, hin⟩ := getElem?_of_mem hcl
    exact hs clause (mem_enforcedClauses.mpr ⟨index, hin, he index clause hin hh⟩)
  · cases hr with
    | found ha => exact (ha.fits hw hc hl).2

theorem softClauses_answers {count : ℕ} {b : Assignment}
    (ho : c.Ordered) (hv : c.solver.vars ≠ []) (he : EnforcesHard c.solver enforced)
    (hb : Solution c.solver s b) (hl : FitLists c.solver s state.lists)
    (hre : Continues c state.lists state.steps state.readings)
    (h : softClauses c f count enforced b state = .ok result) : Answers c.solver s result := by
  induction count generalizing enforced b state with
  | zero =>
    cases h
    exact fun _ => ⟨b, hb, rfl⟩
  | succ index ih =>
    unfold softClauses at h
    split at h
    · exact ih he hb hl hre h
    · next clause hcl =>
      split_ifs at h with hh hsa
      · exact ih he hb hl hre h
      · exact ih he.update hb hl hre h
      · obtain ⟨⟨o, next⟩, hs, h⟩ := bind_ok.mp h
        obtain ⟨hn, hf⟩ := search_fits hw hc ho hv (hre _ he.update) hl hs
        have hco := search_continues (hre _ he.update) hs
        cases o with
        | found => exact ih he.update (hf rfl he.update) hn hco h
        | unsatisfiable => exact ih he hb hn hco h
        | exhausted r =>
          cases h
          exact fun hst => nomatch hst

end Searches

section Solving

variable {f : ℕ} {seed : BitVec 64} {result : SolveResult}

theorem evaluateAll_satisfied {a : Assignment} {clauses : List Clause} {hard : ClauseState}
    {soft : List ClauseState} (h : (evaluateAll a clauses hard soft).1 = .satisfied) :
    hard = .satisfied ∧ ∀ clause ∈ clauses, clause.soft = false →
    clause.evaluate a = .satisfied := by
  induction clauses generalizing hard soft with
  | nil => exact ⟨h, by simp⟩
  | cons clause clauses ih =>
    unfold evaluateAll at h
    dsimp only at h
    split_ifs at h with hso hv hu
    · obtain ⟨hs, ha⟩ := ih h
      exact ⟨hs, by simpa [hso] using ha⟩
    · rw [hv] at h
      cases h
    · obtain ⟨hs, _⟩ := ih h
      rw [hu] at hs
      cases hs
    · obtain ⟨hs, ha⟩ := ih h
      have hc : clause.evaluate a = .satisfied := by
        cases hst : clause.evaluate a <;> simp_all
      exact ⟨hs, by simpa [hc] using ha⟩

theorem solveEmpty_answers (hv : solver.vars = []) (h : solveEmpty solver = .ok result) :
    Answers solver s result := by
  unfold solveEmpty at h
  dsimp only at h
  split_ifs at h with hu hh
  · cases h
    refine fun _ =>
      ⟨unassigned,
        ⟨(evaluateAll_satisfied hh).2, (fun _ _ h => nomatch h), ?_, fun _ _ => rfl⟩, ?_⟩
    · simp [hv]
    · simp [retainValues, hv, finish]
  · cases h
    exact fun hs => nomatch hs

theorem initialCandidates_fits {c : SearchContext} (hwe : WellFormed c.solver) (hc : Closes c s)
    {candidates : ℕ → List ℕ} (h : initialCandidates c.solver e seed = .ok candidates) :
    FitLists c.solver s ⟨candidates, fun _ => []⟩ := by
  intro id index hin
  by_cases hid : id < c.solver.vars.length
  · obtain ⟨⟨hl, hw⟩, _⟩ := (mem_initialCandidates hwe h hid).mp hin
    simp only [valueAt, if_pos hl]
    exact hc.domain hl fun d hm hv hg =>
      hw d (mem_weighing.mpr ⟨hm, hv, .inl hg⟩)
  · have hn := initialCandidates_outside h (not_lt.mp hid)
    simp [hn] at hin

theorem solve_answers {expired : ℕ → Bool} (hw : WellFormed solver)
    (hc : ∀ context, solveContext solver e expired seed = .ok context → Closes context s)
    (h : solve solver e expired f seed = .ok result) : Answers solver s result := by
  cases solve_ends h with
  | expired => exact fun hs => nomatch hs
  | empty hv h => exact solveEmpty_answers hv h
  | found hv hco hse h =>
    have hcl := hc _ hco
    obtain ⟨candidates, order, rfl, hca, ho⟩ := solveContext_spec hw hco
    obtain ⟨hl, hf⟩ := search_fits hw hcl ho hv .first (initialCandidates_fits hw hcl hca) hse
    exact softClauses_answers hw hcl ho hv enforcesHard_hardClauses
      (hf rfl enforcesHard_hardClauses) hl (search_continues .first hse) h
  | @failed _ o _ _ _ _ hf =>
    cases o with
    | found => exact absurd rfl hf
    | unsatisfiable | exhausted r => exact fun hs => nomatch hs

end Solving

end FsimRuntime.Constraint
