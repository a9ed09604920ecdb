import FsimRuntime.ConstraintSearch
import FsimRuntime.ConstraintRegistration

/-!
# The candidates of a variable

A drawn order holds exactly the domain values to which every distribution in
force gives a weight. Besides, only solved equalities put values into the
lists, and they do so only for unassigned variables.
-/

namespace FsimRuntime.Constraint
open List Function

open Simir (Value)

section Orders

variable {s : Solver} {e : Evaluator} {a : Assignment} {id : ℕ}

variable {d : RetainedDistribution} {w : List ℕ} {composed : List ℕ}
  {count index : ℕ} {g : Bool}

theorem composeWeights_spec
    (h : composeWeights w d = .ok composed) (hw : w.length = count)
    (hd : d.weights.length = count) :
    composed.length = count ∧
      ∀ index < count, composed.getD index 0 = w.getD index 0 * d.weights.getD index 0 := by
  obtain ⟨hl, hg⟩ := mapM_ok h
  have hz : (w.zip d.weights).length = count := by rw [length_zip, hw, hd, min_self]
  refine ⟨hl.trans hz, fun index hin => ?_⟩
  have hs := hg index (by omega) (by omega)
  rw [getElem_zip] at hs
  unfold composeWeight at hs
  dsimp only at hs
  split_ifs at hs
  rw [getD_eq_getElem _ _ (by omega), getD_eq_getElem _ _ (by omega),
    getD_eq_getElem _ _ (by omega)]
  exact (Except.ok.inj hs).symm

theorem foldlM_composeWeights_spec {distributions : List RetainedDistribution}
    (h : distributions.foldlM composeWeights w = .ok composed) (hw : w.length = count)
    (hd : ∀ d ∈ distributions, d.weights.length = count) :
    composed.length = count ∧ ∀ index < count, composed.getD index 0 ≠ 0 ↔
      w.getD index 0 ≠ 0 ∧ ∀ d ∈ distributions, d.weights.getD index 0 ≠ 0 := by
  induction distributions generalizing w with
  | nil =>
    cases h
    exact ⟨hw, fun index _ => by simp⟩
  | cons d distributions ih =>
    obtain ⟨next, hne, h⟩ := foldlM_cons_ok.mp h
    obtain ⟨hl, hp⟩ := composeWeights_spec hne hw (hd d (by simp))
    obtain ⟨hc, hn⟩ := ih h hl fun o ho => hd o (by simp [ho])
    refine ⟨hc, fun index hin => ?_⟩
    rw [hn index hin, hp index hin]
    simp [and_assoc]

theorem foldlM_addTotal {start total : ℕ}
    (h : w.foldlM addTotal start = .ok total) : total = start + w.sum := by
  induction w generalizing start with
  | nil =>
    cases h
    rfl
  | cons weight w ih =>
    obtain ⟨next, hn, h⟩ := foldlM_cons_ok.mp h
    unfold addTotal at hn
    split_ifs at hn
    cases hn
    rw [ih h, sum_cons, Nat.add_assoc]

theorem weights_eq_map (w : List ℕ) : w = (range w.length).map fun index => w.getD index 0 := by
  refine ext_getElem (by simp) fun index hl hr => ?_
  simp [getElem?_eq_getElem hl]

theorem total_weights (w : List ℕ) :
    w.sum = Fenwick.total (fun index => w.getD index 0) w.length := by
  nth_rewrite 1 [weights_eq_map w]
  rw [Fenwick.total, ← toFinset_range, sum_toFinset _ nodup_range]

theorem countP_weights (w : List ℕ) :
    (Fenwick.weighted w.length fun index => w.getD index 0).card = w.countP (· ≠ 0) := by
  have hf : Fenwick.weighted w.length (fun index => w.getD index 0)
      = ((range w.length).filter fun index => w.getD index 0 ≠ 0).toFinset := by
    ext index
    simp [Fenwick.weighted]
  nth_rewrite 3 [weights_eq_map w]
  rw [hf, toFinset_card_of_nodup (nodup_range.filter _), countP_map, countP_eq_length_filter]
  rfl

theorem mem_draws_weights {State : Type} {p : State → ℕ} {next : State → State}
    {state : State} (hc : w.length < 2 ^ 64) :
    index ∈ Fenwick.draws 64 w.length p next (w.countP (· ≠ 0)) state w.sum
        (Fenwick.plant 64 w.length (fun index => w.getD index 0) w.length)
        (fun index => w.getD index 0) ↔ index < w.length ∧ w.getD index 0 ≠ 0 := by
  have ht : Fenwick.Represents w.length
      (Fenwick.plant 64 w.length (fun index => w.getD index 0) w.length)
      fun index => w.getD index 0 :=
    (Fenwick.plant_represents hc _).congr fun index hin => if_pos hin
  rw [total_weights, Fenwick.mem_draws hc ht (countP_weights w)]
  simp [Fenwick.weighted]

theorem mem_weighing : d ∈ weighing s e a id g ↔
      d ∈ s.distributions ∧ d.variableId = id ∧
        (d.guard = none ∨ g = true ∧ guardHolds e a d = true) := by simp [weighing]

theorem WellFormed.weights_length (h : WellFormed s) (hd : d ∈ s.distributions) :
    d.weights.length = (domainOf s d.variableId).length := by
  obtain ⟨i, hit, hw⟩ := h.weighs d hd
  rw [domainOf, hit]
  exact hw.length

theorem WellFormed.domainOf_lt (h : WellFormed s) (id : ℕ) : (domainOf s id).length < 2 ^ 64 := by
  unfold domainOf
  cases hit : s.vars[id]? with
  | none => exact Nat.two_pow_pos 64
  | some i => exact h.domain_lt hit

theorem mem_valueOrder (hwe : WellFormed s) {seed : BitVec 64} {o : List ℕ}
    (h : valueOrder s e seed a id g = .ok o) :
    index ∈ o ↔ index < (domainOf s id).length ∧ ∀ d ∈ weighing s e a id g,
        d.weights.getD index 0 ≠ 0 := by
  obtain ⟨w, hw, h⟩ := bind_ok.mp h
  obtain ⟨hl, hn⟩ := foldlM_composeWeights_spec hw length_replicate
    fun d hd => by
      obtain ⟨hm, hid, _⟩ := mem_weighing.mp hd
      rw [hwe.weights_length hm, hid]
  split_ifs at h with hno
  · cases h
    simp [hno]
  · obtain ⟨total, ht, h⟩ := bind_ok.mp h
    cases h
    rw [foldlM_addTotal ht, Nat.zero_add, ← hl, mem_draws_weights (hl ▸ hwe.domainOf_lt id), hl]
    refine and_congr_right fun hin => ?_
    rw [hn index hin]
    simp [hin]

end Orders

section Pruning

variable {s : Solver} {e : Evaluator} {id index : ℕ}

/-- No hard clause of the variable alone rejects the value. -/
def Unrejected (solver : Solver) (clauses : List Clause) (id index : ℕ) : Prop :=
  ∀ clause ∈ clauses, unaryVariable clause = some id →
    clause.evaluate (update unassigned id (some ((domainOf solver id).getD index []))) ≠ .violated

variable {candidates : ℕ → List ℕ} {seed : BitVec 64}

theorem mem_prune {clause : Clause} : index ∈ prune s candidates clause id ↔
      index ∈ candidates id ∧ Unrejected s [clause] id index := by
  unfold prune Unrejected
  cases hu : unaryVariable clause with
  | none => simp [hu]
  | some o =>
    by_cases hid : id = o
    · subst hid
      simp [hu]
    · simp [hu, update_of_ne hid, Ne.symm hid]

theorem mem_foldl_prune {c : List Clause} : index ∈ c.foldl (prune s) candidates id ↔
      index ∈ candidates id ∧ Unrejected s c id index := by
  induction c generalizing candidates with
  | nil => simp [Unrejected]
  | cons clause c ih =>
    rw [foldl_cons, ih, mem_prune, and_assoc]
    simp [Unrejected]

theorem mem_initialCandidates (hw : WellFormed s)
    (h : initialCandidates s e seed = .ok candidates) (hid : id < s.vars.length) :
    index ∈ candidates id ↔ (index < (domainOf s id).length ∧
      ∀ d ∈ weighing s e unassigned id false, d.weights.getD index 0 ≠ 0) ∧
      Unrejected s s.clauses id index := by
  obtain ⟨o, hor, h⟩ := bind_ok.mp h
  cases h
  obtain ⟨hl, hg⟩ := mapM_ok hor
  rw [length_range] at hl
  have ho := hg id (by simpa using hid) (by omega)
  rw [getElem_range] at ho
  rw [mem_foldl_prune, getD_eq_getElem _ _ (by omega), mem_valueOrder hw ho]

theorem initialCandidates_outside
    (h : initialCandidates s e seed = .ok candidates) (hid : s.vars.length ≤ id) :
    candidates id = [] := by
  obtain ⟨o, ho, h⟩ := bind_ok.mp h
  cases h
  have hl := (mapM_ok ho).1
  refine eq_nil_iff_forall_not_mem.mpr fun index hin => ?_
  rw [mem_foldl_prune, getD_eq_default _ _ (by simpa [hl] using hid)] at hin
  cases hin.1

end Pruning

section Equations

variable {s : Solver} {e : Evaluator} {a : Assignment} {c : List Clause}
  {l l' : Lists} {id index : ℕ}

structure SolvedBy (solver : Solver) (evaluator : Evaluator) (assignment : Assignment)
    (clause : Clause) (unit : ℕ) (value : Value) : Prop where
  hard : clause.soft = false
  unguarded : guardedVariable solver unit = false
  equation : ∃ graph, clause.expression = some graph ∧
    solveEquation solver evaluator graph assignment unit = some value
  satisfied : clause.evaluate (update assignment unit (some value)) = .satisfied

inductive Solves (solver : Solver) (evaluator : Evaluator) (assignment : Assignment)
    (clauses : List Clause) (lists : Lists) : Lists → Prop
  | unchanged : Solves solver evaluator assignment clauses lists lists
  | solved {lists' : Lists} {clause : Clause} {unit : ℕ} {value : Value} :
      Solves solver evaluator assignment clauses lists lists' → clause ∈ clauses →
      openVariables clause assignment = [unit] →
      SolvedBy solver evaluator assignment clause unit value →
      Solves solver evaluator assignment clauses lists (addSolved solver lists' unit value)

theorem Solves.trans {l'' : Lists} (h : Solves s e a c l l') (h' : Solves s e a c l' l'') :
    Solves s e a c l l'' := by
  induction h' with
  | unchanged => exact h
  | solved _ hc hu hs ih => exact .solved ih hc hu hs

theorem Solves.mono {m : List Clause} (h : Solves s e a c l l')
    (hs : ∀ clause ∈ c, clause ∈ m) : Solves s e a m l l' := by
  induction h with
  | unchanged => exact .unchanged
  | solved _ hc hu hso ih => exact .solved ih (hs _ hc) hu hso

variable {clause : Clause} {enforced : ℕ → Bool}

theorem mem_openVariables : id ∈ openVariables clause a ↔ id ∈ clause.vars ∧
    a id = none := by
  simp [openVariables]

theorem Solves.assigned (h : Solves s e a c l l') (hid : a id ≠ none) :
    l'.candidates id = l.candidates id ∧ l'.synthesized id = l.synthesized id := by
  induction h with
  | unchanged => exact ⟨rfl, rfl⟩
  | solved _ _ hu _ ih =>
    have ho := mem_openVariables.mp (hu ▸ mem_singleton_self _)
    have hn : id ≠ _ := fun he => hid (he ▸ ho.2)
    simpa [addSolved, update_of_ne hn] using ih

/-- No equality is solved for a variable with a guarded distribution. -/
theorem Solves.guarded (h : Solves s e a c l l') (hg : guardedVariable s id = true) :
    l'.candidates id = l.candidates id ∧ l'.synthesized id = l.synthesized id := by
  induction h with
  | unchanged => exact ⟨rfl, rfl⟩
  | @solved _ _ unit _ _ _ _ hs ih =>
    have hn : id ≠ unit := by
      rintro rfl
      simp [hs.unguarded] at hg
    simpa [addSolved, update_of_ne hn] using ih

theorem Solves.candidates_subset (h : Solves s e a c l l') (id : ℕ) :
    l.candidates id ⊆ l'.candidates id := by
  induction h with
  | unchanged => exact List.Subset.refl _
  | @solved _ _ unit _ _ _ _ _ ih =>
    by_cases hid : id = unit
    · subst hid
      simpa [addSolved] using List.Subset.trans ih (subset_cons_self _ _)
    · simpa [addSolved, update_of_ne hid] using ih

theorem synthesize_solves {unit : ℕ} (hc : clause ∈ c)
    (hu : openVariables clause a = [unit]) :
    Solves s e a c l (synthesize s e clause unit a l).2 := by
  unfold synthesize
  split
  · exact .unchanged
  · next g hg =>
    split_ifs with hs
    · exact .unchanged
    · simp only [Bool.or_eq_true, not_or, Bool.not_eq_true] at hs
      split
      · exact .unchanged
      · next value hv =>
        split_ifs with hsa hk
        · exact .unchanged
        · exact .unchanged
        · exact .solved .unchanged hc hu ⟨hs.1, hs.2, ⟨g, hg, hv⟩, not_not.mp hsa⟩

def Refutes (solver : Solver) (clause : Clause) (assignment : Assignment) (lists : Lists) : Prop :=
  ∃ unit, openVariables clause assignment = [unit] ∧ ∀ index ∈ lists.candidates unit,
    clause.evaluate (update assignment unit (some (valueAt solver lists unit index))) = .violated

theorem supported_spec (hc : clause ∈ c) : Solves s e a c l (supported s e clause a l).2 ∧
      ((supported s e clause a l).1 = false → Refutes s clause a l) := by
  unfold supported
  split
  · next unit ho =>
    split_ifs with hl ha
    · exact ⟨synthesize_solves hc ho, by simp⟩
    · exact ⟨.unchanged, by simp⟩
    · refine ⟨synthesize_solves hc ho, fun _ => ⟨unit, ho, fun index hin => ?_⟩⟩
      by_contra hn
      exact ha (any_eq_true.mpr ⟨index, hin, by simpa using hn⟩)
  · exact ⟨.unchanged, by simp⟩

/-- A check that fails meets a violated clause, or one that refutes all candidates of its open
variable in the l solved so far. -/
def Conflict (solver : Solver) (evaluator : Evaluator) (assignment : Assignment)
    (clauses : List Clause) (lists : Lists) : Prop :=
  ∃ clause ∈ clauses, clause.evaluate assignment = .violated ∨
    ∃ lists', Solves solver evaluator assignment clauses lists lists' ∧
    Refutes solver clause assignment lists'

theorem violatedClauses_spec {r : List Clause} (hre : ∀ clause ∈ r, clause ∈ c) :
    Solves s e a c l (violatedClauses s e a r l).2 ∧ ((violatedClauses s e a r l).1 = true →
        Conflict s e a c l) := by
  induction r generalizing l with
  | nil => exact ⟨.unchanged, by simp [violatedClauses]⟩
  | cons clause r ih =>
    have hc := hre clause (by simp)
    have hl := fun o ho => hre o (mem_cons_of_mem clause ho)
    unfold violatedClauses
    split
    · next hv => exact ⟨.unchanged, fun _ => ⟨clause, hc, .inl hv⟩⟩
    · exact ih hl
    · obtain ⟨hs, hr⟩ : Solves s e a c l
          (supported s e clause a l).2 ∧ _ := supported_spec hc
      obtain ⟨hn, hco⟩ := @ih (supported s e clause a l).2 hl
      dsimp only
      split_ifs with hf
      · refine ⟨hs.trans hn, fun hv => ?_⟩
        obtain ⟨o, ho, hca⟩ := hco hv
        refine ⟨o, ho, hca.imp_right ?_⟩
        rintro ⟨l', hl', hr⟩
        exact ⟨l', hs.trans hl', hr⟩
      · exact ⟨hs, fun _ => ⟨clause, hc, .inr ⟨l, .unchanged, hr (by simpa using hf)⟩⟩⟩

theorem mem_enforcedClauses :
    clause ∈ enforcedClauses s enforced ↔ ∃ index, s.clauses[index]? = some clause ∧
      enforced index = true := by
  simp [enforcedClauses, mem_map, mem_filter, mem_zipIdx_iff_getElem?]

def affected (solver : Solver) (enforced : ℕ → Bool) (assigned : ℕ) : List Clause :=
  (enforcedClauses solver enforced).filter fun clause =>
    clause.vars.isEmpty || clause.vars.contains assigned

theorem violatedAfter_spec {assigned : ℕ} : Solves s e a (affected s enforced assigned) l
        (violatedAfter s e enforced assigned a l).2 ∧
        ((violatedAfter s e enforced assigned a l).1 = true →
        Conflict s e a (affected s enforced assigned) l) := by
  unfold violatedAfter
  split_ifs with hu
  · obtain ⟨clause, hc, hv⟩ := any_eq_true.mp hu
    simp only [Bool.and_eq_true, decide_eq_true_eq] at hv
    exact ⟨.unchanged, fun _ => ⟨clause, by simp [affected, hc, hv.1], .inl hv.2⟩⟩
  · exact violatedClauses_spec fun clause hc => by
      simp only [mem_filter] at hc
      exact mem_filter.mpr ⟨hc.1, by rw [hc.2, Bool.or_true]⟩

end Equations

end FsimRuntime.Constraint
