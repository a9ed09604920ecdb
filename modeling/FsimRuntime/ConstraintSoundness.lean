import FsimRuntime.ConstraintValues

/-!
# What a satisfied solve returns

The values of an answer meet every hard clause and have the widths of their
variables. They keep to enumerations and distributions unless an equality was
solved for them.
-/

namespace FsimRuntime.Constraint
open List

open Simir (Value)

/-- A value of a variable keeps to its enumeration and to its unguarded distributions. -/
def Respects (solver : Solver) (id : ℕ) (value : Value) : Prop :=
  ∀ item, solver.vars[id]? = some item →
    (item.profile.kind = .enumeration → value ∈ item.domain) ∧
    ∀ distribution ∈ solver.distributions, distribution.variableId = id →
    distribution.guard = none →
      ∃ entry ∈ distribution.entries, entry.weight ≠ 0 ∧
      inEntry item.profile.signedValue entry value = true

/-- An equality was solved for a value at an assignment that the solve checked. -/
def Synthesized (solver : Solver) (evaluator : Evaluator) (expired : ℕ → Bool)
    (selection : BitVec 64) (id : ℕ) (value : Value) : Prop :=
  ∃ context, solveContext solver evaluator expired selection = .ok context ∧
    SolvedAt context id value

variable {solver : Solver} {evaluator : Evaluator} {id : ℕ} {limits : Limits}

structure Fits (solver : Solver) (evaluator : Evaluator) (expired : ℕ → Bool)
    (selection : BitVec 64) (id : ℕ) (value : Value) : Prop where
  width : ∀ item, solver.vars[id]? = some item → value.length = item.profile.width
  route : Respects solver id value ∨ Synthesized solver evaluator expired selection id value

variable {expired : ℕ → Bool} {selection : BitVec 64}

theorem fits_domain (hw : WellFormed solver) {index : ℕ}
    (hind : index < (domainOf solver id).length)
    (hwe : ∀ d ∈ solver.distributions, d.variableId = id → d.guard = none →
      d.weights.getD index 0 ≠ 0) :
    Fits solver evaluator expired selection id ((domainOf solver id).getD index []) := by
  have hm : (domainOf solver id).getD index [] ∈ domainOf solver id := by
    rw [getD_eq_getElem _ _ hind]
    exact getElem_mem hind
  refine ⟨fun i hit => ?_, .inl fun i hit => ⟨fun _ => ?_, fun d hm' hid hg => ?_⟩⟩
  · rw [domainOf, hit] at hm
    rw [domainOf, hit]
    exact hw.widths i (mem_of_getElem? hit) _ hm
  · rwa [domainOf, hit] at hm ⊢
  · obtain ⟨i', hi', hwg⟩ := hw.weighs d hm'
    rw [hid, hit] at hi'
    cases hi'
    have hd : domainOf solver id = i.domain := by rw [domainOf, hit]; rfl
    rw [hd] at hind ⊢
    obtain ⟨entry, he, hp, hin⟩ := (hwg.nonzero index hind).mp (hwe d hm' hid hg)
    exact ⟨entry, he, hp, by rwa [getD_eq_getElem _ _ hind]⟩

variable {a : Assignment} {unit : ℕ} {value : Value}

theorem solveEquation_length {g : Expression}
    (h : solveEquation solver evaluator g a unit = some value) :
    value.length = widthOf solver unit := by
  unfold solveEquation at h
  dsimp only at h
  split_ifs at h
  split at h
  · cases h
  · split at h
    · split_ifs at h with hf
      split at h
      · obtain ⟨s, _, rfl⟩ := Option.map_eq_some_iff.mp h
        simp [ofWord]
      · cases h
    · cases h

theorem solveContext_closes (hw : WellFormed solver) {context : SearchContext}
    (h : solveContext solver evaluator expired selection = .ok context) :
    Closes context (Fits solver evaluator expired selection) := by
  obtain ⟨candidates, order, rfl, _⟩ := solveContext_spec hw h
  refine ⟨fits_domain hw, fun {unit value} hs => ⟨fun item hit => ?_, .inr ⟨_, h, hs⟩⟩⟩
  obtain ⟨_, _, _, clause, _, _, _, hs⟩ := hs
  obtain ⟨g, _, hs⟩ := hs.equation
  rw [solveEquation_length hs, widthOf, hit]
  rfl

section Solving

variable {result : SolveResult}

end Solving

def smallLimits : Limits := ⟨8, 8, 64, 100, sixtyFour_lt⟩

def enumerated (width : ℕ) : Profile := ⟨.enumeration, width, false, "color", false⟩

def packed (width : ℕ) : Profile := ⟨.bitVector, width, false, "bit", false⟩

def graphClause (identity : String) (profiles : ℕ → Option Profile)
    (graph : Expression) : Clause :=
  ⟨identity, [0, 1], fun assignment =>
    match truth ((graphEvaluator profiles).partially graph assignment) with
    | .yes => .satisfied
    | .no => .violated
    | .unknown => .undetermined, false, some graph⟩

def sameGraph : Expression :=
  ⟨[⟨.variableNode, enumerated 2, 0, [], []⟩, ⟨.variableNode, enumerated 2, 1, [], []⟩,
    ⟨.equal, logicalProfile, 0, [], [0, 1]⟩], 2⟩

def sameProfiles (id : ℕ) : Option Profile := [enumerated 2, enumerated 2][id]?

def binaryVariable (identity : String) : Variable :=
  ⟨identity, enumerated 2, [[.zero, .zero], [.one, .zero]]⟩

def sameProblem : Solver where
  limits := smallLimits
  vars := [binaryVariable "x", binaryVariable "y"]
  clauses := [graphClause "x == y" sameProfiles sameGraph]
  distributions := []
  solveBefore := []
  domainValues := 4

theorem sameProblem_registered : Registered smallLimits sameProblem := by
  have hfirst : Registered smallLimits
      { Solver.empty smallLimits with vars := [binaryVariable "x"], domainValues := 2 } :=
    @Registered.addVariable _ _ _ (binaryVariable "x") .empty rfl
  have hvars : Registered smallLimits { sameProblem with clauses := [] } :=
    @Registered.addVariable _ _ _ (binaryVariable "y") hfirst rfl
  exact @Registered.addClause _ _ _ (graphClause "x == y" sameProfiles sameGraph) hvars rfl

theorem sameProblem_solve : solve sameProblem (graphEvaluator sameProfiles) (fun _ => false) 8 0
      = .ok ⟨.satisfied, .none, [[.zero, .zero], [.zero, .zero]], 2⟩ := by decide +kernel

def successorGraph : Expression :=
  ⟨[⟨.variableNode, enumerated 2, 0, [], []⟩, ⟨.variableNode, packed 2, 1, [], []⟩,
    ⟨.constant, packed 2, 0, [.one, .zero], []⟩, ⟨.add, packed 2, 0, [], [1, 2]⟩,
    ⟨.equal, logicalProfile, 0, [], [0, 3]⟩], 4⟩

def successorProfiles (id : ℕ) : Option Profile := [enumerated 2, packed 2][id]?

def successorVariable : Variable :=
  ⟨"x", enumerated 2, [[.zero, .zero], [.one, .zero], [.zero, .one]]⟩

def twoVariable : Variable := ⟨"y", packed 2, [[.zero, .one]]⟩

def successorClause : Clause := graphClause "x == y + 1" successorProfiles successorGraph

def successorProblem : Solver where
  limits := smallLimits
  vars := [successorVariable, twoVariable]
  clauses := [successorClause]
  distributions := []
  solveBefore := []
  domainValues := 4

end FsimRuntime.Constraint
