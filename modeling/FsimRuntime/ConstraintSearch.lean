import FsimRuntime.ConstraintExpression
import FsimRuntime.FenwickTree

/-!
# The search for an assignment

`SystemVerilogConstraintSolver::solve`: the candidate values of every variable
in the order in which they are drawn, the backtracking search with forward
checking and solved equalities, and the soft clauses. The evaluation of
expressions is a parameter, and so are the readings of the clock. The count of
clause evaluations is left out.
-/

namespace FsimRuntime.Constraint

open Simir (Value)

section Values

/-- The value of an expression, and its value with unassigned variables unknown. -/
structure Evaluator where
  expression : Expression → Assignment → Value
  partially : Expression → Assignment → Value
  expression_congr : ∀ graph left right, (∀ id ∈ readVariables graph, left id = right id) →
    expression graph left = expression graph right

def graphEvaluator (profiles : ℕ → Option Profile) : Evaluator where
  expression graph assignment := (evaluateGraph profiles assignment false graph).toOption.getD []
  partially graph assignment := (evaluateGraph profiles assignment true graph).toOption.getD []
  expression_congr graph left right h := by rw [evaluateGraph_congr h]

variable (solver : Solver) (evaluator : Evaluator)

def domainOf (id : ℕ) : List Value := (solver.vars[id]?.map (·.domain)).getD []

def guardHolds (assignment : Assignment) (distribution : RetainedDistribution) : Bool :=
  match distribution.guard with
  | none => true
  | some guard =>
    (readVariables guard).all (fun id => (assignment id).isSome)
      && evaluator.expression guard assignment = [.one]

def weighing (assignment : Assignment) (id : ℕ) (guarded : Bool) : List RetainedDistribution :=
  solver.distributions.filter fun distribution => distribution.variableId = id
    && (distribution.guard.isNone || (guarded && guardHolds evaluator assignment distribution))

def composeWeight (left right : ℕ) : Except String ℕ :=
  if left ≠ 0 ∧ (2 ^ 64 - 1) / left < right then
    .error "composed constraint distribution weights overflow"
  else .ok (left * right)

def composeWeights (weights : List ℕ) (distribution : RetainedDistribution) :
    Except String (List ℕ) :=
  (weights.zip distribution.weights).mapM fun (left, right) => composeWeight left right

def addTotal (total weight : ℕ) : Except String ℕ :=
  if 2 ^ 64 - 1 - total < weight then .error "constraint distribution total weight overflows"
  else .ok (total + weight)

def mixed (value : BitVec 64) : BitVec 64 :=
  let value := (value ^^^ (value >>> 30)) * 0xbf58476d1ce4e5b9#64
  let value := (value ^^^ (value >>> 27)) * 0x94d049bb133111eb#64
  value ^^^ (value >>> 31)

def identityHash (identity : String) : BitVec 64 :=
  (identity.toList.flatMap String.utf8EncodeChar).foldl
    (fun value byte => (value ^^^ BitVec.ofNat 64 byte.toNat) * 1099511628211#64)
      14695981039346656037#64

def valueOrder (selection : BitVec 64) (assignment : Assignment) (id : ℕ) (guarded : Bool) :
    Except String (List ℕ) :=
  let count := (domainOf solver id).length
  let distributions := weighing solver evaluator assignment id guarded
  distributions.foldlM composeWeights (List.replicate count 1) >>= fun weights =>
    if distributions = [] then .ok (List.range count)
    else
      weights.foldlM addTotal 0 >>= fun total =>
        let weight := fun index => weights.getD index 0
        .ok (Fenwick.draws 64 count BitVec.toNat
          (fun state => mixed (state + 0x9e3779b97f4a7c15#64)) (weights.countP (· ≠ 0))
          (mixed (selection ^^^ identityHash (identityOf solver id))) total
          (Fenwick.plant 64 count weight count) weight)

end Values

section Candidates

variable (solver : Solver)

/-- The candidates of every variable as indices of its domain, and the values solved beyond it,
which follow the domain. -/
structure Lists where
  candidates : ℕ → List ℕ
  synthesized : ℕ → List Value

def valueAt (lists : Lists) (id index : ℕ) : Value :=
  if index < (domainOf solver id).length then (domainOf solver id).getD index []
  else (lists.synthesized id).getD (index - (domainOf solver id).length) []

def unassigned : Assignment := fun _ => none

def unaryVariable (clause : Clause) : Option ℕ :=
  match clause.vars with
  | first :: rest => if !clause.soft && rest.all (· = first) then some first else none
  | [] => none

def prune (candidates : ℕ → List ℕ) (clause : Clause) : ℕ → List ℕ :=
  match unaryVariable clause with
  | none => candidates
  | some id => Function.update candidates id ((candidates id).filter fun index =>
    clause.evaluate (Function.update unassigned id (some ((domainOf solver id).getD index []))) ≠
      .violated)

end Candidates

section Equations

variable (solver : Solver) (evaluator : Evaluator)

def knownWord (value : Value) : Option ℕ :=
  if value ≠ [] ∧ value.length ≤ 64 ∧ known value then some (avalWord value) else none

def consequent (graph : Expression) (assignment : Assignment) : ℕ → ℕ → Option ℕ
  | 0, root => some root
  | depth + 1, root =>
    match (graph.node root).operands with
    | [left, right] =>
      if (graph.node root).operation = .logicalOr ∧ left < graph.nodes.length then
        match (graph.node left).operands with
        | [inner] =>
          if (graph.node left).operation = .logicalNot then
            match knownWord (evaluator.partially { graph with root := inner } assignment) with
            | none => none
            | some word => if word = 0 then none else consequent graph assignment depth right
          else some root
        | _ => some root
      else some root
    | _ => some root

def sideDifference (graph : Expression) (assignment : Assignment)
    (unit unitWidth width left right at' : ℕ) : Option ℕ :=
  let assignment := Function.update assignment unit (some (ofWord unitWidth at'))
  match knownWord (evaluator.partially { graph with root := left } assignment),
    knownWord (evaluator.partially { graph with root := right } assignment) with
  | some left, some right => some ((left + 2 ^ 64 - right) % 2 ^ 64 % 2 ^ width)
  | _, _ => none

def affineSolution (width atZero atOne : ℕ) : Option ℕ :=
  let slope := (atOne + 2 ^ 64 - atZero) % 2 ^ 64 % 2 ^ width
  if slope = 1 then some ((2 ^ 64 - atZero) % 2 ^ 64 % 2 ^ width)
  else if slope = 2 ^ width - 1 then some atZero
  else none

def solveEquation (graph : Expression) (assignment : Assignment) (unit : ℕ) : Option Value :=
  let unitWidth := widthOf solver unit
  if unitWidth = 0 ∨ 64 < unitWidth ∨ graph.nodes.length ≤ graph.root then none
  else match consequent evaluator graph assignment 8 graph.root with
    | none => none
    | some root =>
      match (graph.node root).operands with
      | [left, right] =>
        let width := (graph.node left).profile.width
        if (graph.node root).operation ≠ .equal ∨ width = 0 ∨ 64 < width
            ∨ (graph.node right).profile.width ≠ width then none
        else match sideDifference evaluator graph assignment unit unitWidth width left right 0,
            sideDifference evaluator graph assignment unit unitWidth width left right 1 with
          | some atZero, some atOne =>
            (affineSolution width atZero atOne).map fun solution =>
              ofWord unitWidth (solution % 2 ^ unitWidth)
          | _, _ => none
      | _ => none

def addSolved (lists : Lists) (unit : ℕ) (value : Value) : Lists :=
  { candidates := Function.update lists.candidates unit
      (((domainOf solver unit).length + (lists.synthesized unit).length) :: lists.candidates unit)
    synthesized := Function.update lists.synthesized unit (lists.synthesized unit ++ [value]) }

def synthesize (clause : Clause) (unit : ℕ) (assignment : Assignment) (lists : Lists) :
    Bool × Lists :=
  match clause.expression with
  | none => (false, lists)
  | some graph =>
    if clause.soft || guardedVariable solver unit then (false, lists)
    else match solveEquation solver evaluator graph assignment unit with
      | none => (false, lists)
      | some value =>
        if clause.evaluate (Function.update assignment unit (some value)) ≠ .satisfied then
          (false, lists)
        else if value ∈ domainOf solver unit ∨ value ∈ lists.synthesized unit then
          (true, lists)
        else (true, addSolved solver lists unit value)

end Equations

section Checks

variable (solver : Solver) (evaluator : Evaluator)

def openVariables (clause : Clause) (assignment : Assignment) : List ℕ :=
  (clause.vars.filter fun id => (assignment id).isNone).dedup

def supported (clause : Clause) (assignment : Assignment) (lists : Lists) : Bool × Lists :=
  match openVariables clause assignment with
  | [unit] =>
    if 4096 < (lists.candidates unit).length then
      (true, (synthesize solver evaluator clause unit assignment lists).2)
    else if (lists.candidates unit).any fun index =>
        clause.evaluate
          (Function.update assignment unit (some (valueAt solver lists unit index))) ≠ .violated
      then (true, lists)
    else synthesize solver evaluator clause unit assignment lists
  | _ => (true, lists)

def violatedClauses (assignment : Assignment) : List Clause → Lists → Bool × Lists
  | [], lists => (false, lists)
  | clause :: rest, lists =>
    match clause.evaluate assignment with
    | .violated => (true, lists)
    | .satisfied => violatedClauses assignment rest lists
    | .undetermined =>
      let (found, lists) := supported solver evaluator clause assignment lists
      if found then violatedClauses assignment rest lists else (true, lists)

def enforcedClauses (enforced : ℕ → Bool) : List Clause :=
  (solver.clauses.zipIdx.filter fun (_, index) => enforced index).map (·.1)

def violatedAfter (enforced : ℕ → Bool) (assigned : ℕ) (assignment : Assignment)
    (lists : Lists) : Bool × Lists :=
  if (enforcedClauses solver enforced).any fun clause =>
      clause.vars.isEmpty && clause.evaluate assignment = .violated then (true, lists)
  else violatedClauses solver evaluator assignment
    ((enforcedClauses solver enforced).filter fun clause => clause.vars.contains assigned) lists

end Checks

section Search

inductive Resource
  | none | searchSteps | elapsedWork
  deriving DecidableEq, Repr

inductive Outcome
  | found | unsatisfiable | exhausted (resource : Resource)
  deriving DecidableEq, Repr

inductive Failure
  | thrown (text : String)
  | unfinished
  deriving DecidableEq, Repr

structure SearchContext where
  solver : Solver
  evaluator : Evaluator
  selection : BitVec 64
  expired : ℕ → Bool
  order : List ℕ
  allowed : ℕ → List ℕ

structure SearchState where
  assignment : Assignment
  nextIndex : ℕ → ℕ
  depth : ℕ
  lists : Lists
  steps : ℕ
  readings : ℕ

variable (context : SearchContext) (enforced : ℕ → Bool)

/-- The candidates of a guarded variable are drawn again when the search reaches it. -/
def rebuild (state : SearchState) (id : ℕ) : Except Failure Lists :=
  if state.nextIndex state.depth = 0 ∧ guardedVariable context.solver id then
    ((valueOrder context.solver context.evaluator context.selection state.assignment id
      true).mapError .thrown) >>= fun order =>
      let candidates := order.filter fun index => (context.allowed id).contains index
      .ok { state.lists with candidates := Function.update state.lists.candidates id candidates }
  else .ok state.lists

def backtrack (state : SearchState) (id : ℕ) : Outcome ⊕ SearchState :=
  if state.depth = 0 then .inl .unsatisfiable
  else .inr { state with
    assignment := Function.update state.assignment id none
    nextIndex := Function.update state.nextIndex state.depth 0
    depth := state.depth - 1 }

def complete (state : SearchState) : Except Failure (Option Outcome) :=
  if context.solver.clauses.any fun clause => clause.evaluate state.assignment = .undetermined then
    .error (.thrown "constraint clause remained undetermined for a complete assignment")
  else if (enforcedClauses context.solver enforced).all fun clause =>
      clause.evaluate state.assignment ≠ .violated then .ok (some .found)
  else .ok none

def assignNext (state : SearchState) (id : ℕ) : Bool × SearchState :=
  let index := ((state.lists.candidates id).getD (state.nextIndex state.depth) 0)
  let assignment :=
    Function.update state.assignment id (some (valueAt context.solver state.lists id index))
  let (violated, lists) :=
    violatedAfter context.solver context.evaluator enforced id assignment state.lists
  (violated, { state with
    assignment
    nextIndex := Function.update state.nextIndex state.depth (state.nextIndex state.depth + 1)
    lists
    steps := state.steps + 1 })

def tryNext (state : SearchState) (id : ℕ) : Except Failure (Option Outcome × SearchState) :=
  let (violated, state) := assignNext context enforced state id
  if violated then .ok (none, state)
  else if state.depth + 1 < context.solver.vars.length then
    .ok (none, { state with depth := state.depth + 1 })
  else complete context enforced state >>= fun outcome => .ok (outcome, state)

def searchStep (state : SearchState) : Except Failure (Option Outcome × SearchState) :=
  let state := { state with readings := state.readings + 1 }
  if context.expired (state.readings - 1) then .ok (some (.exhausted .elapsedWork), state)
  else
    let id := context.order.getD state.depth 0
    rebuild context state id >>= fun lists =>
      let state := { state with lists }
      if (lists.candidates id).length ≤ state.nextIndex state.depth then
        match backtrack state id with
        | .inl outcome => .ok (some outcome, state)
        | .inr state => .ok (none, state)
      else if context.solver.limits.maximumSearchSteps ≤ state.steps then
        .ok (some (.exhausted .searchSteps), state)
      else tryNext context enforced state id

def searchLoop : ℕ → SearchState → Except Failure (Outcome × SearchState)
  | 0, _ => .error .unfinished
  | fuel + 1, state =>
    searchStep context enforced state >>= fun (outcome, next) =>
      match outcome with
      | some outcome => .ok (outcome, next)
      | none => searchLoop fuel next

def search (fuel : ℕ) (lists : Lists) (steps readings : ℕ) :
    Except Failure (Outcome × SearchState) :=
  searchLoop context enforced fuel ⟨unassigned, fun _ => 0, 0, lists, steps, readings⟩

end Search

inductive SolveStatus
  | satisfied | unsatisfiable | resourceExhausted
  deriving DecidableEq, Repr

structure SolveResult where
  status : SolveStatus
  exhaustedResource : Resource
  values : List Value
  searchSteps : ℕ
  deriving DecidableEq, Repr

variable (solver : Solver)

def retainValues (assignment : Assignment) : List Value :=
  (List.range solver.vars.length).map fun id => (assignment id).getD []

def finish (outcome : Outcome) (values : List Value) (steps : ℕ) : SolveResult :=
  match outcome with
  | .found => ⟨.satisfied, .none, values, steps⟩
  | .unsatisfiable => ⟨.unsatisfiable, .none, [], steps⟩
  | .exhausted resource => ⟨.resourceExhausted, resource, [], steps⟩

/-- The soft clauses from the last one on: each is enforced when the enforced clauses stay
satisfiable with it. The last argument counts the clauses that are left. -/
def softClauses (context : SearchContext) (fuel : ℕ) :
    ℕ → (ℕ → Bool) → Assignment → SearchState → Except Failure SolveResult
  | 0, _, best, state => .ok (finish .found (retainValues context.solver best) state.steps)
  | index + 1, enforced, best, state =>
    match context.solver.clauses[index]? with
    | none => softClauses context fuel index enforced best state
    | some clause =>
      if !clause.soft then softClauses context fuel index enforced best state
      else
        let joined := Function.update enforced index true
        if clause.evaluate best = .satisfied then softClauses context fuel index joined best state
        else search context joined fuel state.lists state.steps state.readings >>=
          fun (outcome, state) =>
          match outcome with
          | .found => softClauses context fuel index joined state.assignment state
          | .unsatisfiable => softClauses context fuel index enforced best state
          | .exhausted _ => .ok (finish outcome [] state.steps)

def evaluateAll (assignment : Assignment) : List Clause → ClauseState → List ClauseState →
    ClauseState × List ClauseState
  | [], hard, soft => (hard, soft)
  | clause :: rest, hard, soft =>
    let state := clause.evaluate assignment
    if clause.soft then evaluateAll assignment rest hard (soft ++ [state])
    else if state = .violated then (state, soft)
    else evaluateAll assignment rest (if state = .undetermined then state else hard) soft

def solveEmpty : Except Failure SolveResult :=
  let (hard, soft) := evaluateAll unassigned solver.clauses .satisfied []
  if hard = .undetermined ∨ .undetermined ∈ soft then
    .error (.thrown "constraint clause remained undetermined for a complete assignment")
  else .ok (finish (if hard = .satisfied then .found else .unsatisfiable) [] 0)

def initialCandidates (evaluator : Evaluator) (selection : BitVec 64) :
    Except String (ℕ → List ℕ) :=
  (List.range solver.vars.length).mapM
    (fun id => valueOrder solver evaluator selection unassigned id false)
    >>= fun orders => .ok (solver.clauses.foldl (prune solver) fun id => orders.getD id [])

def hardClauses (index : ℕ) : Bool :=
  (solver.clauses[index]?.map fun clause => !clause.soft).getD false

def solveContext (evaluator : Evaluator) (expired : ℕ → Bool)
    (selection : BitVec 64) : Except Failure SearchContext :=
  (initialCandidates solver evaluator selection).mapError .thrown >>= fun candidates =>
    (variableOrder solver candidates).mapError .thrown >>= fun order =>
      .ok ⟨solver, evaluator, selection, expired, order, candidates⟩

/-- The fuel bounds the rounds of each search, `expired` tells whether a reading of the clock is
past the limit. -/
def solve (evaluator : Evaluator) (expired : ℕ → Bool) (fuel : ℕ)
    (selection : BitVec 64) : Except Failure SolveResult :=
  if expired 0 then .ok (finish (.exhausted .elapsedWork) [] 0)
  else if solver.vars = [] then solveEmpty solver
  else
    solveContext solver evaluator expired selection >>= fun context =>
      search context (hardClauses solver) fuel ⟨context.allowed, fun _ => []⟩ 0 1 >>=
        fun (outcome, state) =>
          match outcome with
          | .found =>
            softClauses context fuel solver.clauses.length
              (hardClauses solver) state.assignment state
          | _ => .ok (finish outcome [] state.steps)

end FsimRuntime.Constraint
