import FsimRuntime.SimirValue

/-!
# Registering a constraint problem

Variables with finite domains, clauses, distributions and solve-before pairs of
`SystemVerilogConstraintSolver`, with every check of their registration. A
clause is known by its evaluator; an expression is its graph of nodes. An
exception stands for its text.
-/

namespace FsimRuntime.Constraint

open Simir (Value signBit compareKnownUnsigned)

inductive DomainKind
  | bitVector | integer | enumeration
  deriving DecidableEq, Repr

structure Profile where
  kind : DomainKind
  width : ℕ
  signedValue : Bool
  nominalType : String
  fourState : Bool
  deriving DecidableEq, Repr

structure Variable where
  canonicalIdentity : String
  profile : Profile
  domain : List Value
  deriving DecidableEq, Repr

inductive Operator
  | variableNode | constant | unaryPlus | unaryMinus | bitwiseNot | logicalNot
  | add | subtract | multiply | power | divide | modulo | bitwiseAnd | bitwiseOr | bitwiseXor
  | equal | notEqual | caseEqual | caseNotEqual | less | lessEqual | greater | greaterEqual
  | logicalAnd | logicalOr | conditional | shiftLeft | shiftRight | arithmeticShiftRight
  deriving DecidableEq, Repr

structure Node where
  operation : Operator
  profile : Profile
  variableId : ℕ
  constant : Value
  operands : List ℕ
  deriving DecidableEq, Repr

structure Expression where
  nodes : List Node
  root : ℕ
  deriving DecidableEq, Repr

abbrev Assignment := ℕ → Option Value

inductive ClauseState
  | undetermined | satisfied | violated
  deriving DecidableEq, Repr

structure Clause where
  canonicalIdentity : String
  vars : List ℕ
  evaluate : Assignment → ClauseState
  soft : Bool
  expression : Option Expression

inductive WeightKind
  | perValue | acrossRange
  deriving DecidableEq, Repr

structure Entry where
  low : Value
  high : Value
  weight : ℕ
  weightKind : WeightKind
  deriving DecidableEq, Repr

structure Distribution where
  canonicalIdentity : String
  variableId : ℕ
  entries : List Entry
  guard : Option Expression

/-- A distribution with the weight of every value of its variable's domain. -/
structure RetainedDistribution extends Distribution where
  weights : List ℕ

/-- The number of domain values is bounded by a machine word. -/
structure Limits where
  maximumVariables : ℕ
  maximumClauses : ℕ
  maximumDomainValues : ℕ
  maximumSearchSteps : ℕ
  maximumDomainValues_lt : maximumDomainValues < 2 ^ 64

theorem sixtyFour_lt : 64 < 2 ^ 64 := by decide

structure Solver where
  limits : Limits
  vars : List Variable
  clauses : List Clause
  distributions : List RetainedDistribution
  solveBefore : List (ℕ × ℕ)
  domainValues : ℕ

def Solver.empty (limits : Limits) : Solver := ⟨limits, [], [], [], [], 0⟩

def ofWord (width word : ℕ) : Value :=
  (List.range width).map fun i => if word.testBit i then .one else .zero

def known (value : Value) : Bool := value.all fun bit => bit ≠ .x && bit ≠ .z

/-- The first difference from the top decides; single words are compared as integers to the same
end. -/
def compare (left right : Value) (signedValue : Bool) : ℤ :=
  let leftNegative := signBit left = .one
  let rightNegative := signBit right = .one
  if signedValue ∧ (leftNegative ↔ ¬ rightNegative) then if leftNegative then -1 else 1
  else compareKnownUnsigned left right

def inEntry (signedValue : Bool) (entry : Entry) (value : Value) : Bool :=
  known value && 0 ≤ compare value entry.low signedValue &&
    compare value entry.high signedValue ≤ 0

def addVariable (solver : Solver) (item : Variable) : Except String Solver :=
  if solver.limits.maximumVariables ≤ solver.vars.length then
    .error "constraint solver variable budget exceeded"
  else if item.canonicalIdentity = "" ∨ item.profile.width = 0 ∨ item.profile.nominalType = ""
      ∨ item.domain = [] then
    .error "constraint variable requires an identity, exact profile, and finite domain"
  else if ∃ existing ∈ solver.vars, existing.canonicalIdentity = item.canonicalIdentity then
    .error ("duplicate constraint variable '" ++ item.canonicalIdentity ++ "'")
  else if ∃ value ∈ item.domain, value.length ≠ item.profile.width then
    .error "constraint domain value does not match its exact profile"
  else if ¬ item.domain.Nodup then
    .error "constraint variable domain contains a duplicate value"
  else if solver.limits.maximumDomainValues - solver.domainValues < item.domain.length then
    .error "constraint solver domain-value budget exceeded"
  else .ok { solver with
    vars := solver.vars ++ [item]
    domainValues := solver.domainValues + item.domain.length }

def replaceDomain (solver : Solver) (id : ℕ) (domain : List Value) : Except String Solver :=
  match solver.vars[id]? with
  | none =>
    .error "constraint domain replacement requires a known variable and finite domain"
  | some retained =>
    if domain = [] then
      .error "constraint domain replacement requires a known variable and finite domain"
    else if ∃ distribution ∈ solver.distributions, distribution.variableId = id then
      .error "constraint domain cannot change after distribution registration"
    else if (∃ value ∈ domain, value.length ≠ retained.profile.width) ∨ ¬ domain.Nodup then
      .error "replacement constraint domain does not match its exact profile"
    else if retained.domain.length < domain.length
        ∧ solver.limits.maximumDomainValues - solver.domainValues <
          domain.length - retained.domain.length then
      .error "replacement constraint domain exceeds the domain-value budget"
    else .ok { solver with
      vars := solver.vars.set id { retained with domain }
      domainValues := solver.domainValues - retained.domain.length + domain.length }

def addClause (solver : Solver) (clause : Clause) : Except String Solver :=
  if solver.limits.maximumClauses ≤ solver.clauses.length then
    .error "constraint solver clause budget exceeded"
  else if clause.canonicalIdentity = "" then
    .error "constraint clause requires an identity and evaluator"
  else if ∃ existing ∈ solver.clauses,
    existing.canonicalIdentity = clause.canonicalIdentity then
    .error ("duplicate constraint clause '" ++ clause.canonicalIdentity ++ "'")
  else if ∃ id ∈ clause.vars, solver.vars.length ≤ id then
    .error "constraint clause references an unknown variable"
  else if ¬ clause.vars.Nodup then .error "constraint clause repeats a variable dependency"
  else .ok { solver with clauses := solver.clauses ++ [clause] }

def discardSoftClauses (solver : Solver) (ids : List ℕ) : Solver :=
  { solver with clauses := solver.clauses.filter fun clause =>
      !(clause.soft && clause.vars.any fun id => ids.contains id) }

def entryMatches (item : Variable) (entry : Entry) : ℕ :=
  item.domain.countP (inEntry item.profile.signedValue entry)

def validEntry (item : Variable) (entry : Entry) : Bool :=
  entry.low.length = item.profile.width && entry.high.length = item.profile.width
    && known entry.low && known entry.high
    && compare entry.low entry.high item.profile.signedValue ≤ 0

/-- The common denominator after an entry that is spread across its range. -/
def extendDenominator (item : Variable) (denominator : ℕ) (entry : Entry) : Except String ℕ :=
  if !validEntry item entry then
    .error "constraint distribution entry has an invalid range or weight"
  else if entry.weightKind = .acrossRange ∧ entryMatches item entry ≠ 0 then
    let factor := entryMatches item entry / Nat.gcd denominator (entryMatches item entry)
    if (2 ^ 64 - 1) / factor < denominator then
      .error "constraint distribution denominator overflows"
    else .ok (denominator * factor)
  else .ok denominator

def entryDivisor (item : Variable) (entry : Entry) : ℕ :=
  if entry.weightKind = .acrossRange then entryMatches item entry else 1

def addContribution (contribution : ℕ) (weight : ℕ) : Except String ℕ :=
  if 2 ^ 64 - 1 - weight < contribution then
    .error "overlapping constraint distribution weights overflow"
  else .ok (weight + contribution)

/-- The weights of the domain values after one more entry. -/
def addEntry (item : Variable) (denominator : ℕ) (weights : List ℕ) (entry : Entry) :
    Except String (List ℕ) :=
  if entryMatches item entry = 0 then .ok weights
  else
    let scale := denominator / entryDivisor item entry
    if (2 ^ 64 - 1) / scale < entry.weight then
      .error "constraint distribution weight normalization overflows"
    else (item.domain.zip weights).mapM fun (value, weight) =>
      if inEntry item.profile.signedValue entry value then
        addContribution (entry.weight * scale) weight
      else .ok weight

def distributionWeights (item : Variable) (entries : List Entry) : Except String (List ℕ) :=
  entries.foldlM (extendDenominator item) 1 >>= fun denominator =>
    entries.foldlM (addEntry item denominator) (List.replicate item.domain.length 0)

def addDistribution (solver : Solver) (distribution : Distribution) : Except String Solver :=
  match solver.vars[distribution.variableId]? with
  | none => .error "constraint distribution requires an identity, variable, and entries"
  | some item =>
    if distribution.canonicalIdentity = "" ∨ distribution.entries = [] then
      .error "constraint distribution requires an identity, variable, and entries"
    else if ∃ existing ∈ solver.distributions,
        existing.canonicalIdentity = distribution.canonicalIdentity then
      .error ("duplicate constraint distribution '" ++ distribution.canonicalIdentity ++ "'")
    else distributionWeights item distribution.entries >>= fun weights =>
      .ok { solver with distributions := solver.distributions ++ [{ distribution with weights }] }

/-- A pair reaches a variable through the registered pairs, as the search for a cycle finds it. -/
def reachesEarlier (edges : List (ℕ × ℕ)) (earlier : ℕ) : ℕ → List ℕ →
    List ℕ → Bool
  | 0, _, _ => false
  | _ + 1, [], _ => false
  | fuel + 1, current :: pending, visited =>
    if current = earlier then true
    else if current ∈ visited then reachesEarlier edges earlier fuel pending visited
    else reachesEarlier edges earlier fuel
      (((edges.filter (·.1 = current)).map (·.2)).reverse ++ pending) (current :: visited)

def addSolveBefore (solver : Solver) (earlier later : ℕ) : Except String Solver :=
  match solver.vars[earlier]?, solver.vars[later]? with
  | some item, some _ =>
    if earlier = later then .error "solve-before requires two distinct registered variables"
    else if (earlier, later) ∈ solver.solveBefore then .ok solver
    else if reachesEarlier solver.solveBefore earlier
        (solver.solveBefore.length + solver.vars.length + 2) [later] [] then
      .error ("solve-before dependency cycle reaches '" ++ item.canonicalIdentity ++ "'")
    else .ok { solver with solveBefore := solver.solveBefore ++ [(earlier, later)] }
  | _, _ => .error "solve-before requires two distinct registered variables"

/-- A solver that registrations have built. -/
inductive Registered (limits : Limits) : Solver → Prop
  | empty : Registered limits (.empty limits)
  | addVariable {solver solver' item} : Registered limits solver →
      addVariable solver item = .ok solver' → Registered limits solver'
  | replaceDomain {solver solver' id domain} : Registered limits solver →
      replaceDomain solver id domain = .ok solver' → Registered limits solver'
  | addClause {solver solver' clause} : Registered limits solver →
      addClause solver clause = .ok solver' → Registered limits solver'
  | discardSoftClauses {solver} (ids) : Registered limits solver →
      Registered limits (discardSoftClauses solver ids)
  | addDistribution {solver solver' distribution} : Registered limits solver →
      addDistribution solver distribution = .ok solver' → Registered limits solver'
  | addSolveBefore {solver solver' earlier later} : Registered limits solver →
      addSolveBefore solver earlier later = .ok solver' → Registered limits solver'

end FsimRuntime.Constraint
