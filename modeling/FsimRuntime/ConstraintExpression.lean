import FsimRuntime.ConstraintOrder
import FsimRuntime.SimirValue

/-!
# The values of constraint expressions

`evaluate_graph` on graphs of `SystemVerilogConstraintExpressionBuilder`. The
operators work on the bits of their operands, without the shortcuts of the
source through single words. An exception stands for its text.
-/

namespace FsimRuntime.Constraint
open List

open Simir (Value ofBool hasUnknown isZero isOne isAllOnes addKnown compareKnownUnsigned signBit)

variable (operation : Operator)

def isUnary : Bool :=
  operation ∈ [.unaryPlus, .unaryMinus, .bitwiseNot, .logicalNot]

def isShift : Bool :=
  operation ∈ [.shiftLeft, .shiftRight, .arithmeticShiftRight]

def isArithmetic : Bool :=
  operation ∈ [.add, .subtract, .multiply, .power, .divide, .modulo]

def isBitwise : Bool :=
  operation ∈ [.bitwiseAnd, .bitwiseOr, .bitwiseXor]

def isComparison : Bool :=
  operation ∈
    [.equal, .notEqual, .caseEqual, .caseNotEqual, .less, .lessEqual, .greater, .greaterEqual]

def logicalProfile : Profile := ⟨.bitVector, 1, false, "bit", false⟩

def resize (value : Value) (width : ℕ) (signExtend : Bool) : Value :=
  let extension := if signExtend && value ≠ [] then signBit value else .zero
  value.take width ++ replicate (width - value.length) extension

def negateFrom : Bool → Value → Value
  | _, [] => []
  | carry, bit :: value =>
    let inverted : Bool := bit ≠ .one
    ofBool (inverted != carry) :: negateFrom (inverted && carry) value

def negateKnown (value : Value) : Value := negateFrom true value

/-- The rows of a product. -/
def multiplyKnown (left right : Value) : Value :=
  (range right.length).foldl (fun result bit =>
    if right.getD bit .x = .one then
      addKnown result ((replicate bit Logic4.zero ++ left).take left.length)
    else result) (replicate left.length .zero)

def oneValue (width : ℕ) : Value := (replicate width .zero).set 0 .one

def powerBits : Value → Value → Value → Value
  | [], result, _ => result
  | [bit], result, factor => if bit = .one then multiplyKnown result factor else result
  | bit :: exponent, result, factor =>
    powerBits exponent (if bit = .one then multiplyKnown result factor else result)
      (multiplyKnown factor factor)

def powerKnown (base exponent : Value) (signedExponent : Bool) : Value :=
  if signedExponent && signBit exponent = .one then
    if isZero base then replicate base.length .x
    else if isOne base then oneValue base.length
    else if isAllOnes base then if exponent.headD .x = .one then base else oneValue base.length
    else replicate base.length .zero
  else powerBits exponent (oneValue base.length) base

structure Division where
  quotient : Value
  remainder : Value
  deriving DecidableEq, Repr

/-- The bits of the dividend that are left, the most significant first. -/
def divideBits (divisor : Value) : Value → Division → Division
  | [], divided => divided
  | bit :: rest, divided =>
    let remainder := bit :: divided.remainder.dropLast
    divideBits divisor rest
      (if 0 ≤ compareKnownUnsigned remainder divisor
        then ⟨divided.quotient.set rest.length .one, addKnown remainder (negateKnown divisor)⟩
        else ⟨divided.quotient, remainder⟩)

def divideUnsigned (dividend divisor : Value) : Division :=
  divideBits divisor dividend.reverse
    ⟨replicate dividend.length .zero, replicate dividend.length .zero⟩

inductive Truth
  | no | yes | unknown
  deriving DecidableEq, Repr

def truth (value : Value) : Truth :=
  if value.any (· = .one) then .yes else if hasUnknown value then .unknown else .no

def truthValue : Truth → Value
  | .yes => [.one]
  | .no => [.zero]
  | .unknown => [.x]

def ofDecision (decision : Bool) : Value := truthValue (if decision then .yes else .no)

def bitwise (left right : Value) : Value :=
  zipWith (match operation with
    | .bitwiseAnd => logicAnd
    | .bitwiseOr => logicOr
    | _ => logicXor) left right

def orderOf (left right : Value) (signedValues : Bool) : ℤ :=
  let leftNegative : Bool := signBit left = .one
  let rightNegative : Bool := signBit right = .one
  if signedValues && leftNegative != rightNegative then if leftNegative then -1 else 1
  else compareKnownUnsigned left right

def accepts (order : ℤ) : Bool :=
  match operation with
  | .equal => order = 0
  | .notEqual => order ≠ 0
  | .less => order < 0
  | .lessEqual => order ≤ 0
  | .greater => 0 < order
  | _ => 0 ≤ order

def comparison (left right : Value) (signedValues : Bool) : Value :=
  if operation = .caseEqual then ofDecision (left = right)
  else if operation = .caseNotEqual then ofDecision (left ≠ right)
  else if hasUnknown left || hasUnknown right then truthValue .unknown
  else ofDecision (accepts operation (orderOf left right signedValues))

def divideSigned (left right : Value) (signedValues : Bool) : Value :=
  let leftNegative := signedValues && signBit left = .one
  let rightNegative := signedValues && signBit right = .one
  let divided := divideUnsigned (if leftNegative then negateKnown left else left)
    (if rightNegative then negateKnown right else right)
  if operation = .divide then
    if leftNegative != rightNegative then negateKnown divided.quotient else divided.quotient
  else if leftNegative then negateKnown divided.remainder else divided.remainder

def arithmetic (left right : Value) (signedValues signedExponent : Bool) : Value :=
  if hasUnknown left || hasUnknown right then replicate left.length .x
  else match operation with
    | .add => addKnown left right
    | .subtract => addKnown left (negateKnown right)
    | .multiply => multiplyKnown left right
    | .power => powerKnown left right signedExponent
    | _ => if isZero right then replicate left.length .x
      else divideSigned operation left right signedValues

/-- The amount of a shift, as far as the width needs it. -/
def shiftDistance (width : ℕ) (amount : Value) : ℕ :=
  amount.reverse.foldl (fun distance bit =>
    if width < distance then distance else distance * 2 + if bit = .one then 1 else 0) 0

def shift (value amount : Value) (signedValue : Bool) : Value :=
  if hasUnknown amount then replicate value.length .x
  else
    let distance := shiftDistance value.length amount
    let fill :=
      if operation = .arithmeticShiftRight && signedValue && value ≠ [] then signBit value
      else .zero
    (range value.length).map fun index =>
      if operation = .shiftLeft then
        if distance ≤ index then value.getD (index - distance) .x else fill
      else if distance < value.length - index then value.getD (index + distance) .x else fill

def truthNot : Truth → Truth
  | .yes => .no
  | .no => .yes
  | .unknown => .unknown

def truthAnd (left right : Truth) : Truth :=
  if left = .no ∨ right = .no then .no else if left = .yes ∧ right = .yes then .yes
  else .unknown

def truthOr (left right : Truth) : Truth :=
  if left = .yes ∨ right = .yes then .yes else if left = .no ∧ right = .no then .no
  else .unknown

section Nodes

structure Operand where
  profile : Profile
  value : Value

def unary (operation : Operator) (profile : Profile) (operand : Operand) : Except String Value :=
  match operation with
  | .unaryPlus =>
    if operand.value.length = profile.width then .ok operand.value
    else if profile.width = 0 then .error "constraint expression width must not be zero"
    else .ok (resize operand.value profile.width operand.profile.signedValue)
  | .unaryMinus =>
    .ok (if hasUnknown operand.value then replicate operand.value.length .x
      else negateKnown operand.value)
  | .logicalNot => .ok (truthValue (truthNot (truth operand.value)))
  | _ => .ok (operand.value.map logicNot)

def conditional (profile : Profile) (condition whenTrue whenFalse : Operand) :
    Except String Value :=
  if profile.width = 0 then .error "constraint expression width must not be zero"
  else
    let left := resize whenTrue.value profile.width whenTrue.profile.signedValue
    let right := resize whenFalse.value profile.width whenFalse.profile.signedValue
    .ok (match truth condition.value with
      | .yes => left
      | .no => right
      | .unknown => zipWith (fun a b => if a = b then a else .x) left right)

def binary (operation : Operator) (profile : Profile) (left right : Operand) :
    Except String Value :=
  if isShift operation then
    if profile.width = 0 then .error "constraint expression width must not be zero"
    else .ok (shift operation (resize left.value profile.width left.profile.signedValue) right.value
      profile.signedValue)
  else
    let width := max left.profile.width right.profile.width
    if width = 0 then .error "constraint expression width must not be zero"
    else
      let signedValues := left.profile.signedValue && right.profile.signedValue
      let lhs := resize left.value width left.profile.signedValue
      let rhs := resize right.value width right.profile.signedValue
      .ok (if isArithmetic operation then
        arithmetic operation lhs rhs signedValues right.profile.signedValue
        else if isBitwise operation then bitwise operation lhs rhs
        else if isComparison operation then comparison operation lhs rhs signedValues
        else if operation = .logicalAnd then truthValue (truthAnd (truth lhs) (truth rhs))
        else truthValue (truthOr (truth lhs) (truth rhs)))

variable (profiles : ℕ → Option Profile) (assignment : Assignment) (partially : Bool)

/-- A variable of the solver must have the profile that the node declares; one that holds state
may be declared otherwise. -/
def profileMatches (assigned declared : Profile) : Bool :=
  assigned.width = declared.width
    && (assigned.nominalType = "packed property" || assigned.nominalType = "integer"
      || assigned.kind = declared.kind && assigned.signedValue = declared.signedValue
        && assigned.nominalType = declared.nominalType && assigned.fourState = declared.fourState)

def variableValue (node : Node) : Except String Value :=
  match profiles node.variableId with
  | none => .error "constraint variable id is out of range"
  | some profile =>
    if !profileMatches profile node.profile then
      .error "constraint expression variable profile does not match the solver"
    else match assignment node.variableId with
      | some value => .ok value
      | none => if partially then .ok (replicate node.profile.width .x)
        else .error "constraint variable is not assigned"

/-- The value of a node from those of the nodes it reads. -/
def nodeValue (node : Node) (operands : List Operand) : Except String Value :=
  if node.operation = .variableNode then variableValue profiles assignment partially node
  else if node.operation = .constant then
    if node.constant.length ≠ node.profile.width then
      .error "constraint expression constant width is corrupt"
    else .ok node.constant
  else if isUnary node.operation then
    match operands with
    | [operand] => unary node.operation node.profile operand
    | _ => .error "unary constraint expression has invalid arity"
  else if node.operation = .conditional then
    match operands with
    | [condition, whenTrue, whenFalse] => conditional node.profile condition whenTrue whenFalse
    | _ => .error "conditional constraint expression has invalid arity"
  else
    match operands with
    | [left, right] => binary node.operation node.profile left right
    | _ => .error "binary constraint expression has invalid operation or arity"

def operandAt (nodes : List Node) (values : List Value) (id : ℕ) : Operand :=
  ⟨((nodes[id]?).map (·.profile)).getD logicalProfile, values.getD id []⟩

/-- Every node reads earlier ones. -/
def evaluateNode (nodes : List Node) (values : List Value) (node : Node) :
    Except String (List Value) :=
  if node.operands.any (values.length ≤ ·) then
    .error "constraint expression operand is not source ordered"
  else nodeValue profiles assignment partially node (node.operands.map (operandAt nodes values)) >>=
    fun value =>
    .ok (values ++ [value])

def evaluateGraph (graph : Expression) : Except String Value :=
  if graph.nodes.length ≤ graph.root then .error "constraint expression graph has no root"
  else graph.nodes.foldlM (evaluateNode profiles assignment partially graph.nodes) [] >>=
    fun values =>
    .ok (values.getD graph.root [])

variable {profiles assignment partially} {o : Assignment}

theorem evaluateNode_congr {n : List Node} {v : List Value} {node : Node}
    (h : node.operation = .variableNode → assignment node.variableId = o node.variableId) :
    evaluateNode profiles assignment partially n v node
      = evaluateNode profiles o partially n v node := by
  unfold evaluateNode nodeValue
  by_cases hv : node.operation = .variableNode
  · simp [variableValue, h hv]
  · simp [if_neg hv]

theorem evaluateGraph_congr {g : Expression}
    (h : ∀ id ∈ readVariables g, assignment id = o id) :
    evaluateGraph profiles assignment partially g = evaluateGraph profiles o partially g := by
  have hf (n : List Node) (v : List Value) (hno : ∀ node ∈ n, node ∈ g.nodes) :
      n.foldlM (evaluateNode profiles assignment partially g.nodes) v
        = n.foldlM (evaluateNode profiles o partially g.nodes) v := by
    induction n generalizing v with
    | nil => rfl
    | cons node n ih =>
      have hn : node.operation = .variableNode →
          assignment node.variableId = o node.variableId := by
        intro hv
        refine h _ (mem_map.mpr ⟨node, mem_filter.mpr ⟨hno node (by simp), ?_⟩, rfl⟩)
        simpa using hv
      rw [foldlM_cons, evaluateNode_congr hn]
      exact bind_congr fun next => ih next fun l hl => hno l (by simp [hl])
  unfold evaluateGraph
  rw [hf g.nodes [] fun _ hn => hn]

end Nodes

end FsimRuntime.Constraint
