import FsimRuntime.BinaryNumeral
import FsimRuntime.Logic
import FsimRuntime.Refusal

/-!
# Values of SimIR

Logic4 values as lists of their states, index zero first, with the operations
of `simir_arithmetic.cpp` that the constraint solver uses, bit by bit and
without their shortcuts through single words.
-/

namespace FsimRuntime.Simir

abbrev Value := List Logic4

def ofBool (value : Bool) : Logic4 := if value then .one else .zero

def hasUnknown (value : Value) : Bool := value.any fun bit => bit = .x || bit = .z

def isZero (value : Value) : Bool := value.all (· ≠ .one)

def isOne : Value → Bool
  | [] => false
  | bit :: rest => bit = .one && rest.all (· = .zero)

def isAllOnes (value : Value) : Bool := value.all (· = .one)

/-- The values with their most significant bits first. -/
def compareDown : Value → Value → ℤ
  | left :: lhs, right :: rhs =>
    if left = right then compareDown lhs rhs else if left = .one then 1 else -1
  | _, _ => 0

def compareKnownUnsigned (lhs rhs : Value) : ℤ := compareDown lhs.reverse rhs.reverse

def addFrom (carry : Bool) : Value → Value → Value
  | l :: lhs, r :: rhs =>
    let left : Bool := l = .one
    let right : Bool := r = .one
    ofBool ((left != right) != carry) ::
      addFrom ((left && right) || (carry && (left || right))) lhs rhs
  | _, _ => []

def addKnown (lhs rhs : Value) : Value := addFrom false lhs rhs

def signBit (value : Value) : Logic4 := value.getLastD .x

end FsimRuntime.Simir
