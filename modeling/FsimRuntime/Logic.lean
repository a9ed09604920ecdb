import Mathlib

/-!
# Four-state and nine-state scalars

The enumerations of `logic.hpp` with their tables. A four-state scalar is held
in two planes (0 = 00, 1 = 10, X = 11, Z = 01), a nine-state scalar as the four
bits of its ordinal.
-/

namespace FsimRuntime

inductive Logic4
  | zero | one | x | z
  deriving DecidableEq, Repr, Inhabited

inductive Logic9
  | u | x | zero | one | z | w | l | h | dontCare
  deriving DecidableEq, Repr, Inhabited

def parseLogic4 : Char → Option Logic4
  | '0' => some .zero
  | '1' => some .one
  | 'x' | 'X' => some .x
  | 'z' | 'Z' => some .z
  | _ => none

def parseLogic9 : Char → Option Logic9
  | 'u' | 'U' => some .u
  | 'x' | 'X' => some .x
  | '0' => some .zero
  | '1' => some .one
  | 'z' | 'Z' => some .z
  | 'w' | 'W' => some .w
  | 'l' | 'L' => some .l
  | 'h' | 'H' => some .h
  | '-' => some .dontCare
  | _ => none

def toLogic4 : Logic9 → Logic4
  | .zero | .l => .zero
  | .one | .h => .one
  | .z => .z
  | .u | .x | .w | .dontCare => .x

def toLogic9 : Logic4 → Logic9
  | .zero => .zero
  | .one => .one
  | .x => .x
  | .z => .z

def logicNot : Logic4 → Logic4
  | .zero => .one
  | .one => .zero
  | .x | .z => .x

def logicAnd (lhs rhs : Logic4) : Logic4 :=
  if lhs = .zero ∨ rhs = .zero then .zero
  else if lhs = .one ∧ rhs = .one then .one
  else .x

def logicOr (lhs rhs : Logic4) : Logic4 :=
  if lhs = .one ∨ rhs = .one then .one
  else if lhs = .zero ∧ rhs = .zero then .zero
  else .x

namespace Logic4

def known (value : Logic4) : Bool := value = .zero || value = .one

def aval : Logic4 → Bool
  | .one | .x => true
  | .zero | .z => false

def bval : Logic4 → Bool
  | .x | .z => true
  | .zero | .one => false

def plane (value : Logic4) (plane : ℕ) : Bool := if plane = 0 then value.aval else value.bval

def ofPlanes (aval bval : Bool) : Logic4 :=
  if !bval then if aval then .one else .zero
  else if aval then .x else .z

@[simp] theorem aval_ofPlanes (a b : Bool) : (ofPlanes a b).aval = a := by
  cases a <;> cases b <;> rfl

@[simp] theorem bval_ofPlanes (a b : Bool) : (ofPlanes a b).bval = b := by
  cases a <;> cases b <;> rfl

@[simp] theorem ofPlanes_aval_bval (value : Logic4) : ofPlanes value.aval value.bval = value := by
  cases value <;> rfl

theorem plane_ite (c : Prop) [Decidable c] (s t : Logic4) (p : ℕ) :
    (if c then s else t).plane p = if c then s.plane p else t.plane p := by split_ifs <;> rfl

end Logic4

def logicXor (lhs rhs : Logic4) : Logic4 :=
  if !lhs.known || !rhs.known then .x
  else if lhs = rhs then .zero
  else .one

namespace Logic9

def code : Logic9 → ℕ
  | .u => 0
  | .x => 1
  | .zero => 2
  | .one => 3
  | .z => 4
  | .w => 5
  | .l => 6
  | .h => 7
  | .dontCare => 8

def ofCode : ℕ → Logic9
  | 0 => .u
  | 2 => .zero
  | 3 => .one
  | 4 => .z
  | 5 => .w
  | 6 => .l
  | 7 => .h
  | 8 => .dontCare
  | _ => .x

theorem ofCode_of_lt {n : ℕ} (h : 8 < n) : ofCode n = .x := by
  match n, h with
  | n + 9, _ => rfl

theorem code_ofCode : ∀ n ≤ 8, (ofCode n).code = n := by decide

def plane (value : Logic9) (plane : ℕ) : Bool := value.code.testBit plane

def codeOfPlanes (p0 p1 p2 p3 : Bool) : ℕ :=
  p0.toNat + 2 * p1.toNat + 4 * p2.toNat + 8 * p3.toNat

def ofPlanes (p0 p1 p2 p3 : Bool) : Logic9 := ofCode (codeOfPlanes p0 p1 p2 p3)

theorem plane_ite (c : Prop) [Decidable c] (s t : Logic9) (p : ℕ) :
    (if c then s else t).plane p = if c then s.plane p else t.plane p := by split_ifs <;> rfl

@[simp] theorem ofPlanes_plane (value : Logic9) :
    ofPlanes (value.plane 0) (value.plane 1) (value.plane 2) (value.plane 3) = value := by
  cases value <;> rfl

theorem codeOfPlanes_plane_le (value : Logic9) :
    codeOfPlanes (value.plane 0) (value.plane 1) (value.plane 2) (value.plane 3) ≤ 8 := by
  cases value <;> decide

theorem plane_ofPlanes {p0 p1 p2 p3 : Bool} (h : codeOfPlanes p0 p1 p2 p3 ≤ 8) :
    (ofPlanes p0 p1 p2 p3).plane 0 = p0 ∧ (ofPlanes p0 p1 p2 p3).plane 1 = p1 ∧
      (ofPlanes p0 p1 p2 p3).plane 2 = p2 ∧ (ofPlanes p0 p1 p2 p3).plane 3 = p3 := by
  revert h
  cases p0 <;> cases p1 <;> cases p2 <;> cases p3 <;> decide

theorem plane_ofPlanes_normalized (p0 p1 p2 p3 : Bool) :
    (ofPlanes p0 p1 p2 p3).plane 0 = (p0 || (p3 && (p2 || p1 || p0))) ∧
      (ofPlanes p0 p1 p2 p3).plane 1 = (p1 && !(p3 && (p2 || p1 || p0))) ∧
      (ofPlanes p0 p1 p2 p3).plane 2 = (p2 && !(p3 && (p2 || p1 || p0))) ∧
      (ofPlanes p0 p1 p2 p3).plane 3 = (p3 && !(p3 && (p2 || p1 || p0))) := by
  cases p0 <;> cases p1 <;> cases p2 <;> cases p3 <;> decide

theorem plane_toLogic9 (value : Logic4) :
    (toLogic9 value).plane 0 = value.aval ∧ (toLogic9 value).plane 1 = !value.bval ∧
      (toLogic9 value).plane 2 = (!value.aval && value.bval) ∧
      (toLogic9 value).plane 3 = false := by
  cases value <;> decide

end Logic9

end FsimRuntime
