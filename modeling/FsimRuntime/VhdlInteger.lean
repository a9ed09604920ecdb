import FsimRuntime.BinaryNumeral
import FsimRuntime.PackedBits

/-!
# VHDL integer operations

The checked operations of `simir_arithmetic.cpp` on signed 32- and 64-bit
operands. Every `std::int64_t` result passes through `int64`, which fails where
the source would overflow; the operations give the exact result when the
operand width can hold it and an error of their own otherwise.
-/

namespace FsimRuntime.VhdlInteger
open List
open Packed (Bits)
open BinaryNumeral Int

inductive Error
  | invalidArgument (message : String)
  | packed (error : Packed.Error)
  | undefined

def overflow : Error := .invalidArgument "VHDL integer arithmetic overflow"

def unknownOperand : Error :=
  .invalidArgument "VHDL integer operand contains an unknown or high-impedance value"

abbrev Within (limit value : ℤ) : Prop := -limit ≤ value ∧ value < limit

def int64 (value : ℤ) : Except Error ℤ :=
  if Within (2 ^ 63) value then .ok value else .error .undefined

/-- The value of at most one word. -/
def knownSignedValue : Bits → Option ℤ
  | .logic4 states =>
    if states.isEmpty || !states.all Logic4.known then none
    else some (twosComplement (states.map (· = .one)))
  | .logic9 _ => none

def checkedIntegerOperand (value : Bits) : Except Error ℤ :=
  if value.width ≠ 32 ∧ value.width ≠ 64 then .error unknownOperand
  else match knownSignedValue value with
    | none => .error unknownOperand
    | some converted => .ok converted

def integerLimit (width : ℕ) : ℤ := if width = 64 then 2 ^ 63 else 2 ^ 31

def integerMinimum (width : ℕ) : ℤ := -integerLimit width

def integerMaximum (width : ℕ) : ℤ := integerLimit width - 1

/-- A conjunction that computes its bound only when its first part holds. -/
def beyond (test : Bool) (bound : ℤ) (exceeds : ℤ → Bool) : Except Error Bool :=
  if test then exceeds <$> int64 bound else .ok false

def checkedAddInteger (lhs rhs minimum maximum : ℤ) : Except Error (Option ℤ) := do
  if ← beyond (0 < rhs) (maximum - rhs) (· < lhs) then return none
  if ← beyond (rhs < 0) (minimum - rhs) (lhs < ·) then return none
  return some (← int64 (lhs + rhs))

def checkedSubtractInteger (lhs rhs minimum maximum : ℤ) : Except Error (Option ℤ) := do
  if ← beyond (rhs < 0) (maximum + rhs) (· < lhs) then return none
  if ← beyond (0 < rhs) (minimum + rhs) (lhs < ·) then return none
  return some (← int64 (lhs - rhs))

def multiplyOverflow (lhs rhs minimum maximum : ℤ) : Except Error Bool :=
  if 0 < lhs then
    if 0 < rhs then (decide <| · < lhs) <$> int64 (maximum.tdiv rhs)
    else (decide <| rhs < ·) <$> int64 (minimum.tdiv lhs)
  else if 0 < rhs then (decide <| lhs < ·) <$> int64 (minimum.tdiv rhs)
  else (decide <| lhs < ·) <$> int64 (maximum.tdiv rhs)

def checkedMultiplyInteger (lhs rhs minimum maximum : ℤ) : Except Error (Option ℤ) :=
  if lhs = 0 ∨ rhs = 0 then .ok (some 0)
  else if lhs = -1 ∧ rhs = minimum ∨ rhs = -1 ∧ lhs = minimum then .ok none
  else do
    if ← multiplyOverflow lhs rhs minimum maximum then return none
    return some (← int64 (lhs * rhs))

def packedInteger (width : ℕ) (value : ℤ) : Except Error Bits :=
  if width ≠ 32 ∧ width ≠ 64 ∨ value < integerMinimum width ∨
    integerMaximum width < value then
    .error overflow
  else (Bits.fromAvalBval width (BitVec.ofInt 64 value) 0).mapError .packed

inductive IntegerUnaryOperator
  | negate | absolute

def integerUnary (minimum value : ℤ) (operation : IntegerUnaryOperator) : Except Error ℤ :=
  if value = minimum then .error overflow
  else match operation with
    | .negate => int64 (-value)
    | .absolute => if value < 0 then int64 (-value) else .ok value

def integerUnaryValue (operation : IntegerUnaryOperator) (source : Bits) : Except Error Bits := do
  let value ← checkedIntegerOperand source
  integerUnary (integerMinimum source.width) value operation >>= packedInteger source.width

inductive IntegerBinaryOperator
  | add | subtract | multiply | power | divide | remainder | modulo

def orOverflow (checked : Except Error (Option ℤ)) : Except Error ℤ := do
  match ← checked with
  | none => throw overflow
  | some result => return result

def multiplyIf (needed : Bool) (lhs rhs minimum maximum : ℤ) : Except Error ℤ :=
  if needed then orOverflow (checkedMultiplyInteger lhs rhs minimum maximum) else .ok lhs

def powerLoop (minimum maximum result factor : ℤ) : ℕ → Except Error ℤ
  | 0 => .ok result
  | n + 1 => do
    let result ← multiplyIf ((n + 1) % 2 ≠ 0) result factor minimum maximum
    let factor ← multiplyIf ((n + 1) / 2 ≠ 0) factor factor minimum maximum
    powerLoop minimum maximum result factor ((n + 1) / 2)
termination_by exponent => exponent

def integerDivide (minimum lhs rhs : ℤ) : Except Error (ℤ × ℤ) :=
  if rhs = 0 then .error (.invalidArgument "VHDL integer division by zero")
  else if lhs = minimum ∧ rhs = -1 then .error overflow
  else do return (← int64 (lhs.tdiv rhs), lhs.tmod rhs)

def integerBinary (minimum maximum lhs rhs : ℤ) : IntegerBinaryOperator → Except Error ℤ
  | .add => orOverflow (checkedAddInteger lhs rhs minimum maximum)
  | .subtract => orOverflow (checkedSubtractInteger lhs rhs minimum maximum)
  | .multiply => orOverflow (checkedMultiplyInteger lhs rhs minimum maximum)
  | .power =>
    if rhs < 0 then .error (.invalidArgument "VHDL integer exponent must be nonnegative")
    else powerLoop minimum maximum 1 lhs rhs.toNat
  | .divide => do return (← integerDivide minimum lhs rhs).1
  | .remainder => do return (← integerDivide minimum lhs rhs).2
  | .modulo => do
    let (_, result) ← integerDivide minimum lhs rhs
    if result ≠ 0 ∧ ¬(result < 0 ↔ rhs < 0) then int64 (result + rhs) else return result

def integerBinaryValue (operation : IntegerBinaryOperator) (lhsValue rhsValue : Bits) :
    Except Error Bits :=
  if lhsValue.width ≠ rhsValue.width then
    .error (.invalidArgument "VHDL integer operand widths differ")
  else do
    let width := lhsValue.width
    let lhs ← checkedIntegerOperand lhsValue
    let rhs ← checkedIntegerOperand rhsValue
    integerBinary (integerMinimum width) (integerMaximum width) lhs rhs operation >>=
      packedInteger width

/-- The exact result, where the operation has one. -/
def exact (width : ℕ) : IntegerBinaryOperator → ℤ → ℤ → Option ℤ
  | .add, a, b => some (a + b)
  | .subtract, a, b => some (a - b)
  | .multiply, a, b => some (a * b)
  | .power, a, b => if b < 0 then none else some (a ^ b.toNat)
  | .divide, a, b => if b = 0 then none else some (a.tdiv b)
  | .remainder, a, b =>
    if b = 0 ∨ a = integerMinimum width ∧ b = -1 then none else some (a.tmod b)
  | .modulo, a, b => if b = 0 ∨ a = integerMinimum width ∧ b = -1 then none else some (a.fmod b)

def exactUnary : IntegerUnaryOperator → ℤ → ℤ
  | .negate, a => -a
  | .absolute, a => |a|

def Represents (width : ℕ) (bits : Bits) (value : ℤ) : Prop :=
  bits.width = width ∧ knownSignedValue bits = some value

/-- The result is the value, if there is one that the width can hold, and a thrown error
otherwise. -/
def Meets (width : ℕ) (result : Except Error Bits) (value : Option ℤ) : Prop :=
  match value.filter (Within (integerLimit width)) with
  | some v => ∃ bits, result = .ok bits ∧ Represents width bits v
  | none => ∃ error, result = .error error ∧ error ≠ .undefined

section Checks

variable {l lhs rhs value : ℤ} (hlimit : 1 < l ∧ l ≤ 2 ^ 63)
include hlimit

def fit (limit value : ℤ) : Except Error ℤ :=
  if Within limit value then .ok value else .error overflow

omit hlimit in
theorem int64_eq (h : Within (2 ^ 63) value) : int64 value = .ok value := if_pos h

theorem orOverflow_eq (e : Bool) (h : e = true ↔ ¬Within l value) :
    orOverflow (if e = true then pure none else return some (← int64 value)) = fit l value := by
  by_cases hw : Within l value
  · rw [if_neg (mt h.mp (not_not.mpr hw)), int64_eq (by omega), fit, if_pos hw]
    rfl
  · rw [if_pos (h.mpr hw), fit, if_neg hw]
    rfl

theorem checkedAdd_fit (hl : Within l lhs) (hlo : -l ≤ rhs) (hh : rhs ≤ l) :
    orOverflow (checkedAddInteger lhs rhs (-l) (l - 1)) = fit l (lhs + rhs) := by
  rcases lt_trichotomy rhs 0 with hr | rfl | hr
  · rw [← orOverflow_eq hlimit (lhs < -l - rhs) (by simp; omega)]
    simp [checkedAddInteger, beyond, hr, hr.not_gt, int64_eq (show Within _ (-l - rhs) by omega),
      bind, Except.bind]
  · rw [← orOverflow_eq hlimit false (by simp; omega)]
    simp [checkedAddInteger, beyond, bind, Except.bind]
  · rw [← orOverflow_eq hlimit (l - 1 - rhs < lhs) (by simp; omega)]
    simp [checkedAddInteger, beyond, hr, hr.not_gt,
      int64_eq (show Within _ (l - 1 - rhs) by omega), bind, Except.bind]

theorem checkedSubtract_fit (hl : Within l lhs) (hr : Within l rhs) :
    orOverflow (checkedSubtractInteger lhs rhs (-l) (l - 1)) = fit l (lhs - rhs) := by
  have ha := checkedAdd_fit hlimit hl (neg_le_neg hr.2.le) (neg_le.mp hr.1)
  simpa [checkedAddInteger, checkedSubtractInteger, sub_eq_add_neg] using ha

variable {a b f result : ℤ}

omit hlimit in
theorem lt_neg_tdiv {c : ℤ} (hc : 0 < c) (ha : 0 ≤ a) : b < -(a.tdiv c) ↔ b * c < -a := by
  rw [lt_neg, Int.tdiv_eq_ediv_of_nonneg ha, Int.ediv_lt_iff_lt_mul hc, neg_mul, lt_neg]

/-- The test for one sign of the product, which is compared with the limit of that sign. -/
theorem multiplyOverflow_eq (hl : lhs ≠ 0) (hr : rhs ≠ 0) :
    multiplyOverflow lhs rhs (-l) (l - 1) = .ok (decide ¬Within l (lhs * rhs)) := by
  have hm : int64 ((l - 1).tdiv rhs) = .ok ((l - 1).tdiv rhs) := by
    have := natAbs_tdiv_le_natAbs (l - 1) rhs
    exact int64_eq (by omega)
  have hmi : ∀ {c : ℤ}, 0 < c → int64 ((-l).tdiv c) = .ok (-l.tdiv c) := by
    intro c hc
    have := natAbs_tdiv_le_natAbs l c
    have := Int.tdiv_nonneg (show 0 ≤ l by omega) hc.le
    rw [Int.neg_tdiv, int64_eq (by omega)]
  rw [multiplyOverflow]
  rcases hl.lt_or_gt with hl | hl <;> rcases hr.lt_or_gt with hr | hr
  · have hp := mul_pos_of_neg_of_neg hl hr
    have hn : (l - 1).tdiv rhs = -((l - 1).tdiv (-rhs)) := by rw [Int.tdiv_neg, neg_neg]
    rw [if_neg hl.not_gt, if_neg hr.not_gt, hm, hn]
    refine congrArg Except.ok (decide_eq_decide.mpr ?_)
    rw [lt_neg_tdiv (neg_pos.mpr hr) (by omega), mul_neg]
    omega
  · have hp := mul_neg_of_neg_of_pos hl hr
    rw [if_neg hl.not_gt, if_pos hr, hmi hr]
    refine congrArg Except.ok (decide_eq_decide.mpr ?_)
    rw [lt_neg_tdiv hr (by omega)]
    omega
  · have hp := mul_neg_of_pos_of_neg hl hr
    rw [if_pos hl, if_neg hr.not_gt, hmi hl]
    refine congrArg Except.ok (decide_eq_decide.mpr ?_)
    rw [lt_neg_tdiv hl (by omega), mul_comm rhs]
    omega
  · have hp := mul_pos hl hr
    rw [if_pos hl, if_pos hr, hm]
    refine congrArg Except.ok (decide_eq_decide.mpr ?_)
    rw [Int.tdiv_eq_ediv_of_nonneg (by omega), Int.ediv_lt_iff_lt_mul hr]
    omega

theorem checkedMultiply_fit :
    orOverflow (checkedMultiplyInteger lhs rhs (-l) (l - 1)) = fit l (lhs * rhs) := by
  rw [checkedMultiplyInteger]
  split_ifs with hz hm
  · rw [mul_eq_zero.mpr hz, fit, if_pos (by omega)]
    rfl
  · have hp : lhs * rhs = l := by rcases hm with ⟨rfl, rfl⟩ | ⟨rfl, rfl⟩ <;> omega
    rw [fit, if_neg (by omega)]
    rfl
  · rw [not_or] at hz
    rw [multiplyOverflow_eq hlimit hz.1 hz.2]
    exact orOverflow_eq hlimit _ decide_eq_true_iff

theorem outside_mul {s : ℤ} (hv : ¬Within l value) (hs : 1 ≤ s) : ¬Within l (value * s) := by
  rcases lt_or_ge value 0 with hn | hp
  · have := mul_le_of_one_le_right hn.le hs
    omega
  · have := le_mul_of_one_le_right hp hs
    omega

/-- A square that exceeds the limits is not `limit` itself, so its negative exceeds them too. -/
theorem outside_square (hs : ∀ x : ℤ, x * x ≠ l) {e : ℕ} (hsq : ¬Within l (f * f))
    (hr : result ≠ 0) (he : e ≠ 0) : ¬Within l (result * (f * f) ^ e) := by
  have hn := mul_self_nonneg f
  have hp : l + 1 ≤ (f * f) ^ e := by
    have := hs f
    exact (show l + 1 ≤ f * f by omega).trans (le_self_pow₀ (by omega) he)
  rcases hr.lt_or_gt with hne | hpo
  · have := mul_le_mul_of_nonneg_right (show result ≤ -1 by omega) (hp.trans' (by omega))
    omega
  · have := le_mul_of_one_le_left (hp.trans' (by omega)) (show 1 ≤ result by omega)
    omega

theorem powerLoop_fit (hsq : ∀ x : ℤ, x * x ≠ l) (e : ℕ) (hr : Within l result)
    (hz : result = 0 → f = 0) : powerLoop (-l) (l - 1) result f e = fit l (result * f ^ e) := by
  induction e using Nat.strong_induction_on generalizing result f with
  | h e ih =>
  cases e with
  | zero => rw [powerLoop, pow_zero, mul_one, fit, if_pos hr]
  | succ n =>
    have hpo : f ^ (n + 1) =
        f ^ ((n + 1) % 2) * (f * f) ^ ((n + 1) / 2) := by
      rw [← pow_two, ← pow_mul, ← pow_add, Nat.mod_add_div]
    rw [powerLoop, hpo, ← mul_assoc]
    set product := result * f ^ ((n + 1) % 2) with hp
    have hf : multiplyIf ((n + 1) % 2 ≠ 0) result f (-l) (l - 1) =
        fit l product := by
      rcases Nat.mod_two_eq_zero_or_one (n + 1) with hb | hb <;> rw [hp, hb]
      · rw [pow_zero, mul_one, fit, if_pos hr]
        rfl
      · rw [pow_one, ← checkedMultiply_fit hlimit]
        rfl
    rw [hf]
    by_cases hw : Within l product
    · have hz' : product = 0 → f = 0 := fun he =>
        (mul_eq_zero.mp he).elim hz eq_zero_of_pow_eq_zero
      rw [fit, if_pos hw]
      by_cases hl : (n + 1) / 2 = 0
      · simp [hl, multiplyIf, powerLoop, fit, hw, bind, Except.bind]
      · rw [multiplyIf, if_pos (by simpa using hl), checkedMultiply_fit hlimit]
        by_cases hs : Within l (f * f)
        · rw [fit, if_pos hs]
          exact ih _ (by omega) hw fun he => by simp [hz' he]
        · have hn : product ≠ 0 := fun he => hs (by rw [hz' he]; omega)
          rw [fit, if_neg hs, fit, if_neg (outside_square hlimit hsq hs hn hl)]
          rfl
    · have hn : f ≠ 0 := by
        rintro rfl
        refine hw ?_
        rcases Nat.mod_two_eq_zero_or_one (n + 1) with hb | hb <;> rw [hp, hb]
        · rwa [pow_zero, mul_one]
        · omega
      have hsc : 1 ≤ (f * f) ^ ((n + 1) / 2) :=
        one_le_pow₀ (add_one_le_of_lt (mul_self_pos.mpr hn))
      rw [fit, if_neg hw, fit, if_neg (outside_mul hlimit hw hsc)]
      rfl

omit hlimit in
theorem fmod_eq_ite : a.fmod b =
    if a.tmod b ≠ 0 ∧ ¬(a.tmod b < 0 ↔ b < 0) then a.tmod b + b else a.tmod b := by
  have hp := tmod_nonneg (a := a) b
  have hn := tmod_nonneg (a := -a) b
  rw [neg_tmod] at hn
  simp only [fmod_eq_tmod, dvd_iff_tmod_eq_zero]
  grind

theorem integerDivide_eq (ha : Within l a) (hb : Within l b) (hz : b ≠ 0)
    (hn : ¬(a = -l ∧ b = -1)) :
    integerDivide (-l) a b = .ok (a.tdiv b, a.tmod b) ∧ Within l (a.tdiv b) ∧
      (a.tmod b).natAbs < b.natAbs := by
  have hin : Within l (a.tdiv b) := by
    by_cases ho : b = 1
    · rwa [ho, Int.tdiv_one]
    · by_cases hm : b = -1
      · rw [hm, Int.tdiv_neg, Int.tdiv_one]
        omega
      · have hd : (a.tdiv b).natAbs = a.natAbs / b.natAbs := natAbs_tdiv a b
        have : a.natAbs / b.natAbs ≤ a.natAbs / 2 := Nat.div_le_div_left (by omega) (by omega)
        omega
  refine ⟨?_, hin, natAbs_tmod a b ▸ Nat.mod_lt _ (natAbs_pos.mpr hz)⟩
  rw [integerDivide, if_neg hz, if_neg hn, int64_eq (by omega)]
  rfl

end Checks

section Values

variable {width : ℕ} {a b : ℤ} (hwidth : width = 32 ∨ width = 64)
include hwidth

omit hwidth in
theorem mul_self_ne {r l : ℕ} (hl : r * r < l)
    (hh : l < (r + 1) * (r + 1)) (x : ℤ) : x * x ≠ l := by
  rw [← natAbs_mul_self, ne_eq, natCast_inj]
  rcases Nat.lt_or_ge r x.natAbs with hr | hr
  · exact (hh.trans_le (Nat.mul_self_le_mul_self hr)).ne'
  · exact ((Nat.mul_self_le_mul_self hr).trans_lt hl).ne

theorem integerLimit_spec : (1 < integerLimit width ∧ integerLimit width ≤ 2 ^ 63) ∧
    ∀ x : ℤ, x * x ≠ integerLimit width := by
  rcases hwidth with rfl | rfl
  · exact ⟨by decide, @mul_self_ne 46340 (2 ^ 31) (by decide) (by decide)⟩
  · exact ⟨by decide, @mul_self_ne 3037000499 (2 ^ 63) (by decide) (by decide)⟩

theorem two_mul_integerLimit : 2 * integerLimit width = 2 ^ width := by
  rcases hwidth with rfl | rfl <;> rfl

omit hwidth in
theorem knownSignedValue_bits {bits : List Bool} (h : bits ≠ []) :
    knownSignedValue (.logic4 (bits.map fun bit => if bit then .one else .zero)) =
      some (twosComplement bits) := by
  have hk : ∀ bit : Bool, (if bit then Logic4.one else .zero).known = true := by decide
  simp [knownSignedValue, h, hk, Function.comp_def]

theorem packedInteger_ok (hin : Within (integerLimit width) a) :
    ∃ bits, packedInteger width a = .ok bits ∧ Represents width bits a := by
  set word := BitVec.ofInt 64 a with hw
  have hs : Packed.PackedLogic4.Logic4Word.state ⟨width, word, 0⟩ =
      (fun bit => if bit then .one else .zero) ∘ word.toNat.testBit := by
    funext i
    simp [Packed.PackedLogic4.Logic4Word.state, Logic4.ofPlanes, BitVec.getLsbD]
  have hp : packedInteger width a = .ok (.logic4
      (((List.range width).map word.toNat.testBit).map
        fun bit => if bit then .one else .zero)) := by
    rw [packedInteger, if_neg (by simp only [integerMinimum, integerMaximum]; omega),
      List.map_map, ← hs]
    rcases hwidth with rfl | rfl <;> rfl
  have hm : (word.toNat : ℤ) = a % 2 ^ 64 := by
    rw [BitVec.toNat_ofInt, toNat_of_nonneg (emod_nonneg _ (by decide))]
    rfl
  have hlimit := two_mul_integerLimit hwidth
  have hv : twosComplement ((List.range width).map word.toNat.testBit) = a := by
    refine twosComplement_testBits (by omega) (by omega) ?_
    rw [hm]
    exact emod_emod_of_dvd a (pow_dvd_pow 2 (by omega))
  refine ⟨_, hp, by simp [Bits.width], ?_⟩
  rw [knownSignedValue_bits (by simp; omega), hv]

theorem Represents.operand {bits : Bits} (h : Represents width bits a) :
    checkedIntegerOperand bits = .ok a ∧ Within (integerLimit width) a := by
  have hlimit := two_mul_integerLimit hwidth
  obtain ⟨rfl, hv⟩ := h
  rw [checkedIntegerOperand, if_neg (by omega), hv]
  refine ⟨rfl, ?_⟩
  cases bits with
  | logic9 => simp [knownSignedValue] at hv
  | logic4 s =>
    have hm := twosComplement_mem (s.map (· = .one))
    rw [knownSignedValue] at hv
    split_ifs at hv
    rw [Option.some.inj hv, length_map] at hm
    rw [Bits.width] at hlimit ⊢
    omega

/-- What an operation computes before its result is packed. -/
def Computes (width : ℕ) (result : Except Error ℤ) : Option ℤ → Prop
  | some value => result = fit (integerLimit width) value
  | none => ∃ error, result = .error error ∧ error ≠ .undefined

theorem Computes.meets {result : Except Error ℤ} {value : Option ℤ}
    (h : Computes width result value) : Meets width (result >>= packedInteger width) value := by
  cases value with
  | none =>
    obtain ⟨e, rfl, hn⟩ := h
    exact ⟨e, rfl, hn⟩
  | some value =>
    rw [show result = _ from h, fit, Meets, Option.filter_some]
    by_cases hin : Within (integerLimit width) value
    · rw [if_pos (decide_eq_true hin), if_pos hin]
      exact packedInteger_ok hwidth hin
    · rw [if_neg (by rwa [decide_eq_true_eq]), if_neg hin]
      exact ⟨overflow, rfl, nofun⟩

theorem integerUnary_computes (ha : Within (integerLimit width) a) (o : IntegerUnaryOperator) :
    Computes width (integerUnary (integerMinimum width) a o) (some (exactUnary o a)) := by
  obtain ⟨hlimit, -⟩ := integerLimit_spec hwidth
  cases o <;> simp only [Computes, fit, exactUnary, integerUnary, integerMinimum, int64] <;> grind

theorem integerBinary_computes (ha : Within (integerLimit width) a)
    (hb : Within (integerLimit width) b) (o : IntegerBinaryOperator) :
    Computes width (integerBinary (integerMinimum width) (integerMaximum width) a b o)
      (exact width o a b) := by
  obtain ⟨hlimit, hs⟩ := integerLimit_spec hwidth
  have hd : ∀ (f : ℤ × ℤ → Except Error ℤ) (value : ℤ),
      (Within (integerLimit width) (a.tdiv b) → (a.tmod b).natAbs < b.natAbs →
        f (a.tdiv b, a.tmod b) = .ok value ∧ Within (integerLimit width) value) →
      Computes width (integerDivide (integerMinimum width) a b >>= f)
        (if b = 0 ∨ a = integerMinimum width ∧ b = -1 then none else some value) := by
    intro f value hv
    by_cases hz : b = 0
    · rw [integerDivide, if_pos hz, if_pos (.inl hz)]
      exact ⟨_, rfl, nofun⟩
    · by_cases hl : a = integerMinimum width ∧ b = -1
      · rw [integerDivide, if_neg hz, if_pos hl, if_pos (.inr hl)]
        exact ⟨_, rfl, nofun⟩
      · obtain ⟨ho, hdi, hm⟩ := integerDivide_eq hlimit ha hb hz hl
        obtain ⟨hr, hin⟩ := hv hdi hm
        rw [if_neg (not_or.mpr ⟨hz, hl⟩), Computes, fit, if_pos hin, ← hr, integerMinimum, ho]
        rfl
  cases o with
  | add => exact checkedAdd_fit hlimit ha hb.1 hb.2.le
  | subtract => exact checkedSubtract_fit hlimit ha hb
  | multiply => exact checkedMultiply_fit hlimit
  | power =>
    simp only [exact, integerBinary]
    split_ifs with hn
    · exact ⟨_, rfl, nofun⟩
    · have := powerLoop_fit hlimit hs b.toNat (show Within _ 1 by omega)
        (show (1 : ℤ) = 0 → a = 0 by simp)
      rwa [one_mul] at this
  | divide =>
    by_cases hl : b ≠ 0 ∧ a = integerMinimum width ∧ b = -1
    · obtain ⟨-, rfl, rfl⟩ := hl
      simp [exact, Computes, integerBinary, integerDivide, integerMinimum, fit]
    · have := hd (fun r => pure r.1) (a.tdiv b) fun hdi _ => ⟨rfl, hdi⟩
      grind [exact, integerBinary]
  | remainder =>
    exact hd (fun r => pure r.2) (a.tmod b) fun _ hm => ⟨rfl, by omega⟩
  | modulo =>
    refine hd _ (a.fmod b) fun _ hm => ?_
    have hin : Within (integerLimit width) (a.fmod b) := by
      rw [fmod_eq_ite]
      split_ifs <;> omega
    refine ⟨?_, hin⟩
    rw [fmod_eq_ite] at hin ⊢
    simp only
    split_ifs at hin ⊢
    · exact int64_eq (by omega)
    · rfl

/-- On operands of 32 or 64 bits each operation gives the exact result when the width can hold
it and throws otherwise, with no overflow of `std::int64_t` on the way. -/
theorem operations_exact {left right : Bits} (hl : Represents width left a)
    (hr : Represents width right b) :
    (∀ operation, Meets width (integerBinaryValue operation left right)
      (exact width operation a b)) ∧
    ∀ operation, Meets width (integerUnaryValue operation left)
      (some (exactUnary operation a)) := by
  obtain ⟨hle, hli⟩ := hl.operand hwidth
  obtain ⟨hri, hrn⟩ := hr.operand hwidth
  refine ⟨fun operation => ?_, fun operation => ?_⟩
  · rw [integerBinaryValue, hl.1, hr.1, if_neg (not_not.mpr rfl), hle, hri]
    exact (integerBinary_computes hwidth hli hrn operation).meets hwidth
  · rw [integerUnaryValue, hle, hl.1]
    exact (integerUnary_computes hwidth hli operation).meets hwidth

end Values

def minusTwo : Bits := .logic4 (.zero :: replicate 31 .one)

def thirtyOne : Bits := .logic4 (replicate 5 .one ++ replicate 27 .zero)

theorem minusTwo_power_thirtyOne : ∃ bits, integerBinaryValue .power minusTwo thirtyOne =
      .ok bits ∧ Represents 32 bits (-2 ^ 31) := by
  have hl : Represents 32 minusTwo (-2) := ⟨rfl, by decide⟩
  have hr : Represents 32 thirtyOne 31 := ⟨rfl, by decide⟩
  have := (operations_exact (.inl rfl) hl hr).1 .power
  rwa [exact, if_neg (by decide), Meets, Option.filter_some, if_pos (by decide)] at this

end FsimRuntime.VhdlInteger
