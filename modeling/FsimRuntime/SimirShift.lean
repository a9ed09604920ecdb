import FsimRuntime.BinaryNumeral
import FsimRuntime.PackedStates

/-!
# Shifts and rotations

`shift_value` (`simir_logic.cpp`) with the word shift of
`simir_kernel_word_ops.hpp`. The result is described by the index that each of
its elements is taken from.
-/

namespace FsimRuntime.Shift
open Nat
open Packed (Bits Error sizeMax)
open BinaryNumeral List

inductive ShiftOperator
  | logicalLeft | logicalRight | arithmeticLeft | arithmeticRight | rotateLeft | rotateRight
  deriving DecidableEq, Repr

def reverseShift : ShiftOperator → ShiftOperator
  | .logicalLeft => .logicalRight
  | .logicalRight => .logicalLeft
  | .arithmeticLeft => .arithmeticRight
  | .arithmeticRight => .arithmeticLeft
  | .rotateLeft => .rotateRight
  | .rotateRight => .rotateLeft

variable (operation : ShiftOperator)

def ShiftOperator.rotating : Bool :=
  operation = .rotateLeft || operation = .rotateRight

def fillElement {σ : Type} (zero : σ) (states : List σ) : σ :=
  match operation with
  | .arithmeticRight => states.getD (states.length - 1) zero
  | .arithmeticLeft => states.getD 0 zero
  | _ => zero

namespace KernelWord

def mask (width : ℕ) : BitVec 64 :=
  if 64 ≤ width then BitVec.allOnes 64 else (1#64 <<< width) - 1

def word (bits : List Bool) : BitVec 64 := (BitVec.ofBoolListLE bits).setWidth 64

/-- One plane of the result of a shift by `amount`, with the plane of the fill element. -/
def shiftPlane (operation : ShiftOperator) (width amount : ℕ) (fill : Bool) (plane : BitVec 64) :
    BitVec 64 :=
  let m := mask width
  let fill := if fill then m else 0
  match operation with
  | .rotateLeft | .rotateRight =>
    let amount := amount % width
    if amount = 0 then plane &&& m
    else if operation = .rotateLeft then
      ((plane <<< amount) ||| (plane >>> (width - amount))) &&& m
    else ((plane >>> amount) ||| (plane <<< (width - amount))) &&& m
  | _ =>
    if width ≤ amount then fill
    else if amount = 0 then plane &&& m
    else if operation = .logicalLeft ∨ operation = .arithmeticLeft then
      ((plane <<< amount) &&& m) ||| (fill &&& mask amount)
    else
      let keep := mask (width - amount)
      ((plane >>> amount) &&& keep) ||| (fill &&& (m &&& ~~~keep))

/-- The operation and the magnitude that a word amount stands for. -/
def magnitude (operation : ShiftOperator) (amount : BitVec 64) (amountWidth : ℕ)
    (signedAmount : Bool) : ShiftOperator × ℕ :=
  let value := amount &&& mask amountWidth
  if signedAmount && value.getLsbD (amountWidth - 1) then
    (reverseShift operation, ((0 - value) &&& mask amountWidth).toNat)
  else (operation, value.toNat)

/-- The four-state word of a list of elements is a pair of planes. -/
def shift (operation : ShiftOperator) (states : List Logic4) (amount : List Logic4)
    (signedAmount : Bool) : List Logic4 :=
  let width := states.length
  if word (amount.map (·.bval)) &&& mask amount.length ≠ 0 then replicate width .x
  else
    let (operation, amount) :=
      magnitude operation (word (amount.map (·.aval))) amount.length signedAmount
    let fill := fillElement operation .zero states
    let a := shiftPlane operation width amount fill.aval (word (states.map (·.aval)))
    let b := shiftPlane operation width amount fill.bval (word (states.map (·.bval)))
    (range width).map fun i => Logic4.ofPlanes (a.getLsbD i) (b.getLsbD i)

end KernelWord

/-- The two's complement of an amount, from its least significant element. -/
def negateFrom (carry : Bool) : List Bool → List Bool
  | [] => []
  | bit :: bits => ((!bit) != carry) :: negateFrom (!bit && carry) bits

def rotateAmount (width amount rotateBit : ℕ) : List Bool → ℕ
  | [] => amount
  | bit :: bits =>
    rotateAmount width
      (if bit then
        if width - rotateBit ≤ amount then amount - (width - rotateBit) else amount + rotateBit
      else amount)
      (if width - rotateBit ≤ rotateBit then rotateBit - (width - rotateBit)
      else rotateBit + rotateBit) bits

def shiftAmount (width index amount : ℕ) : List Bool → ℕ
  | [] => amount
  | bit :: bits =>
    if bit then
      if 64 ≤ index ∨ width ≤ 2 ^ index then width
      else shiftAmount width (index + 1) (amount ||| 2 ^ index) bits
    else shiftAmount width (index + 1) amount bits

def move (value : Bits) (low width offset : ℕ) (result : Bits) : Except Error Bits := do
  let part ← value.extractBits low width
  result.insertBits part offset

/-- The value filled with the element that a shift brings in. -/
def filled : Bits → Except Error Bits
  | .logic4 states => Bits.ofWidth states.length (fillElement operation .zero states)
  | .logic9 states => do
    let result ← Bits.ofWidth states.length .zero
    pure (result.replace9 fun _ => some (fillElement operation .zero states))

def shiftBy (value : Bits) (amount : ℕ) : Except Error Bits := do
  let result ← filled operation value
  let kept := value.width - amount
  if value.width ≤ amount then pure result
  else if amount = 0 then pure value
  else match operation with
    | .rotateLeft => move value 0 kept amount result >>= move value kept amount 0
    | .rotateRight => move value amount kept 0 result >>= move value 0 amount kept
    | .logicalLeft | .arithmeticLeft => move value 0 kept amount result
    | .logicalRight | .arithmeticRight => move value amount kept 0 result

/-- `get(width() - 1U)`: the index wraps for an amount without elements. -/
def negative (signedAmount : Bool) (bits : List Bool) : Except Error Bool :=
  if signedAmount then do
    Packed.PackedLogic4.checkIndex ((bits.length + sizeMax) % (sizeMax + 1)) bits.length
    pure (bits.getLastD false)
  else pure false

def shiftBySerial (value : Bits) (bits : List Bool) (signedAmount : Bool) : Except Error Bits := do
  let negative ← negative signedAmount bits
  let operation := if negative then reverseShift operation else operation
  let magnitude := if negative then negateFrom true bits else bits
  shiftBy operation value
    (if operation.rotating then rotateAmount value.width 0 (1 % value.width) magnitude
    else shiftAmount value.width 0 0 magnitude)

def elements (value : Bits) : List Logic4 := (range value.width).map value.state4

def shiftValue (value amountValue : Bits) (signedAmount : Bool) : Except Error Bits :=
  let narrow := value.width ≠ 0 ∧ value.width ≤ 64 ∧ amountValue.width ≠ 0 ∧
    amountValue.width ≤ 64 ∧ amountValue.isLogic9 = false
  let amount := elements amountValue
  let serial := if amount.any (fun state => state = .x || state = .z)
    then Bits.ofWidth value.width .x
    else shiftBySerial operation value (amount.map (· = .one)) signedAmount
  match value with
  | .logic4 states =>
    if narrow then pure (.logic4 (KernelWord.shift operation states amount signedAmount))
    else serial
  | .logic9 states =>
    if narrow ∧ states.all (fun state => state = .zero || state = .one) ∧
        amount.all (fun state => !state.bval) then
      pure (.logic9 ((KernelWord.shift operation (states.map toLogic4) amount signedAmount).map
        fun state => if state.aval then .one else .zero))
    else serial

/-- The element of the value that comes to index `i`. -/
def origin (width amount i : ℕ) : Option ℕ :=
  match operation with
  | .logicalLeft | .arithmeticLeft => if amount ≤ i then some (i - amount) else none
  | .logicalRight | .arithmeticRight => if i + amount < width then some (i + amount) else none
  | .rotateLeft => some ((i + (width - amount % width)) % width)
  | .rotateRight => some ((i + amount) % width)

def shifted {σ : Type} (amount : ℕ) (zero : σ) (states : List σ) : List σ :=
  (range states.length).map fun i =>
    (origin operation states.length amount i).elim (fillElement operation zero states)
      (states.getD · zero)

def shiftedBits (amount : ℕ) : Bits → Bits
  | .logic4 states => .logic4 (shifted operation amount .zero states)
  | .logic9 states => .logic9 (shifted operation amount .zero states)

def exactShift (amount : ℤ) (value : Bits) : Bits :=
  shiftedBits (if amount < 0 then reverseShift operation else operation) amount.natAbs value

def amountOf (amountValue : Bits) (signedAmount : Bool) : ℤ :=
  let bits : List Bool := (elements amountValue).map (· = .one)
  if signedAmount then twosComplement bits else number bits

section Amounts

variable {width amount index : ℕ}

theorem number_negateFrom (bits : List Bool) :
    number (negateFrom false bits) + number bits + 1 = 2 ^ bits.length ∧
      number (negateFrom true bits) =
        if number bits = 0 then 0 else 2 ^ bits.length - number bits := by
  induction bits with
  | nil => simp [negateFrom, number]
  | cons bit bits ih =>
    cases bit
    · simp only [negateFrom, number]
      grind
    · simp only [negateFrom, number, length_cons, pow_succ]
      grind

theorem wrap_eq {a b : ℕ} (ha : a < width) (hb : b < width) :
    (if width - b ≤ a then a - (width - b) else a + b) = (a + b) % width := by
  split_ifs with h
  · rw [mod_eq_sub_mod (by omega), mod_eq_of_lt (by omega)]
    omega
  · rw [mod_eq_of_lt (by omega)]

theorem rotateAmount_eq {rotateBit : ℕ} (ha : amount < width) (hr : rotateBit < width)
    (bits : List Bool) :
    rotateAmount width amount rotateBit bits = (amount + rotateBit * number bits) % width := by
  induction bits generalizing amount rotateBit with
  | nil => simp [rotateAmount, number, mod_eq_of_lt ha]
  | cons bit bits ih =>
    have hp : 0 < width := by omega
    rw [rotateAmount, wrap_eq hr hr, wrap_eq ha hr]
    cases bit
    · rw [if_neg (by simp), ih ha (mod_lt _ hp), add_mod, mod_mul_mod, ← add_mod]
      simp only [number, Bool.toNat_false]
      ring_nf
    · rw [if_pos rfl, ih (mod_lt _ hp) (mod_lt _ hp), add_mod, mod_mod, mod_mul_mod, ← add_mod]
      simp only [number, Bool.toNat_true]
      ring_nf

theorem shiftAmount_spec (hw : width < 2 ^ 64) (ha : amount < 2 ^ index) (bits : List Bool) :
    (amount + 2 ^ index * number bits < width →
      shiftAmount width index amount bits = amount + 2 ^ index * number bits) ∧
    (width ≤ amount + 2 ^ index * number bits →
      width ≤ shiftAmount width index amount bits) := by
  induction bits generalizing index amount with
  | nil => simp [shiftAmount, number]
  | cons bit bits ih =>
    have hs : amount + 2 ^ index * number (bit :: bits) =
        amount + 2 ^ index * bit.toNat + 2 ^ (index + 1) * number bits := by
      rw [number]
      ring
    rw [shiftAmount, hs]
    cases bit
    · exact ih (ha.trans (Nat.pow_lt_pow_right (by decide) (Nat.lt_succ_self _)))
    · rw [if_pos rfl, Bool.toNat_true, mul_one]
      split_ifs with hl
      · have hp : width ≤ 2 ^ index := by
          rcases hl with hi | hp
          · exact hw.le.trans (Nat.pow_le_pow_right (by decide) hi)
          · exact hp
        exact ⟨fun h => by omega, fun _ => le_rfl⟩
      · have ho : amount ||| 2 ^ index = amount + 2 ^ index := by
          rw [Nat.or_comm, ← Nat.mul_one (2 ^ index), ← Nat.two_pow_add_eq_or_of_lt ha,
            Nat.add_comm]
        rw [ho]
        exact ih (by rw [pow_succ]; omega)

end Amounts

section Moves

variable {σ : Type} {operation : ShiftOperator} {width amount low len offset i : ℕ} {zero : σ}
  {v : List σ} {value result : Bits} {α β : Type}

theorem mod_of_rotate (hi : i < width) {k : ℕ} (hk : k < width) :
    (i + (width - k)) % width = if k ≤ i then i - k else i + (width - k) := by
  split_ifs with h
  · rw [mod_eq_sub_mod (by omega), mod_eq_of_lt (by omega)]
    omega
  · exact mod_eq_of_lt (by omega)

theorem getElem?_shifted : (shifted operation amount zero v)[i]? = if i < v.length then
    some ((origin operation v.length amount i).elim (fillElement operation zero v) (v.getD · zero))
    else none := by by_cases hi : i < v.length <;> simp [shifted, hi]

theorem map_fillElement (f : α → β) (o : ShiftOperator) (z : α) (v : List α) :
    f (fillElement o z v) = fillElement o (f z) (v.map f) := by
  cases o <;> simp [fillElement, length_map]

theorem map_shifted (f : α → β) {o : ShiftOperator} {n : ℕ} {z : α} (v : List α) :
    (shifted o n z v).map f = shifted o n (f z) (v.map f) := by
  simp only [shifted, map_map, length_map]
  refine map_congr_left fun i _ => ?_
  dsimp only [Function.comp]
  cases origin o v.length n i with
  | none => exact map_fillElement f o z v
  | some j => exact (getD_map _ _ f).symm

theorem shifted_of_le (hr : operation.rotating = false) (hn : v.length ≤ amount) :
    shifted operation amount zero v = replicate v.length (fillElement operation zero v) := by
  refine ext_getElem? fun i => ?_
  rw [getElem?_shifted]
  cases operation <;> simp only [origin] <;> first | grind | cases hr

/-- The nine-state view of a shifted value is the shifted view. -/
theorem shiftedBits_spec (operation : ShiftOperator) (amount : ℕ) (value : Bits) :
    (shiftedBits operation amount value).isLogic9 = value.isLogic9 ∧
    (shiftedBits operation amount value).width = value.width ∧
    ∀ i < value.width, (shiftedBits operation amount value).state9 i =
      (origin operation value.width amount i).elim (fillElement operation .zero value.states9)
        (value.states9.getD · .zero) := by
  have hs : (shiftedBits operation amount value).states9 =
      shifted operation amount .zero value.states9 := by
    cases value with
    | logic4 v => exact map_shifted toLogic9 v
    | logic9 v => rfl
  refine ⟨by cases value <;> rfl, by cases value <;> exact (length_map _).trans length_range,
    fun i hi => ?_⟩
  rw [Bits.state9, hs, getD_eq_getElem?_getD, getElem?_shifted, Bits.length_states9, if_pos hi]
  rfl

theorem move_spec (value : Bits) (low len offset : ℕ) (result : Bits)
    (hd : result.isLogic9 = value.isLogic9)
    (hw : result.width = value.width) (hl : 0 < len) (hv : low + len ≤ value.width)
    (hr : offset + len ≤ value.width) : ∃ r, move value low len offset result = .ok r ∧
      r.isLogic9 = value.isLogic9 ∧ r.width = value.width ∧ ∀ i, r.state9 i =
        if offset ≤ i ∧ i < offset + len then value.state9 (low + (i - offset))
        else result.state9 i := by
  obtain ⟨he, hw', hp, hs⟩ := Bits.extractBits_spec hl hv
  obtain ⟨r, hi, hrw, hrd, hrs⟩ :=
    @Bits.insertBits_spec result (value.slice low len) offset (by omega) (by omega)
  refine ⟨r, by rw [move, he]; exact hi, by rw [hrd, hp, hd, Bool.or_self], hrw.trans hw,
    fun i => ?_⟩
  rw [hrs, hw']
  split_ifs with h
  · exact hs _ (by omega)
  · rfl

theorem filled_spec (hw : value.width ≤ sizeMax / 4) : ∃ r, filled operation value = .ok r ∧
    r.isLogic9 = value.isLogic9 ∧ r.width = value.width ∧
      ∀ i < value.width, r.state9 i = fillElement operation .zero value.states9 := by
  cases value with
  | logic4 v =>
    refine ⟨_, Bits.ofWidth_eq hw _, rfl, length_replicate, fun i hi => ?_⟩
    rw [Bits.state9, Bits.states9, map_replicate, getD_replicate _ hi]
    exact map_fillElement toLogic9 operation .zero v
  | logic9 v =>
    rw [filled, show Bits.ofWidth v.length .zero = _ from Bits.ofWidth_eq hw .zero]
    refine ⟨_, rfl, rfl, (Bits.width_replace (fun _ => none) _).2.1.trans length_replicate,
      fun i hi => ?_⟩
    rw [Bits.state9_replace9, if_pos (by simpa [Bits.width] using hi)]
    rfl

/-- The moves of a shift put every element where the shift takes it from. -/
theorem shiftBy_eq (hw : value.width ≤ sizeMax / 4)
    (hr : operation.rotating = true → amount < value.width) :
    shiftBy operation value amount = .ok (shiftedBits operation amount value) := by
  obtain ⟨f, hf, hfd, hfw, hfs⟩ := @filled_spec operation value hw
  obtain ⟨hd, hwi, hs⟩ := shiftedBits_spec operation amount value
  have hst : ∀ j < value.width, value.states9.getD j .zero = value.state9 j := fun j hj => by
    rw [Bits.state9, getD_eq_getElem _ _ (by rwa [Bits.length_states9]),
      getD_eq_getElem _ _ (by rwa [Bits.length_states9])]
  have hx : ∀ r : Bits, r.isLogic9 = value.isLogic9 → r.width = value.width →
      (∀ i < value.width, r.state9 i = (origin operation value.width amount i).elim
        (fillElement operation .zero value.states9) (value.states9.getD · .zero)) →
      r = shiftedBits operation amount value := fun r h₁ h₂ h₃ =>
    Bits.ext_states (h₁.trans hd.symm) (h₂.trans hwi.symm) fun i hi => by
      rw [h₃ i (h₂ ▸ hi), hs i (h₂ ▸ hi)]
  rw [shiftBy, hf]
  change (if _ then _ else _) = _
  split_ifs with hle hz
  · refine congrArg _ (hx f hfd hfw fun i hi => ?_)
    cases operation with
    | rotateLeft | rotateRight => exact absurd (hr rfl) (by omega)
    | _ =>
      simp only [origin]
      grind
  · refine congrArg _ (hx value rfl rfl fun i hi => ?_)
    rw [hz]
    cases operation <;> simp only [origin, Nat.zero_mod, Nat.sub_zero, Nat.add_mod_right,
      Nat.add_zero, Nat.mod_eq_of_lt hi] <;> grind
  · cases operation with
    | rotateLeft =>
      obtain ⟨r, hm, hrd, hrw, hrs⟩ := move_spec value 0 (value.width - amount) amount f hfd hfw
        (by omega) (by omega) (by omega)
      obtain ⟨r', hm', hrd, hrw, hrs'⟩ :=
        move_spec value (value.width - amount) amount 0 r hrd hrw (by omega) (by omega) (by omega)
      rw [hm, ← hx r' hrd hrw fun i hi => ?_]
      · exact hm'
      · simp only [origin, Nat.mod_eq_of_lt (Nat.lt_of_not_le hle), Option.elim]
        rw [mod_of_rotate hi (by omega)]
        grind
    | rotateRight =>
      obtain ⟨r, hm, hrd, hrw, hrs⟩ := move_spec value amount (value.width - amount) 0 f hfd hfw
        (by omega) (by omega) (by omega)
      obtain ⟨r', hm', hrd, hrw, hrs'⟩ :=
        move_spec value 0 amount (value.width - amount) r hrd hrw (by omega) (by omega) (by omega)
      rw [hm, ← hx r' hrd hrw fun i hi => ?_]
      · exact hm'
      · have hk := mod_of_rotate hi (k := value.width - amount) (by omega)
        rw [Nat.sub_sub_self (by omega)] at hk
        simp only [origin, Option.elim]
        grind
    | logicalLeft | arithmeticLeft =>
      obtain ⟨r, hm, hrd, hrw, hrs⟩ := move_spec value 0 (value.width - amount) amount f hfd hfw
        (by omega) (by omega) (by omega)
      rw [← hx r hrd hrw fun i hi => ?_]
      · exact hm
      · rw [origin]
        grind
    | logicalRight | arithmeticRight =>
      obtain ⟨r, hm, hrd, hrw, hrs⟩ := move_spec value amount (value.width - amount) 0 f hfd hfw
        (by omega) (by omega) (by omega)
      rw [← hx r hrd hrw fun i hi => ?_]
      · exact hm
      · rw [origin]
        grind

end Moves

section Words

variable {operation : ShiftOperator} {width amount i : ℕ} {fill signed : Bool} {plane : BitVec 64}
  {bits : List Bool} {n : ℕ}

open KernelWord

theorem getLsbD_mask (n : ℕ) : (mask n).getLsbD i = decide (i < 64 ∧ i < n) := by
  rw [mask]
  split_ifs with h
  · rw [BitVec.getLsbD_allOnes, decide_eq_decide]
    omega
  · rw [show (1#64 <<< n) - 1 = _ from BitWords.shiftLeft_sub_one, BitWords.getLsbD_lowBits,
      Bool.decide_and]

theorem toNat_and_mask (hn : n ≤ 64) (v : BitVec 64) :
    (v &&& mask n).toNat = v.toNat % 2 ^ n := by
  refine eq_of_testBit_eq fun i => ?_
  rw [BitVec.testBit_toNat, BitVec.getLsbD_and, getLsbD_mask, testBit_mod_two_pow,
    BitVec.testBit_toNat]
  by_cases hi : i < n
  · simp [hi, show i < 64 by omega]
  · simp [hi]

theorem getLsbD_word (h : bits.length ≤ 64) : (word bits).getLsbD i = bits.getD i false := by
  rw [word, BitVec.getLsbD_setWidth]
  by_cases hi : i < 64
  · simp [hi]
  · simp [getElem?_eq_none (l := bits) (by omega : bits.length ≤ i)]

theorem toNat_word (h : bits.length ≤ 64) : (word bits).toNat = number bits := by
  have hb : (BitVec.ofBoolListLE bits).toNat = number bits := by
    induction bits with
    | nil => rfl
    | cons bit bits ih =>
      rw [BitVec.ofBoolListLE, BitVec.toNat_concat, ih (by grind), number]
      omega
  have hl := number_lt bits
  rw [word, BitVec.toNat_setWidth, hb,
    Nat.mod_eq_of_lt (hl.trans_le (Nat.pow_le_pow_right (by decide) h))]

theorem negated_mod {v : ℕ} (hn : n ≤ 64) (hv : v < 2 ^ n) :
    (2 ^ 64 - v) % 2 ^ 64 % 2 ^ n = if v = 0 then 0 else 2 ^ n - v := by
  obtain ⟨d, hd⟩ := Nat.pow_dvd_pow 2 hn
  rw [Nat.mod_mod_of_dvd _ (Nat.pow_dvd_pow 2 hn)]
  split_ifs with h0
  · rw [h0, Nat.sub_zero, hd, Nat.mul_mod_right]
  · obtain ⟨e, rfl⟩ : ∃ e, d = e + 1 := ⟨d - 1, by have := Nat.two_pow_pos 64; grind⟩
    rw [hd, mul_add, mul_one, Nat.add_sub_assoc hv.le, Nat.mul_add_mod, Nat.mod_eq_of_lt (by omega)]

/-- Both paths turn a negative amount around and take its two's complement. -/
theorem magnitude_eq (hb : bits.length ≤ 64) :
    magnitude operation (word bits) bits.length signed =
      if signed && bits.getLastD false then (reverseShift operation, number (negateFrom true bits))
      else (operation, number bits) := by
  have hm : word bits &&& mask bits.length = word bits := by
    refine BitVec.eq_of_toNat_eq ?_
    rw [toNat_and_mask hb, toNat_word hb, mod_eq_of_lt (number_lt bits)]
  have hl : (word bits).getLsbD (bits.length - 1) = bits.getLastD false := by
    rw [getLsbD_word hb, getD_eq_getElem?_getD, ← getLast?_eq_getElem?, getLastD_eq_getLast?]
  have hn : ((0 - word bits) &&& mask bits.length).toNat = number (negateFrom true bits) := by
    rw [toNat_and_mask hb, BitVec.toNat_sub, toNat_word hb, (number_negateFrom bits).2]
    exact negated_mod hb (number_lt bits)
  rw [magnitude, hm, hl, hn, toNat_word hb]

theorem amount_sign (signed : Bool) (bits : List Bool) :
    ∀ a : ℤ, a = (if signed then twosComplement bits else (number bits : ℤ)) →
      (signed && bits.getLastD false) = decide (a < 0) ∧
      a.natAbs = if signed && bits.getLastD false then number (negateFrom true bits)
        else number bits := by
  rintro a rfl
  have hl := getLastD_iff bits
  have hn := number_lt bits
  have hg := (number_negateFrom bits).2
  cases signed with
  | false => simp
  | true =>
    rw [if_pos rfl, twosComplement, Bool.true_and]
    cases h : bits.getLastD false with
    | false => simp
    | true =>
      have he : (number bits - 2 ^ bits.length : ℤ) =
          -((2 ^ bits.length - number bits : ℕ) : ℤ) := by
        rw [cast_sub hn.le]
        push_cast
        ring
      rw [if_pos rfl, if_pos rfl, hg, if_neg (by grind), he, Int.natAbs_neg]
      exact ⟨(decide_eq_true (by omega)).symm, rfl⟩

theorem shiftPlane_getLsbD (hw : width ≤ 64) (hi : i < width)
    (hp : ∀ j, width ≤ j → plane.getLsbD j = false) :
    (shiftPlane operation width amount fill plane).getLsbD i =
      (origin operation width amount i).elim fill plane.getLsbD := by
  have hk := mod_lt amount (by omega : width > 0)
  cases operation with
  | rotateLeft =>
    simp only [shiftPlane, origin]
    rw [mod_of_rotate hi hk]
    split_ifs <;> simp [getLsbD_mask] <;> grind
  | rotateRight =>
    simp only [shiftPlane, origin]
    rw [← add_mod_mod]
    generalize amount % width = k at hk ⊢
    by_cases h0 : k = 0
    · rw [h0, add_zero, mod_eq_of_lt hi]
      simp [getLsbD_mask]
      grind
    · have := mod_of_rotate hi (k := width - k) (by omega)
      rw [show width - (width - k) = k by omega] at this
      split_ifs <;> simp [getLsbD_mask] <;> grind
  | logicalLeft | arithmeticLeft | logicalRight | arithmeticRight =>
    simp only [shiftPlane, origin]
    split_ifs <;> simp [getLsbD_mask] <;> grind

theorem kernelShift_eq {v a : List Logic4} (hw : v.length ≤ 64) (ha : a.length ≤ 64)
    (hk : ∀ s ∈ a, s = .zero ∨ s = .one) {o : ShiftOperator}
    (hm : magnitude operation (word (a.map (· = .one))) a.length signed = (o, n)) :
    KernelWord.shift operation v a signed = shifted o n .zero v := by
  have hb : word (a.map (·.bval)) = 0 := by
    refine BitVec.eq_of_getLsbD_eq fun i hi => ?_
    have hf : a.map (·.bval) = a.map fun _ => false :=
      map_congr_left fun s hs => by rcases hk s hs with rfl | rfl <;> rfl
    rw [hf, getLsbD_word (by simpa using ha)]
    simp only [map_const', getD_eq_getElem?_getD, getElem?_replicate]
    split_ifs <;> simp
  have he : a.map (·.aval) = a.map fun s => decide (s = .one) :=
    map_congr_left fun s hs => by rcases hk s hs with rfl | rfl <;> rfl
  have hp : ∀ f : Logic4 → Bool, ∀ j, v.length ≤ j → (word (v.map f)).getLsbD j = false :=
    fun f j hj => by
    rw [getLsbD_word (by simpa using hw), getD_eq_default _ _ (by simpa using hj)]
  rw [KernelWord.shift, hb, he, hm]
  rw [if_neg (by simp)]
  refine map_congr_left fun i hi => ?_
  have hi := mem_range.mp hi
  rw [shiftPlane_getLsbD hw hi (hp _), shiftPlane_getLsbD hw hi (hp _)]
  cases origin o v.length n i with
  | none => exact Logic4.ofPlanes_aval_bval _
  | some j =>
    simp only [Option.elim]
    rw [getLsbD_word (by simpa using hw), getLsbD_word (by simpa using hw)]
    change Logic4.ofPlanes ((v.map Logic4.aval).getD j (Logic4.aval .zero))
      ((v.map Logic4.bval).getD j (Logic4.bval .zero)) = _
    rw [getD_map, getD_map, Logic4.ofPlanes_aval_bval]

end Words

section Serial

variable {operation : ShiftOperator} {signed : Bool} {bits : List Bool} {value amountValue : Bits}
  {σ : Type} {a b : ℕ} {o : ShiftOperator}

theorem shifted_congr {zero : σ} {v : List σ}
    (hr : operation.rotating = true → a % v.length = b % v.length)
    (hs : operation.rotating = false → a = b ∨ v.length ≤ a ∧ v.length ≤ b) :
    shifted operation a zero v = shifted operation b zero v := by
  cases ho : operation.rotating with
  | false =>
    rcases hs ho with rfl | ⟨ha, hb⟩
    · rfl
    · rw [shifted_of_le ho ha, shifted_of_le ho hb]
  | true =>
    have he : ∀ i, origin operation v.length a i = origin operation v.length b i := fun i => by
      cases operation with
      | rotateLeft => rw [origin, origin, hr ho]
      | rotateRight => rw [origin, origin, ← add_mod_mod, hr ho, add_mod_mod]
      | _ => cases ho
    simp [shifted, he]

theorem shiftedBits_congr (hr : operation.rotating = true → a % value.width = b % value.width)
    (hs : operation.rotating = false → a = b ∨ value.width ≤ a ∧ value.width ≤ b) :
    shiftedBits operation a value = shiftedBits operation b value := by
  cases value <;> exact congrArg _ (shifted_congr hr hs)

section
variable (hv : 1 ≤ value.width) (hw : value.width ≤ sizeMax / 4)
include hv hw

theorem shiftBy_magnitude (m : List Bool) :
    shiftBy operation value
      (if operation.rotating then rotateAmount value.width 0 (1 % value.width) m
      else shiftAmount value.width 0 0 m) = .ok (shiftedBits operation (number m) value) := by
  have hr : rotateAmount value.width 0 (1 % value.width) m = number m % value.width := by
    rw [rotateAmount_eq hv (Nat.mod_lt _ hv), Nat.zero_add, Nat.mod_mul_mod, Nat.one_mul]
  have hz : sizeMax / 4 < 2 ^ 64 := by decide
  obtain ⟨hl, hg⟩ := shiftAmount_spec (hw.trans_lt hz) (Nat.two_pow_pos 0) m
  rw [Nat.zero_add, pow_zero, Nat.one_mul] at hl hg
  rw [shiftBy_eq hw fun h => by rw [if_pos h, hr]; exact Nat.mod_lt _ hv]
  refine congrArg _ (shiftedBits_congr (fun h => ?_) fun h => ?_)
  · rw [if_pos h, hr, Nat.mod_mod]
  · rw [h]
    rcases Nat.lt_or_ge (number m) value.width with hn | hn
    · exact .inl (hl hn)
    · exact .inr ⟨hg hn, hn⟩

omit hv hw in
theorem negative_eq (hb : bits.length ≤ sizeMax / 4) (hs : signed = true → 1 ≤ bits.length) :
    negative signed bits = .ok (signed && bits.getLastD false) := by
  cases signed with
  | false => rfl
  | true =>
    have h1 := hs rfl
    have hi : (bits.length + sizeMax) % (sizeMax + 1) = bits.length - 1 := by
      rw [show bits.length + sizeMax = bits.length - 1 + (sizeMax + 1) by omega, add_mod_right,
        mod_eq_of_lt (by omega)]
    rw [negative, Packed.PackedLogic4.checkIndex, decide_eq_false (by omega)]
    rfl

theorem shiftBySerial_eq (hb : bits.length ≤ sizeMax / 4)
    (hs : signed = true → 1 ≤ bits.length) : shiftBySerial operation value bits signed =
      .ok (exactShift operation (if signed then twosComplement bits else number bits) value) := by
  obtain ⟨hn, ha⟩ := amount_sign signed bits _ rfl
  rw [shiftBySerial, negative_eq hb hs]
  change shiftBy _ value (if ShiftOperator.rotating _ then _ else _) = _
  rw [shiftBy_magnitude hv hw, exactShift, ha]
  cases h : signed && bits.getLastD false with
  | false => rw [if_neg (of_decide_eq_false (hn.symm.trans h))]; rfl
  | true => rw [if_pos (of_decide_eq_true (hn.symm.trans h))]; rfl

end

theorem rotate_back (ho : o.rotating = true) (n : ℕ) (zero : σ) (v : List σ) :
    shifted (reverseShift o) n zero (shifted o n zero v) = v := by
  have hl : (shifted o n zero v).length = v.length := by simp [shifted]
  refine ext_getElem? fun i => ?_
  rw [getElem?_shifted, hl]
  by_cases hi : i < v.length
  · have hv : 0 < v.length := by omega
    have hk := mod_lt n hv
    rw [if_pos hi, getElem?_eq_getElem hi]
    have he : i + n + (v.length - n % v.length) = i + v.length * (1 + n / v.length) := by
      have := mod_add_div n v.length
      rw [mul_add]
      omega
    have he' : i + (v.length - n % v.length) + n = i + v.length * (1 + n / v.length) := by omega
    cases o with
    | rotateLeft | rotateRight =>
      simp only [reverseShift, origin, Option.elim]
      rw [getD_eq_getElem?_getD, getElem?_shifted, if_pos (mod_lt _ hv)]
      simp only [origin, Option.elim, Option.getD_some, mod_add_mod, he, he', add_mul_mod_self_left,
        mod_eq_of_lt hi]
      rw [getD_eq_getElem _ _ hi]
    | _ => cases ho
  · rw [if_neg hi, getElem?_eq_none (by omega)]

theorem exactShift_back (ho : o.rotating = true) (a : ℤ) :
    exactShift (reverseShift o) a (exactShift o a value) = value := by
  have hb : (reverseShift o).rotating = true := by cases o <;> first | rfl | cases ho
  simp only [exactShift]
  split_ifs
  · cases value <;> exact congrArg _ (rotate_back hb _ _ _)
  · cases value <;> exact congrArg _ (rotate_back ho _ _ _)

end Serial

/-- Every element is the one that the shift brings in. -/
def fillBits (operation : ShiftOperator) : Bits → Bits
  | .logic4 states => .logic4 (replicate states.length (fillElement operation .zero states))
  | .logic9 states => .logic9 (replicate states.length (fillElement operation .zero states))

section Results

variable {operation : ShiftOperator} {signed : Bool} {value amountValue : Bits}

theorem elements_length (b : Bits) : (elements b).length = b.width := by simp [elements]

/-- A signed amount without elements is refused: its sign is read at an index that has wrapped. -/
theorem shiftValue_empty_signed (hz : amountValue.width = 0) :
    shiftValue operation value amountValue true =
      .error (.outOfRange "packed value bit index is out of range") := by
  have he : elements amountValue = [] := by simp [elements, hz]
  have hserial : shiftBySerial operation value [] true =
      .error (.outOfRange "packed value bit index is out of range") := rfl
  cases value <;> simp [shiftValue, hz, he, hserial]

variable (hv : 1 ≤ value.width) (hw : value.width ≤ sizeMax / 4)
  (ha : amountValue.width ≤ sizeMax / 4)
  (hk : ∀ i < amountValue.width, amountValue.state4 i = .zero ∨ amountValue.state4 i = .one)
include hv hw ha hk

section Sign

variable (hs : signed = true → 1 ≤ amountValue.width)
include hs

theorem shiftValue_eq : shiftValue operation value amountValue signed =
      .ok (exactShift operation (amountOf amountValue signed) value) := by
  have hl := elements_length amountValue
  have hk' : ∀ s ∈ elements amountValue, s = .zero ∨ s = .one := by
    intro s hs
    obtain ⟨i, hi, rfl⟩ := mem_map.mp hs
    exact hk i (mem_range.mp hi)
  -- The serial path, for a value or an amount that the words do not take.
  have hser : (if (elements amountValue).any (fun state => state = .x || state = .z)
      then Bits.ofWidth value.width .x
      else shiftBySerial operation value ((elements amountValue).map (· = .one)) signed) =
        .ok (exactShift operation (amountOf amountValue signed) value) := by
    rw [if_neg (by grind), shiftBySerial_eq hv hw (by simpa [hl] using ha) (by simpa [hl] using hs)]
    rfl
  -- The words of the narrow values.
  have hword : value.width ≤ 64 → amountValue.width ≤ 64 → ∀ v : List Logic4,
      v.length = value.width → KernelWord.shift operation v (elements amountValue) signed =
        shifted (if amountOf amountValue signed < 0 then reverseShift operation else operation)
          (amountOf amountValue signed).natAbs .zero v := by
    intro h64 ha64 v hvl
    obtain ⟨hn, habs⟩ := amount_sign signed ((elements amountValue).map (· = .one))
      (amountOf amountValue signed) rfl
    refine kernelShift_eq (by omega) (by omega) hk' ?_
    rw [← length_map (f := fun s : Logic4 => decide (s = .one)), magnitude_eq (by simp; omega)]
    grind
  cases value with
  | logic4 v =>
    simp only [shiftValue, hser]
    split_ifs with hn
    · rw [hword hn.2.1 hn.2.2.2.1 v rfl]
      rfl
    · rfl
  | logic9 v =>
    simp only [shiftValue, hser]
    split_ifs with hn
    · obtain ⟨hn, hz, -⟩ := hn
      rw [hword hn.2.1 hn.2.2.2.1 _ (length_map _), map_shifted, map_map]
      have hid : v.map ((fun s => if s.aval then Logic9.one else .zero) ∘ toLogic4) = v := by
        refine (map_congr_left fun s hs => ?_).trans (map_id v)
        have hs : s = .zero ∨ s = .one := by simpa using all_eq_true.mp hz s hs
        rcases hs with rfl | rfl <;> rfl
      rw [hid]
      rfl
    · rfl

theorem shiftValue_spec : ∃ result, shiftValue operation value amountValue signed = .ok result ∧
      result = exactShift operation (amountOf amountValue signed) value ∧
      result.isLogic9 = value.isLogic9 ∧
      (operation.rotating = false → (value.width : ℤ) ≤ |amountOf amountValue signed| →
        result = fillBits (if amountOf amountValue signed < 0 then reverseShift operation
          else operation) value) ∧ (operation.rotating = true →
        shiftValue (reverseShift operation) result amountValue signed = .ok value) := by
  have hd : ∀ o n, (shiftedBits o n value).isLogic9 = value.isLogic9 ∧
      (shiftedBits o n value).width = value.width := fun o n => by
    cases value <;> simp [shiftedBits, Bits.isLogic9, Bits.width, shifted]
  refine ⟨_, shiftValue_eq hv hw ha hk hs, rfl, (hd _ _).1, fun ho hn => ?_, fun ho => ?_⟩
  · rw [exactShift]
    have ho :
        (if amountOf amountValue signed < 0 then reverseShift operation else operation).rotating
        = false := by
      split_ifs
      · cases operation <;> first | rfl | cases ho
      · exact ho
    cases value
      <;> exact congrArg _ (shifted_of_le ho (by rw [Int.abs_eq_natAbs] at hn; exact_mod_cast hn))
  · have hwi : (exactShift operation (amountOf amountValue signed) value).width = value.width :=
      (hd _ _).2
    rw [shiftValue_eq (by omega) (by omega) ha hk hs, exactShift_back ho]

end Sign

/-- A shift or rotation by a known amount is exact, on either path, unless the amount is signed and
has no elements. -/
theorem shiftValue_exact :
    (∃ result, shiftValue operation value amountValue signed = .ok result ∧
      result = exactShift operation (amountOf amountValue signed) value ∧
      result.isLogic9 = value.isLogic9 ∧
      (operation.rotating = false → (value.width : ℤ) ≤ |amountOf amountValue signed| →
        result = fillBits (if amountOf amountValue signed < 0 then reverseShift operation
          else operation) value) ∧ (operation.rotating = true →
        shiftValue (reverseShift operation) result amountValue signed = .ok value)) ↔
    (signed = true → 1 ≤ amountValue.width) := by
  refine ⟨?_, shiftValue_spec hv hw ha hk⟩
  rintro ⟨result, hresult, -⟩ rfl
  by_contra hz
  rw [shiftValue_empty_signed (by omega)] at hresult
  cases hresult

end Results

theorem wide_negative_rotation_exact :
    ∃ result, shiftValue .rotateLeft (.logic9 [.one, .u, .h]) (.logic4 (replicate 70 .one)) true =
      .ok result ∧ result = .logic9 [.u, .h, .one] := by
  obtain ⟨result, hr, he, -⟩ := (@shiftValue_exact .rotateLeft true (.logic9 [.one, .u, .h])
    (.logic4 (replicate 70 .one)) (by decide) (by decide) (by decide) (by decide)).mpr (by decide)
  exact ⟨result, hr, he.trans (by decide +kernel)⟩

theorem empty_signed_amount_refused : shiftValue .logicalLeft (.logic4 [.one]) (.logic4 []) true =
      .error (.outOfRange "packed value bit index is out of range") ∧
    shiftValue .logicalLeft (.logic4 [.one]) (.logic4 []) false = .ok (.logic4 [.one]) := by decide

end FsimRuntime.Shift
