import FsimRuntime.SimirShift

/-!
# Dynamic part selects

`dynamic_part_select_value`, `dynamic_part_write_value` and
`dynamic_part_insert_value` (`simir_logic.cpp`). An element of the part stands
for a declared index, and the read and the write meet at that index.
-/

namespace FsimRuntime.PartSelect
open Packed (Bits Error)
open Packed.Bits (toLogic9_state4 state9_replace9 state9_replace width_replace)
open BinaryNumeral
open Shift (elements)

structure DynamicPartIndex where
  left : ℤ
  right : ℤ
  baseOffset : ℕ
  width : ℕ
  increasing : Bool
  sourceDescending : Bool
  baseOffset_lt : baseOffset < 2 ^ 32
  width_lt : width < 2 ^ 32

def rawFrom (bit raw : ℕ) : List Logic4 → Option ℕ
  | [] => some raw
  | state :: states =>
    if state = .x ∨ state = .z then none
    else rawFrom (bit + 1) (if state = .one then raw ||| 2 ^ bit else raw) states

def signedBase (raw : ℕ) : ℤ := if raw ≤ 2 ^ 31 - 1 then raw else raw - 2 ^ 32

def knownUnsignedValue : Bits → Option ℕ
  | .logic4 states =>
    if states.isEmpty || states.any (·.bval) then none else some (number (states.map (·.aval)))
  | .logic9 _ => none

def writeBase (base : Bits) : Option ℕ :=
  match knownUnsignedValue base with
  | some raw => some (raw % 2 ^ 32)
  | none => if base.isLogic9 then rawFrom 0 0 (elements base) else none

namespace DynamicPartIndex

variable (selection : DynamicPartIndex) (signedBase : ℤ) (bit : ℕ)

def selectedRight : ℤ :=
  let edgeDistance : ℤ := selection.width - 1
  if selection.increasing then
    signedBase + if selection.sourceDescending then 0 else edgeDistance
  else signedBase - if selection.sourceDescending then edgeDistance else 0

def selected : ℤ :=
  if selection.sourceDescending then selection.selectedRight signedBase + bit
  else selection.selectedRight signedBase - bit

def outside : Bool :=
  selection.selected signedBase bit < min selection.left selection.right ||
    max selection.left selection.right < selection.selected signedBase bit

def indexDistance : ℕ := (selection.selected signedBase bit - selection.right).natAbs

end DynamicPartIndex

def selectBit (source : Bits) (selection : DynamicPartIndex) (signedBase : ℤ) (result : Bits)
    (bit : ℕ) : Bits :=
  let offset := selection.indexDistance signedBase bit
  if selection.outside signedBase bit then result
  else if 2 ^ 32 - 1 - selection.baseOffset < offset ∨
      source.width ≤ selection.baseOffset + offset then result
  else if source.isLogic9 then
    result.replace9 (Bits.single bit (source.state9 (selection.baseOffset + offset)))
  else result.replace (Bits.single bit (source.state4 (selection.baseOffset + offset)))

def unselected (source : Bits) (width : ℕ) (twoState : Bool) : Except Error Bits := do
  let result ← Bits.ofWidth width (if twoState then .zero else .x)
  pure (if source.isLogic9 then result.replace9 fun _ => some .x else result)

def dynamicPartSelectValue (source base : Bits) (selection : DynamicPartIndex) (twoState : Bool) :
    Except Error Bits := do
  refuse (base.width ≠ 32 || selection.width = 0) (.invalidArgument
    "dynamic part-select requires a signed 32-bit base and a nonzero fixed width")
  let result ← unselected source selection.width twoState
  match rawFrom 0 0 (elements base) with
  | none => pure result
  | some raw =>
    pure ((List.range selection.width).foldl (selectBit source selection (signedBase raw)) result)

structure Intersection where
  first : Option (ℕ × ℕ)
  width : ℕ

def notRepresentable : Error :=
  .invalidArgument "dynamic part-select write offset is not representable"

/-- `base_offset + offset` has 64 bits, `*first_target_offset + selected_width` 32. -/
def intersectBit (selection : DynamicPartIndex) (signedBase : ℤ) (found : Intersection)
    (bit : ℕ) : Except Error Intersection :=
  let offset := selection.indexDistance signedBase bit
  if selection.outside signedBase bit then .ok found
  else if 2 ^ 32 - 1 < offset then .error notRepresentable
  else match found.first with
    | none =>
      if 2 ^ 32 - 1 - selection.baseOffset < offset then .error notRepresentable
      else .ok ⟨some (bit, selection.baseOffset + offset), found.width + 1⟩
    | some (source, target) =>
      if bit ≠ source + found.width ∨
          selection.baseOffset + offset ≠ (target + found.width) % 2 ^ 32 then
        .error (.invalidArgument "dynamic part-select write intersection is not contiguous")
      else .ok ⟨found.first, found.width + 1⟩

def dynamicPartWriteValue (source base : Bits) (selection : DynamicPartIndex) :
    Except Error (Option (Bits × ℕ)) := do
  refuse (base.width ≠ 32 || selection.width = 0 || source.width ≠ selection.width)
    (.invalidArgument
      "dynamic part-select write requires a signed 32-bit base and a matching nonzero fixed width")
  match writeBase base with
  | none => pure none
  | some raw =>
    let found ← (List.range selection.width).foldlM
      (intersectBit selection (signedBase raw)) ⟨none, 0⟩
    match found.first with
    | none => pure none
    | some (first, offset) =>
      let value ← source.extractBits first found.width
      pure (some (value, offset))

def dynamicPartInsertValue (target source base : Bits) (selection : DynamicPartIndex) :
    Except Error Bits := do
  match ← dynamicPartWriteValue source base selection with
  | none => pure target
  | some (value, offset) => target.insertBits value offset

def baseValue (base : Bits) : Option ℤ :=
  if (elements base).all (!·.bval) then some (twosComplement ((elements base).map (·.aval)))
  else none

namespace DynamicPartIndex

variable (selection : DynamicPartIndex)

/-- `[left:right]`, in the direction that the selection gives. -/
def Consistent : Prop :=
  if selection.sourceDescending then selection.right ≤ selection.left
  else selection.left ≤ selection.right

instance : Decidable selection.Consistent := by unfold Consistent; infer_instance

def Declared (index : ℤ) : Prop :=
  min selection.left selection.right ≤ index ∧ index ≤ max selection.left selection.right

def Window (base index : ℤ) : Prop :=
  if selection.increasing then base ≤ index ∧ index < base + selection.width
  else base - selection.width < index ∧ index ≤ base

def position (index : ℤ) : ℕ := selection.baseOffset + (index - selection.right).natAbs

def span : ℕ := (selection.left - selection.right).natAbs

def depth (base : ℤ) : ℤ :=
  if selection.sourceDescending then selection.selectedRight base - selection.right
  else selection.right - selection.selectedRight base

def low (base : ℤ) : ℕ := (-selection.depth base).toNat

def high (base : ℤ) (n : ℕ) : ℕ := min n (selection.span - selection.depth base + 1).toNat

end DynamicPartIndex

open DynamicPartIndex

section Bases

theorem rawFrom_eq {bit raw : ℕ} (h : raw < 2 ^ bit) (states : List Logic4) :
    rawFrom bit raw states = if states.all (!·.bval)
      then some (raw + 2 ^ bit * number (states.map (·.aval))) else none := by
  induction states generalizing bit raw with
  | nil => simp [rawFrom, number]
  | cons state states ih =>
    have hp : 2 ^ (bit + 1) = 2 ^ bit + 2 ^ bit := by ring
    have ho : raw ||| 2 ^ bit = raw + 2 ^ bit := by
      rw [Nat.or_comm, ← Nat.mul_one (2 ^ bit), ← Nat.two_pow_add_eq_or_of_lt h, Nat.add_comm]
    cases state with
    | x | z => simp [rawFrom, Logic4.bval]
    | zero =>
      rw [rawFrom, if_neg (by decide), if_neg (by decide), ih (by omega)]
      simp [Logic4.bval, Logic4.aval, number, hp]
      grind
    | one =>
      rw [rawFrom, if_pos rfl, ih (by omega)]
      simp [Logic4.bval, Logic4.aval, number]
      grind

variable {base : Bits}

theorem signedBase_number {bits : List Bool} (h : bits.length = 32) :
    signedBase (number bits) = twosComplement bits := by
  have hl := getLastD_iff bits
  rw [signedBase, twosComplement]
  split_ifs <;> grind

theorem base_eq (h : base.width = 32) : (rawFrom 0 0 (elements base)).map signedBase =
    baseValue base ∧ (writeBase base).map signedBase = baseValue base := by
  have hl : ((elements base).map (·.aval)).length = 32 := by
    rw [List.length_map, Shift.elements_length, h]
  have hr : (rawFrom 0 0 (elements base)).map signedBase = baseValue base := by
    rw [rawFrom_eq (by decide), baseValue, Nat.zero_add, pow_zero, Nat.one_mul]
    split_ifs
    · exact congrArg some (signedBase_number hl)
    · rfl
  refine ⟨hr, ?_⟩
  cases base with
  | logic9 states => exact hr
  | logic4 states =>
    have he : elements (.logic4 states) = states := by
      refine List.ext_getElem? fun i => ?_
      by_cases hi : i < states.length <;> simp [elements, Bits.width, Bits.state4, hi]
    rw [he] at hl
    have hn := number_lt (states.map (·.aval))
    rw [hl] at hn
    rw [writeBase, knownUnsignedValue, baseValue, he, ← List.not_any_eq_all_not]
    cases ha : states.any (·.bval) with
    | true =>
      rw [if_pos (by simp)]
      rfl
    | false =>
      have h0 : states.isEmpty = false := by cases states <;> first | rfl | cases h
      rw [h0, if_neg (by simp)]
      dsimp only
      rw [Nat.mod_eq_of_lt hn]
      exact congrArg some (signedBase_number hl)

end Bases

section Loops

variable {s : DynamicPartIndex} {base : ℤ} {bit n : ℕ}

theorem outside_iff (hc : s.Consistent) (base : ℤ) (bit : ℕ) : (s.outside base bit = false ↔
      0 ≤ s.depth base + bit ∧ s.depth base + bit ≤ s.span) ∧
        (s.outside base bit = false →
      s.indexDistance base bit = (s.depth base + bit).toNat) := by
  simp only [outside, indexDistance, selected, depth, span, Consistent] at hc ⊢
  split_ifs at hc ⊢ <;> simp only [Bool.or_eq_false_iff, decide_eq_false_iff_not] <;> omega

def part (s : DynamicPartIndex) (base : ℤ) (n : ℕ) : Intersection :=
  if s.high base n ≤ s.low base then ⟨none, 0⟩
  else ⟨some (s.low base, s.baseOffset + (s.depth base + s.low base).toNat),
    s.high base n - s.low base⟩

theorem intersect_eq (hc : s.Consistent) (n : ℕ)
      (hfit : ∀ bit < n, s.outside base bit = false →
      s.baseOffset + s.indexDistance base bit < 2 ^ 32) :
    (List.range n).foldlM (intersectBit s base) ⟨none, 0⟩ = .ok (part s base n) := by
  induction n with
  | zero => simp; rfl
  | succ n ih =>
    refine foldlM_range_succ_ok (ih fun bit hbit => hfit bit (by omega)) ?_
    obtain ⟨ho, hd⟩ := outside_iff hc base n
    rw [intersectBit]
    cases h : s.outside base n with
    | true =>
      have hp : part s base (n + 1) = part s base n := by
        simp only [part, high, low]
        split_ifs <;> grind
      rw [if_pos rfl, hp]
    | false =>
      obtain ⟨hl, hs⟩ := ho.mp h
      have hlast := hfit n (Nat.lt_succ_self n) h
      have hdistance := hd h
      clear ih hfit ho hd
      simp only [part, high, low]
      split_ifs <;> grind

theorem intersect_fits {found : Intersection} (n : ℕ)
    (h : (List.range n).foldlM (intersectBit s base) ⟨none, 0⟩ = .ok found) :
    ∀ bit < n, s.outside base bit = false →
    s.baseOffset + s.indexDistance base bit < 2 ^ 32 := by
  induction n generalizing found with
  | zero => exact fun bit hbit => absurd hbit (Nat.not_lt_zero bit)
  | succ n ih =>
    rw [List.range_succ, List.foldlM_append] at h
    obtain ⟨before, hbefore, hlast⟩ := bind_ok.mp h
    obtain ⟨after, hlast, -⟩ := foldlM_cons_ok.mp hlast
    intro bit hbit hout
    rcases Nat.lt_succ_iff_lt_or_eq.mp hbit with hlt | rfl
    · exact ih hbefore bit hlt hout
    · have hbase := s.baseOffset_lt
      simp only [intersectBit, hout, Bool.false_eq_true, if_false] at hlast
      split at hlast
      · cases hlast
      · split at hlast
        · split at hlast
          · cases hlast
          · omega
        · split at hlast
          · cases hlast
          · next hcontiguous =>
            rw [not_or, not_not, not_not] at hcontiguous
            exact hcontiguous.2 ▸ Nat.mod_lt _ (by decide)

end Loops

section Reads

variable {source : Bits} {s : DynamicPartIndex} {base : ℤ} {result : Bits}

theorem unselected_spec (source : Bits) (twoState : Bool) {n : ℕ} (hn : n < 2 ^ 32) :
    ∃ r, unselected source n twoState = .ok r ∧ r.width = n ∧
      ∀ i < n, r.state9 i = if twoState && !source.isLogic9 then .zero else .x := by
  have hm : 2 ^ 32 ≤ Packed.sizeMax / 4 := by decide
  rw [unselected, Packed.Bits.ofWidth_eq (hn.le.trans hm)]
  refine ⟨_, rfl, ?_⟩
  cases hs : source.isLogic9 with
  | true =>
    refine ⟨(width_replace (fun _ => none) _).2.1.trans List.length_replicate, fun i hi => ?_⟩
    rw [if_pos rfl, state9_replace9, if_pos (by simpa [Bits.width] using hi)]
    simp
  | false =>
    refine ⟨List.length_replicate, fun i hi => ?_⟩
    cases twoState <;> simp [Bits.state9, Bits.states9, hi, toLogic9]

theorem select_eq (n : ℕ) (hfit : ∀ bit < n, s.outside base bit = false →
      s.baseOffset + s.indexDistance base bit < 2 ^ 32 ∧
        s.baseOffset + s.indexDistance base bit < source.width) :
    ((List.range n).foldl (selectBit source s base) result).width = result.width ∧
    ∀ i < result.width, ((List.range n).foldl (selectBit source s base) result).state9 i =
      if i < n ∧ s.outside base i = false then source.state9
      (s.baseOffset + s.indexDistance base i)
      else result.state9 i := by
  induction n with
  | zero => exact ⟨rfl, fun i _ => by rw [if_neg (by omega)]; rfl⟩
  | succ n ih =>
    replace ih := ih fun bit hbit => hfit bit (by omega)
    rw [List.range_succ, List.foldl_append]
    generalize (List.range n).foldl (selectBit source s base) result = r at ih ⊢
    obtain ⟨hw, hi⟩ := ih
    change (selectBit source s base r n).width = _ ∧
      ∀ i < _, (selectBit source s base r n).state9 i = _
    cases h : s.outside base n with
    | true =>
      rw [selectBit, if_pos h]
      refine ⟨hw, fun i hlt => ?_⟩
      grind
    | false =>
      have hr : ∀ i < result.width, (if i < n + 1 ∧ s.outside base i = false then
          source.state9 (s.baseOffset + s.indexDistance base i) else result.state9 i) =
          if i = n then source.state9 (s.baseOffset + s.indexDistance base n)
          else r.state9 i := fun i hlt => by
        split_ifs <;> grind
      have hfits := hfit n (Nat.lt_succ_self n) h
      rw [selectBit, if_neg (by simp [h]), if_neg (by omega)]
      cases hs : source.isLogic9 with
      | true =>
        refine ⟨(width_replace (fun _ => none) _).2.1.trans hw, fun i hlt => ?_⟩
        rw [hr i hlt, if_pos rfl, state9_replace9, if_pos (by omega), Bits.single]
        split_ifs <;> rfl
      | false =>
        refine ⟨(width_replace _ fun _ => none).1.trans hw, fun i hlt => ?_⟩
        rw [hr i hlt, if_neg (by simp), state9_replace, if_pos (by omega), Bits.single]
        split_ifs
        · exact toLogic9_state4 hs
        · rfl

end Reads

namespace DynamicPartIndex

variable (s : DynamicPartIndex)

/-- A bit of the part that stands for an index of the declared range. -/
def Hits (base : Bits) (bit : ℕ) : Prop :=
  ∃ b, baseValue base = some b ∧ s.outside b bit = false

def Holds (target base : Bits) : Prop :=
  ∀ b, baseValue base = some b → ∀ bit < s.width, s.outside b bit = false →
    s.baseOffset + s.indexDistance b bit < 2 ^ 32 ∧
      s.baseOffset + s.indexDistance b bit < target.width

end DynamicPartIndex

section Results

variable {target source base : Bits} {s : DynamicPartIndex} {b : ℤ} {twoState : Bool}

theorem window_iff {index : ℤ} (hw : 1 ≤ s.width) :
    s.Window b index ↔ ∃ bit < s.width, s.selected b bit = index := by
  simp only [Window, selected, selectedRight]
  constructor
  · intro h
    refine ⟨(if s.sourceDescending then index - s.selectedRight b
      else s.selectedRight b - index).toNat, ?_⟩
    simp only [selectedRight]
    split_ifs at h ⊢ <;> omega
  · split_ifs <;> omega

theorem declared_iff {bit : ℕ} : s.Declared (s.selected b bit) ↔ s.outside b bit = false := by
  simp only [Declared, outside, Bool.or_eq_false_iff, decide_eq_false_iff_not]
  omega

def written (source : Bits) (s : DynamicPartIndex) (b : ℤ) : Option (Bits × ℕ) :=
  let low := s.low b
  let high := s.high b s.width
  if high ≤ low then none
  else some (source.slice low (high - low), s.baseOffset + (s.depth b + low).toNat)

section
variable (hc : s.Consistent)
include hc

theorem outside_iff_of_lt {bit : ℕ} (hlt : bit < s.width) : s.outside b bit = false ↔
    s.low b ≤ bit ∧ bit < s.high b s.width := by
  rw [(outside_iff hc b bit).1, low, high]
  omega

variable (h32 : base.width = 32) (hw : 1 ≤ s.width) (hs : source.width = s.width)
include h32 hw hs

theorem write_eq
      (hfit : ∀ b, baseValue base = some b → ∀ bit < s.width, s.outside b bit = false →
      s.baseOffset + s.indexDistance b bit < 2 ^ 32) :
    dynamicPartWriteValue source base s = .ok ((baseValue base).bind (written source s)) := by
  have hr : (base.width ≠ 32 || s.width = 0 || source.width ≠ s.width) = false := by
    simp
    omega
  rw [dynamicPartWriteValue, hr, ← (base_eq h32).2]
  rw [← (base_eq h32).2] at hfit
  change (match writeBase base with | none => _ | some raw => _) = _
  cases hraw : writeBase base with
  | none => rfl
  | some raw =>
    rw [hraw] at hfit
    change ((List.range _).foldlM _ _ >>= _) = _
    rw [intersect_eq hc _ (hfit _ rfl), Option.map_some, Option.bind_some, written, part]
    have hh : s.high (signedBase raw) s.width ≤ s.width := min_le_left _ _
    split_ifs with h
    · rfl
    · change (source.extractBits (s.low _) (s.high _ _ - s.low _) >>= _) = _
      rw [(Bits.extractBits_spec (by omega) (by omega)).1]
      rfl

omit hc hw hs in
theorem write_fits {write : Option (Bits × ℕ)}
    (h : dynamicPartWriteValue source base s = .ok write) : ∀ b, baseValue base = some b →
      ∀ bit < s.width, s.outside b bit = false →
      s.baseOffset + s.indexDistance b bit < 2 ^ 32 := by
  intro b hb
  rw [← (base_eq h32).2] at hb
  obtain ⟨raw, hraw, rfl⟩ := Option.map_eq_some_iff.mp hb
  rw [dynamicPartWriteValue] at h
  obtain ⟨-, -, h⟩ := bind_ok.mp h
  simp only [hraw] at h
  obtain ⟨found, hfound, -⟩ := bind_ok.mp h
  exact intersect_fits s.width hfound

theorem insert_holds {result : Bits}
    (h : dynamicPartInsertValue target source base s = .ok result) : s.Holds target base := by
  rw [dynamicPartInsertValue] at h
  obtain ⟨write, hwrite, hinsert⟩ := bind_ok.mp h
  have hfit := write_fits h32 hwrite
  rw [write_eq hc h32 hw hs hfit] at hwrite
  intro b hb bit hlt hout
  refine ⟨hfit b hb bit hlt hout, ?_⟩
  obtain ⟨hlow, hhigh⟩ := (outside_iff_of_lt hc hlt).mp hout
  have hh : s.high b s.width ≤ s.width := min_le_left _ _
  rw [hb, Option.bind_some, written, if_neg (by omega)] at hwrite
  obtain rfl := Except.ok.inj hwrite
  obtain ⟨_, hrange, -⟩ := bind_ok.mp hinsert
  obtain ⟨-, hin⟩ := Packed.PackedLogic4.requireBitRange_ok.mp hrange
  obtain ⟨-, hwidth, -⟩ := @Bits.extractBits_spec source (s.low b) (s.high b s.width - s.low b)
    (by omega) (by omega)
  have hdistance := (outside_iff hc b bit).2 hout
  have hdepth : 0 ≤ s.depth b + s.low b := by rw [low]; omega
  omega

theorem insert_spec (hholds : s.Holds target base) :
    ∃ result, dynamicPartInsertValue target source base s = .ok result ∧
      result.width = target.width ∧
      ((∀ bit < s.width, ¬s.Hits base bit) → result = target) ∧
      ((∃ bit < s.width, s.Hits base bit) →
        result.isLogic9 = (target.isLogic9 || source.isLogic9)) ∧
      ∀ b, baseValue base = some b →
        (∀ bit < s.width, s.outside b bit = false →
          result.state9 (s.baseOffset + s.indexDistance b bit) = source.state9 bit) ∧
        ∀ i, (∀ bit < s.width, s.outside b bit = false →
          s.baseOffset + s.indexDistance b bit ≠ i) → result.state9 i = target.state9 i := by
  rw [dynamicPartInsertValue, write_eq hc h32 hw hs fun b hb bit hlt hout =>
    (hholds b hb bit hlt hout).1]
  cases hbase : baseValue base with
  | none =>
    refine ⟨target, rfl, rfl, fun _ => rfl, ?_, fun _ h => by cases h⟩
    rintro ⟨bit, -, b, hb, -⟩
    rw [hbase] at hb
    cases hb
  | some b =>
    have hin (bit : ℕ) (hlt : bit < s.width) := outside_iff_of_lt (b := b) hc hlt
    have hlow : 0 ≤ s.depth b + s.low b := by rw [low]; omega
    rw [Option.bind_some, written]
    by_cases h : s.high b s.width ≤ s.low b
    · rw [if_pos h]
      have hnone (bit : ℕ) (hlt : bit < s.width) (hout : s.outside b bit = false) : False := by
        have := (hin bit hlt).mp hout
        omega
      refine ⟨target, rfl, rfl, fun _ => rfl, ?_, fun b' hb' => ?_⟩
      · rintro ⟨bit, hlt, b', hb', hout⟩
        obtain rfl := Option.some.inj (hbase.symm.trans hb')
        exact (hnone bit hlt hout).elim
      · obtain rfl := Option.some.inj hb'
        exact ⟨fun bit hlt hout => (hnone bit hlt hout).elim, fun _ _ => rfl⟩
    · rw [if_neg h]
      have hh : s.high b s.width ≤ s.width := min_le_left _ _
      have hlast := (hin (s.high b s.width - 1) (by omega)).mpr (by omega)
      have hfits := (hholds b hbase _ (by omega) hlast).2
      rw [(outside_iff hc b _).2 hlast] at hfits
      obtain ⟨-, hwi, hd, hst⟩ := @Bits.extractBits_spec source (s.low b)
        (s.high b s.width - s.low b) (by omega) (by omega)
      obtain ⟨r, hr, hrw, hrd, hri⟩ := @Bits.insertBits_spec target
        (source.slice (s.low b) (s.high b s.width - s.low b))
        (s.baseOffset + (s.depth b + s.low b).toNat) (by omega) (by omega)
      refine ⟨r, hr, hrw, fun hno => ?_, fun _ => by rw [hrd, hd], fun b' hb' => ?_⟩
      · exact absurd ⟨b, hbase, (hin (s.low b) (by omega)).mpr (by omega)⟩
          (hno (s.low b) (by omega))
      · obtain rfl := Option.some.inj hb'
        refine ⟨fun bit hlt hob => ?_, fun i hout => ?_⟩
        · obtain ⟨hl, hu⟩ := (hin bit hlt).mp hob
          rw [(outside_iff hc b bit).2 hob, hri, if_pos (by omega), hst _ (by omega)]
          congr 1
          omega
        · rw [hri, if_neg fun hi => ?_]
          have hob := (hin (s.low b + (i - (s.baseOffset +
            (s.depth b + s.low b).toNat))) (by omega)).mpr (by omega)
          exact hout _ (by omega) hob (by rw [(outside_iff hc b _).2 hob]; omega)

omit hc hs in
theorem select_spec (twoState : Bool) (hholds : s.Holds target base) :
    ∃ read, dynamicPartSelectValue target base s twoState = .ok read ∧ read.width = s.width ∧
      ∀ bit < s.width, (∀ b, baseValue base = some b → s.outside b bit = false →
          read.state9 bit = target.state9 (s.baseOffset + s.indexDistance b bit)) ∧
        (¬s.Hits base bit → read.state9 bit =
          if twoState && !target.isLogic9 then .zero else .x) := by
  have hr : (base.width ≠ 32 || s.width = 0) = false := by
    simp only [h32]
    simp
    omega
  obtain ⟨r, hre, hrw, hri⟩ := unselected_spec target twoState s.width_lt
  rw [dynamicPartSelectValue, hr, hre]
  change ∃ read, (match rawFrom 0 0 (elements base) with
    | none => pure r
    | some raw => pure ((List.range s.width).foldl (selectBit target s (signedBase raw)) r)) =
      Except.ok read ∧ _
  have hbase := (base_eq h32).1
  cases hv : rawFrom 0 0 (elements base) with
  | none =>
    rw [hv] at hbase
    refine ⟨r, rfl, hrw, fun bit hlt => ⟨fun b hb => ?_, fun _ => hri bit hlt⟩⟩
    rw [← hbase] at hb
    cases hb
  | some raw =>
    rw [hv] at hbase
    have hknown : baseValue base = some (signedBase raw) := hbase.symm
    obtain ⟨hw', hs'⟩ := @select_eq target s (signedBase raw) r s.width (hholds _ hknown)
    refine ⟨_, rfl, hw'.trans hrw, fun bit hlt => ⟨fun b hb hout => ?_, fun hno => ?_⟩⟩
    · obtain rfl := Option.some.inj (hknown.symm.trans hb)
      rw [hs' bit (by omega), if_pos ⟨hlt, hout⟩]
    · rw [hs' bit (by omega), if_neg fun h => hno ⟨_, hknown, h.2⟩, hri bit hlt]

/-- A write changes the selected elements and a read finds them again, if and only if the target has
the places of the selected indices, at offsets of 32 bits, and a two-state read past the declared
range is one of a four-state value. -/
theorem part_read_back : (∃ result, dynamicPartInsertValue target source base s = .ok result ∧
      result.width = target.width ∧ (baseValue base = none → result = target) ∧
      (∀ b, baseValue base = some b →
        (∀ index, s.Declared index → s.Window b index → ∃ bit < s.width,
          s.selected b bit = index ∧ result.state9 (s.position index) = source.state9 bit) ∧
        ∀ i, (∀ index, s.Declared index → s.Window b index →
          s.position index ≠ i) → result.state9 i = target.state9 i) ∧
      ∃ read, dynamicPartSelectValue result base s twoState = .ok read ∧
      read.width = s.width ∧
        ∀ bit < s.width, (∀ b, baseValue base = some b → s.Declared (s.selected b bit) →
            read.state9 bit = source.state9 bit) ∧
          ((∀ b, baseValue base = some b → ¬ s.Declared (s.selected b bit)) →
            read.state9 bit = if twoState then .zero else .x)) ↔
    (∀ b, baseValue base = some b → ∀ index, s.Declared index → s.Window b index →
      s.position index < 2 ^ 32 ∧ s.position index < target.width) ∧
    (twoState = true → (∃ bit < s.width, ∀ b, baseValue base = some b →
        ¬s.Declared (s.selected b bit)) → target.isLogic9 = false ∧
      (source.isLogic9 = true → ∀ b, baseValue base = some b → ∀ bit < s.width,
        ¬s.Declared (s.selected b bit))) := by
  have hplaces : s.Holds target base ↔ ∀ b, baseValue base = some b →
      ∀ index, s.Declared index →
      s.Window b index → s.position index < 2 ^ 32 ∧ s.position index < target.width := by
    refine forall₂_congr fun b hb => ⟨fun h index hde hwn => ?_, fun h bit hlt hout => ?_⟩
    · obtain ⟨bit, hlt, rfl⟩ := (window_iff hw).mp hwn
      exact h bit hlt (declared_iff.mp hde)
    · exact h _ (declared_iff.mpr hout) ((window_iff hw).mpr ⟨bit, hlt, rfl⟩)
  have hmiss {bit : ℕ} : (∀ b, baseValue base = some b → ¬s.Declared (s.selected b bit)) ↔
      ¬s.Hits base bit := by
    simp [Hits, declared_iff]
  have hsource : (source.isLogic9 = true → ∀ b, baseValue base = some b → ∀ bit < s.width,
      ¬s.Declared (s.selected b bit)) ↔
        (source.isLogic9 = true → ∀ bit < s.width, ¬s.Hits base bit) := by
    simp only [Hits, declared_iff]
    grind
  rw [← hplaces, hsource]
  simp only [hmiss]
  constructor
  · rintro ⟨result, hinsert, -, -, -, read, hread, -, hbits⟩
    have hholds := insert_holds hc h32 hw hs hinsert
    refine ⟨hholds, fun htwo ⟨bit, hlt, hno⟩ => ?_⟩
    obtain ⟨result', hinsert', hwidth, hsame, hdomain, -⟩ := insert_spec hc h32 hw hs hholds
    obtain rfl := Except.ok.inj (hinsert.symm.trans hinsert')
    have hholds' : s.Holds result base := by rwa [Holds, hwidth]
    obtain ⟨read', hread', -, hbits'⟩ := select_spec h32 hw twoState hholds'
    obtain rfl := Except.ok.inj (hread.symm.trans hread')
    have hzero := ((hbits bit hlt).2 hno).symm.trans ((hbits' bit hlt).2 hno)
    have hfour : result.isLogic9 = false := by
      by_contra hnine
      simp [htwo, hnine] at hzero
    by_cases hany : ∃ bit < s.width, s.Hits base bit
    · rw [hdomain hany, Bool.or_eq_false_iff] at hfour
      exact ⟨hfour.1, fun hnine => by simp [hfour.2] at hnine⟩
    · have hnone : ∀ bit < s.width, ¬s.Hits base bit := fun i hi hhit => hany ⟨i, hi, hhit⟩
      exact ⟨hsame hnone ▸ hfour, fun _ => hnone⟩
  · rintro ⟨hholds, htwo⟩
    obtain ⟨result, hinsert, hwidth, hsame, hdomain, hk⟩ := insert_spec hc h32 hw hs hholds
    have hholds' : s.Holds result base := by rwa [Holds, hwidth]
    obtain ⟨read, hread, hrw, hbits⟩ := select_spec h32 hw twoState hholds'
    refine ⟨result, hinsert, hwidth, fun hnone => hsame fun bit _ => ?_, fun b hv =>
      ⟨fun index hde hwn => ?_, fun i hout => ?_⟩, read, hread, hrw, fun bit hlt =>
      ⟨fun b hv hde => ?_, fun hno => ?_⟩⟩
    · rintro ⟨b, hb, -⟩
      rw [hnone] at hb
      cases hb
    · obtain ⟨bit, hlt, rfl⟩ := (window_iff hw).mp hwn
      exact ⟨bit, hlt, rfl, (hk b hv).1 bit hlt (declared_iff.mp hde)⟩
    · exact (hk b hv).2 i fun bit hlt ho =>
        hout _ (declared_iff.mpr ho) ((window_iff hw).mpr ⟨bit, hlt, rfl⟩)
    · rw [(hbits bit hlt).1 b hv (declared_iff.mp hde)]
      exact (hk b hv).1 bit hlt (declared_iff.mp hde)
    · rw [(hbits bit hlt).2 hno]
      cases htwoState : twoState with
      | false => rfl
      | true =>
        obtain ⟨hfour, hsources⟩ := htwo htwoState ⟨bit, hlt, hno⟩
        have hresult : result.isLogic9 = false := by
          by_cases hany : ∃ bit < s.width, s.Hits base bit
          · obtain ⟨i, hi, hhit⟩ := hany
            rw [hdomain ⟨i, hi, hhit⟩, hfour, Bool.false_or, Bool.eq_false_iff]
            exact fun hnine => hsources hnine i hi hhit
          · rw [hsame fun i hi hhit => hany ⟨i, hi, hhit⟩, hfour]
        simp [hresult]

end

def zeroBase : Bits := .logic4 (List.replicate 32 .zero)

theorem straddling_part_read_back :
    ∃ result, dynamicPartInsertValue (.logic4 [.x, .z]) (.logic9 [.h, .u, .one]) zeroBase
      ⟨1, 0, 0, 3, false, true, by decide, by decide⟩ = .ok result ∧
        result.state9 0 = .one := by
  have hplaces : ∀ b, baseValue zeroBase = some b → ∀ index,
      Declared ⟨1, 0, 0, 3, false, true, by decide, by decide⟩ index →
      Window ⟨1, 0, 0, 3, false, true, by decide, by decide⟩ b index →
      position ⟨1, 0, 0, 3, false, true, by decide, by decide⟩ index < 2 ^ 32 ∧
        position ⟨1, 0, 0, 3, false, true, by decide, by decide⟩ index < 2 := by
    intro b _ index hindex _
    simp only [Declared, position] at hindex ⊢
    omega
  obtain ⟨result, h, -, -, hk, -⟩ :=
    (@part_read_back (.logic4 [.x, .z]) (.logic9 [.h, .u, .one])
    zeroBase ⟨1, 0, 0, 3, false, true, by decide, by decide⟩ false (by decide) (by decide)
    (by decide) (by decide)).mpr ⟨hplaces, nofun⟩
  obtain ⟨bit, hlt, hb, hr⟩ := (hk 0 (by decide)).1 0 (by constructor <;> decide)
    (by constructor <;> decide)
  obtain rfl : bit = 2 := by
    change (-2 + bit : ℤ) = 0 at hb
    omega
  exact ⟨result, h, hr⟩

/-- The target offset of the second element does not fit its 32 bits, and the elements outside of a
nine-state source are read as X. -/
theorem wrapped_offset_refused :
    dynamicPartInsertValue (.logic4 (List.replicate (2 ^ 32 + 1) .x))
      (.logic4 [.zero, .one]) zeroBase
      ⟨1, 0, 2 ^ 32 - 1, 2, true, true, by decide, by decide⟩ =
        .error (.invalidArgument "dynamic part-select write intersection is not contiguous") ∧
    dynamicPartSelectValue (.logic9 [.one]) zeroBase
      ⟨0, 0, 0, 2, true, true, by decide, by decide⟩ true = .ok (.logic9 [.one, .x]) := by
  constructor <;> rfl

end Results

end FsimRuntime.PartSelect
