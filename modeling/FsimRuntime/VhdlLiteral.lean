import Mathlib

/-!
# Integer literals in VHDL text

`vhdl_integer_value` of `simir_string_methods.cpp`, beside the grammar of the
literals it is to read. A value is at most `2 ^ 64` before each digit and each
power, so the 128-bit arithmetic is exact. The power that an exponent stands
for is one of ten, and exponents above twenty are refused.
-/

namespace FsimRuntime.VhdlLiteral
open List

def space (c : Char) : Bool := c = ' ' || c = '\t' || c = Char.ofNat 0xa0

def digitValue (c : Char) : Option ℕ :=
  if '0' ≤ c ∧ c ≤ '9' then some (c.toNat - '0'.toNat)
  else if 'a' ≤ c ∧ c ≤ 'f' then some (c.toNat - 'a'.toNat + 10)
  else if 'A' ≤ c ∧ c ≤ 'F' then some (c.toNat - 'A'.toNat + 10)
  else none

def digitsLoop (radix : ℕ) : Bool → ℕ → List Char → Option ℕ
  | _, value, [] => some value
  | underscore, value, c :: rest =>
    if c = '_' then
      if underscore then none else digitsLoop radix true value rest
    else
      match digitValue c with
      | none => none
      | some digit =>
        if digit < radix ∧ value * radix + digit ≤ 2 ^ 64 then
          digitsLoop radix false (value * radix + digit) rest
        else none

def digits (part : List Char) (radix : ℕ) : Option ℕ :=
  if part = [] ∨ part.head? = some '_' ∨ part.getLast? = some '_' then none
  else digitsLoop radix false 0 part

def delimits (c : Char) : Bool := c = '#' || c = ':'

def marksExponent (c : Char) : Bool := c = 'e' || c = 'E'

structure Fields where
  base : Option (List Char)
  digits : List Char
  exponent : List Char

/-- Where the literal is cut: at the first delimiter and the next like it, or at the exponent. -/
def fields (literal : List Char) : Option Fields :=
  match literal.dropWhile (!delimits ·) with
  | [] =>
    some ⟨none, literal.takeWhile (!marksExponent ·), literal.dropWhile (!marksExponent ·)⟩
  | delimiter :: rest =>
    match rest.dropWhile (· ≠ delimiter) with
    | [] => none
    | _ :: exponent =>
      some ⟨some (literal.takeWhile (!delimits ·)),
        rest.takeWhile (· ≠ delimiter), exponent⟩

def radix : Option (List Char) → Option ℕ
  | none => some 10
  | some base => (digits base 10).filter fun radix => 2 ≤ radix ∧ radix ≤ 16

def raise : ℕ → ℕ → Option ℕ
  | 0, value => some value
  | index + 1, value => if value * 10 ≤ 2 ^ 64 then raise index (value * 10) else none

def afterPlus (part : List Char) : List Char := if part.head? = some '+' then part.tail else part

def exponentOf : List Char → Option ℕ
  | [] => some 0
  | c :: part => if marksExponent c then (digits (afterPlus part) 10).filter (· ≤ 20) else none

def magnitude (literal : List Char) : Option ℕ := do
  let fields ← fields literal
  let radix ← radix fields.base
  let value ← digits fields.digits radix
  let exponent ← exponentOf fields.exponent
  raise exponent value

/-- Whether the stripped text has a minus sign, and what stands behind the sign. -/
def unsigned (text : List Char) : Bool × List Char :=
  match (text.dropWhile space).rdropWhile space with
  | '-' :: literal => (true, literal)
  | '+' :: literal => (false, literal)
  | literal => (false, literal)

def limit (negative : Bool) : ℕ := 2 ^ 63 - 1 + negative.toNat

def signed (negative : Bool) (value : ℕ) : ℤ := if negative then -value else value

def vhdlIntegerValue (text : List Char) : Except String ℤ :=
  match (magnitude (unsigned text).2).filter (· ≤ limit (unsigned text).1) with
  | some value => .ok (signed (unsigned text).1 value)
  | none => .error ("VHDL 'VALUE: \"" ++ .ofList text ++ "\" is not an integer literal")

section Grammar

/-- A value followed by digits below the base, with single underscores before them; the flag tells
whether a digit has to come first. -/
inductive Numeral (base : ℕ) : Bool → ℕ → List Char → ℕ → Prop
  | nil (value : ℕ) : Numeral base false value [] value
  | underscore {value rest n} (h : Numeral base true value rest n) :
      Numeral base false value ('_' :: rest) n
  | digit {first value c d rest n} (hc : digitValue c = some d) (hd : d < base)
      (h : Numeral base false (value * base + d) rest n) : Numeral base first value (c :: rest) n

inductive Exponent : List Char → ℕ → Prop
  | none : Exponent [] 0
  | some {c part e} (hc : marksExponent c = true) (he : Numeral 10 true 0 (afterPlus part) e) :
      Exponent (c :: part) e

/-- The literals, by their digits, base and exponent. -/
inductive Literal : List Char → ℕ → ℕ → ℕ → Prop
  | decimal {part exponent m e} (hm : Numeral 10 true 0 part m) (he : Exponent exponent e) :
      Literal (part ++ exponent) m 10 e
  | based {base b d part m exponent e} (hb : Numeral 10 true 0 base b) (hr : 2 ≤ b ∧ b ≤ 16)
      (hd : delimits d = true) (hm : Numeral b true 0 part m) (he : Exponent exponent e) :
      Literal (base ++ d :: (part ++ d :: exponent)) m b e

/-- The text is a literal with this value, of 64 bits. -/
def Value (text : List Char) (n : ℤ) : Prop :=
  ∃ m b e, Literal (unsigned text).2 m b e ∧ n = signed (unsigned text).1 (m * b ^ e) ∧
    -2 ^ 63 ≤ n ∧ n < 2 ^ 63

end Grammar

section Digits

variable {base b v w w' e : ℕ} {l part : List Char} {c : Char} {u : Bool}

section
variable (h : Numeral base u v l w)
include h

theorem Numeral.le (hb : 1 ≤ base) : v ≤ w := by
  induction h with
  | nil => exact le_rfl
  | underscore _ ih => exact ih
  | digit _ _ _ ih => exact ((Nat.le_mul_of_pos_right _ hb).trans (Nat.le_add_right ..)).trans ih

theorem Numeral.unique (h' : Numeral base u v l w') : w = w' := by
  induction h with
  | nil =>
    cases h'
    rfl
  | underscore _ ih =>
    cases h' with
    | underscore h' => exact ih h'
    | digit hc => cases hc
  | digit hc _ _ ih =>
    cases h' with
    | underscore => cases hc
    | digit hc' _ h' =>
      cases hc.symm.trans hc'
      exact ih h'

theorem Numeral.plain (hc : c ∈ l) :
    (!delimits c) = true ∧ (base ≤ 10 → (!marksExponent c) = true) := by
  induction h with
  | nil => cases hc
  | underscore _ ih =>
    obtain rfl | hc := mem_cons.mp hc
    · exact ⟨rfl, fun _ => rfl⟩
    · exact ih hc
  | digit hd hlt _ ih =>
    obtain rfl | hc := mem_cons.mp hc
    · simp only [delimits, marksExponent, Bool.not_eq_true', Bool.or_eq_false_iff,
        decide_eq_false_iff_not]
      refine ⟨⟨?_, ?_⟩, fun hb => ⟨?_, ?_⟩⟩ <;> rintro rfl <;> cases hd <;>
        exact absurd (hlt.trans_le hb) (by decide)
    · exact ih hc

end

theorem digitsLoop_iff (hb : 1 ≤ base) (hv : v ≤ 2 ^ 64) :
    digitsLoop base u v l = some w ∧ l.getLast? ≠ some '_' ∧ (u = true → l ≠ []) ↔
      Numeral base u v l w ∧ w ≤ 2 ^ 64 := by
  induction l generalizing u v with
  | nil =>
    constructor
    · rintro ⟨h, -, hu⟩
      cases h
      cases u with
      | false => exact ⟨.nil _, hv⟩
      | true => exact absurd rfl (hu rfl)
    · rintro ⟨h, -⟩
      cases h
      exact ⟨rfl, nofun, nofun⟩
  | cons c l ih =>
    rw [digitsLoop]
    by_cases hc : c = '_'
    · subst hc
      have hn : Numeral base u v ('_' :: l) w ↔ u = false ∧ Numeral base true v l w :=
        ⟨fun | .underscore h => ⟨rfl, h⟩, fun ⟨hu, h⟩ => hu ▸ .underscore h⟩
      rw [hn, and_assoc, ← ih hv]
      cases l <;> cases u <;> simp
    · have hn : Numeral base u v (c :: l) w ↔ ∃ d, some d = digitValue c ∧ d < base ∧
          Numeral base false (v * base + d) l w :=
        ⟨fun | .underscore _ => absurd rfl hc | .digit h hd hn => ⟨_, h.symm, hd, hn⟩,
          fun ⟨_, h, hd, hn⟩ => .digit h.symm hd hn⟩
      have hl : (c :: l).getLast? ≠ some '_' ↔ l.getLast? ≠ some '_' := by
        cases l <;> simp [hc]
      rw [if_neg hc, hn, hl]
      cases digitValue c with
      | none => simp
      | some d =>
        simp only [Option.some.injEq, exists_eq_left, and_assoc]
        split_ifs with h
        · rw [← ih h.2]
          simp [h.1]
        · exact iff_of_false nofun fun ⟨hd, hn, hw⟩ => h ⟨hd, (hn.le hb).trans hw⟩

theorem digits_iff (hb : 1 ≤ base) :
    digits part base = some w ↔ Numeral base true 0 part w ∧ w ≤ 2 ^ 64 := by
  rw [← digitsLoop_iff hb (Nat.zero_le _), digits]
  cases part with
  | nil => simp
  | cons c part => by_cases hc : c = '_' <;> simp [digitsLoop, hc, and_comm]

theorem digits_filter_iff {p : ℕ → Bool} (hp : ∀ n, p n = true → n ≤ 2 ^ 64) :
    (digits part 10).filter p = some w ↔ Numeral 10 true 0 part w ∧ p w = true := by
  rw [Option.filter_eq_some_iff, digits_iff (by decide), and_assoc]
  exact and_congr_right fun _ => and_iff_right_of_imp (hp w)

end Digits

section Fields

variable {l part exponent : List Char} {c : Char} {m b e m' b' e' v w : ℕ} {f : Fields}

theorem Exponent.plain (h : Exponent l e) (hc : c ∈ l) : (!delimits c) = true := by
  cases h with
  | none => cases hc
  | @some a part _ ha he =>
    obtain rfl | hc := mem_cons.mp hc
    · simp only [marksExponent, Bool.or_eq_true, decide_eq_true_eq] at ha
      obtain rfl | rfl := ha <;> rfl
    · rw [afterPlus] at he
      split_ifs at he with hp
      · obtain ⟨rest, rfl⟩ := head?_eq_some_iff.mp hp
        obtain rfl | hc := mem_cons.mp hc
        · rfl
        · exact (he.plain hc).1
      · exact (he.plain hc).1

theorem Exponent.cut (h : Exponent l e) :
    l.takeWhile (!marksExponent ·) = [] ∧ l.dropWhile (!marksExponent ·) = l := by
  cases h with
  | none => exact ⟨rfl, rfl⟩
  | some hc => simp [hc]

theorem Exponent.unique (h : Exponent l e) (h' : Exponent l e') : e = e' := by
  cases h with
  | none =>
    cases h'
    rfl
  | some _ h =>
    cases h' with
    | some _ h' => exact h.unique h'

/-- What the cut literal is read as. -/
def Reads (f : Fields) (m b e : ℕ) : Prop :=
  f.base.elim (b = 10) (fun base => Numeral 10 true 0 base b ∧ 2 ≤ b ∧ b ≤ 16) ∧
    Numeral b true 0 f.digits m ∧ Exponent f.exponent e

theorem of_dropWhile_eq_cons {p : Char → Bool} (h : l.dropWhile p = c :: part) : p c = false := by
  simpa [h] using head?_dropWhile_not p l

theorem literal_iff : Literal l m b e ↔ ∃ f, fields l = some f ∧ Reads f m b e := by
  constructor
  · intro h
    cases h with
    | @decimal part exponent _ _ hm he =>
      refine ⟨⟨none, part, exponent⟩, ?_, rfl, hm, he⟩
      have hd : (part ++ exponent).dropWhile (!delimits ·) = [] :=
        dropWhile_eq_nil_iff.mpr fun c hc =>
        (mem_append.mp hc).elim (fun hc => (hm.plain hc).1) he.plain
      have hx : ∀ c ∈ part, (!marksExponent c) = true := fun c hc => (hm.plain hc).2 le_rfl
      rw [fields, hd]
      simp [takeWhile_append_of_pos hx, dropWhile_append_of_pos hx, he.cut]
    | @based base _ d part _ exponent _ hb hr hd hm he =>
      refine ⟨⟨some base, part, exponent⟩, ?_, ⟨hb, hr⟩, hm, he⟩
      have hx : ∀ c ∈ base, (!delimits c) = true := fun c hc => (hb.plain hc).1
      have hy : ∀ c ∈ part, (!decide (c = d)) = true := by
        intro c hc
        have := (hm.plain hc).1
        grind
      simp [fields, takeWhile_append_of_pos hx, dropWhile_append_of_pos hx, hd,
        takeWhile_append_of_pos hy, dropWhile_append_of_pos hy]
  · rintro ⟨f, hf, hr⟩
    rw [fields] at hf
    split at hf
    · cases hf
      obtain ⟨rfl, hm, he⟩ := hr
      have := Literal.decimal hm he
      rwa [takeWhile_append_dropWhile] at this
    · next d rest hx =>
      split at hf
      · cases hf
      · next c exponent hy =>
        cases hf
        obtain ⟨⟨hb, hr⟩, hm, he⟩ := hr
        obtain rfl : c = d := by simpa using of_dropWhile_eq_cons hy
        have := Literal.based hb hr (by simpa using of_dropWhile_eq_cons hx) hm he
        rwa [← hy, takeWhile_append_dropWhile, ← hx, takeWhile_append_dropWhile] at this

theorem Literal.unique (h : Literal l m b e) (h' : Literal l m' b' e') : m = m' ∧ b = b' ∧
    e = e' := by
  obtain ⟨f, hf, hb, hm, he⟩ := literal_iff.mp h
  obtain ⟨f', hf', hb', hm', he'⟩ := literal_iff.mp h'
  obtain rfl := Option.some.inj (hf.symm.trans hf')
  obtain rfl : b = b' := by
    cases hf : f.base with
    | none =>
      rw [hf] at hb hb'
      exact hb.trans hb'.symm
    | some base =>
      rw [hf] at hb hb'
      exact hb.1.unique hb'.1
  exact ⟨hm.unique hm', rfl, he.unique he'⟩

theorem raise_iff (hv : v ≤ 2 ^ 64) : raise e v = some w ↔ v * 10 ^ e = w ∧ w ≤ 2 ^ 64 := by
  induction e generalizing v with
  | zero => simp only [raise, Option.some.injEq, pow_zero, mul_one]; grind
  | succ e ih =>
    rw [raise]
    split_ifs with h
    · rw [ih h, mul_assoc, ← pow_succ']
    · refine iff_of_false nofun fun hw => h ?_
      have := Nat.le_mul_of_pos_right (v * 10) (Nat.pow_pos (n := e) (show 0 < 10 by decide))
      rw [mul_assoc, ← pow_succ', hw.1] at this
      omega

theorem exponentOf_iff : exponentOf l = some e ↔ Exponent l e ∧ e ≤ 20 := by
  cases l with
  | nil =>
    constructor
    · rintro ⟨⟩
      exact ⟨.none, by decide⟩
    · rintro ⟨⟨⟩, -⟩
      rfl
  | cons c part =>
    rw [exponentOf]
    split_ifs with hc
    · rw [digits_filter_iff (by simp; omega), decide_eq_true_eq]
      refine and_congr_left' ⟨.some hc, ?_⟩
      rintro (_ | ⟨_, h⟩)
      exact h
    · refine iff_of_false (by simp) ?_
      rintro ⟨_ | ⟨h, _⟩, -⟩
      exact hc h

theorem radix_iff {base : Option (List Char)} : radix base = some b ↔
    base.elim (b = 10) fun base => Numeral 10 true 0 base b ∧ 2 ≤ b ∧ b ≤ 16 := by
  cases base with
  | none => exact Option.some_inj.trans eq_comm
  | some base => rw [radix, digits_filter_iff (by simp; omega), decide_eq_true_eq, Option.elim_some]

theorem radix_pos {base : Option (List Char)} (h : radix base = some b) : 1 ≤ b := by
  rw [radix_iff] at h
  cases base with
  | none => exact h ▸ by decide
  | some => exact h.2.1.trans' (by decide)

theorem magnitude_iff (hw : w ≤ 2 ^ 64) : magnitude l = some w ↔
    ∃ m b e, Literal l m b e ∧ e ≤ 20 ∧ m * 10 ^ e = w := by
  simp only [magnitude, literal_iff, Option.bind_eq_bind, Option.bind_eq_some_iff]
  constructor
  · rintro ⟨f, hf, b, hb, m, hm, e, he, hv⟩
    obtain ⟨hm, hle⟩ := (digits_iff (radix_pos hb)).mp hm
    obtain ⟨he, h20⟩ := exponentOf_iff.mp he
    exact ⟨m, b, e, ⟨f, hf, radix_iff.mp hb, hm, he⟩, h20, ((raise_iff hle).mp hv).1⟩
  · rintro ⟨m, b, e, ⟨f, hf, hb, hm, he⟩, h20, rfl⟩
    have hb := radix_iff.mpr hb
    have hle := (Nat.le_mul_of_pos_right m (Nat.pow_pos (by decide))).trans hw
    exact ⟨f, hf, b, hb, m, (digits_iff (radix_pos hb)).mpr ⟨hm, hle⟩, e,
      exponentOf_iff.mpr ⟨he, h20⟩, (raise_iff hle).mpr ⟨rfl, hw⟩⟩

end Fields

section Values

variable {text : List Char} {m b e v : ℕ} {n : ℤ}

theorem signed_injective (negative : Bool) : Function.Injective (signed negative) := by
  intro v w h
  cases negative <;> simpa [signed] using h

theorem signed_bounds (negative : Bool) :
    -2 ^ 63 ≤ signed negative v ∧ signed negative v < 2 ^ 63 ↔ v ≤ limit negative := by
  cases negative <;> simp [signed, limit] <;> omega

theorem vhdlIntegerValue_ok : vhdlIntegerValue text = .ok n ↔
    ∃ m b e, Literal (unsigned text).2 m b e ∧
    ∃ v, n = signed (unsigned text).1 v ∧ v ≤ limit (unsigned text).1 ∧ e ≤ 20 ∧
    m * 10 ^ e = v := by
  have hle {v : ℕ} (h : v ≤ limit (unsigned text).1) : v ≤ 2 ^ 64 :=
    h.trans (by cases (unsigned text).1 <;> decide)
  rw [vhdlIntegerValue]
  constructor
  · intro h
    split at h <;> cases h
    next v hv =>
    obtain ⟨hm, hv⟩ := Option.filter_eq_some_iff.mp hv
    have hv := of_decide_eq_true hv
    obtain ⟨m, b, e, hl, he⟩ := (magnitude_iff (hle hv)).mp hm
    exact ⟨m, b, e, hl, v, rfl, hv, he⟩
  · rintro ⟨m, b, e, hl, v, rfl, hv, he⟩
    simp [(magnitude_iff (hle hv)).mpr ⟨m, b, e, hl, he⟩, Option.filter, hv]

theorem value_iff : Value text n ↔ ∃ m b e, Literal (unsigned text).2 m b e ∧
    ∃ v, n = signed (unsigned text).1 v ∧ v ≤ limit (unsigned text).1 ∧ m * b ^ e = v := by
  refine exists₃_congr fun m b e => and_congr_right fun _ => ⟨?_, ?_⟩
  · rintro ⟨rfl, hn⟩
    exact ⟨_, rfl, (signed_bounds _).mp hn, rfl⟩
  · rintro ⟨_, rfl, hv, rfl⟩
    exact ⟨rfl, (signed_bounds _).mpr hv⟩

/-- The digits and the exponent give the value that the code computes. -/
def Agrees (limit m b e : ℕ) : Prop :=
  e = 0 ∨ m = 0 ∧ e ≤ 20 ∨ m ≠ 0 ∧ (b = 10 ∨ limit < m * min b 10 ^ e)

theorem agrees_iff {limit : ℕ} (hl : limit < 10 ^ 21) :
    (∀ v ≤ limit, e ≤ 20 ∧ m * 10 ^ e = v ↔ m * b ^ e = v) ↔ Agrees limit m b e := by
  have hlarge : m ≠ 0 → ¬ e ≤ 20 → limit < m * 10 ^ e := fun hm he =>
    hl.trans_le ((Nat.pow_le_pow_right (by decide) (by omega)).trans
      (Nat.le_mul_of_pos_left _ (Nat.pos_of_ne_zero hm)))
  rw [Agrees]
  by_cases he : e = 0
  · simp [he]
  by_cases hm : m = 0
  · simp [hm, he]
    grind
  by_cases hb : b = 10
  · subst hb
    grind
  · have hne : m * 10 ^ e ≠ m * b ^ e := fun h => hb
      (Nat.pow_left_injective he (Nat.eq_of_mul_eq_mul_left (Nat.pos_of_ne_zero hm) h)).symm
    have hmin : m * min b 10 ^ e = min (m * b ^ e) (m * 10 ^ e) := by
      rcases le_total b 10 with h | h
      · rw [min_eq_left h, min_eq_left (Nat.mul_le_mul_left m (Nat.pow_le_pow_left h e))]
      · rw [min_eq_right h, min_eq_right (Nat.mul_le_mul_left m (Nat.pow_le_pow_left h e))]
    rw [hmin]
    simp only [he, hm, hb, lt_min_iff]
    constructor
    · intro h
      have := h (m * 10 ^ e)
      have := h (m * b ^ e)
      grind
    · grind

/-- What the digits, base and exponent of a literal stand for is returned, and every other text is
refused, unless the exponent makes a difference. -/
theorem vhdlIntegerValue_exact_iff (text : List Char) :
    (∀ n, vhdlIntegerValue text = .ok n ↔ Value text n) ↔
      ∀ m b e, Literal (unsigned text).2 m b e → Agrees (limit (unsigned text).1) m b e := by
  have hlimit : limit (unsigned text).1 < 10 ^ 21 := by cases (unsigned text).1 <;> decide
  simp only [vhdlIntegerValue_ok, value_iff]
  constructor
  · intro hall m b e h
    have hex : ∀ P : ℕ → ℕ → ℕ → Prop,
        (∃ m b e, Literal (unsigned text).2 m b e ∧ P m b e) ↔ P m b e := by
      refine fun P => ⟨fun ⟨m', b', e', h', hp⟩ => ?_, fun hp => ⟨m, b, e, h, hp⟩⟩
      obtain ⟨rfl, rfl, rfl⟩ := h.unique h'
      exact hp
    refine (agrees_iff hlimit).mp fun v hv => ?_
    simpa only [hex, (signed_injective _).eq_iff, exists_eq_left', hv, true_and] using
      hall (signed (unsigned text).1 v)
  · intro hall n
    exact exists₃_congr fun m b e => and_congr_right fun h => exists_congr fun v =>
      and_congr_right fun _ => and_congr_right ((agrees_iff hlimit).mpr (hall m b e h) v)

theorem vhdlIntegerValue_raises_ten : ¬ ∀ n,
    vhdlIntegerValue ['2', '#', '1', '#', 'E', '1'] = .ok n ↔
    Value ['2', '#', '1', '#', 'E', '1'] n := by
  intro h
  have hone {base : ℕ} (h : 1 < base) : Numeral base true 0 ['1'] 1 := by
    simpa using Numeral.digit rfl h (.nil (0 * base + 1))
  have hb : Numeral 10 true 0 ['2'] 2 := .digit rfl (by decide) (.nil 2)
  have hl : Literal ['2', '#', '1', '#', 'E', '1'] 1 2 1 :=
    .based hb (by decide) rfl (hone (by decide)) (.some rfl (hone (by decide)))
  have hv := (h 2).mpr ⟨1, 2, 1, hl, rfl, by decide, by decide⟩
  have : vhdlIntegerValue ['2', '#', '1', '#', 'E', '1'] = .ok 10 := by rfl
  cases this.symm.trans hv

end Values

end FsimRuntime.VhdlLiteral
