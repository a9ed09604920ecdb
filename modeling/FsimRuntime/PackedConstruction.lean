import FsimRuntime.PackedOperations

/-!
# Construction of packed values

Values made from a width, from strings, from words and from planes, and ranges
taken out of a value, hold the states their description lists.
-/

namespace FsimRuntime.Packed
open BitWords List

namespace PackedLogic4

variable {width : ℕ} {v : PackedLogic4} {message : String} {o : ℕ}

theorem blank_holds (h : width ≤ sizeMax / 4) : (blank width).Holds4 fun _ => .zero := by
  have hs : ∀ plane < 2, (blank width).planeWords plane =
      replicate (if width = 0 then 0 else wordCount width) 0 := by
    intro plane hp
    by_cases hz : width = 0
    · simp [planeWords, blank, hz]
    · by_cases hn : width ≤ 128
      · have hc : wordCount width = 1 ∨ wordCount width = 2 := by
          simp only [wordCount]
          omega
        rcases hc with hc | hc <;> interval_cases plane <;>
          simp [planeWords, blank, hz, hn, Storage.plane, hc]
      · interval_cases plane <;> simp [planeWords, blank, hz, hn, Storage.plane]
  refine ⟨rfl, ?_, h, fun plane hp i => ?_⟩
  · by_cases hn : width ≤ 128 <;> simp [Shaped, blank, hn, usesInlineStorage]
  · rw [hs plane hp, bit_replicate]
    simp [Logic4.plane, Logic4.aval, Logic4.bval]

theorem checkedPackedWidth_ok : checkedPackedWidth width = .ok () ↔ width ≤ sizeMax / 4 := by
  simp [checkedPackedWidth, refuse_ok]

theorem ofWidth_ok (h : width ≤ sizeMax / 4) (initial : Logic4) :
    ∃ v, ofWidth width initial = .ok v ∧ v.width = width ∧ v.Holds4 fun _ => initial := by
  have hb := blank_holds h
  have hf := hb.2.fillPlanes fun plane => initial.plane plane
  refine ⟨(blank width).fill initial, ?_, ?_⟩
  · simp [ofWidth, checkedPackedWidth_ok.mpr h, bind, Except.bind, pure, Except.pure]
  · have hs : (blank width).fill initial =
        ((blank width).editPlanes fun plane => fillWords (initial.plane plane)).maskUnusedBits := by
      simp [fill, blank]
    exact ⟨hf.width_eq, hf.domain_eq, hf.holds⟩

theorem Holds4.refines {state : ℕ → Logic4} (h : v.Holds4 state) :
    Refines (.ok v) (.ok (.logic4 ((range v.width).map state))) :=
  ⟨h.valid, h.view_eq⟩

theorem Holds9.refines {state : ℕ → Logic9} (h : v.Holds9 state) :
    Refines (.ok v) (.ok (.logic9 ((range v.width).map state))) :=
  ⟨h.valid, h.view_eq⟩

theorem Becomes.refines4 {r : PackedLogic4} {state : ℕ → Logic4}
    (h : Becomes v r fun plane i => (state i).plane plane) (hd : v.isLogic9 = false) :
    Refines (.ok r) (.ok (.logic4 ((range v.width).map state))) :=
  h.width_eq ▸ Holds4.refines ⟨h.domain_eq.trans hd, h.holds⟩

theorem Becomes.refines9 {r : PackedLogic4} {state : ℕ → Logic9}
    (h : Becomes v r fun plane i => (state i).plane plane) (hd : v.isLogic9 = true) :
    Refines (.ok r) (.ok (.logic9 ((range v.width).map state))) :=
  h.width_eq ▸ Holds9.refines ⟨h.domain_eq.trans hd, h.holds⟩

theorem Refines.ofWidth {f : PackedLogic4 → Except Error PackedLogic4} {y : Except Error Bits}
    {initial : Logic4}
    (h : ∀ v : PackedLogic4, v.width = width → (v.Holds4 fun _ => initial) →
      Refines (f v) y) :
    Refines (ofWidth width initial >>= f) (checkedPackedWidth width >>= fun _ => y) := by
  by_cases hw : width ≤ sizeMax / 4
  · obtain ⟨v, hv, hw', hh⟩ := ofWidth_ok hw initial
    rw [hv, checkedPackedWidth_ok.mpr hw]
    exact h v hw' hh
  · have : checkedPackedWidth width = .error (.lengthError "packed value width is too large") := by
      simp [checkedPackedWidth, refuse, Nat.lt_of_not_le hw]
    rw [PackedLogic4.ofWidth, this]
    exact rfl

theorem ofWidth_refines (width : ℕ) (initial : Logic4) :
    Refines (ofWidth width initial) (Bits.ofWidth width initial) := by
  rw [← bind_pure (PackedLogic4.ofWidth width initial)]
  refine Refines.ofWidth fun v hw hh => ?_
  have := hh.refines
  rwa [hw, map_const', length_range] at this

theorem requireWordWidth_ok : requireWordWidth width message = .ok () ↔ 0 < width ∧
    width ≤ 64 := by
  simp [requireWordWidth, refuse_ok]

theorem fromAvalBval_refines (width : ℕ) (aval bval : Word) :
    Refines (fromAvalBval width aval bval) (Bits.fromAvalBval width aval bval) := by
  refine Refines.check fun hc => ?_
  obtain ⟨hpo, hl⟩ := requireWordWidth_ok.mp hc
  have hb : width ≤ sizeMax / 4 := le_trans hl (by decide)
  obtain ⟨v, hv, rfl, hh⟩ := ofWidth_ok hb .zero
  rw [hv]
  have hm : (if v.width = 64 then ~~~0 else (1#64 <<< v.width) - 1) = lowBits v.width := by
    split_ifs with hf
    · rw [hf]
      exact not_zero_eq
    · exact shiftLeft_sub_one
  have he : Becomes v _ fun plane i => ((Logic4Word.mk v.width aval bval).state i).plane plane :=
    hh.2.editWord hpo hl
      (fun plane _ => (if plane = 0 then aval else bval) &&& lowBits v.width)
        fun plane hp i hi => by
        rw [BitVec.getLsbD_and, getLsbD_lowBits, plane_state, Logic4Word.plane]
        simp [hi, Bool.and_comm]
  have := he.refines4 hh.1
  simp only [← hm] at this
  exact this

theorem fromLogic9Word_refines (value : Logic9Word) :
    Refines (fromLogic9Word value) (Bits.fromLogic9Word value) := by
  refine Refines.check fun hch => ?_
  obtain ⟨hpo, hl⟩ := requireWordWidth_ok.mp hch
  have hb : value.width ≤ sizeMax / 4 := le_trans hl (by decide)
  obtain ⟨v, hv, hw, -⟩ := ofWidth_ok hb .zero
  rw [hv]
  set raw : PackedLogic4 := { v with
    isLogic9 := true
    storage := .inline ⟨(value.canonical 0, value.canonical 2),
      (value.canonical 1, value.canonical 3)⟩ } with hr
  have hs : raw.Shaped := by simp [hr, Shaped, usesInlineStorage, hw, hl]
  have hm := maskUnusedBits_edited hs
  have hc : wordCount value.width = 1 := by
    simp only [wordCount]
    omega
  have hpl : ∀ plane < 4, raw.planeWords plane = [value.canonical plane] := by
    intro plane hp
    interval_cases plane <;> simp [hr, planeWords, Storage.plane, hc, hw, hpo.ne']
  have h9 : raw.maskUnusedBits.Holds9 value.state := by
    refine ⟨hm.domain_eq, hm.shaped, ?_, fun plane hp i => ?_⟩
    · rw [hm.width_eq]
      exact hw ▸ hb
    · have hp4 : plane < 4 := by
        rw [planeCount, hm.domain_eq] at hp
        exact hp
      rw [hm.planes plane hp4, hpl plane hp4,
        bit_maskLast (by simpa [hr, hw] using hc.symm), hm.width_eq]
      by_cases hi : i < raw.width
      · have hi64 : i < 64 := by
          have : raw.width = value.width := hw
          omega
        simp [bit, Nat.div_eq_of_lt hi64, Nat.mod_eq_of_lt hi64, getLsbD_canonical value hp4 hi64]
      · simp [hi]
  have := h9.refines
  rw [hm.width_eq, show raw.width = value.width from hw] at this
  exact this

theorem requirePlanes_ok {planes : List (List Word)} : requirePlanes width planes message =
      .ok () → 0 < width ∧ ∀ plane ∈ planes, plane.length = wordCount width := by
  intro h
  obtain ⟨-, -, h⟩ := bind_ok.mp h
  simpa [refuse_ok, Nat.pos_iff_ne_zero] using h

theorem fromWordPlanes_refines (width : ℕ) (aval bval : List Word) :
    Refines (fromWordPlanes width aval bval) (Bits.fromWordPlanes width aval bval) := by
  refine Refines.check fun hc => Refines.ofWidth fun v hw hh => ?_
  obtain ⟨-, hl⟩ := requirePlanes_ok hc
  subst hw
  have he : Becomes v _ fun plane i =>
      (Logic4.ofPlanes (bit aval i) (bit bval i)).plane plane :=
    hh.2.editPlanes_masked (fun plane _ => if plane = 0 then aval else bval)
      (fun plane _ _ => by split_ifs <;> simp_all) fun plane _ i _ => by
        unfold Logic4.plane
        split_ifs <;> simp
  exact he.refines4 hh.1

theorem fromLogic9WordPlanes_refines (width : ℕ) (planes : Fin 4 → List Word) :
    Refines (fromLogic9WordPlanes width planes) (Bits.fromLogic9WordPlanes width planes) := by
  refine Refines.check fun hc => Refines.ofWidth fun v hw hh => ?_
  subst hw
  obtain ⟨hpr, hlogic9, hn⟩ := hh.valid.promote
  have hco : v.promoteToLogic9.planeCount = 4 := by simp [planeCount, hlogic9]
  have he : Becomes v.promoteToLogic9 _ fun plane i =>
      (Logic9.ofPlanes (bit (planes 0) i) (bit (planes 1) i) (bit (planes 2) i)
        (bit (planes 3) i)).plane plane :=
    hn.editPlanes_masked (fun plane _ => (range (wordCount v.width)).map fun w =>
        normalizeInvalidCodesToX
          (fun plane => if h : plane < 4 then (planes ⟨plane, h⟩).getD w 0 else 0) plane)
      (fun plane _ _ => by simp [hpr]) fun plane hp i hi => by
        have hwo : i / 64 < wordCount v.width := by
          simp only [wordCount]
          omega
        have hm : i % 64 < 64 := Nat.mod_lt i (by omega)
        rw [bit]
        simp only [getD_eq_getElem?_getD, getElem?_map, getElem?_range hwo,
          Option.map_some, Option.getD_some]
        rw [getLsbD_normalized _ (by omega) hm]
        rfl
  have := he.refines9 hlogic9
  rwa [hpr] at this

theorem requireExtractRange_ok {sourceWidth : ℕ} : requireExtractRange sourceWidth o width =
      .ok () ↔ 0 < width ∧ o + width ≤ sourceWidth := by
  simp only [requireExtractRange, outsideTarget, refuse_ok, Bool.or_eq_false_iff,
    decide_eq_false_iff_not]
  omega

theorem take_drop_map_range {σ : Type} (state : ℕ → σ) {total : ℕ}
    (h : o + width ≤ total) : (((range total).map state).drop o).take width =
      (range width).map fun i => state (o + i) := by
  refine ext_getElem (by simp; omega) fun i _ _ => ?_
  simp

theorem Valid.extractBits (h : v.Valid) (o width : ℕ) :
    Refines (v.extractBits o width) (v.view.extractBits o width) := by
  rw [Bits.extractBits, view_width]
  refine Refines.check fun hc => ?_
  obtain ⟨hpo, hin⟩ := requireExtractRange_ok.mp hc
  obtain ⟨r, hr, rfl, hz⟩ := ofWidth_ok (show width ≤ sizeMax / 4 from
    le_trans (by omega) h.bounded) .zero
  rw [hr]
  by_cases hd : v.isLogic9 = true
  · obtain ⟨hwi, hlogic9, hn⟩ := hz.valid.promote
    have hco : v.planeCount = r.promoteToLogic9.planeCount := by simp [planeCount, hd, hlogic9]
    have he : Becomes r.promoteToLogic9 _ fun plane i =>
        (v.readLogic9 (o + i)).plane plane :=
      hn.editPlanes_masked (fun plane w => extractBitRange (v.planeWords plane) o w)
        (fun plane _ hw => by simpa using hw) fun plane hp i hi => by
          rw [bit_extractBitRange _ _ (hn.bit_lt hp hi),
            (h.holds9 hd).2.bit_eq (by omega) (by omega)]
    have hv : v.view.slice o r.width =
        .logic9 ((range r.width).map fun i => v.readLogic9 (o + i)) := by
      rw [(h.holds9 hd).view_eq, Bits.slice, take_drop_map_range _ hin]
    have := he.refines9 hlogic9
    rw [hwi, ← hv] at this
    show Refines (if v.isLogic9 then _ else _) _
    rw [if_pos hd]
    exact this
  · rw [Bool.not_eq_true] at hd
    have hco : v.planeCount = r.planeCount := by simp [planeCount, hd, hz.1]
    have he : Becomes r _ fun plane i => (v.readLogic4 (o + i)).plane plane :=
      hz.2.editPlanes_masked (fun plane w => extractBitRange (v.planeWords plane) o w)
        (fun plane _ hw => by simpa using hw) fun plane hp i hi => by
          rw [bit_extractBitRange _ _ (hz.2.bit_lt hp hi),
            (h.holds4 hd).2.bit_eq (by omega) (by omega)]
    have hv : v.view.slice o r.width =
        .logic4 ((range r.width).map fun i => v.readLogic4 (o + i)) := by
      rw [(h.holds4 hd).view_eq, Bits.slice, take_drop_map_range _ hin]
    have := he.refines4 hz.1
    rw [← hv] at this
    show Refines (if v.isLogic9 then _ else _) _
    rw [hd]
    exact this

section Strings

variable {σ : Type} {p : Char → Option σ} {planeOf : σ → ℕ → Bool} {message : String}
  {digits : List Char} {i : ℕ}

theorem stringDigit_cases (first : ℕ) (planes : ℕ → Word) (o : ℕ) :
    stringDigit p planeOf message digits first planes o = .error (.invalidArgument message) ∨
      ∃ p', stringDigit p planeOf message digits first planes o = .ok p' := by
  unfold stringDigit
  cases p (digits.getD (digits.length - o - 1) ' ') with
  | none => exact .inl rfl
  | some state => exact .inr ⟨_, rfl⟩

theorem stringWord_ok (planeOf : σ → ℕ → Bool) (message : String) {state : ℕ → σ}
    (hpa : ∀ i < digits.length, p (digits.getD (digits.length - i - 1) ' ') = some (state i))
    (w : ℕ) :
    ∃ planes, stringWord p planeOf message digits w = .ok planes ∧
    ∀ plane, ∀ j < 64, (planes plane).getLsbD j =
        (decide (w * 64 + j < digits.length) && planeOf (state (w * 64 + j)) plane) := by
  -- After the first `n` positions exactly their bits are set.
  have hs : ∀ n, n ≤ 64 → w * 64 + n ≤ digits.length → ∃ planes,
      (range' (w * 64) n).foldlM (stringDigit p planeOf message digits (w * 64))
        (fun _ => 0) = .ok planes ∧ ∀ plane, ∀ j < 64,
        (planes plane).getLsbD j = (decide (j < n) && planeOf (state (w * 64 + j)) plane) := by
    intro n
    induction n with
    | zero => exact fun _ _ => ⟨_, rfl, by simp⟩
    | succ n ih =>
      intro hn hl
      obtain ⟨planes, hf, hb⟩ := ih (by omega) (by omega)
      refine ⟨fun plane => if planeOf (state (w * 64 + n)) plane
        then planes plane ||| (1#64 <<< n) else planes plane, ?_, ?_⟩
      · rw [range'_1_concat, foldlM_append, hf]
        simp only [foldlM_cons, bind, Except.bind, stringDigit,
          hpa _ (show w * 64 + n < digits.length by omega), Nat.add_sub_cancel_left]
        rfl
      · intro plane j hj
        have ho : (1#64 <<< n).getLsbD j = decide (j = n) := by
          rw [← BitVec.twoPow_eq]
          simp [show n < 64 by omega, eq_comm]
        by_cases hjn : j = n
        · subst hjn
          by_cases hp : planeOf (state (w * 64 + j)) plane = true
          · simp only [hp, if_true, BitVec.getLsbD_or, ho]
            simp
          · simp only [hp, if_false, hb plane j hj, Bool.false_eq_true]
            simp
        · have hlt : decide (j < n + 1) = decide (j < n) := by
            rw [decide_eq_decide]
            omega
          rw [hlt, ← hb plane j hj]
          by_cases hp : planeOf (state (w * 64 + n)) plane = true
          · simp only [hp, if_true, BitVec.getLsbD_or, ho]
            simp [hjn]
          · simp [hp]
  set n := min digits.length (w * 64 + 64) - w * 64 with hn
  by_cases hw : w * 64 ≤ digits.length
  · obtain ⟨planes, hf, hb⟩ := hs n (by omega) (by omega)
    refine ⟨planes, hf, fun plane j hj => ?_⟩
    rw [hb plane j hj]
    congr 1
    rw [decide_eq_decide]
    omega
  · refine ⟨fun _ => 0, ?_, fun plane j hj => ?_⟩
    · have : n = 0 := by omega
      simp only [stringWord, ← hn, this]
      rfl
    · simp [show ¬ w * 64 + j < digits.length by omega]

theorem stringWord_error (hi : i < digits.length)
    (hp : p (digits.getD (digits.length - i - 1) ' ') = none) :
    stringWord p planeOf message digits (i / 64) = .error (.invalidArgument message) := by
  refine foldlM_error (stringDigit_cases _) _ _ ⟨i, ?_, fun planes => ?_⟩
  · rw [mem_range'_1]
    omega
  · rw [stringDigit, hp]

theorem reverse_digits (hi : i < digits.length) :
    digits.reverse[i]? = some (digits.getD (digits.length - i - 1) ' ') := by
  have : digits.length - i - 1 < digits.length := by omega
  rw [getElem?_reverse hi, Nat.sub_right_comm, getD_eq_getElem?_getD, getElem?_eq_getElem this]
  rfl

theorem map_getD_range {τ : Type} (s : List τ) (f : τ) :
    ((range s.length).map fun i => s.getD i f) = s := by
  refine ext_getElem (by simp) fun i _ hi => ?_
  simp [hi]

theorem stringPlanes_cases [Inhabited σ] (p : Char → Option σ) (planeOf : σ → ℕ → Bool)
    (message : String) (digits : List Char) :
    stringPlanes p planeOf message digits = .error (.invalidArgument message) ∧
        Bits.parseStates p message digits = .error (.invalidArgument message) ∨
      ∃ s : List σ, ∃ w : List (ℕ → Word),
        Bits.parseStates p message digits = .ok s ∧ s.length = digits.length ∧
        stringPlanes p planeOf message digits = .ok w ∧
        w.length = wordCount digits.length ∧ ∀ plane i, bit (w.map (· plane)) i =
          (decide (i < digits.length) && planeOf (s.getD i default) plane) := by
  rcases mapM_option_cases p digits.reverse with ⟨⟨d, hm, hd⟩, hn⟩ | ⟨s, hs, hl, hg⟩
  · left
    refine ⟨?_, by rw [Bits.parseStates, hn]⟩
    obtain ⟨i, hi, rfl⟩ := mem_iff_getElem.mp hm
    have hi' : i < digits.length := by simpa using hi
    have hp : p (digits.getD (digits.length - i - 1) ' ') = none := by
      have := reverse_digits hi'
      rw [getElem?_eq_getElem hi, Option.some_inj] at this
      rw [← this, hd]
    refine mapM_error (fun word => foldlM_cases (stringDigit_cases _) _ _) _
      ⟨i / 64, ?_, stringWord_error hi' hp⟩
    rw [mem_range, wordCount]
    omega
  · right
    have hl' : s.length = digits.length := by simpa using hl
    have hp : ∀ i < digits.length,
        p (digits.getD (digits.length - i - 1) ' ') = some (s.getD i default) := by
      intro i hi
      have hi' : i < digits.reverse.length := by simpa using hi
      have hd := reverse_digits hi
      rw [getElem?_eq_getElem hi', Option.some_inj] at hd
      rw [← hd, hg i hi' (by omega), getD_eq_getElem?_getD, getElem?_eq_getElem (by omega)]
      rfl
    choose planes hw hb using stringWord_ok planeOf message hp
    refine ⟨s, (range (wordCount digits.length)).map planes, ?_, hl',
      mapM_range_ok _ fun word _ => hw word, by simp, fun plane i => ?_⟩
    · rw [Bits.parseStates, hs]
    · by_cases hc : i / 64 < wordCount digits.length
      · have hmo : i % 64 < 64 := Nat.mod_lt i (by omega)
        rw [bit, map_map, getD_eq_getElem?_getD, getElem?_map,
          getElem?_range hc, Option.map_some, Option.getD_some, Function.comp_apply,
          hb _ _ _ hmo, Nat.div_add_mod' i 64]
      · rw [wordCount] at hc
        rw [bit_of_le (by simp [wordCount]; omega)]
        simp [show ¬ i < digits.length by omega]

theorem fromMsbString_refines (value : String) :
    Refines (fromMsbString value) (Bits.fromMsbString value) := by
  refine Refines.ofWidth fun v hw hh => ?_
  rcases stringPlanes_cases parseLogic4 Logic4.plane
    "four-state vector contains an invalid digit" value.toList with
    ⟨hp, hs⟩ | ⟨states, words, hs, hl, hp, hwo, hb⟩
  · rw [hp, hs]
    exact rfl
  · rw [hp, hs]
    have he : Becomes v _ fun plane i => (states.getD i default).plane plane :=
      hh.2.editPlanes (fun plane _ => words.map (· plane))
        (fun plane _ _ => by simp [hwo, hw]) fun plane _ i => by rw [hb, hw]
    have := he.refines4 hh.1
    rwa [hw, ← hl, map_getD_range] at this

theorem fromLogic9MsbString_refines (value : String) :
    Refines (fromLogic9MsbString value) (Bits.fromLogic9MsbString value) := by
  refine Refines.ofWidth fun v hw hh => ?_
  rcases stringPlanes_cases parseLogic9 Logic9.plane
    "nine-state vector contains an invalid digit" value.toList with
    ⟨hpl, hs⟩ | ⟨states, words, hs, hl, hpl, hwo, hb⟩
  · rw [hpl, hs]
    exact rfl
  · rw [hpl, hs]
    obtain ⟨hp, hlogic9, hn⟩ := hh.valid.promote
    have he : Becomes v.promoteToLogic9 _ fun plane i => (states.getD i default).plane plane :=
      hn.editPlanes (fun plane _ => words.map (· plane)) (fun plane _ _ => by simp [hwo, hp, hw])
        fun plane _ i => by rw [hb, hp, hw]
    have := he.refines9 hlogic9
    rwa [hp, hw, ← hl, map_getD_range] at this

end Strings

end PackedLogic4

end FsimRuntime.Packed
