import FsimRuntime.PackedViews

/-!
# Packed operations, index by index

Each operation of `PackedLogic4` keeps the values valid and acts on the states
as its index-by-index description, and it is refused exactly when the
description is.
-/

namespace FsimRuntime.Packed
open BitWords Bits

/-- An operation and its description: the same refusal, or a valid value with the described
states. -/
def Refines : Except Error PackedLogic4 → Except Error Bits → Prop
  | .ok v, .ok bits => v.Valid ∧ v.view = bits
  | .error error, .error error' => error = error'
  | _, _ => False

theorem Refines.check {check : Except Error Unit} {x : Except Error PackedLogic4}
    {y : Except Error Bits} (h : check = .ok () → Refines x y) :
    Refines (check >>= fun _ => x) (check >>= fun _ => y) := by
  cases check with
  | error error => exact rfl
  | ok => exact h rfl

namespace PackedLogic4

variable {v u : PackedLogic4} {width o index plane j : ℕ} {p : ℕ → ℕ → Bool}
  {σ τ : Type} {s : Logic4Word} {message : String} {isLogic9 : Bool}

theorem checkIndex_ok : checkIndex index width = .ok () ↔ index < width := by
  simp [checkIndex, refuse_ok]

theorem bit_fillWords (value : Bool) {words : List Word} {i : ℕ} (h : i < words.length * 64) :
    bit (fillWords value words) i = value := by
  refine bit_map (g := fun _ => value) (fun w j hj => ?_) h
  cases value
  · simp
  · rw [show ~~~(0 : Word) = lowBits 64 from not_zero_eq]
    simp [hj]

theorem Holds.fillPlanes (h : v.Holds p) (new : ℕ → Bool) :
    Becomes v (v.editPlanes fun plane => fillWords (new plane)).maskUnusedBits
      fun plane _ => new plane :=
  h.editPlanes_masked _ (fun _ _ hw => by simpa [fillWords] using hw)
    fun plane hp i hi => bit_fillWords _ (h.bit_lt hp hi)

theorem Valid.fill (h : v.Valid) (value : Logic4) :
    (v.fill value).Valid ∧ (v.fill value).view = v.view.fill value := by
  by_cases hd : v.isLogic9 = true
  · simp only [PackedLogic4.fill, hd]
    exact Becomes.replaces_logic9 h hd
      ((h.holds9 hd).2.fillPlanes fun plane => (toLogic9 value).plane plane)
  · simp only [PackedLogic4.fill, hd]
    rw [Bool.not_eq_true] at hd
    exact Becomes.replaces hd ((h.holds4 hd).2.fillPlanes fun plane => value.plane plane)

theorem canonicalLogic9Value_testBit (value : UInt8) (plane : ℕ) :
    (canonicalLogic9Value value).testBit plane = (Logic9.ofCode value.toNat).plane plane := by
  rw [canonicalLogic9Value]
  congr 1
  split_ifs with h
  · exact (Logic9.code_ofCode _ (UInt8.le_iff_toNat_le.mp h)).symm
  · rw [Logic9.ofCode_of_lt (by simpa [UInt8.le_iff_toNat_le] using h)]

theorem Valid.fillLogic9 (h : v.Valid) (value : UInt8) :
    (v.fillLogic9 value).Valid ∧ (v.fillLogic9 value).view = v.view.fillLogic9 value := by
  simp only [PackedLogic4.fillLogic9, canonicalLogic9Value_testBit]
  exact Becomes.replaces9 h
    (h.promote.2.2.fillPlanes fun plane => (Logic9.ofCode value.toNat).plane plane)

theorem Holds.setPlanes (h : v.Holds p) (hi : index < v.width) (new : ℕ → Bool) :
    Becomes v (v.editPlanes fun plane w => writeBit w index (new plane))
      fun plane i => if i = index then new plane else p plane i := by
  refine h.editPlanes _ (fun _ _ hw => by simpa using hw) fun plane hp i => ?_
  rw [bit_writeBit (h.bit_lt hp hi), h.bits plane hp i]
  by_cases hs : i = index
  · subst hs
    simp [hi]
  · simp [hs]

theorem getD_single (index : ℕ) (value : σ) (i : ℕ) (old : σ) :
    (Bits.single index value i).getD old = if i = index then value else old := by
  unfold single
  split_ifs <;> rfl

theorem map_single (f : σ → τ) (index : ℕ) (value : σ) (i : ℕ) :
    (Bits.single index value i).map f = Bits.single index (f value) i := by
  unfold single
  split_ifs <;> rfl

theorem Valid.setLogic9 (h : v.Valid) (index : ℕ) (value : UInt8) :
    Refines (v.setLogic9 index value) (v.view.setLogic9 index value) := by
  rw [Bits.setLogic9, view_width]
  refine Refines.check fun hc => Becomes.replaces9 h ?_
  simp only [canonicalLogic9Value_testBit, getD_single]
  obtain ⟨hw, -, hh⟩ := h.promote
  have := hh.setPlanes (hw.symm ▸ checkIndex_ok.mp hc)
    fun plane => (Logic9.ofCode value.toNat).plane plane
  simpa [Logic9.plane_ite] using this

theorem Valid.set (h : v.Valid) (index : ℕ) (value : Logic4) :
    Refines (v.set index value) (v.view.set index value) := by
  rw [Bits.set, view_width]
  refine Refines.check fun hc => ?_
  have hin := checkIndex_ok.mp hc
  by_cases hd : v.isLogic9 = true
  · have hco : Logic9.ofCode (UInt8.ofNat (toLogic9 value).code).toNat = toLogic9 value := by
      cases value <;> rfl
    have hs := h.setLogic9 index (UInt8.ofNat (toLogic9 value).code)
    rw [Bits.setLogic9, view_width, hc, hco] at hs
    rw [if_pos hd, replace_view_logic9 hd]
    simp only [map_single]
    exact hs
  · rw [if_neg hd]
    rw [Bool.not_eq_true] at hd
    refine Becomes.replaces hd ?_
    have := (h.holds4 hd).2.setPlanes hin fun plane => value.plane plane
    simpa [getD_single, Logic4.plane_ite] using this

theorem requireWordRange_ok : requireWordRange width s o message = .ok () ↔
      0 < s.width ∧ s.width ≤ 64 ∧ o + s.width ≤ width := by
  simp only [requireWordRange, outsideTarget, refuse_ok, Bool.or_eq_false_iff,
    decide_eq_false_iff_not]
  omega

theorem getD_range (o width : ℕ) (s : ℕ → σ) (i : ℕ) (old : σ) :
    (Bits.range o width s i).getD old = if o ≤ i ∧ i < o + width then s (i - o) else old := by
  unfold range
  split_ifs <;> rfl

theorem map_range (f : σ → τ) (o width : ℕ) (s : ℕ → σ) (i : ℕ) :
    (Bits.range o width s i).map f = Bits.range o width (f ∘ s) i := by
  unfold range
  split_ifs <;> rfl

theorem Holds.wordRange (h : v.Holds p)
    (hpo : 0 < width) (hle : width ≤ 64) (hin : o + width ≤ v.width)
    (edit : ℕ → List Word → Word) (new : ℕ → ℕ → Bool)
    (hn : ∀ plane < v.planeCount, ∀ j < width,
      (edit plane (v.planeWords plane)).getLsbD j = new plane j) :
    Becomes v (v.editPlanes fun plane w =>
        copyWordRange w (edit plane w) o width).maskUnusedBits
      fun plane i => if o ≤ i ∧ i < o + width then new plane (i - o) else p plane i := by
  refine h.editPlanes_masked _ (fun _ _ hw => by simpa using hw) fun plane hp i hi => ?_
  have hl := planeWords_length h.shaped hp
  rw [bit_copyWordRange _ hpo hle (by rw [hl, wordCount]; omega), h.bit_eq hp hi]
  by_cases hr : o ≤ i ∧ i < o + width
  · rw [if_pos hr, if_pos hr, hn plane hp _ (by omega)]
  · rw [if_neg hr, if_neg hr]

theorem plane_state (s : Logic4Word) (plane j : ℕ) :
    (s.state j).plane plane = (s.plane plane).getLsbD j := by
  unfold Logic4.plane Logic4Word.plane
  split_ifs <;> simp [Logic4Word.state]

theorem getLsbD_promotedPlane (hpo : 0 < width) (hl : width ≤ 64)
    (s : Logic4Word) (hp : plane < 4) (hj : j < width) :
    (promotedPlane (s.aval &&& finalWordMask width) (s.bval &&& finalWordMask width)
      plane).getLsbD j = (toLogic9 (s.state j)).plane plane := by
  obtain ⟨t0, t1, t2, t3⟩ := Logic9.plane_toLogic9 (s.state j)
  have hm : (finalWordMask width).getLsbD j = true := by simp [getLsbD_fieldMask hpo hl, hj]
  have h64 : j < 64 := by omega
  interval_cases plane <;>
    simp only [promotedPlane, t0, t1, t2, t3, BitVec.getLsbD_and, BitVec.getLsbD_not, hm] <;>
    simp [Logic4Word.state, h64]

theorem Valid.writeWord (h : v.Valid) (hpo : 0 < s.width)
    (hl : s.width ≤ 64) (hin : o + s.width ≤ v.width) : (v.writeWord s o).Valid ∧
      (v.writeWord s o).view = v.view.replace (Bits.range o s.width s.state) := by
  by_cases hd : v.isLogic9 = true
  · simp only [PackedLogic4.writeWord, hd, if_true]
    refine Becomes.replaces_logic9 h hd ?_
    simp only [map_range, getD_range]
    have hc : v.planeCount = 4 := by simp [planeCount, hd]
    have := (h.holds9 hd).2.wordRange hpo hl hin
      (fun plane _ => promotedPlane (s.aval &&& finalWordMask s.width)
        (s.bval &&& finalWordMask s.width) plane) _
      fun plane hp j hj => getLsbD_promotedPlane hpo hl s (hc ▸ hp) hj
    simpa [Logic9.plane_ite] using this
  · simp only [PackedLogic4.writeWord, hd, Bool.false_eq_true, if_false]
    rw [Bool.not_eq_true] at hd
    refine Becomes.replaces hd ?_
    have := (h.holds4 hd).2.wordRange hpo hl hin (fun plane _ => s.plane plane) _
      fun plane _ j _ => (plane_state s plane j).symm
    simpa [getD_range, Logic4.plane_ite] using this

theorem Valid.insertWord (h : v.Valid) (s : Logic4Word) (o : ℕ) :
    Refines (v.insertWord s o) (v.view.insertWord s o) := by
  rw [Bits.insertWord, view_width]
  refine Refines.check fun hc => ?_
  obtain ⟨hp, hl, hin⟩ := requireWordRange_ok.mp hc
  exact h.writeWord hp hl hin

section Masked

def maskedWord (source : Logic4Word) (mask : Word) (offset : ℕ) : ℕ → Option Logic4 :=
  Bits.masked mask.getLsbD offset (Bits.range offset source.width source.state)

theorem maskedWord_eq (s : Logic4Word) (m : Word) (o i : ℕ) : maskedWord s m o i =
      if o ≤ i ∧ i < o + s.width ∧ m.getLsbD (i - o) = true
      then some (s.state (i - o)) else none := by
  unfold maskedWord masked range
  by_cases hm : m.getLsbD (i - o) = true <;> by_cases hr : o ≤ i ∧ i < o + s.width <;> simp [hm]

variable {σ : Type}

theorem replaceStates_none (states : List σ) :
    Bits.replaceStates (fun _ => none) states = states := by
  refine List.ext_getElem (by simp [replaceStates]) fun i hi _ => ?_
  simp [replaceStates]

theorem replace_none (bits : Bits) : bits.replace (fun _ => none) = bits := by
  cases bits <;> simp [replace, replaceStates_none]

theorem replaceStates_replaceStates (f g : ℕ → Option σ) (states : List σ) :
    Bits.replaceStates g (Bits.replaceStates f states) =
      Bits.replaceStates (fun i => (g i).or (f i)) states := by
  refine List.ext_getElem (by simp [replaceStates]) fun i hi _ => ?_
  simp only [replaceStates, List.getElem_mapIdx]
  cases g i <;> rfl

theorem replace_replace (bits : Bits) (f g : ℕ → Option Logic4) :
    (bits.replace f).replace g = bits.replace fun i => (g i).or (f i) := by
  cases bits <;> simp [replace, replaceStates_replaceStates, Option.map_or]

theorem width_replace (bits : Bits) (new : ℕ → Option Logic4) :
    (bits.replace new).width = bits.width := by
  cases bits <;> simp [Bits.replace, Bits.width, Bits.replaceStates]

variable {s : Logic4Word} {o : ℕ}

theorem maskedWord_succ {n i : ℕ} : maskedWord { s with width := n + 1 } m o i =
    if i = o + n ∧ m.getLsbD n = true then some (s.state n)
    else maskedWord { s with width := n } m o i := by
  rw [maskedWord_eq, maskedWord_eq]
  by_cases hi : i = o + n
  · subst hi
    simp [Logic4Word.state]
  · have hra : o ≤ i ∧ i < o + (n + 1) ↔ o ≤ i ∧ i < o + n := by omega
    simp only [hi, ← and_assoc, hra]
    rfl

theorem Valid.insertMaskedBits (h : v.Valid) (m : Word) (hin : o + s.width ≤ v.width) :
    ∀ n ≤ s.width, ∃ v', (List.range n).foldlM (fun (v : PackedLogic4) index =>
        if m.getLsbD index then v.set (o + index)
            (Logic4.ofPlanes (s.aval.getLsbD index) (s.bval.getLsbD index))
        else pure v) v = Except.ok v' ∧ v'.Valid ∧
      v'.view = v.view.replace (maskedWord { s with width := n } m o) := by
  intro n
  induction n with
  | zero =>
    refine fun _ => ⟨v, rfl, h, ?_⟩
    have : maskedWord { s with width := 0 } m o = fun _ => none := by
      funext i
      rw [maskedWord_eq, if_neg (by simp only; omega)]
    rw [this, replace_none]
  | succ n ih =>
    intro hn
    obtain ⟨v', hf, hva, hv⟩ := ih (by omega)
    have hw : v'.width = v.width := by rw [← view_width v', hv, width_replace, view_width]
    by_cases hm : m.getLsbD n = true
    · have hs := hva.set (o + n) (s.state n)
      rw [Bits.set, view_width, checkIndex_ok.mpr (by omega)] at hs
      cases hr : v'.set (o + n) (s.state n) with
      | error error => exact absurd (hr ▸ hs) (by simp [Refines])
      | ok v'' =>
        obtain ⟨hv', hvi'⟩ := hr ▸ hs
        refine ⟨v'', foldlM_range_succ_ok hf (by rw [if_pos hm]; exact hr), hv', ?_⟩
        rw [hvi', hv, replace_replace]
        congr 1
        funext i
        rw [maskedWord_succ, single]
        by_cases hi : i = o + n <;> simp [hm, hi]
    · refine ⟨v', foldlM_range_succ_ok hf (by rw [if_neg hm]; rfl), hva, ?_⟩
      rw [hv]
      congr 1
      funext i
      rw [maskedWord_succ, if_neg (by tauto)]

theorem Valid.replaces_masked {v' : PackedLogic4} {m : Word} (hd : v.isLogic9 = false)
    (hb : Becomes v v' fun plane i =>
      if o ≤ i ∧ i < o + s.width ∧ m.getLsbD (i - o) = true
      then (s.state (i - o)).plane plane else (v.readLogic4 i).plane plane) :
    v'.Valid ∧ v'.view = v.view.replace (maskedWord s m o) := by
  refine Becomes.replaces hd ?_
  convert hb using 3 with plane i
  rw [maskedWord_eq]
  split_ifs <;> rfl

theorem getLsbD_fieldOf (m : Word) {width : ℕ} (hp : 0 < width) (hl : width ≤ 64) (j : ℕ) :
    (m &&& finalWordMask width).getLsbD j = (m.getLsbD j && decide (j < width)) := by
  rw [BitVec.getLsbD_and, getLsbD_fieldMask hp hl]

theorem Valid.insertMaskedWord (h : v.Valid) (s : Logic4Word) (m : Word) (o : ℕ) :
    Refines (v.insertMaskedWord s m o) (v.view.insertMaskedWord s m o) := by
  rw [Bits.insertMaskedWord, view_width]
  refine Refines.check fun hc => ?_
  obtain ⟨hpo, hl, hin⟩ := requireWordRange_ok.mp hc
  have hf := getLsbD_fieldOf m hpo hl
  have hsa : maskedWord s (m &&& finalWordMask s.width) o =
      maskedWord s m o := by
    funext i
    rw [maskedWord_eq, maskedWord_eq, hf]
    congr 1
    simp only [Bool.and_eq_true, decide_eq_true_eq, eq_iff_iff]
    exact ⟨fun h => ⟨h.1, h.2.1, h.2.2.1⟩, fun h => ⟨h.1, h.2.1, h.2.2, by omega⟩⟩
  have hsh : v.view.replace (masked m.getLsbD o (range o s.width s.state)) =
      v.view.replace (maskedWord s (m &&& finalWordMask s.width) o) := by
    rw [hsa]
    rfl
  rw [hsh]
  set field := m &&& finalWordMask s.width
  by_cases hn : field = 0
  · rw [if_pos hn]
    have : maskedWord s field o = fun _ => none := by
      funext i
      rw [maskedWord_eq, hn, if_neg (by simp)]
    rw [this, replace_none]
    exact ⟨h, rfl⟩
  rw [if_neg hn]
  by_cases ha : field = finalWordMask s.width
  · rw [if_pos ha]
    have : maskedWord s field o = range o s.width s.state := by
      funext i
      rw [maskedWord_eq, ha, getLsbD_fieldMask hpo hl]
      congr 1
      simp only [decide_eq_true_eq, eq_iff_iff]
      omega
    rw [this]
    have hins := h.insertWord s o
    rwa [Bits.insertWord, view_width, requireWordRange_ok.mpr ⟨hpo, hl, hin⟩] at hins
  rw [if_neg ha]
  by_cases hd : v.isLogic9 = true
  · rw [if_pos hd]
    obtain ⟨v', hfo, hv, hvi⟩ := h.insertMaskedBits field hin s.width le_rfl
    rw [hfo]
    exact ⟨hv, hvi⟩
  rw [if_neg hd]
  rw [Bool.not_eq_true] at hd
  have hold := (h.holds4 hd).2
  by_cases hal : o % 64 = 0
  · rw [if_pos hal]
    refine Valid.replaces_masked hd (hold.editPlanes_masked _ (fun _ _ hw => by simpa using hw)
      fun plane hp i hi => ?_)
    have hln := planeWords_length h.shaped hp
    rw [bit_modify (by rw [hln, wordCount]; omega),
      getLsbD_merge _ _ _ (Nat.mod_lt i (by omega)), hold.bit_eq hp hi]
    by_cases hwo : i / 64 = o / 64
    · have hs : o ≤ i → i - o = i % 64 := by omega
      have hb : (List.getD (v.planeWords plane) (o / 64) 0).getLsbD (i % 64) =
          (v.readLogic4 i).plane plane := by rw [← hold.bit_eq hp hi, bit, hwo]
      rw [if_pos hwo, hb]
      by_cases hm : field.getLsbD (i % 64) = true
      · have hlt : i % 64 < s.width := by
          rw [hf] at hm
          simpa using (Bool.and_eq_true_iff.mp hm).2
        rw [if_pos hm, if_pos ⟨by omega, by omega, by rwa [hs (by omega)]⟩, hs (by omega),
          plane_state]
      · rw [if_neg hm, if_neg]
        exact fun ha => hm (hs ha.1 ▸ ha.2.2)
    · rw [if_neg hwo, if_neg (by omega)]
  · rw [if_neg hal]
    refine Valid.replaces_masked hd ?_
    have hr := hold.wordRange hpo hl hin
      (fun plane w => (readWordRange w o s.width &&& ~~~field) |||
        (s.plane plane &&& field)) (fun plane j =>
        if field.getLsbD j = true then (s.state j).plane plane
        else (v.readLogic4 (o + j)).plane plane) ?_
    · convert hr using 3 with plane i
      by_cases hi : o ≤ i ∧ i < o + s.width
      · have : o + (i - o) = i := by omega
        simp [hi, this]
      · rw [if_neg hi, if_neg]
        exact fun ha => hi ⟨ha.1, ha.2.1⟩
    · intro plane hp j hj
      rw [getLsbD_merge _ _ _ (by omega), getLsbD_readWordRange _ hpo hl, plane_state,
        hold.bit_eq hp (by omega)]
      simp [hj]

end Masked

theorem requireBitRange_ok {sourceWidth : ℕ} : requireBitRange width sourceWidth o = .ok () ↔
      0 < sourceWidth ∧ o + sourceWidth ≤ width := by
  simp only [requireBitRange, outsideTarget, refuse_ok, Bool.or_eq_false_iff,
    decide_eq_false_iff_not]
  omega

theorem Holds.bitRange {s : ℕ → ℕ → Bool} (h : v.Holds p)
    (hu : u.Holds s) (hc : u.planeCount = v.planeCount) (hpo : 0 < u.width)
    (hin : o + u.width ≤ v.width) : Becomes v (v.editPlanes fun plane w =>
        copyBitRange w (u.planeWords plane) o u.width).maskUnusedBits
      fun plane i => if o ≤ i ∧ i < o + u.width then s plane (i - o) else p plane i := by
  refine h.editPlanes_masked _ (fun _ _ hw => by simpa using hw) fun plane hp i hi => ?_
  have hl := planeWords_length h.shaped hp
  rw [bit_copyBitRange _ hpo (by rw [hl, wordCount]; omega), h.bit_eq hp hi]
  by_cases hr : o ≤ i ∧ i < o + u.width
  · rw [if_pos hr, if_pos hr, hu.bit_eq (by omega) (by omega)]
  · rw [if_neg hr, if_neg hr]

theorem range_congr {σ : Type} {s t : ℕ → σ} (h : ∀ j < width, s j = t j) :
    Bits.range o width s = Bits.range o width t := by
  funext i
  unfold range
  split_ifs with hi
  · rw [h _ (by omega)]
  · rfl

theorem Valid.insertBits (h : v.Valid) (hu : u.Valid) (o : ℕ) :
    Refines (v.insertBits u o) (v.view.insertBits u.view o) := by
  rw [Bits.insertBits, view_width, view_width]
  refine Refines.check fun hch => ?_
  obtain ⟨hp, hin⟩ := requireBitRange_ok.mp hch
  simp only [view_isLogic9]
  by_cases hb : v.isLogic9 = false ∧ u.isLogic9 = false
  · obtain ⟨hv4, hu4⟩ := hb
    have hc : u.planeCount = v.planeCount := by simp [planeCount, hv4, hu4]
    have hs : range o u.width u.view.state4 =
        range o u.width u.readLogic4 := by
      refine range_congr fun j hj => ?_
      rw [(hu.holds4 hu4).view_eq]
      simp [state4, hj]
    simp only [hv4, hu4, hs]
    refine Becomes.replaces hv4 ?_
    simpa [getD_range, Logic4.plane_ite] using (h.holds4 hv4).2.bitRange (hu.holds4 hu4).2 hc hp hin
  · have ho : (v.isLogic9 || u.isLogic9) = true := by
      cases hv9 : v.isLogic9 <;> cases hu9 : u.isLogic9 <;> simp_all
    have ha : ¬(!v.isLogic9 && !u.isLogic9) = true := by
      cases hv9 : v.isLogic9 <;> cases hu9 : u.isLogic9 <;> simp_all
    obtain ⟨hvw, hv9, hv⟩ := h.promote
    obtain ⟨huw, hu9, huh⟩ := hu.promote
    have hc : u.promoteToLogic9.planeCount = v.promoteToLogic9.planeCount := by
      simp [planeCount, hv9, hu9]
    have hs : range o u.width u.view.state9 =
        range o u.width u.state9 := by
      refine range_congr fun j hj => ?_
      rw [Bits.state9, view_states9]
      simp [hj]
    rw [if_neg ha, if_pos ho, hs]
    refine Becomes.replaces9 h ?_
    have hi' : o + u.promoteToLogic9.width ≤ v.promoteToLogic9.width := by omega
    have := hv.bitRange huh hc (by omega) hi'
    simpa [getD_range, Logic9.plane_ite, huw] using this

theorem Holds.editWord {new : ℕ → ℕ → Bool} (h : v.Holds p) (hpo : 0 < v.width)
    (hle : v.width ≤ 64) (edit : ℕ → Word → Word)
    (hb : ∀ plane < v.planeCount, ∀ i < 64,
      (edit plane ((v.planeWords plane).getD 0 0)).getLsbD i =
        (decide (i < v.width) && new plane i)) :
    Becomes v (v.editPlanes fun plane w => w.modify 0 (edit plane)) new := by
  have hc : wordCount v.width = 1 := by
    simp only [wordCount]
    omega
  refine h.editPlanes _ (fun _ _ hw => by simpa using hw) fun plane hp i => ?_
  have hl : (v.planeWords plane).length = 1 := by rw [planeWords_length h.shaped hp, hc]
  rw [bit_modify (by omega)]
  by_cases hi : i < 64
  · rw [if_pos (by omega), Nat.mod_eq_of_lt hi, hb plane hp i hi]
  · rw [if_neg (by omega), bit_of_le (by omega)]
    simp [show ¬ i < v.width by omega]

theorem requireMatchingWord_ok : requireMatchingWord isLogic9 width s = .ok () ↔
      isLogic9 = false ∧ 0 < width ∧ width ≤ 64 ∧ s.width = width := by
  cases isLogic9 <;> simp [requireMatchingWord, refuse_ok, and_assoc]

theorem Valid.assignWord (h : v.Valid) (s : Logic4Word) :
    Refines (v.assignWord s) (v.view.assignWord s) := by
  rw [Bits.assignWord, view_width, view_isLogic9]
  refine Refines.check fun hc => ?_
  obtain ⟨hd, hpo, hl, -⟩ := requireMatchingWord_ok.mp hc
  refine Becomes.replaces hd ((h.holds4 hd).2.editWord hpo hl
    (fun plane _ => s.plane plane &&& finalWordMask v.width) fun plane hp i hi => ?_)
  rw [BitVec.getLsbD_and, getLsbD_fieldMask hpo hl, Bool.and_comm, Option.getD_some, plane_state]

theorem requireSingleWord_ok {s : Logic9Word} : requireSingleWord isLogic9 width s message =
      .ok () ↔ isLogic9 = true ∧ 0 < width ∧ width ≤ 64 ∧ s.width = width := by
  cases isLogic9 <;> simp [requireSingleWord, refuse_ok, and_assoc]

theorem getLsbD_normalized (p : ℕ → Word) (hp : plane < 4) (hj : j < 64) :
    (normalizeInvalidCodesToX p plane).getLsbD j =
      (Logic9.ofPlanes ((p 0).getLsbD j) ((p 1).getLsbD j) ((p 2).getLsbD j)
        ((p 3).getLsbD j)).plane plane := by
  obtain ⟨h0, h1, h2, h3⟩ := Logic9.plane_ofPlanes_normalized ((p 0).getLsbD j)
    ((p 1).getLsbD j) ((p 2).getLsbD j) ((p 3).getLsbD j)
  interval_cases plane <;>
    simp only [normalizeInvalidCodesToX, h0, h1, h2, h3, BitVec.getLsbD_or, BitVec.getLsbD_and,
      BitVec.getLsbD_not, hj, decide_true, Bool.true_and, if_true, if_false,
      OfNat.ofNat_ne_zero, one_ne_zero]

theorem getLsbD_canonical (s : Logic9Word) (hp : plane < 4) (hj : j < 64) :
    (s.canonical plane).getLsbD j = (s.state j).plane plane := by
  rw [Logic9Word.canonical, getLsbD_normalized _ hp hj]
  rfl

theorem Valid.assignLogic9Word (h : v.Valid) (s : Logic9Word) :
    Refines (v.assignLogic9Word s) (v.view.assignLogic9Word s) := by
  rw [Bits.assignLogic9Word, view_width, view_isLogic9]
  refine Refines.check fun hc => ?_
  obtain ⟨hd, hpo, hle, -⟩ := requireSingleWord_ok.mp hc
  have hs : v.promoteToLogic9 = v := by simp [promoteToLogic9, hd]
  have hco : v.planeCount = 4 := by simp [planeCount, hd]
  refine Becomes.replaces9 h ?_
  rw [hs]
  refine (h.holds9 hd).2.editPlanes_masked _ (fun _ _ hw => by simpa using hw)
    fun plane hp i hi => ?_
  have hl : (v.planeWords plane).length = 1 := by
    rw [planeWords_length h.shaped hp, wordCount]
    omega
  rw [bit_modify (by omega), if_pos (by omega), Nat.mod_eq_of_lt (by omega),
    getLsbD_canonical s (by omega) (by omega)]
  rfl

theorem Valid.insertMaskedLogic9Word (h : v.Valid) (s : Logic9Word) (m : Word) :
    Refines (v.insertMaskedLogic9Word s m) (v.view.insertMaskedLogic9Word s m) := by
  rw [Bits.insertMaskedLogic9Word, view_width, view_isLogic9]
  refine Refines.check fun hc => ?_
  obtain ⟨hd, hpo, hl, -⟩ := requireSingleWord_ok.mp hc
  have hs : v.promoteToLogic9 = v := by simp [promoteToLogic9, hd]
  have hco : v.planeCount = 4 := by simp [planeCount, hd]
  refine Becomes.replaces9 h ?_
  rw [hs]
  refine (h.holds9 hd).2.editWord hpo hl (fun plane w =>
    (w &&& ~~~(m &&& finalWordMask v.width)) |||
      (s.canonical plane &&& (m &&& finalWordMask v.width))) fun plane hp i hi => ?_
  have hold : ((v.planeWords plane).getD 0 0).getLsbD i =
      (decide (i < v.width) && (v.readLogic9 i).plane plane) := by
    rw [getLsbD_word _ _ hi, Nat.zero_add]
    exact (h.holds9 hd).2.bits plane hp i
  rw [getLsbD_merge _ _ _ hi, getLsbD_fieldOf _ hpo hl, getLsbD_canonical s (by omega) hi,
    hold, masked]
  by_cases hw : i < v.width
  · cases m.getLsbD i <;> simp [hw, state9, hd]
  · simp [hw]

end PackedLogic4

end FsimRuntime.Packed
