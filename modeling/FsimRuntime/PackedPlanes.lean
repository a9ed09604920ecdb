import FsimRuntime.PackedValue

/-!
# The planes of a packed value

What the word-level helpers of `packed_value.cpp` do to single bits, and the
planes as the operations see them: an edit of every plane changes the words of
each plane on its own, wherever the words are stored.
-/

namespace FsimRuntime.Packed
open BitWords List BitVec

theorem getLsbD_finalWordMask (width : ℕ) {j : ℕ} (h : j < 64) :
    (finalWordMask width).getLsbD j = decide (width % 64 = 0 ∨ j < width % 64) := by
  unfold finalWordMask
  split_ifs with hz
  · rw [show ~~~(0 : Word) = lowBits 64 from not_zero_eq]
    simp [hz, h]
  · rw [show (1#64 <<< (width % 64)) - 1 = lowBits (width % 64) from
      shiftLeft_sub_one, getLsbD_lowBits]
    simp [hz, h]

variable {width o : ℕ} {w d : List Word} {word : ℕ}

theorem getLsbD_fieldMask (hp : 0 < width) (hl : width ≤ 64) (j : ℕ) :
    (finalWordMask width).getLsbD j = decide (j < width) := by
  by_cases h : j < 64
  · rw [getLsbD_finalWordMask width h, decide_eq_decide]
    omega
  · rw [getLsbD_of_ge _ _ (by omega), eq_comm, decide_eq_false_iff_not]
    omega

theorem bit_modify (h : word < w.length) (f : Word → Word) (i : ℕ) : bit (w.modify word f) i =
      if i / 64 = word then (f (w.getD word 0)).getLsbD (i % 64) else bit w i := by
  rw [← bit_set h, modify_eq_set_getElem?]
  simp [h]

@[simp] theorem length_maskLast (w : List Word) (width : ℕ) :
    (maskLast w width).length = w.length := by simp [maskLast]

theorem bit_maskLast (h : w.length = wordCount width) (i : ℕ) :
    bit (maskLast w width) i = (decide (i < width) && bit w i) := by
  by_cases he : w.length = 0
  · rw [length_eq_zero_iff] at he
    subst he
    simp [maskLast]
  · simp only [wordCount] at h
    rw [maskLast, bit_modify (by omega)]
    split_ifs with hi
    · rw [getLsbD_and, getLsbD_finalWordMask _ (Nat.mod_lt i (by omega)), ← hi, Bool.and_comm]
      congr 1
      rw [decide_eq_decide]
      omega
    · by_cases hl : i < width
      · simp [hl]
      · rw [bit_of_le (by omega)]
        simp

@[simp] theorem length_writeBit (w : List Word) (index : ℕ) (value : Bool) :
    (writeBit w index value).length = w.length := by simp [writeBit]

theorem bit_writeBit {index : ℕ} (h : index < w.length * 64) (value : Bool)
    (i : ℕ) : bit (writeBit w index value) i = if i = index then value else bit w i := by
  have hma : ∀ j < 64, (1#64 <<< (index % 64)).getLsbD j = decide (j = index % 64) := by
    intro j hj
    rw [← twoPow_eq, getLsbD_twoPow]
    simp [Nat.mod_lt index (by omega : 0 < 64), eq_comm]
  rw [writeBit, bit_modify (by omega)]
  by_cases hw : i / 64 = index / 64
  · have hs : i = index ↔ i % 64 = index % 64 := by omega
    have hm : i % 64 < 64 := Nat.mod_lt i (by omega)
    have hold : (w.getD (index / 64) 0).getLsbD (i % 64) = bit w i := by rw [bit, hw]
    rw [if_pos hw]
    by_cases hi : i % 64 = index % 64
    · rw [if_pos (hs.mpr hi)]
      cases value <;> simp only [Bool.false_eq_true, if_true, getLsbD_or, hma _ hm] <;> simp [hi]
    · rw [if_neg (mt hs.mp hi), ← hold]
      cases value <;>
        simp only [Bool.false_eq_true, if_false, if_true, getLsbD_or, getLsbD_and,
          getLsbD_not, hma _ hm] <;>
        simp [hi, hm]
  · have : i ≠ index := by
      rintro rfl
      exact hw rfl
    rw [if_neg hw, if_neg this]

theorem getLsbD_copiedWord (s : List Word) {rangeEnd : ℕ} (old : Word) (ho : o < (word + 1) * 64)
    (he : word * 64 < rangeEnd) (hr : o < rangeEnd) {j : ℕ} (h : j < 64) :
    (copiedWord s o rangeEnd word old).getLsbD j =
      if o ≤ word * 64 + j ∧ word * 64 + j < rangeEnd then bit s (word * 64 + j - o)
      else old.getLsbD j := by
  unfold copiedWord
  extract_lets destinationBegin copiedBegin copiedEnd copiedWidth bits copiedMask shift
  have hm : copiedMask = lowBits copiedWidth := by
    by_cases hf : copiedWidth = 64
    · simp only [copiedMask, hf]
      exact not_zero_eq
    · simp only [copiedMask, hf]
      exact shiftLeft_sub_one
  have hin : (shift ≤ j ∧ j - shift < copiedWidth) ↔
      (o ≤ word * 64 + j ∧ word * 64 + j < rangeEnd) := by omega
  rw [getLsbD_or, getLsbD_and, getLsbD_not, getLsbD_shiftLeft,
    getLsbD_shiftLeft, getLsbD_and, hm, getLsbD_lowBits]
  by_cases hj : shift ≤ j ∧ j - shift < copiedWidth
  · have hb : bits.getLsbD (j - shift) = bit s (word * 64 + j - o) := by
      rw [getLsbD_window _ _ (by omega)]
      congr 1
      omega
    rw [if_pos (hin.mp hj), hb]
    simp [h, hj.2, show ¬ j < shift by omega, show j - shift < 64 by omega]
  · rw [if_neg (mt hin.mpr hj)]
    by_cases hs : j < shift
    · simp [h, hs]
    · simp [h, show ¬ j - shift < copiedWidth by omega]

@[simp] theorem length_copyBitRange (d s : List Word) (o width : ℕ) :
    (copyBitRange d s o width).length = d.length := by simp [copyBitRange]

theorem bit_copyBitRange (s : List Word) (hp : 0 < width) (h : o + width ≤ d.length * 64)
    (i : ℕ) : bit (copyBitRange d s o width) i =
      if o ≤ i ∧ i < o + width then bit s (i - o) else bit d i := by
  rw [copyBitRange, bit_editWords _ (by omega)]
  have hi : i / 64 * 64 + i % 64 = i := Nat.div_add_mod' i 64
  split_ifs with hw hin hin
  · rw [getLsbD_copiedWord _ _ (by omega) (by omega) (by omega) (Nat.mod_lt i (by omega)), hi,
      if_pos hin]
  · rw [getLsbD_copiedWord _ _ (by omega) (by omega) (by omega) (Nat.mod_lt i (by omega)), hi,
      if_neg hin, bit]
  · omega
  · rfl

@[simp] theorem length_extractBitRange (s : List Word) (o : ℕ) (d : List Word) :
    (extractBitRange s o d).length = d.length := by simp [extractBitRange]

theorem bit_extractBitRange (s : List Word) (o : ℕ) {i : ℕ} (h : i < d.length * 64) :
    bit (extractBitRange s o d) i = bit s (o + i) := by
  have hw : i / 64 < d.length := by omega
  have : (extractBitRange s o d).getD (i / 64) 0 =
      window s (o + i / 64 * 64) := by simp [extractBitRange, hw]
  rw [bit, this, getLsbD_window _ _ (Nat.mod_lt i (by omega))]
  congr 1
  omega

@[simp] theorem length_copyWordRange (d : List Word) (s : Word) (o width : ℕ) :
    (copyWordRange d s o width).length = d.length := by
  simp only [copyWordRange]
  split_ifs <;> simp

/-- A field of one word is replaced. -/
theorem bit_mergeField {k n : ℕ} (s : Word) (hw : word < d.length) (hp : 0 < n)
    (hn : k + n ≤ 64) (i : ℕ) : bit (d.modify word fun w =>
        (w &&& ~~~(finalWordMask n <<< k)) ||| (s &&& (finalWordMask n <<< k))) i =
      if word * 64 + k ≤ i ∧ i < word * 64 + k + n then s.getLsbD (i % 64) else bit d i := by
  have hm : i % 64 < 64 := Nat.mod_lt i (by omega)
  rw [bit_modify hw, getLsbD_merge _ _ _ hm, getLsbD_shiftLeft, getLsbD_fieldMask hp (by omega)]
  by_cases hi : i / 64 = word
  · subst hi
    have hin : (decide (i % 64 < 64) && !decide (i % 64 < k) && decide (i % 64 - k < n)) = true ↔
        i / 64 * 64 + k ≤ i ∧ i < i / 64 * 64 + k + n := by
      simp only [Bool.and_eq_true, Bool.not_eq_true', decide_eq_true_eq, decide_eq_false_iff_not]
      omega
    rw [if_pos rfl, if_congr hin rfl rfl, bit]
  · rw [if_neg hi, if_neg (by omega)]

theorem bit_copyWordRange (s : Word)
    (hp : 0 < width) (hl : width ≤ 64) (h : o + width ≤ d.length * 64) (i : ℕ) :
    bit (copyWordRange d s o width) i = if o ≤ i ∧ i < o + width then s.getLsbD (i - o)
      else bit d i := by
  have hm : i % 64 < 64 := Nat.mod_lt i (by omega)
  have hso : ∀ j, (s &&& finalWordMask width).getLsbD j =
      (decide (j < width) && s.getLsbD j) := by
    intro j
    rw [getLsbD_and, getLsbD_fieldMask hp hl, Bool.and_comm]
  by_cases hs : o % 64 = 0
  · -- An aligned range lies in one word.
    have hc := bit_mergeField s (show o / 64 < d.length by omega) hp (by omega : 0 + width ≤ 64) i
    rw [shiftLeft_zero] at hc
    simp only [copyWordRange, hs, if_true, hc]
    split_ifs <;> first | omega | rfl | (congr 1; omega)
  · set firstWidth := min width (64 - o % 64) with hfi
    set first := d.modify (o / 64) fun word =>
      (word &&& ~~~(finalWordMask firstWidth <<< (o % 64))) |||
        (((s &&& finalWordMask width) <<< (o % 64)) &&&
          (finalWordMask firstWidth <<< (o % 64))) with hf
    have hfb : bit first i = if o ≤ i ∧ i < o + firstWidth then s.getLsbD (i - o)
        else bit d i := by
      rw [hf, bit_mergeField _ (by omega) (by omega) (by omega), Nat.div_add_mod']
      split_ifs with hi
      · rw [getLsbD_shiftLeft, hso, show i % 64 - o % 64 = i - o by omega]
        simp [hm, show ¬ i % 64 < o % 64 by omega, show i - o < width by omega]
      · rfl
    by_cases hwh : firstWidth = width
    · have hc : copyWordRange d s o width = first := by
        simp only [copyWordRange, hs, if_false, ← hfi, hwh, if_true]
        rw [hf, hwh]
      rw [hc, hfb, hwh]
    · have hc := bit_mergeField ((s &&& finalWordMask width) >>> firstWidth)
        (show o / 64 + 1 < first.length by rw [hf, length_modify]; omega)
        (show 0 < width - firstWidth by omega) (by omega : 0 + (width - firstWidth) ≤ 64) i
      rw [shiftLeft_zero, hfb, getLsbD_ushiftRight, hso] at hc
      simp only [copyWordRange, hs, if_false, ← hfi, hwh, ← hf, hc]
      split_ifs <;> first | omega | rfl | skip
      rw [show firstWidth + i % 64 = i - o by omega]
      simp [show i - o < width by omega]

theorem getLsbD_readWordRange (s : List Word) (hp : 0 < width) (hl : width ≤ 64) (j : ℕ) :
    (readWordRange s o width).getLsbD j = (decide (j < width) && bit s (o + j)) := by
  simp only [readWordRange]
  rw [getLsbD_and, getLsbD_fieldMask hp hl, Bool.and_comm]
  by_cases hj : j < width
  · congr 1
    split_ifs with hn
    · exact getLsbD_parts s o (by omega)
    · rw [getLsbD_lowPart]
      simp [show o % 64 + j < 64 by omega]
  · simp [hj]

namespace PackedLogic4

def Shaped (v : PackedLogic4) : Prop :=
  match v.storage with
  | .inline _ => v.usesInlineStorage = true
  | .wide s => v.usesInlineStorage = false ∧ s.aval.length = wordCount v.width ∧
      s.bval.length = wordCount v.width ∧
      (v.isLogic9 = true → s.logic9Plane2.length = wordCount v.width ∧
        s.logic9Plane3.length = wordCount v.width)

variable {plane : ℕ} {v : PackedLogic4} {w : List Word} {other : ℕ}

theorem planeWords_length (h : v.Shaped) (hp : plane < v.planeCount) :
    (v.planeWords plane).length = wordCount v.width := by
  obtain ⟨width, isLogic9, s⟩ := v
  unfold planeWords
  split_ifs with hw
  · simp only at hw
    simp [hw, wordCount]
  · cases isLogic9 <;> cases s <;>
      simp only [Shaped, usesInlineStorage, planeCount, Bool.false_eq_true,
        if_false, if_true, wordCount] at h hp hw ⊢ <;>
      interval_cases plane <;> simp [Storage.plane] <;> simp_all <;> omega

theorem storePair_take {old : Word × Word} {n : ℕ} (hp : 0 < n) (hl : n ≤ 2)
    (hw : w.length = n) : [(storePair old w).1, (storePair old w).2].take n = w := by
  match w, hw with
  | [], hw => simp at hw; omega
  | [a], hw => simp at hw; subst hw; rfl
  | [a, b], hw => simp at hw; subst hw; rfl
  | a :: b :: c :: rest, hw => simp at hw; omega

theorem plane_setPlane (h : v.Shaped) (hwi : v.width ≠ 0) (hp : plane < v.planeCount)
    (ho : other < v.planeCount) (hw : w.length = wordCount v.width) :
    (v.storage.setPlane plane w).plane (wordCount v.width) other =
      if other = plane then w else v.storage.plane (wordCount v.width) other := by
  obtain ⟨width, isLogic9, storage⟩ := v
  cases storage with
  | wide s =>
    cases isLogic9 <;> simp only [planeCount, Bool.false_eq_true, if_false, if_true] at hp ho <;>
      interval_cases plane <;> interval_cases other <;> rfl
  | inline s =>
    have hc : 0 < wordCount width := by
      simp only [wordCount] at hwi ⊢
      omega
    cases isLogic9 with
    | false =>
      have hl : wordCount width ≤ 2 := by
        simp only [Shaped, usesInlineStorage, decide_eq_true_eq, Bool.false_eq_true, if_false] at h
        simp only [wordCount]
        omega
      simp only [planeCount, Bool.false_eq_true, if_false] at hp ho
      interval_cases plane <;> interval_cases other <;> first | rfl | exact storePair_take hc hl hw
    | true =>
      have hl : wordCount width = 1 := by
        simp only [Shaped, usesInlineStorage, decide_eq_true_eq, if_true] at h
        simp only [wordCount] at hc ⊢
        omega
      obtain ⟨word, rfl⟩ := length_eq_one_iff.mp (hw.trans hl)
      simp only [planeCount, if_true] at hp ho
      simp only [hl]
      interval_cases plane <;> interval_cases other <;> rfl

structure Edited (v v' : PackedLogic4) (edit : ℕ → List Word → List Word) : Prop where
  shaped : v'.Shaped
  width_eq : v'.width = v.width
  domain_eq : v'.isLogic9 = v.isLogic9
  planes : ∀ plane < v.planeCount, v'.planeWords plane = edit plane (v.planeWords plane)

theorem editPlane_shaped (h : v.Shaped) (hp : plane < v.planeCount)
    {edit : List Word → List Word} (he : (edit (v.planeWords plane)).length = wordCount v.width) :
    (v.editPlane plane edit).Shaped := by
  obtain ⟨width, isLogic9, s⟩ := v
  unfold editPlane
  split_ifs with hw
  · exact h
  · cases s <;> cases isLogic9 <;>
      simp only [planeCount, Bool.false_eq_true, if_false, if_true] at hp <;>
      interval_cases plane <;>
      simp_all [Shaped, Storage.setPlane, usesInlineStorage]

theorem planeWords_editPlane (h : v.Shaped)
    (hp : plane < v.planeCount) (ho : other < v.planeCount) {edit : List Word → List Word}
    (he : (edit (v.planeWords plane)).length = wordCount v.width) :
    (v.editPlane plane edit).planeWords other =
      if other = plane then edit (v.planeWords plane) else v.planeWords other := by
  by_cases hw : v.width = 0
  · have hn : edit (v.planeWords plane) = [] := by
      rw [← length_eq_zero_iff, he, hw]
      rfl
    have hse : v.editPlane plane edit = v := by simp [editPlane, hw]
    rw [hse, hn]
    simp [planeWords, hw]
  · have hwo : (v.editPlane plane edit).planeWords other =
        (v.storage.setPlane plane (edit (v.planeWords plane))).plane (wordCount v.width) other := by
      simp [editPlane, planeWords, hw]
    rw [hwo, plane_setPlane h hw hp ho he]
    simp [planeWords, hw]

theorem editPlanes_edited (h : v.Shaped) (edit : ℕ → List Word → List Word)
    (he : ∀ plane w, w.length = wordCount v.width → (edit plane w).length = wordCount v.width) :
    Edited v (v.editPlanes edit) edit := by
  -- The planes before `n` are edited, the others are as they were.
  have hpr : ∀ n ≤ v.planeCount,
      let v' := (range n).foldl (fun v plane => v.editPlane plane (edit plane)) v
      v'.Shaped ∧ v'.width = v.width ∧ v'.isLogic9 = v.isLogic9 ∧
        ∀ plane < v.planeCount, v'.planeWords plane =
          if plane < n then edit plane (v.planeWords plane) else v.planeWords plane := by
    intro n
    induction n with
    | zero => exact fun _ => ⟨h, rfl, rfl, fun plane _ => by simp⟩
    | succ n ih =>
      intro hn
      obtain ⟨hs, hw, hd, hpl⟩ := ih (by omega)
      set v' := (range n).foldl (fun v plane => v.editPlane plane (edit plane)) v
      have hc : v'.planeCount = v.planeCount := by rw [planeCount, planeCount, hd]
      have hold : v'.planeWords n = v.planeWords n := by rw [hpl n (by omega), if_neg (by omega)]
      have hl : (edit n (v'.planeWords n)).length = wordCount v'.width := by
        rw [hold, hw]
        exact he n _ (planeWords_length h (by omega))
      have hf : (v'.editPlane n (edit n)).width = v'.width ∧
          (v'.editPlane n (edit n)).isLogic9 = v'.isLogic9 := by
        unfold editPlane
        split_ifs <;> exact ⟨rfl, rfl⟩
      simp only [range_succ, foldl_append, foldl_cons, foldl_nil]
      refine ⟨editPlane_shaped hs (by omega) hl, hf.1.trans hw,
        hf.2.trans hd, fun plane hp => ?_⟩
      rw [planeWords_editPlane hs (by omega) (by omega) hl]
      by_cases hsa : plane = n
      · subst hsa
        simp [hold]
      · rw [if_neg hsa, hpl plane hp]
        simp [show plane < n + 1 ↔ plane < n by omega]
  obtain ⟨hs, hw, hd, hpl⟩ := hpr v.planeCount le_rfl
  exact ⟨hs, hw, hd, fun plane hp => by rw [editPlanes, hpl plane hp, if_pos hp]⟩

theorem Edited.planeCount_eq {v' : PackedLogic4} {edit : ℕ → List Word → List Word}
    (h : Edited v v' edit) : v'.planeCount = v.planeCount := by
  rw [planeCount, planeCount, h.domain_eq]

theorem Edited.trans {v' v'' : PackedLogic4} {edit e' : ℕ → List Word → List Word}
    (h : Edited v v' edit) (h' : Edited v' v'' e') :
    Edited v v'' fun plane w => e' plane (edit plane w) where
  shaped := h'.shaped
  width_eq := h'.width_eq.trans h.width_eq
  domain_eq := h'.domain_eq.trans h.domain_eq
  planes plane hp := by rw [h'.planes plane (h.planeCount_eq ▸ hp), h.planes plane hp]

theorem maskUnusedBits_edited (h : v.Shaped) :
    Edited v v.maskUnusedBits fun _ w => maskLast w v.width :=
  editPlanes_edited h _ fun _ w hw => by rw [length_maskLast, hw]

def promotedPlanes (v : PackedLogic4) : ℕ → List Word
  | 0 => v.planeWords 0
  | 1 => (v.planeWords 1).map (~~~·)
  | 2 => List.zipWith (~~~· &&& ·) (v.planeWords 0) (v.planeWords 1)
  | _ => List.replicate (wordCount v.width) 0

theorem promoteToLogic9_spec (h : v.Shaped) (hd : v.isLogic9 = false) :
    v.promoteToLogic9.Shaped ∧ v.promoteToLogic9.width = v.width ∧
      v.promoteToLogic9.isLogic9 = true ∧
      ∀ plane < 4, v.promoteToLogic9.planeWords plane = maskLast
      (promotedPlanes v plane) v.width := by
  -- One argument for the three layouts: the unmasked value has the promoted planes.
  have hm : ∀ v' : PackedLogic4, v'.Shaped → v'.width = v.width → v'.isLogic9 = true →
      (∀ plane < 4, v'.planeWords plane = promotedPlanes v plane) →
      v'.maskUnusedBits.Shaped ∧ v'.maskUnusedBits.width = v.width ∧
        v'.maskUnusedBits.isLogic9 = true ∧
        ∀ plane < 4, v'.maskUnusedBits.planeWords plane =
          maskLast (promotedPlanes v plane) v.width := by
    intro v' hs hw hlogic9 hpl
    have hma := maskUnusedBits_edited hs
    refine ⟨hma.shaped, hma.width_eq.trans hw, hma.domain_eq.trans hlogic9, ?_⟩
    intro plane hp
    rw [hma.planes plane (by simpa [planeCount, hlogic9] using hp), hpl plane hp, hw]
  obtain ⟨width, isLogic9, storage⟩ := v
  subst hd
  cases storage with
  | inline s =>
    simp only [Shaped, usesInlineStorage, decide_eq_true_eq, Bool.false_eq_true, if_false] at h
    by_cases hn : width ≤ 64
    · simp only [promoteToLogic9, hn]
      refine hm _ (by simpa [Shaped, usesInlineStorage] using hn) rfl rfl ?_
      intro plane hp
      by_cases hz : width = 0
      · subst hz
        interval_cases plane <;> simp [planeWords, promotedPlanes, wordCount]
      · have hc : wordCount width = 1 := by
          simp only [wordCount]
          omega
        interval_cases plane <;> simp [planeWords, promotedPlanes, hz, Storage.plane, hc]
    · simp only [promoteToLogic9, hn]
      have hc : wordCount width = 2 := by
        simp only [wordCount]
        omega
      refine hm _ ?_ rfl rfl ?_
      · simp [Shaped, usesInlineStorage]
        omega
      · intro plane hp
        have hz : width ≠ 0 := by omega
        interval_cases plane <;> simp [planeWords, promotedPlanes, hz, Storage.plane]
  | wide s =>
    simp only [Shaped, usesInlineStorage, decide_eq_false_iff_not, Bool.false_eq_true, if_false]
      at h
    refine hm _ ?_ rfl rfl ?_
    · simp [Shaped, usesInlineStorage, h.2.2.1]
      omega
    · intro plane hp
      have hz : width ≠ 0 := by omega
      interval_cases plane <;> simp [planeWords, promotedPlanes, hz, Storage.plane]

end PackedLogic4

end FsimRuntime.Packed
