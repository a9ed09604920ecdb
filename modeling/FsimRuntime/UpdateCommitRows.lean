import FsimRuntime.BitWords
import FsimRuntime.UpdateCommitModel

/-!
# Publication order

The rows of a commit are linked by words of 64 signals and committed by the
dirty bits of every word: each row once, in the order of the signals.
-/

namespace FsimRuntime.UpdateCommit
open List Function Nat

variable {β : Type} {d : Design β}

def Chain (scratch : List (Row β)) (wordIndex : ℕ) : Option ℕ → List ℕ → Prop
  | head, [] => head = none
  | head, i :: rest => head = some i ∧ ∃ row, scratch[i]? = some row ∧
      row.signal / 64 = wordIndex ∧ Chain scratch wordIndex row.nextInWord rest

variable {s : List (Row β)} {width : ℕ} {head : Option ℕ} {v : List ℕ}

theorem Chain.append (h : Chain s width head v) (row : Row β) :
    Chain (s ++ [row]) width head v := by
  induction v generalizing head with
  | nil => exact h
  | cons i r ih =>
    obtain ⟨hh, found, hf, hw, hr⟩ := h
    have hi : i < s.length := (List.getElem?_eq_some_iff.mp hf).1
    exact ⟨hh, found, by rw [getElem?_append_left hi, hf], hw, ih hr⟩

def rowBit (scratch : List (Row β)) (i : ℕ) : ℕ := ((scratch[i]?.map (·.signal)).getD 0) % 64

theorem linkRows_ok {w : CommitWord} (hc : Chain s width head v)
    (hd : ∀ i ∈ v, w.dirtyMask.getLsbD (rowBit s i) = true)
    (hn : (v.map (rowBit s)).Nodup) {r : ℕ}
    (hr : v.length ≤ r) (rbb : ℕ → Option ℕ)
    (hf : ∀ i ∈ v, rbb (rowBit s i) = none) (l : ℕ) :
    ∃ rbb', linkRows s width w r head rbb l = .ok (rbb', l + v.length) ∧
      (∀ i ∈ v, rbb' (rowBit s i) = some i) ∧ ∀ b, (∀ i ∈ v, rowBit s i ≠ b) →
      rbb' b = rbb b := by
  induction v generalizing head r rbb l with
  | nil =>
    obtain rfl : head = none := hc
    refine ⟨rbb, ?_, by simp, fun _ _ => rfl⟩
    cases r <;> rfl
  | cons i rest ih =>
    obtain ⟨rfl, row, hro, hw, hre⟩ := hc
    obtain ⟨r, rfl⟩ : ∃ n, r = n + 1 := ⟨r - 1, by simp at hr; omega⟩
    have hbi : rowBit s i = row.signal % 64 := by simp [rowBit, hro]
    rw [map_cons, nodup_cons] at hn
    have ho : ∀ j ∈ rest, rowBit s j ≠ rowBit s i := fun j hj he =>
      hn.1 (he ▸ mem_map_of_mem hj)
    have hop : ¬ (row.signal / 64 ≠ width ∨ w.dirtyMask.getLsbD (row.signal % 64) = false ∨
        (rbb (row.signal % 64)).isSome) := by
      rw [← hbi, hd i (by simp), hf i (by simp)]
      simp [hw]
    obtain ⟨rbb', hl, hs, hk⟩ := ih hre (fun j hj => hd j (by simp [hj])) hn.2
      (by simpa using hr) (update rbb (row.signal % 64) (some i))
      (fun j hj => by
        rw [← hbi, update_of_ne (ho j hj)]
        exact hf j (by simp [hj])) (l + 1)
    refine ⟨rbb', ?_, ?_, ?_⟩
    · rw [linkRows, hro]
      simp only [hop, if_false, hl, length_cons]
      congr 2
      omega
    · intro j hj
      rcases mem_cons.mp hj with rfl | hj
      · rw [hk _ ho, hbi, update_self]
      · exact hs j hj
    · intro b hb
      have hne : b ≠ row.signal % 64 := fun he => hb i (by simp) (hbi.trans he.symm)
      rw [hk b fun j hj => hb j (by simp [hj]), update_of_ne hne]

def rowsOfWord (scratch : List (Row β)) (wordIndex : ℕ) : List ℕ :=
  (range scratch.length).reverse.filter fun i =>
    scratch[i]?.map (·.signal / 64) = some wordIndex

structure Holds (rows : Rows β) (entries : List (SignalId × List β)) : Prop where
  scratch : rows.scratch.map (fun row => (row.signal, row.value)) = entries
  chain : ∀ w, Chain rows.scratch w (rows.words w).head (rowsOfWord rows.scratch w)
  dirty : ∀ w b, b < 64 →
    ((rows.words w).dirtyMask.getLsbD b = true ↔ 64 * w + b ∈ entries.map (·.1))

theorem holds_empty : Holds (Rows.empty : Rows β) [] :=
  ⟨rfl, fun _ => rfl, fun w b _ => by simp [Rows.empty]⟩

theorem rowsOfWord_append (s : List (Row β)) (row : Row β) (w : ℕ) : rowsOfWord (s ++ [row]) w =
      if row.signal / 64 = w then s.length :: rowsOfWord s w else rowsOfWord s w := by
  have hold : (range s.length).reverse.filter
      (fun i => (s ++ [row])[i]?.map (·.signal / 64) = some w) = rowsOfWord s w := by
    refine filter_congr fun i hi => ?_
    rw [mem_reverse, mem_range] at hi
    rw [getElem?_append_left hi]
  rw [rowsOfWord, length_append, length_singleton, range_succ, reverse_append,
    reverse_singleton, singleton_append, filter_cons, hold]
  simp

theorem Holds.append {rows : Rows β} {e : List (SignalId × List β)} (h : Holds rows e)
    {s : SignalId} {value : List β} (hs : s < d.signalCount) (hn : s ∉ e.map (·.1)) :
    ∃ r', appendCommitRow d rows s value = .ok r' ∧ Holds r' (e ++ [(s, value)]) := by
  have hsp : 64 * (s / 64) + s % 64 = s := div_add_mod s 64
  have hc : (rows.words (s / 64)).dirtyMask.getLsbD (s % 64) = false := by
    have := h.dirty (s / 64) (s % 64) (mod_lt s (by omega))
    rw [hsp] at this
    exact Bool.eq_false_iff.mpr fun hd => hn (this.mp hd)
  refine ⟨⟨rows.scratch ++ [⟨s, value, (rows.words (s / 64)).head⟩],
    update rows.words (s / 64) ⟨(rows.words (s / 64)).dirtyMask ||| 1#64 <<< (s % 64),
      some rows.scratch.length⟩⟩, ?_, ?_, ?_, ?_⟩
  · simp only [appendCommitRow, hc, not_le.mpr hs]
    rfl
  · simp [h.scratch]
  · intro w
    rw [rowsOfWord_append]
    by_cases hw : s / 64 = w
    · subst hw
      simp only [update_self]
      exact ⟨rfl, ⟨s, value, (rows.words (s / 64)).head⟩, by simp, rfl,
        (h.chain (s / 64)).append _⟩
    · simp only [hw, update_of_ne (Ne.symm hw)]
      exact (h.chain w).append _
  · intro w b hb
    rw [map_append, mem_append]
    by_cases hw : w = s / 64
    · subst hw
      simp only [update_self, BitVec.getLsbD_or, Bool.or_eq_true, h.dirty _ b hb,
        BitVec.getLsbD_shiftLeft]
      refine or_congr Iff.rfl ?_
      have ho : ∀ n, (1#64).getLsbD n = decide (n = 0) := by
        simp
      simp only [ho, Bool.and_eq_true, Bool.not_eq_true',
        decide_eq_false_iff_not, decide_eq_true_eq, map_singleton, mem_singleton]
      omega
    · simp only [update_of_ne hw, h.dirty w b hb]
      refine ⟨.inl, fun hm => hm.resolve_right ?_⟩
      simp only [map_singleton, mem_singleton]
      omega

section Words

variable {rows : Rows β} {e : List (SignalId × List β)}

def entryOf (entries : List (SignalId × List β)) (s : SignalId) : Option (SignalId × List β) :=
  entries.find? (·.1 = s)

variable {i w : ℕ}

theorem entryOf_of_getElem {s : SignalId} {value : List β}
    (hn : (e.map (·.1)).Nodup) (h : e[i]? = some (s, value)) : entryOf e s = some (s, value) := by
  have hm := mem_of_getElem? h
  cases hf : entryOf e s with
  | none =>
    have := find?_eq_none.mp hf (s, value) hm
    simp at this
  | some found =>
    have hfs : found.1 = s := by simpa using find?_some hf
    have := inj_on_of_nodup_map hn (mem_of_find?_eq_some hf) hm hfs
    rw [this]

theorem mem_rowsOfWord {s : List (Row β)} :
    i ∈ rowsOfWord s w ↔ ∃ row, s[i]? = some row ∧ row.signal / 64 = w := by
  simp only [rowsOfWord, mem_filter, mem_reverse, mem_range, decide_eq_true_eq,
    Option.map_eq_some_iff, and_iff_right_iff_imp]
  rintro ⟨row, hr, _⟩
  exact (List.getElem?_eq_some_iff.mp hr).1

theorem Holds.getElem (h : Holds rows e) (i : ℕ) :
    e[i]? = rows.scratch[i]?.map fun row => (row.signal, row.value) := by
  rw [← h.scratch, getElem?_map]

theorem Holds.bits_perm (h : Holds rows e) (hn : (e.map (·.1)).Nodup) (w : ℕ) :
    ((rowsOfWord rows.scratch w).map (rowBit rows.scratch)).Perm
      ((range 64).filter (rows.words w).dirtyMask.getLsbD) := by
  rw [perm_ext_iff_of_nodup ?_ (nodup_range.filter _)]
  · intro b
    simp only [mem_map, mem_filter, mem_range]
    constructor
    · rintro ⟨i, hi, rfl⟩
      obtain ⟨row, hr, rfl⟩ := mem_rowsOfWord.mp hi
      have hbt : rowBit rows.scratch i = row.signal % 64 := by simp [rowBit, hr]
      rw [hbt, h.dirty _ _ (mod_lt _ (by omega)), div_add_mod]
      refine ⟨mod_lt _ (by omega), mem_map.mpr ⟨(row.signal, row.value), ?_, rfl⟩⟩
      exact mem_of_getElem? ((h.getElem i).trans (by rw [hr]; rfl))
    · rintro ⟨hb, hd⟩
      obtain ⟨entry, he, hs⟩ := mem_map.mp ((h.dirty w b hb).mp hd)
      obtain ⟨i, hi⟩ := mem_iff_getElem?.mp he
      rw [h.getElem, Option.map_eq_some_iff] at hi
      obtain ⟨row, hr, rfl⟩ := hi
      have hs : row.signal = 64 * w + b := hs
      refine ⟨i, mem_rowsOfWord.mpr ⟨row, hr, ?_⟩, ?_⟩
      · rw [hs, mul_add_div (by omega), div_eq_of_lt hb, add_zero]
      · simp [rowBit, hr, hs, mod_eq_of_lt hb]
  · refine Nodup.map_on ?_ ((nodup_reverse.mpr nodup_range).filter _)
    intro i hi j hj hbi
    obtain ⟨row, hr, hw⟩ := mem_rowsOfWord.mp hi
    obtain ⟨row', hr', hw'⟩ := mem_rowsOfWord.mp hj
    have hbi : row.signal % 64 = row'.signal % 64 := by simpa [rowBit, hr, hr'] using hbi
    have hs : row.signal = row'.signal := by
      rw [← div_add_mod row.signal 64, ← div_add_mod row'.signal 64, hw, hw', hbi]
    have hi' : (e.map (·.1))[i]? = some row.signal := by
      rw [getElem?_map, h.getElem, hr]
      rfl
    have hj' : (e.map (·.1))[j]? = some row.signal := by
      rw [getElem?_map, h.getElem, hr', hs]
      rfl
    exact (List.getElem?_inj (List.getElem?_eq_some_iff.mp hi').1 hn).mp (hi'.trans hj'.symm)

def wordEntries (entries : List (SignalId × List β)) (w : ℕ) : List (SignalId × List β) :=
  (List.range 64).filterMap fun b => entryOf entries (64 * w + b)

def commitEntry (design : Design β) (marked : SignalId → Bool) (committed : Committed β)
    (entry : SignalId × List β) : Except String (Committed β) :=
  commitRow design marked committed ⟨entry.1, entry.2, none⟩

theorem foldlM_rows {rbb : ℕ → Option ℕ} {marked : SignalId → Bool} {bits : List ℕ}
    (hr : ∀ b ∈ bits, ∃ row, (rbb b).bind (rows.scratch[·]?) = some row ∧
      entryOf e (64 * w + b) = some (row.signal, row.value)) (c : Committed β) :
    bits.foldlM (fun c bit => match (rbb bit).bind (rows.scratch[·]?) with
        | none => .error "update commit word mask has no value row"
        | some row => commitRow d marked c row) c =
      (bits.filterMap fun b => entryOf e (64 * w + b)).foldlM (commitEntry d marked) c := by
  induction bits generalizing c with
  | nil => rfl
  | cons b bits ih =>
    obtain ⟨row, hf, he⟩ := hr b (by simp)
    have hc : (b :: bits).filterMap (fun b => entryOf e (64 * w + b)) =
        (row.signal, row.value) :: bits.filterMap (fun b => entryOf e (64 * w + b)) :=
      filterMap_cons_some he
    rw [hc, foldlM_cons]
    simp only [hf]
    congr 1
    funext c
    exact ih (fun b hb => hr b (by simp [hb])) c

theorem Holds.commitWord (h : Holds rows e) (hn : (e.map (·.1)).Nodup)
    (marked : SignalId → Bool) (c : Committed β) (w : ℕ) : commitWord d marked rows c w =
      (wordEntries e w).foldlM (commitEntry d marked) c := by
  set dirty := (range 64).filter (rows.words w).dirtyMask.getLsbD with hd
  have hp := h.bits_perm hn w
  have hc : ∀ b < 64, b ∉ dirty → entryOf e (64 * w + b) = none := by
    intro b hb hno
    refine find?_eq_none.mpr fun entry hen hs => hno ?_
    rw [mem_filter, h.dirty w b hb, mem_range]
    exact ⟨hb, mem_map.mpr ⟨entry, hen, by simpa using hs⟩⟩
  have he : wordEntries e w = dirty.filterMap fun b => entryOf e (64 * w + b) := by
    rw [filterMap_filter]
    refine filterMap_congr fun b hb => ?_
    split_ifs with hbt
    · rfl
    · refine hc b (mem_range.mp hb) fun hm => hbt ?_
      exact (mem_filter.mp hm).2
  cases hv : rowsOfWord rows.scratch w with
  | nil =>
    have hni : dirty = [] := by
      rw [hv] at hp
      exact hp.symm.eq_nil
    have hh : (rows.words w).head = none := by
      have := h.chain w
      rwa [hv] at this
    simp only [UpdateCommit.commitWord, ← hd, hni, hh, he]
    rfl
  | cons first r =>
    have hdr : ∀ i ∈ rowsOfWord rows.scratch w,
        (rows.words w).dirtyMask.getLsbD (rowBit rows.scratch i) = true := fun i hi =>
      (mem_filter.mp (hp.mem_iff.mp (mem_map_of_mem hi))).2
    have hbi : ((rowsOfWord rows.scratch w).map (rowBit rows.scratch)).Nodup :=
      hp.nodup_iff.mpr (nodup_range.filter _)
    have hl : (rowsOfWord rows.scratch w).length = dirty.length := by simpa using hp.length_eq
    have hro : (rowsOfWord rows.scratch w).length ≤ rows.scratch.length := by
      refine le_trans (length_filter_le _ _) (le_of_eq ?_)
      rw [length_reverse, length_range]
    obtain ⟨rbb, hli, hse, _⟩ := linkRows_ok (h.chain w) hdr hbi hro
      (fun _ => none) (fun _ _ => rfl) 0
    have hso : dirty.isEmpty = false := by
      rw [hv] at hl
      cases hca : dirty with
      | nil => simp [hca] at hl
      | cons _ _ => rfl
    have hr : ∀ b ∈ dirty, ∃ row, (rbb b).bind (rows.scratch[·]?) = some row ∧
        entryOf e (64 * w + b) = some (row.signal, row.value) := by
      intro b hb
      obtain ⟨i, hi, rfl⟩ := mem_map.mp (hp.mem_iff.mpr hb)
      obtain ⟨row, hr, hw⟩ := mem_rowsOfWord.mp hi
      refine ⟨row, by rw [hse i hi]; exact hr, ?_⟩
      have hs : 64 * w + rowBit rows.scratch i = row.signal := by
        simp only [rowBit, hr, ← hw]
        exact div_add_mod _ _
      rw [hs]
      exact entryOf_of_getElem hn ((h.getElem i).trans (by rw [hr]; rfl))
    have hco : decide (0 + (rowsOfWord rows.scratch w).length ≠ dirty.length) = false := by
      simpa using hl
    simp only [UpdateCommit.commitWord, ← hd, hso, hli, he]
    show (refuse (decide (0 + (rowsOfWord rows.scratch w).length ≠ dirty.length)) _ >>=
      fun _ => _) = _
    rw [hco]
    exact foldlM_rows hr c

def orderedEntries (entries : List (SignalId × List β)) (wordCount : ℕ) :
    List (SignalId × List β) :=
  (range wordCount).flatMap (wordEntries entries)

theorem Holds.commitWords (h : Holds rows e) (hn : (e.map (·.1)).Nodup)
    (marked : SignalId → Bool) (c : Committed β) (wordCount : ℕ) :
    (range wordCount).foldlM (UpdateCommit.commitWord d marked rows) c =
      (orderedEntries e wordCount).foldlM (commitEntry d marked) c := by
  rw [orderedEntries]
  induction range wordCount generalizing c with
  | nil => rfl
  | cons w wo ih =>
    rw [foldlM_cons, flatMap_cons, foldlM_append, h.commitWord hn]
    congr 1
    funext c
    exact ih c

theorem mem_orderedEntries {wordCount : ℕ} (hc : ∀ entry ∈ e, entry.1 < 64 * wordCount)
    (hn : (e.map (·.1)).Nodup) {entry : SignalId × List β} :
    entry ∈ orderedEntries e wordCount ↔ entry ∈ e := by
  simp only [orderedEntries, mem_flatMap, wordEntries, mem_filterMap, mem_range]
  constructor
  · rintro ⟨w, _, b, _, he⟩
    exact mem_of_find?_eq_some he
  · intro he
    have hl := hc entry he
    obtain ⟨i, hi⟩ := mem_iff_getElem?.mp he
    refine ⟨entry.1 / 64, Nat.div_lt_of_lt_mul hl, entry.1 % 64, Nat.mod_lt _ (by omega), ?_⟩
    rw [Nat.div_add_mod]
    exact entryOf_of_getElem hn hi

theorem orderedEntries_increasing (wordCount : ℕ) :
    ((orderedEntries e wordCount).map (·.1)).Pairwise (· < ·) := by
  have hs : ∀ {w b} {entry : SignalId × List β}, entryOf e (64 * w + b) = some entry →
      entry.1 = 64 * w + b := fun h => by simpa using find?_some h
  rw [pairwise_map, orderedEntries, pairwise_flatMap]
  refine ⟨fun w _ => ?_, ?_⟩
  · rw [wordEntries, pairwise_filterMap]
    refine pairwise_lt_range.imp ?_
    intro b c hl entry he o ho
    rw [hs he, hs ho]
    exact Nat.add_lt_add_left hl _
  · refine pairwise_lt_range.imp ?_
    intro v w hl entry he o ho
    obtain ⟨b, hb, he⟩ := mem_filterMap.mp he
    obtain ⟨c, _, ho⟩ := mem_filterMap.mp ho
    rw [hs he, hs ho]
    rw [mem_range] at hb
    have hw : 64 * v + b < 64 * w + c := by omega
    exact hw

end Words

end FsimRuntime.UpdateCommit
