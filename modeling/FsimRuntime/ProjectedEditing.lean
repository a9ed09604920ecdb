import FsimRuntime.ProjectedModel

/-!
# The editing loops

The index loops of the two editing routines compute the marks of the editing
rule: the transactions of one driver bit after an assignment are the flagged
old ones and the new ones.
-/

namespace FsimRuntime.Projected
open List
open Waveform (Transaction DelayMode keep marks marked live Ascending)

def ProjectedTransaction.strip (t : ProjectedTransaction) : Transaction Logic9 :=
  ⟨t.time, t.value⟩

def oldTransactions (firstTime : ℕ) (transactions : List ProjectedTransaction) :
    List ProjectedTransaction :=
  transactions.takeWhile fun t => t.time < firstTime

theorem take_lowerBound (first : ℕ) (t : List ProjectedTransaction) :
    t.take (lowerBound t first) =
      oldTransactions first t := by exact (prefix_iff_eq_take.mp ( takeWhile_prefix _)).symm

theorem drop_lowerBound (first : ℕ) (queued : List ProjectedTransaction) :
    queued.drop (lowerBound queued first) = queued.dropWhile fun t => t.time < first := by
  conv_lhs =>
    arg 2
    rw [← @takeWhile_append_dropWhile _ (fun t => decide (t.time < first)) queued]
  exact drop_left

theorem markBackward_length (enabled : ℕ → Bool) (count : ℕ) (f : List Bool) :
    (markBackward enabled count f).length = f.length := by
  induction count generalizing f with
  | zero => rfl
  | succ count ih =>
    rw [markBackward, ih]
    split <;> simp

theorem markBackward_getD (enabled : ℕ → Bool) (count : ℕ) (f : List Bool)
    (hc : count ≤ f.length) (i : ℕ) : (markBackward enabled count f).getD i false =
      (f.getD i false || (decide (i < count) &&
        (markBackward enabled count f).getD (i + 1) false && enabled i)) := by
  induction count generalizing f i with
  | zero => simp [markBackward]
  | succ count ih =>
    rw [markBackward]
    set next := if (!f.getD count false && f.getD (count + 1) false && enabled count)
      then f.set count true else f with hn
    have hl : count ≤ next.length := by
      rw [hn]
      split
      · simp only [length_set]
        omega
      · omega
    have ho : ∀ j, j ≠ count → next.getD j false = f.getD j false := by
      intro j hj
      rw [hn]
      split
      · simp [getElem?_set_ne hj.symm]
      · rfl
    have hs : next.getD count false =
        (f.getD count false || (f.getD (count + 1) false && enabled count)) := by
      rw [hn]
      split
      next h =>
        simp only [Bool.and_eq_true] at h
        rw [getD_eq_getElem?_getD, getElem?_set_self (by omega), h.1.2, h.2]
        simp
      next h =>
        revert h
        cases f.getD count false <;> cases f.getD (count + 1) false <;> cases enabled count <;> simp
    rw [ih _ hl i]
    rcases lt_trichotomy i count with hlt | rfl | hg
    · rw [ho i hlt.ne]
      simp [hlt, Nat.lt_succ_of_lt hlt]
    · have ha := ih _ hl (i + 1)
      simp only [Nat.not_succ_lt_self] at ha
      rw [hs, ha, ho _ (by omega)]
      simp
    · rw [ho i hg.ne']
      simp [hg.not_gt, show ¬ i < count + 1 by omega]

variable {α : Type*} {f : List Bool}

theorem keep_append {f' : List Bool} {l l' : List α} (h : f.length = l.length) :
    keep (f ++ f') (l ++ l') = keep f l ++ keep f' l' := by
  induction f generalizing l with
  | nil =>
    have hl : l = [] := length_eq_zero_iff.mp h.symm
    simp [hl, keep]
  | cons flag f ih =>
    cases l with
    | nil => simp at h
    | cons x xs =>
      have hx := ih (l := xs) (by simpa using h)
      cases flag <;> simp [keep, hx]

theorem eraseUnmarked_eq {count : ℕ} {t : List ProjectedTransaction}
    (handles : List (Option ℕ)) (hfl : count ≤ f.length) (hc : count ≤ t.length) :
    eraseUnmarked f count (t, handles) = (keep (f.take count) (t.take count) ++ t.drop count,
        handles ++ ((keep ((f.take count).map not) (t.take count)).map (·.handle)).reverse) := by
  induction count generalizing t handles with
  | zero => simp [eraseUnmarked, keep]
  | succ count ih =>
    have hf : f.take (count + 1) = f.take count ++ [f.getD count true] := by
      rw [take_add_one, getD_eq_getElem?_getD, getElem?_eq_getElem (by omega)]
      rfl
    have ht : t.take (count + 1) =
        t.take count ++ [t.getD count default] := by
      rw [take_add_one, getD_eq_getElem?_getD, getElem?_eq_getElem (by omega)]
      rfl
    have hd : t.drop count =
        t.getD count default :: t.drop (count + 1) := by
      rw [drop_eq_getElem_cons (by omega), getD_eq_getElem?_getD, getElem?_eq_getElem (by omega)]
      rfl
    have hl : (f.take count).length = (t.take count).length := by
      simp only [length_take]
      omega
    rw [eraseUnmarked, hf, ht, map_append, keep_append hl, keep_append (by simpa using hl)]
    cases hm : f.getD count true with
    | true =>
      rw [if_pos rfl, ih _ (by omega) (by omega), hd]
      simp [keep]
    | false =>
      have hlt : (t.take count).length = count := by
        rw [length_take]
        omega
      have he : t.eraseIdx count =
          t.take count ++ t.drop (count + 1) :=
        eraseIdx_eq_take_drop_succ _ _
      have hta : (t.eraseIdx count).take count = t.take count := by rw [he, take_left' hlt]
      have hdr : (t.eraseIdx count).drop count = t.drop (count + 1) := by rw [he, drop_left' hlt]
      rw [if_neg (by simp), ih _ (by omega), hta, hdr]
      · simp [keep]
      · rw [he, length_append]
        omega

theorem keep_replicate_true (l : List α) : keep (replicate l.length true) l = l := by
  induction l with
  | nil => rfl
  | cons x xs ih => simp [replicate_succ, keep, ih]

theorem keep_replicate_false (n : ℕ) (l : List α) : keep (replicate n false) l = [] := by
  induction n generalizing l with
  | zero => rfl
  | succ n ih => cases l <;> simp [replicate_succ, keep, ih]

/-- The flags of the old transactions of one bit. -/
def editMarks (mode : DelayMode) (rejection : ℕ) (retainedOld : Option (List Bool))
    (old : List (Transaction Logic9)) (first : Transaction Logic9) : List Bool :=
  match mode, retainedOld with
  | .transport, _ => List.replicate old.length true
  | .inertial, some flags =>
    if flags.length = old.length then flags else marks (first.time - rejection) old first
  | .inertial, none => marks (first.time - rejection) old first

theorem editMarks_length (m : DelayMode) (r : ℕ) (retainedOld : Option (List Bool))
    (old : List (Transaction Logic9)) (first : Transaction Logic9) :
    (editMarks m r retainedOld old first).length = old.length := by
  cases m with
  | transport => simp [editMarks]
  | inertial =>
    cases retainedOld with
    | none => simp [editMarks, Waveform.marks_length]
    | some f =>
      simp only [editMarks]
      split
      · assumption
      · exact Waveform.marks_length _ _ _

theorem take_markBackward {limit : ℕ} {old r : List ProjectedTransaction}
    {first : ProjectedTransaction} :
    (markBackward (valueEqualsNext (old ++ first :: r)) ((old ++ first :: r).length - 1)
        (markOld limit old.length (old ++ first :: r))).take old.length =
      marks limit (old.map (·.strip)) first.strip := by
  set all := old ++ first :: r with ha
  set flags := markOld limit old.length all with hfl
  have hf : flags = old.map (fun t => decide (t.time < limit)) ++
      (first :: r).map fun _ => true := by simp [hfl, ha, markOld]
  have hl : flags.length = old.length + r.length + 1 := by
    simp [hf]
    omega
  have hc : all.length - 1 ≤ flags.length := by simp [ha, hl]
  have hg := markBackward_getD (valueEqualsNext all) _ _ hc
  suffices h : (markBackward (valueEqualsNext all) (all.length - 1) flags).take
      (old.map (·.strip)).length = marks limit (old.map (·.strip)) first.strip by
    simpa using h
  refine Waveform.take_eq_marks (valueEqualsNext all) ?_ ?_ ?_
  · rw [hg]
    simp [hf]
  · intro i hi
    rw [length_map] at hi
    have hi' : i < all.length - 1 := by
      simp only [ha, length_append, length_cons]
      omega
    rw [hg i]
    simp [hf, hi, hi', getElem?_append_left, ProjectedTransaction.strip]
  · intro i hi
    rw [length_map] at hi
    rw [valueEqualsNext]
    rcases Nat.lt_or_ge (i + 1) old.length with h | h
    · simp [ha, hi, h, getElem?_append_left, ProjectedTransaction.strip]
    · have hla : i + 1 = old.length := by omega
      simp [ha, hi, hla, getElem?_append_left, ProjectedTransaction.strip]

theorem editTransactions_eq (m : DelayMode) (rejection : ℕ) (retainedOld : Option (List Bool))
    (queued r : List ProjectedTransaction) (first : ProjectedTransaction) :
    editTransactions m rejection first.time retainedOld queued (first :: r) =
      (keep (editMarks m rejection retainedOld
          ((oldTransactions first.time queued).map (·.strip)) first.strip)
          (oldTransactions first.time queued) ++ first :: r,
        (queued.dropWhile fun t => t.time < first.time).map (·.handle) ++
          ((keep ((editMarks m rejection retainedOld
            ((oldTransactions first.time queued).map (·.strip)) first.strip).map not)
            (oldTransactions first.time queued)).map (·.handle)).reverse) := by
  have hc : lowerBound queued first.time = (oldTransactions first.time queued).length := rfl
  simp only [editTransactions, take_lowerBound, drop_lowerBound]
  rw [hc]
  generalize oldTransactions first.time queued = old
  have ha : (old ++ first :: r).take old.length = old := take_left
  have hn : (old ++ first :: r).drop old.length = first :: r := drop_left
  -- Both sources of flags leave `editMarks` on the old transactions.
  have he : ∀ f : List Bool, old.length ≤ f.length →
      eraseUnmarked f old.length (old ++ first :: r, []) =
        (keep (f.take old.length) old ++ first :: r,
          ((keep ((f.take old.length).map not) old).map (·.handle)).reverse) := by
    intro f hf
    rw [eraseUnmarked_eq [] hf (by simp), ha, hn, nil_append]
  cases m with
  | transport =>
    simp only [editMarks, length_map,
      map_replicate, Bool.not_true, keep_replicate_true, keep_replicate_false]
    simp
  | inertial =>
    by_cases hold : old = []
    · subst hold
      cases retainedOld <;> simp [keep]
    · have hp : old.length ≠ 0 := by simpa using hold
      have hb := he (markBackward (valueEqualsNext (old ++ first :: r))
        ((old ++ first :: r).length - 1)
        (markOld (first.time - rejection) old.length (old ++ first :: r))) (by
          rw [markBackward_length]
          simp [markOld])
      rw [take_markBackward] at hb
      rw [if_pos ⟨rfl, hp⟩]
      cases retainedOld with
      | none =>
        simp only [hb]
        rfl
      | some f =>
        by_cases hl : f.length = old.length
        · have hr := he (f ++ (first :: r).map fun _ => true) (by simp; omega)
          rw [← hl, take_left, hl] at hr
          simp only [if_pos hl, hr, editMarks, length_map]
        · simp only [if_neg hl, hb, editMarks, length_map]
          rfl

end FsimRuntime.Projected
