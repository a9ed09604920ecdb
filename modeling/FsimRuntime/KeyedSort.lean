import Mathlib

/-!
# Lists sorted by a key

Sorting by a key, and lists whose keys increase strictly: such a list is
determined by its elements.
-/

namespace FsimRuntime.KeyedSort
open List

variable {α β : Type*} [LinearOrder β] {key : α → β} {l l' : List α}

def sortBy (key : α → β) (l : List α) : List α := l.insertionSort fun a b => key a ≤ key b

def Increasing (key : α → β) (l : List α) : Prop := l.Pairwise fun a b => key a < key b

theorem sortBy_perm (key : α → β) (l : List α) : (sortBy key l).Perm l := perm_insertionSort ..

theorem sortBy_sorted (key : α → β) (l : List α) :
    (sortBy key l).Pairwise fun a b => key a ≤ key b := by
  exact pairwise_insertionSort ..

theorem mem_sortBy {a : α} : a ∈ sortBy key l ↔ a ∈ l := (sortBy_perm key l).mem_iff

theorem Increasing.eq_of_perm (h : Increasing key l) (h' : Increasing key l') (hp : l.Perm l') :
    l = l' :=
  List.Perm.eq_of_pairwise (fun _ _ _ _ hl hg => absurd hl (lt_asymm hg)) h h' hp

theorem Increasing.nodup (h : Increasing key l) : (l.map key).Nodup :=
  pairwise_map.mpr (h.imp ne_of_lt)

theorem increasing_of_sorted (h : l.Pairwise fun a b => key a ≤ key b) (hn : (l.map key).Nodup) :
    Increasing key l :=
  h.imp₂ (fun _ _ hl hne => lt_of_le_of_ne hl hne) (pairwise_map.mp hn)

theorem sortBy_increasing : Increasing key (sortBy key l) ↔ (l.map key).Nodup := by
  constructor
  · intro h
    exact ((sortBy_perm key l).map key).nodup_iff.mp h.nodup
  · intro h
    exact increasing_of_sorted (sortBy_sorted key l) (((sortBy_perm key l).map key).nodup_iff.mpr h)

theorem Increasing.sortBy_eq (h : Increasing key l) : sortBy key l = l :=
  (sortBy_increasing.mpr h.nodup).eq_of_perm h (sortBy_perm key l)

theorem sortBy_eq_of_perm (hp : l.Perm l') (h : (l.map key).Nodup) : sortBy key l = sortBy key l' :=
  (sortBy_increasing.mpr h).eq_of_perm (sortBy_increasing.mpr ((hp.map key).nodup_iff.mp h))
    ((sortBy_perm key l).trans (hp.trans (sortBy_perm key l').symm))

theorem increasing_iff_isChain : Increasing key l ↔ l.IsChain fun a b => key a < key b := by
  exact isChain_iff_pairwise.symm

theorem increasing_of_sorted_of_isChain (h : l.Pairwise fun a b => key a ≤ key b)
    (hn : l.IsChain fun a b => key a ≠ key b) : Increasing key l := by
  rw [increasing_iff_isChain, isChain_iff_getElem]
  intro i hi
  exact lt_of_le_of_ne (pairwise_iff_getElem.mp h i (i + 1) _ hi (Nat.lt_succ_self i))
    (isChain_iff_getElem.mp hn i hi)

def groups (cls : α → ℕ) (n : ℕ) (l : List α) : List (List α) :=
  (List.range n).map fun i => l.filter (cls · = i)

theorem groups_succ (cls : α → ℕ) (n : ℕ) (l : List α) :
    groups cls (n + 1) l = groups cls n (l.filter (cls · < n)) ++ [l.filter (cls · = n)] := by
  simp only [groups, range_succ, map_append, filter_filter]
  refine congrArg (· ++ _) (map_congr_left fun i hi => filter_congr fun a _ => ?_)
  have := mem_range.mp hi
  rw [← Bool.decide_and, decide_eq_decide]
  omega

variable {cls : α → ℕ} {n : ℕ}

theorem groups_perm (h : ∀ a ∈ l, cls a < n) : (groups cls n l).flatten.Perm l := by
  induction n generalizing l with
  | zero =>
    cases l with
    | nil => exact .refl _
    | cons a l => exact absurd (h a mem_cons_self) (Nat.not_lt_zero _)
  | succ n ih =>
    have hl : ∀ a ∈ l.filter (cls · < n), cls a < n := fun a ha => by
      simpa using (mem_filter.mp ha).2
    have hh : l.filter (cls · = n) = l.filter (fun a => !decide (cls a < n)) :=
      filter_congr fun a ha => by
        have := h a ha
        rw [← decide_not, decide_eq_decide]
        omega
    rw [groups_succ, flatten_append, flatten_singleton, hh]
    exact ((ih hl).append_right _).trans (filter_append_perm _ l)

theorem groups_increasing (hc : ∀ a ∈ l, ∀ b ∈ l, cls a < cls b → key a < key b)
    (hw : l.Pairwise fun a b => cls a = cls b → key a < key b) :
    Increasing key (groups cls n l).flatten := by
  refine pairwise_flatten.mpr ⟨fun g hg => ?_, ?_⟩
  · obtain ⟨i, -, rfl⟩ := mem_map.mp hg
    refine List.Pairwise.imp_of_mem ?_ (hw.filter _)
    intro a b ha hb hl
    have hi := (mem_filter.mp ha).2
    have hj := (mem_filter.mp hb).2
    exact hl ((of_decide_eq_true hi).trans (of_decide_eq_true hj).symm)
  · refine pairwise_map.mpr (pairwise_lt_range.imp fun hij a ha b hb => ?_)
    obtain ⟨ha, hi⟩ := mem_filter.mp ha
    obtain ⟨hb, hj⟩ := mem_filter.mp hb
    exact hc a ha b hb (by rwa [of_decide_eq_true hi, of_decide_eq_true hj])

end FsimRuntime.KeyedSort
