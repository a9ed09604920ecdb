import Mathlib

/-!
# Binary heaps in a vector

Sift-up and sift-down on a vector ordered by a key, with the least key in
front. A position outside the vector counts as a greatest element.
-/

namespace FsimRuntime.BinaryHeap
open List

variable {α κ : Type*} [LinearOrder κ] (key : α → κ)

def keyAt (l : List α) (i : ℕ) : WithTop κ :=
  match l[i]? with
  | some a => (key a : WithTop κ)
  | none => ⊤

def swap (l : List α) (i j : ℕ) : List α :=
  match l[i]?, l[j]? with
  | some a, some b => (l.set i b).set j a
  | _, _ => l

def parent (i : ℕ) : ℕ := (i - 1) / 2

def siftUp : ℕ → ℕ → List α → List α
  | 0, _, l => l
  | fuel + 1, k, l =>
    if 0 < k ∧ keyAt key l k < keyAt key l (parent k) then
      siftUp fuel (parent k) (swap l (parent k) k)
    else l

def lesserChild (l : List α) (k : ℕ) : ℕ :=
  if keyAt key l (2 * k + 2) < keyAt key l (2 * k + 1) then 2 * k + 2 else 2 * k + 1

def siftDown : ℕ → ℕ → List α → List α
  | 0, _, l => l
  | fuel + 1, k, l =>
    if keyAt key l (lesserChild key l k) < keyAt key l k then
      siftDown fuel (lesserChild key l k) (swap l k (lesserChild key l k))
    else l

def pushHeap (l : List α) : List α := siftUp key l.length (l.length - 1) l

def popHeap : List α → List α
  | [] => []
  | a :: l =>
    match l.getLast? with
    | none => [a]
    | some last => siftDown key l.length 0 (last :: l.dropLast) ++ [a]

def makeHeap (l : List α) : List α :=
  (List.range (l.length / 2)).foldr (fun k l => siftDown key l.length k l) l

def OrderedFrom (lo : ℕ) (l : List α) : Prop :=
  ∀ j, 0 < j → lo ≤ parent j → keyAt key l (parent j) ≤ keyAt key l j

def Ordered (l : List α) : Prop := OrderedFrom key 0 l

section Swap
variable {l : List α} {i j : ℕ}

theorem swap_perm : (swap l i j).Perm l := by
  rw [swap]
  split
  · next a b ha hb =>
    obtain ⟨hi, rfl⟩ := List.getElem?_eq_some_iff.mp ha
    obtain ⟨hj, rfl⟩ := List.getElem?_eq_some_iff.mp hb
    exact set_set_perm hi hj
  · exact .refl _

variable {key}

theorem le_keyAt {c : WithTop κ} (h : l.length ≤ i) : c ≤ keyAt key l i := by
  rw [keyAt, getElem?_eq_none h]
  exact le_top

theorem lt_length_of_keyAt_lt {c : WithTop κ} (h : keyAt key l i < c) : i < l.length := by
  by_contra hi
  exact h.not_ge (le_keyAt (Nat.le_of_not_lt hi))

omit [LinearOrder κ] in
theorem keyAt_swap (key : α → κ) (hi : i < l.length) (hj : j < l.length) (m : ℕ) :
    keyAt key (swap l i j) m =
      if m = j then keyAt key l i else if m = i then keyAt key l j else keyAt key l m := by
  simp only [keyAt, swap, getElem?_eq_getElem hi, getElem?_eq_getElem hj]
  by_cases hm : m = j
  · subst hm
    simp [hj]
  · by_cases hmi : m = i
    · subst hmi
      simp [hi, hm, Ne.symm hm]
    · simp [hm, hmi, Ne.symm hm, Ne.symm hmi]

end Swap

section Up
variable {key} {l : List α} {k : ℕ}

structure UpOrder (key : α → κ) (l : List α) (k : ℕ) : Prop where
  except : ∀ j, 0 < j → j ≠ k → keyAt key l (parent j) ≤ keyAt key l j
  grand : 0 < k → ∀ j, 0 < j → parent j = k → keyAt key l (parent k) ≤ keyAt key l j

theorem parent_lt (h : 0 < k) : parent k < k := by
  rw [parent]
  omega

theorem UpOrder.swap (h : UpOrder key l k) (hk : 0 < k)
    (hl : keyAt key l k < keyAt key l (parent k)) :
    UpOrder key (swap l (parent k) k) (parent k) := by
  have hpk := parent_lt hk
  have hle : k < l.length := lt_length_of_keyAt_lt hl
  have hs := keyAt_swap key (Nat.lt_trans hpk hle) hle
  refine ⟨fun j hj hn => ?_, fun hp j hj hjp => ?_⟩
  · by_cases hjk : j = k
    · subst hjk
      rw [hs, hs, if_neg (Nat.ne_of_lt hpk), if_pos rfl, if_pos rfl]
      exact hl.le
    · rw [hs j, hs]
      split
      · next hpj => exact h.grand hk j hj hpj
      · split
        · next hpj => exact hl.le.trans (hpj ▸ h.except j hj hjk)
        · exact h.except j hj hjk
  · have hpp := parent_lt hp
    have hg : keyAt key l (parent (parent k)) ≤ keyAt key l (parent k) :=
      h.except _ hp (Nat.ne_of_lt hpk)
    rw [hs, if_neg (by omega), if_neg (by omega), hs]
    split
    · exact hg
    · next hjk =>
      have hj' : j ≠ parent k := fun he => by have := parent_lt hj; omega
      rw [if_neg hj']
      exact hg.trans (hjp ▸ h.except j hj hjk)

theorem siftUp_ordered {f : ℕ} (hf : k ≤ f) (h : UpOrder key l k) :
    Ordered key (siftUp key f k l) := by
  induction f generalizing k l with
  | zero =>
    exact fun j hj _ => h.except j hj (by omega)
  | succ f ih =>
    rw [siftUp]
    split
    · next hm =>
      have := parent_lt hm.1
      exact ih (by omega) (h.swap hm.1 hm.2)
    · next hs =>
      intro j hj _
      by_cases hjk : j = k
      · subst hjk
        exact le_of_not_gt fun hl => hs ⟨hj, hl⟩
      · exact h.except j hj hjk

theorem siftUp_perm (f k : ℕ) (l : List α) : (siftUp key f k l).Perm l := by
  induction f generalizing k l with
  | zero => exact .refl _
  | succ f ih =>
    rw [siftUp]
    split
    · exact (ih ..).trans swap_perm
    · exact .refl _

end Up

section Down
variable {key} {l : List α} {lo k : ℕ}

structure DownOrder (key : α → κ) (lo : ℕ) (l : List α) (k : ℕ) : Prop where
  except : ∀ j, 0 < j → lo ≤ parent j → parent j ≠ k →
    keyAt key l (parent j) ≤ keyAt key l j
  grand : 0 < k → lo ≤ parent k → ∀ j, 0 < j → parent j = k →
    keyAt key l (parent k) ≤ keyAt key l j

theorem parent_lesserChild : parent (lesserChild key l k) = k := by
  rw [lesserChild]
  split <;> (rw [parent]; omega)

theorem lesserChild_le {j : ℕ} (hj : 0 < j) (hjk : parent j = k) :
    keyAt key l (lesserChild key l k) ≤ keyAt key l j := by
  rw [parent] at hjk
  have hc : j = 2 * k + 1 ∨ j = 2 * k + 2 := by omega
  rw [lesserChild]
  split
  · next hl => rcases hc with rfl | rfl <;> [exact hl.le; exact le_rfl]
  · next hg => rcases hc with rfl | rfl <;> [exact le_rfl; exact le_of_not_gt hg]

theorem DownOrder.swap (h : DownOrder key lo l k) (hlo : lo ≤ k)
    (hl : keyAt key l (lesserChild key l k) < keyAt key l k) :
    DownOrder key lo (swap l k (lesserChild key l k)) (lesserChild key l k) := by
  have hle := @lesserChild_le _ _ _ key l k
  have hp : parent (lesserChild key l k) = k := parent_lesserChild
  generalize lesserChild key l k = c at *
  have hc : 0 < c := by
    refine Nat.pos_of_ne_zero fun hz => ?_
    subst hz
    obtain rfl : 0 = k := hp
    exact lt_irrefl _ hl
  have hk : k < c := hp ▸ parent_lt hc
  have hln : c < l.length := lt_length_of_keyAt_lt hl
  have hs := keyAt_swap key (Nat.lt_trans hk hln) hln
  refine ⟨fun j hj hl' hn => ?_, fun _ _ j hj hjc => ?_⟩
  · rw [hs (parent j), if_neg hn, hs j]
    have hpj := parent_lt hj
    split
    · next hpk =>
      split
      · exact hl.le
      · next hjc =>
        rw [if_neg (by omega)]
        exact hle hj hpk
    · next hpk =>
      rw [if_neg fun he : j = c => hpk (by rw [he, hp])]
      split
      · next hjk =>
        subst hjk
        exact h.grand hj hl' c hc hp
      · exact h.except j hj hl' hpk
  · have hpj := parent_lt hj
    rw [hp, hs, if_neg (by omega), if_pos rfl, hs, if_neg (by omega), if_neg (by omega)]
    exact hjc ▸ h.except j hj (by omega) (by omega)

theorem siftDown_ordered {f : ℕ} (hf : l.length ≤ k + f) (hl : lo ≤ k)
    (h : DownOrder key lo l k) : OrderedFrom key lo (siftDown key f k l) := by
  induction f generalizing k l with
  | zero =>
    intro j hj hl'
    by_cases hjk : parent j = k
    · have := parent_lt hj
      exact le_keyAt (l := l) (by omega)
    · exact h.except j hj hl' hjk
  | succ f ih =>
    rw [siftDown]
    split
    · next hm =>
      have hle : k < lesserChild key l k := by
        rw [lesserChild]
        split <;> omega
      exact ih (by rw [swap_perm.length_eq]; omega) (by omega) (h.swap hl hm)
    · next hs =>
      intro j hj hl'
      by_cases hjk : parent j = k
      · exact hjk ▸ (le_of_not_gt hs).trans (lesserChild_le hj hjk)
      · exact h.except j hj hl' hjk

theorem siftDown_perm (f k : ℕ) (l : List α) : (siftDown key f k l).Perm l := by
  induction f generalizing k l with
  | zero => exact .refl _
  | succ f ih =>
    rw [siftDown]
    split
    · exact (ih ..).trans swap_perm
    · exact .refl _

end Down

section Heap
variable {key} {l : List α} {a b : α}

theorem pushHeap_perm (key : α → κ) (l : List α) : (pushHeap key l).Perm l := siftUp_perm ..

omit [LinearOrder κ] in
theorem keyAt_of_getElem?_eq {l l' : List α} {i : ℕ} (h : l[i]? = l'[i]?) :
    keyAt key l i = keyAt key l' i := by rw [keyAt, keyAt, h]

theorem pushHeap_ordered (a : α) (h : Ordered key l) : Ordered key (pushHeap key (l ++ [a])) := by
  have hs : ∀ i, i < l.length → keyAt key (l ++ [a]) i = keyAt key l i := fun i hi =>
    keyAt_of_getElem?_eq (getElem?_append_left hi)
  have ht : ∀ {c} i, l.length < i → c ≤ keyAt key (l ++ [a]) i := fun i hi =>
    le_keyAt (by simpa using Nat.succ_le_of_lt hi)
  refine siftUp_ordered (Nat.sub_le ..) ?_
  rw [length_append, length_singleton, Nat.add_sub_cancel]
  refine ⟨fun j hj hn => ?_, fun _ j hj hjk => ?_⟩
  · rcases Nat.lt_or_gt_of_ne hn with hl | hg
    · rw [hs j hl, hs _ ((parent_lt hj).trans hl)]
      exact h j hj (Nat.zero_le _)
    · exact ht j hg
  · exact ht j (hjk ▸ parent_lt hj)

theorem head_le (h : Ordered key (a :: l)) (hb : b ∈ a :: l) : key a ≤ key b := by
  have hm : ∀ j, keyAt key (a :: l) 0 ≤ keyAt key (a :: l) j := by
    intro j
    induction j using Nat.strong_induction_on with
    | _ j ih =>
      rcases Nat.eq_zero_or_pos j with rfl | hj
      · exact le_rfl
      · exact (ih _ (parent_lt hj)).trans (h j hj (Nat.zero_le _))
  obtain ⟨j, hj⟩ := mem_iff_getElem?.mp hb
  have hl := hm j
  rw [keyAt, keyAt, hj] at hl
  exact WithTop.coe_le_coe.mp hl

theorem popHeap_eq (key : α → κ) (a : α) (l : List α) : ∃ r,
    popHeap key (a :: l) = r ++ [a] ∧ r.Perm l ∧ (Ordered key (a :: l) → Ordered key r) := by
  rw [popHeap]
  split
  · next hn =>
    obtain rfl := getLast?_eq_none_iff.mp hn
    exact ⟨[], rfl, .refl _, fun _ j _ _ => le_keyAt (Nat.zero_le j)⟩
  · next la hl =>
    obtain ⟨f, rfl⟩ := getLast?_eq_some_iff.mp hl
    rw [dropLast_concat]
    refine ⟨_, rfl, (siftDown_perm ..).trans (perm_append_singleton ..).symm,
      fun h => siftDown_ordered (by simp) le_rfl ⟨fun j hj _ hne => ?_, nofun⟩⟩
    by_cases hlt : j < f.length + 1
    · -- Off the root both vectors hold the same elements.
      have hs : ∀ i, 0 < i → i ≤ j →
          keyAt key (la :: f) i = keyAt key (a :: (f ++ [la])) i := by
        intro i hi hij
        obtain ⟨n, rfl⟩ := Nat.exists_eq_succ_of_ne_zero (Nat.ne_of_gt hi)
        exact keyAt_of_getElem?_eq (by
          simp only [getElem?_cons_succ]
          exact (getElem?_append_left (by omega)).symm)
      rw [hs j hj le_rfl, hs _ (Nat.pos_of_ne_zero hne) (parent_lt hj).le]
      exact h j hj (Nat.zero_le _)
    · exact le_keyAt (by simpa using hlt)

theorem makeHeap_perm (key : α → κ) (l : List α) : (makeHeap key l).Perm l := by
  have hf : ∀ (n : ℕ) (l : List α),
      ((range n).foldr (fun k l => siftDown key l.length k l) l).Perm l := by
    intro n
    induction n with
    | zero => exact fun l => .refl _
    | succ n ih =>
      intro l
      rw [range_succ, foldr_append]
      exact (ih _).trans (siftDown_perm ..)
  exact hf _ _

theorem makeHeap_ordered (key : α → κ) (l : List α) : Ordered key (makeHeap key l) := by
  have hf : ∀ (n : ℕ) (l : List α), OrderedFrom key n l →
      Ordered key ((range n).foldr (fun k l => siftDown key l.length k l) l) := by
    intro n
    induction n with
    | zero => exact fun l h => h
    | succ n ih =>
      intro l h
      rw [range_succ, foldr_append]
      refine ih _ (siftDown_ordered (Nat.le_add_left ..) le_rfl
        ⟨fun j hj hl hne => h j hj (by omega), fun hn hl => ?_⟩)
      exact absurd hl (Nat.not_le_of_lt (parent_lt hn))
  refine hf _ l fun j hj hl => ?_
  rw [parent] at hl
  exact le_keyAt (by omega)

end Heap

end FsimRuntime.BinaryHeap
