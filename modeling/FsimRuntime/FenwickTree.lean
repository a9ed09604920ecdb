import Mathlib

/-!
# Fenwick trees

A Fenwick tree over `count` weights keeps at node `n` the sum of the weights in
the block of `n`, which ends before `n` and is as long as the lowest bit of `n`.
A weight is changed along the chain of nodes whose blocks hold it, and a
descent by halving steps finds the weight that a running sum falls into.
-/

namespace FsimRuntime.Fenwick

open Finset Function

/-- The largest power of two that divides a number. -/
def lowestBit (n : ℕ) : ℕ := 2 ^ padicValNat 2 n

def lowBit (bits n : ℕ) : ℕ := n &&& (2 ^ bits - n)

theorem lowestBit_pos (n : ℕ) : 0 < lowestBit n := Nat.two_pow_pos _

theorem lowestBit_dvd (n : ℕ) : lowestBit n ∣ n := pow_padicValNat_dvd

variable {n k : ℕ}

theorem lowestBit_le (h : 0 < n) : lowestBit n ≤ n := Nat.le_of_dvd h (lowestBit_dvd n)

theorem two_pow_dvd_iff (h : 0 < n) : 2 ^ k ∣ n ↔ 2 ^ k ≤ lowestBit n := by
  rw [padicValNat_dvd_iff_le h.ne', lowestBit, Nat.pow_le_pow_iff_right (by decide)]

theorem odd_quotient (h : 0 < n) : ∃ m, n = lowestBit n * (2 * m + 1) := by
  obtain ⟨q, hq⟩ := lowestBit_dvd n
  rcases Nat.even_or_odd' q with ⟨m, rfl | rfl⟩
  · have hd : 2 ^ (padicValNat 2 n + 1) ∣ n := by
      refine ⟨m, ?_⟩
      rw [pow_succ, mul_assoc]
      exact hq
    have := (padicValNat_dvd_iff_le h.ne').mp hd
    omega
  · exact ⟨m, hq⟩

theorem lowestBit_add {r : ℕ} (hr : 0 < r) (hd : 2 ^ (padicValNat 2 r + 1) ∣ n) :
    lowestBit (n + r) = lowestBit r := by
  have hl : 2 ^ padicValNat 2 r ∣ n + r :=
    dvd_add ((pow_dvd_pow 2 (Nat.le_succ _)).trans hd) pow_padicValNat_dvd
  have hh : ¬ 2 ^ (padicValNat 2 r + 1) ∣ n + r := by
    rw [Nat.dvd_add_right hd, padicValNat_dvd_iff_le hr.ne']
    omega
  rw [padicValNat_dvd_iff_le (by omega)] at hl hh
  have : padicValNat 2 (n + r) = padicValNat 2 r := by omega
  rw [lowestBit, this, lowestBit]

theorem lowestBit_add_two_pow {position : ℕ} (h : 2 ^ (k + 1) ∣ position) :
    lowestBit (position + 2 ^ k) = 2 ^ k := by
  have hk : padicValNat 2 (2 ^ k) = k := padicValNat.prime_pow k
  rw [lowestBit_add (Nat.two_pow_pos k) (by rwa [hk]), lowestBit, hk]

theorem lowestBit_add_lt {r : ℕ} (hr : 0 < r) (hl : r < lowestBit n) :
    lowestBit (n + r) = lowestBit r := by
  have hlt : 2 ^ padicValNat 2 r < 2 ^ padicValNat 2 n := lt_of_le_of_lt (lowestBit_le hr) hl
  have hv : padicValNat 2 r < padicValNat 2 n := (Nat.pow_lt_pow_iff_right (by decide)).mp hlt
  exact lowestBit_add hr ((pow_dvd_pow 2 hv).trans pow_padicValNat_dvd)

theorem lowestBit_add_self (h : 0 < n) : 2 * lowestBit n ≤ lowestBit (n + lowestBit n) := by
  obtain ⟨m, hm⟩ := odd_quotient h
  have hd : 2 ^ (padicValNat 2 n + 1) ∣ n + lowestBit n :=
    ⟨m + 1, by
      have : 2 ^ (padicValNat 2 n + 1) = 2 * lowestBit n := by rw [mul_comm]; rfl
      rw [this]
      nth_rewrite 1 [hm]
      ring⟩
  have := (two_pow_dvd_iff (by omega)).mp hd
  rwa [pow_succ, mul_comm] at this

theorem odd_and_complement {m : ℕ} (h : m < 2 ^ k) :
    (2 * m + 1) &&& (2 * (2 ^ k - (m + 1)) + 1) = 1 := by
  refine Nat.eq_of_testBit_eq fun i => ?_
  rw [Nat.testBit_and]
  cases i with
  | zero => simp
  | succ i =>
    have hd (x : ℕ) : (2 * x + 1).testBit (i + 1) = x.testBit i := by
      rw [Nat.testBit_succ]
      congr 1
      omega
    rw [hd, hd, Nat.testBit_two_pow_sub_succ h]
    cases m.testBit i <;> simp [Nat.testBit_succ]

theorem lowBit_eq {bits : ℕ} (hp : 0 < n) (hl : n < 2 ^ bits) : lowBit bits n = lowestBit n := by
  induction bits generalizing n with
  | zero => omega
  | succ bits ih =>
    rw [pow_succ'] at hl
    rw [lowBit, pow_succ', lowestBit]
    rcases Nat.even_or_odd' n with ⟨m, rfl | rfl⟩
    · have hm : (m &&& (2 ^ bits - m)) = 2 ^ padicValNat 2 m := ih (by omega) (by omega)
      have hd (x : ℕ) : 2 * x = x <<< 1 := by rw [Nat.shiftLeft_eq, mul_comm, pow_one]
      rw [← Nat.mul_sub, hd m, hd (_ - _), ← Nat.shiftLeft_and_distrib, hm, ← hd, ← hd,
        padicValNat.mul (by decide) (by omega), padicValNat_self, pow_add, pow_one]
    · rw [padicValNat.eq_zero_of_not_dvd (by omega), show 2 * 2 ^ bits - (2 * m + 1) =
        2 * (2 ^ bits - (m + 1)) + 1 by omega, odd_and_complement (by omega), pow_zero]

section Trees

variable {bits count : ℕ}

def Covers (node index : ℕ) : Prop := node - lowestBit node ≤ index ∧ index < node

instance (node index : ℕ) : Decidable (Covers node index) := inferInstanceAs (Decidable (_ ∧ _))

def Represents (count : ℕ) (tree weights : ℕ → ℕ) : Prop :=
  ∀ node, 0 < node → node ≤ count →
    tree node = ∑ i ∈ Ico (node - lowestBit node) node, weights i

def changeFrom (bits count : ℕ) (change : ℕ → ℕ) : ℕ → ℕ →
    (ℕ → ℕ) → ℕ → ℕ
  | 0, _, tree => tree
  | fuel + 1, node, tree =>
    if node ≤ count then
      changeFrom bits count change fuel (node + lowBit bits node)
        (update tree node (change (tree node)))
    else tree

theorem covers_succ (index : ℕ) : Covers (index + 1) index := by
  have := lowestBit_pos (index + 1)
  exact ⟨by omega, by omega⟩

variable {node index fuel : ℕ} {change tree weights : ℕ → ℕ}

theorem Covers.next (h : Covers node index) : Covers (node + lowestBit node) index := by
  have hp : 0 < node := by have := h.2; omega
  have := lowestBit_add_self hp
  have := h.1
  have := h.2
  exact ⟨by omega, by omega⟩

theorem Covers.not_between {o : ℕ} (h : Covers node index) (hlt : node < o)
    (hn : o < node + lowestBit node) : ¬ Covers o index := by
  rintro ⟨hl, _⟩
  obtain ⟨r, rfl⟩ : ∃ r, o = node + r := ⟨o - node, by omega⟩
  have hr : 0 < r := by omega
  rw [lowestBit_add_lt hr (by omega)] at hl
  have := lowestBit_le hr
  have := h.2
  omega

theorem changeFrom_apply (hco : count < 2 ^ bits)
    (hc : Covers node index) (hf : count < node + fuel) (tree : ℕ → ℕ) (o : ℕ) :
    changeFrom bits count change fuel node tree o =
      if node ≤ o ∧ o ≤ count ∧ Covers o index then change (tree o) else tree o := by
  induction fuel generalizing node tree with
  | zero => rw [changeFrom, if_neg (by omega)]
  | succ fuel ih =>
    rw [changeFrom]
    by_cases hn : node ≤ count
    · have hp : 0 < node := by have := hc.2; omega
      have hl := lowestBit_pos node
      rw [if_pos hn, lowBit_eq hp (by omega), ih hc.next (by omega)]
      by_cases ho : o = node
      · subst ho
        rw [if_neg (by omega), if_pos ⟨le_rfl, hn, hc⟩, update_self]
      · rw [update_of_ne ho]
        refine if_congr ?_ rfl rfl
        constructor
        · exact fun h => ⟨by omega, h.2⟩
        · intro h
          refine ⟨?_, h.2⟩
          by_contra hlt
          exact hc.not_between (by omega) (by omega) h.2.2
    · rw [if_neg hn, if_neg (by omega)]

theorem Represents.changeFrom (h : Represents count tree weights) (hco : count < 2 ^ bits)
    (hf : count < index + 1 + fuel) {w : ℕ} (hch : ∀ r, change (r + weights index) = r + w) :
    Represents count (changeFrom bits count change fuel (index + 1) tree)
      (update weights index w) := by
  intro node hp hl
  rw [changeFrom_apply hco (covers_succ index) hf, h node hp hl]
  by_cases hc : Covers node index
  · have hm : index ∈ Ico (node - lowestBit node) node := mem_Ico.mpr hc
    rw [if_pos ⟨hc.2, hl, hc⟩, ← sum_erase_add _ _ hm, hch,
      ← sum_erase_add _ _ hm, update_self]
    congr 1
    refine sum_congr rfl fun i hi => ?_
    rw [update_of_ne (ne_of_mem_erase hi)]
  · rw [if_neg fun ha => hc ha.2.2]
    refine sum_congr rfl fun i hi => ?_
    have : i ≠ index := fun he => hc (he ▸ mem_Ico.mp hi)
    rw [update_of_ne this]

def plant (bits count : ℕ) (weights : ℕ → ℕ) (position : ℕ) : ℕ → ℕ :=
  (List.range position).foldl (fun tree i =>
    if weights i = 0 then tree else changeFrom bits count (· + weights i) (count + 1) (i + 1) tree)
    fun _ => 0

theorem Represents.congr {w' : ℕ → ℕ} (h : Represents count tree weights)
    (he : ∀ i < count, weights i = w' i) : Represents count tree w' := by
  intro node hp hl
  rw [h node hp hl]
  refine sum_congr rfl fun i hi => he i ?_
  have := (mem_Ico.mp hi).2
  omega

theorem plant_represents (hc : count < 2 ^ bits) (weights : ℕ → ℕ) {position : ℕ} :
    Represents count (plant bits count weights position)
      fun i => if i < position then weights i else 0 := by
  induction position with
  | zero =>
    intro node _ _
    simp [plant]
  | succ position ih =>
    have hp : plant bits count weights (position + 1) =
        if weights position = 0 then plant bits count weights position
        else changeFrom bits count (· + weights position) (count + 1) (position + 1)
          (plant bits count weights position) := by
      rw [plant, List.range_succ, List.foldl_append]
      rfl
    have hw (i : ℕ) : (if i < position + 1 then weights i else 0) =
        update (fun i => if i < position then weights i else 0) position (weights position) i := by
      by_cases hi : i = position
      · subst hi
        simp
      · rw [update_of_ne hi]
        exact if_congr (by omega) rfl rfl
    rw [hp]
    by_cases hz : weights position = 0
    · rw [if_pos hz]
      refine ih.congr fun i _ => ?_
      rw [hw]
      by_cases hi : i = position
      · subst hi
        simp [hz]
      · rw [update_of_ne hi]
    · rw [if_neg hz]
      refine Represents.congr (Represents.changeFrom ih hc (by omega) ?_) fun i _ => (hw i).symm
      simp

end Trees

section Descent

def topStep (count : ℕ) : ℕ → ℕ → ℕ
  | 0, top => top
  | fuel + 1, top => if top * 2 ≤ count then topStep count fuel (top * 2) else top

def descend (count : ℕ) (tree : ℕ → ℕ) : ℕ → ℕ → ℕ → ℕ → ℕ
  | 0, _, position, _ => position
  | fuel + 1, step, position, target =>
    if step = 0 then position
    else if position + step ≤ count ∧ tree (position + step) ≤ target then
      descend count tree fuel (step / 2) (position + step) (target - tree (position + step))
    else descend count tree fuel (step / 2) position target

variable {count : ℕ}

variable {fuel k position target : ℕ} {weights tree : ℕ → ℕ}

theorem topStep_spec (hl : 2 ^ k ≤ count) (hf : count < 2 ^ (k + fuel)) :
    ∃ j, topStep count fuel (2 ^ k) = 2 ^ j ∧ count < 2 ^ (j + 1) ∧ j < k + fuel := by
  induction fuel generalizing k with
  | zero =>
    rw [add_zero] at hf
    omega
  | succ fuel ih =>
    rw [topStep]
    by_cases ht : 2 ^ k * 2 ≤ count
    · rw [if_pos ht]
      obtain ⟨j, hj, hc, hlt⟩ := ih (by rwa [pow_succ]) (by rwa [add_right_comm])
      exact ⟨j, hj, hc, by omega⟩
    · rw [if_neg ht]
      exact ⟨k, rfl, by rw [pow_succ]; omega, by omega⟩

def total (weights : ℕ → ℕ) (position : ℕ) : ℕ := ∑ i ∈ range position, weights i

theorem total_mono (weights : ℕ → ℕ) {p q : ℕ} (h : p ≤ q) :
    total weights p ≤ total weights q :=
  sum_le_sum_of_subset (range_mono h)

theorem total_block (h : Represents count tree weights)
    (hd : 2 ^ (k + 1) ∣ position) (hl : position + 2 ^ k ≤ count) :
    total weights (position + 2 ^ k) = total weights position + tree (position + 2 ^ k) := by
  rw [h _ (by omega) hl, lowestBit_add_two_pow hd, Nat.add_sub_cancel]
  exact (sum_range_add_sum_Ico _ (Nat.le_add_right _ _)).symm

structure Between (count : ℕ) (weights : ℕ → ℕ) (target step position : ℕ) : Prop where
  lower : total weights position ≤ target
  upper : target < total weights (min (position + step) count)

theorem descend_step (h : Represents count tree weights)
    (hd : 2 ^ (k + 1) ∣ position) (hb : Between count weights target (2 ^ (k + 1)) position) :
    ∃ next, 2 ^ k ∣ next ∧ Between count weights target (2 ^ k) next ∧
      descend count tree (fuel + 1) (2 ^ k) position (target - total weights position) =
        descend count tree fuel (2 ^ k / 2) next (target - total weights next) := by
  have hp := Nat.two_pow_pos k
  have hd' : 2 ^ k ∣ position := (pow_dvd_pow 2 k.le_succ).trans hd
  have ht : position + 2 ^ (k + 1) = position + 2 ^ k + 2 ^ k := by rw [pow_succ]; omega
  have hu := hb.upper
  rw [ht] at hu
  rw [descend, if_neg hp.ne']
  by_cases hs : position + 2 ^ k ≤ count ∧
    tree (position + 2 ^ k) ≤ target - total weights position
  · have hbl := total_block h hd hs.1
    have hl := hb.lower
    refine ⟨position + 2 ^ k, dvd_add hd' dvd_rfl, ⟨by omega, hu⟩, ?_⟩
    rw [if_pos hs, hbl, Nat.sub_sub]
  · refine ⟨position, hd', ⟨hb.lower, ?_⟩, by rw [if_neg hs]⟩
    by_cases hle : position + 2 ^ k ≤ count
    · have hbl := total_block h hd hle
      rw [min_eq_left hle]
      omega
    · rwa [min_eq_right (by omega)] at hu ⊢

theorem descend_zero : descend count tree fuel 0 position target = position := by
  cases fuel <;> simp [descend]

theorem descend_spec (h : Represents count tree weights) (hf : k < fuel)
    (hdv : 2 ^ (k + 1) ∣ position) (hb : Between count weights target (2 ^ (k + 1)) position) :
    descend count tree fuel (2 ^ k) position (target - total weights position) < count ∧
      weights
      (descend count tree fuel (2 ^ k) position (target - total weights position)) ≠ 0 := by
  induction fuel generalizing k position with
  | zero => omega
  | succ fuel ih =>
    obtain ⟨next, hd, hn, he⟩ := descend_step h hdv hb
    rw [he]
    cases k with
    | zero =>
      obtain ⟨hl, hu⟩ := hn
      rw [show 2 ^ 0 / 2 = 0 from rfl, descend_zero]
      have hlt : next < count := by
        by_contra hg
        rw [min_eq_right (by omega)] at hu
        have := total_mono weights (show count ≤ next by omega)
        omega
      refine ⟨hlt, fun hz => ?_⟩
      rw [min_eq_left (by omega), pow_zero, total, sum_range_succ, hz] at hu
      exact absurd hu (not_lt.mpr hl)
    | succ k =>
      rw [show 2 ^ (k + 1) / 2 = 2 ^ k by rw [pow_succ]; omega]
      exact ih (by omega) hd hn

theorem find_spec (h : Represents count tree weights) {bits : ℕ}
    (hc : count < 2 ^ bits) (ht : target < total weights count) :
    descend count tree bits (topStep count bits 1) 0 target < count ∧
      weights (descend count tree bits (topStep count bits 1) 0 target) ≠ 0 := by
  have hp : 1 ≤ count := by
    by_contra hz
    have : count = 0 := by omega
    subst this
    simp [total] at ht
  obtain ⟨j, hj, hl, hbi⟩ : ∃ j, topStep count bits (2 ^ 0) = 2 ^ j ∧
    count < 2 ^ (j + 1) ∧ j < 0 + bits := topStep_spec hp (by rwa [zero_add])
  rw [pow_zero] at hj
  rw [hj]
  have hz : total weights 0 = 0 := rfl
  have hb : Between count weights target (2 ^ (j + 1)) 0 :=
    ⟨by omega, by rwa [zero_add, min_eq_right hl.le]⟩
  have hfu : j < bits := by omega
  have hf := descend_spec h hfu (dvd_zero _) hb
  rwa [hz] at hf

end Descent

section Draws

variable {State : Type*} (bits count : ℕ) (pick : State → ℕ) (next : State → State)

/-- Draws positions in proportion to their weights, each once. -/
def draws : ℕ → State → ℕ → (ℕ → ℕ) → (ℕ → ℕ) → List ℕ
  | 0, _, _, _, _ => []
  | remaining + 1, state, sum, tree, weights =>
    let position := descend count tree bits (topStep count bits 1) 0 (pick state % sum)
    let weight := weights position
    position :: draws remaining (next state) (sum - weight)
      (changeFrom bits count (· - weight) (count + 1) (position + 1) tree)
      (update weights position 0)

def weighted (weights : ℕ → ℕ) : Finset ℕ := {i ∈ range count | weights i ≠ 0}

variable {bits count pick next} {weights : ℕ → ℕ} {position : ℕ}

theorem total_update (h : position < count) :
    total (update weights position 0) count = total weights count - weights position := by
  have hm : position ∈ range count := mem_range.mpr h
  rw [total, total, sum_update_of_mem hm, zero_add, ← add_sum_erase _ _ hm,
    Nat.add_sub_cancel_left, sdiff_singleton_eq_erase]

theorem weighted_update :
    weighted count (update weights position 0) = (weighted count weights).erase position := by
  ext i
  by_cases hi : i = position
  · subst hi
    simp [weighted]
  · simp [weighted, hi]

theorem mem_draws {remaining : ℕ} {state : State} {tree : ℕ → ℕ} (hc : count < 2 ^ bits)
    (ht : Represents count tree weights)
    (hr : (weighted count weights).card = remaining) {i : ℕ} :
    i ∈ draws bits count pick next remaining state (total weights count) tree weights ↔
      i ∈ weighted count weights := by
  induction remaining generalizing state tree weights with
  | zero =>
    rw [card_eq_zero] at hr
    simp [draws, hr]
  | succ remaining ih =>
    have hto : 0 < total weights count := by
      obtain ⟨j, hj⟩ : (weighted count weights).Nonempty := card_pos.mp (by omega)
      obtain ⟨hm, hn⟩ := mem_filter.mp hj
      have := single_le_sum (fun i _ => Nat.zero_le (weights i)) hm
      exact lt_of_lt_of_le (pos_of_ne_zero hn) this
    obtain ⟨hl, hn⟩ := find_spec ht hc (Nat.mod_lt (pick state) hto)
    rw [draws]
    set position :=
      descend count tree bits (topStep count bits 1) 0 (pick state % total weights count)
    have hp : position ∈ weighted count weights :=
      mem_filter.mpr ⟨mem_range.mpr hl, hn⟩
    have hch : Represents count
        (changeFrom bits count (· - weights position) (count + 1) (position + 1) tree)
        (update weights position 0) :=
      ht.changeFrom hc (by omega) fun r => Nat.add_sub_cancel r _
    rw [List.mem_cons, ← total_update hl, ih hch, weighted_update, mem_erase]
    · constructor
      · rintro (rfl | h)
        · exact hp
        · exact h.2
      · intro h
        by_cases he : i = position
        · exact .inl he
        · exact .inr ⟨he, h⟩
    · rw [weighted_update, card_erase_of_mem hp]
      omega

end Draws

end FsimRuntime.Fenwick
