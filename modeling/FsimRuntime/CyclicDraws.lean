import Mathlib

/-!
# Draws without replacement, cycle after cycle

A sequence of draws that never repeats a value within a cycle and starts a new
cycle only after a complete one falls into blocks that permute the domain.
-/

namespace FsimRuntime.CyclicDraws
open List

variable {α : Type*} {d draws current : List α}

/-- All draws, with those of the current cycle. -/
inductive Drawn (domain : List α) : List α → List α → Prop
  | start : Drawn domain [] []
  | draw {draws current : List α} {a : α} : Drawn domain draws current → a ∈ domain →
      a ∉ current → Drawn domain (draws ++ [a]) (current ++ [a])
  | turn {draws current : List α} : Drawn domain draws current → current.Perm domain →
      Drawn domain draws []

/-- The `k`-th block of the length of the domain. -/
def block (domain draws : List α) (k : ℕ) : List α :=
  (draws.drop (k * domain.length)).take domain.length

/-- Every complete block is a permutation of the domain, and the last one repeats nothing. -/
structure Cycles (domain draws : List α) : Prop where
  nodup : ∀ k, (block domain draws k).Nodup
  subset : ∀ k, block domain draws k ⊆ domain
  perm : ∀ k, (k + 1) * domain.length ≤ draws.length → (block domain draws k).Perm domain

section
variable (h : Drawn d draws current)
include h

theorem Drawn.nodup : current.Nodup := by
  induction h with
  | start | turn => exact nodup_nil
  | draw _ _ hn ih => exact List.Nodup.append ih (nodup_singleton _) (by simpa using hn)

theorem Drawn.subset : current ⊆ d := by
  induction h with
  | start | turn => exact nil_subset _
  | draw _ hm _ ih => exact append_subset.mpr ⟨ih, by simpa using hm⟩

theorem Drawn.blocks :
    ∃ blocks : List (List α), draws = blocks.flatten ++ current ∧
      ∀ p ∈ blocks, p.Perm d := by
  induction h with
  | start => exact ⟨[], rfl, by simp⟩
  | draw _ _ _ ih =>
    obtain ⟨blocks, hd, hpe⟩ := ih
    exact ⟨blocks, by rw [hd, append_assoc], hpe⟩
  | @turn draws current _ hc ih =>
    obtain ⟨blocks, hd, hpe⟩ := ih
    refine ⟨blocks ++ [current], by simp [hd], fun p hp => ?_⟩
    rcases mem_append.mp hp with hp | hp
    · exact hpe p hp
    · rw [mem_singleton.mp hp]
      exact hc

end

variable {blocks : List (List α)}

theorem length_flatten_of_perm (h : ∀ p ∈ blocks, p.Perm d) :
    blocks.flatten.length = blocks.length * d.length := by
  rw [length_flatten, map_congr_left fun p hp => (h p hp).length_eq]
  simp

theorem drop_flatten_append (h : ∀ p ∈ blocks, p.Perm d) {k : ℕ} (hk : k ≤ blocks.length) :
    (blocks.flatten ++ current).drop (k * d.length) = (blocks.drop k).flatten ++ current := by
  have hs : blocks.flatten = (blocks.take k).flatten ++ (blocks.drop k).flatten := by
    rw [← flatten_append, take_append_drop]
  have hl : (blocks.take k).flatten.length = k * d.length := by
    rw [length_flatten_of_perm fun p hp => h p (mem_of_mem_take hp), length_take,
      Nat.min_eq_left hk]
  rw [hs, append_assoc, ← hl, drop_left]

theorem Drawn.block_perm_or_sublist (h : Drawn d draws current) (k : ℕ) :
    (block d draws k).Perm d ∨ (block d draws k).Sublist current := by
  obtain ⟨blocks, rfl, hp⟩ := h.blocks
  unfold block
  by_cases hk : k < blocks.length
  · refine .inl ?_
    have hpi := hp blocks[k] (getElem_mem hk)
    rw [drop_flatten_append hp (Nat.le_of_lt hk), drop_eq_getElem_cons hk, flatten_cons,
      append_assoc, ← hpi.length_eq, take_left]
    exact hpi
  · refine .inr ((take_sublist _ _).trans ?_)
    have hl : blocks.flatten.length ≤ k * d.length := by
      rw [length_flatten_of_perm hp]
      exact Nat.mul_le_mul_right _ (Nat.le_of_not_lt hk)
    rw [drop_append, drop_eq_nil_of_le hl]
    exact drop_sublist _ _

theorem Drawn.cycles (h : Drawn d draws current) (hd : d.Nodup) : Cycles d draws := by
  have hn (k : ℕ) : (block d draws k).Nodup := by
    rcases h.block_perm_or_sublist k with hp | hs
    · exact hp.nodup_iff.mpr hd
    · exact h.nodup.sublist hs
  have hsu (k : ℕ) : block d draws k ⊆ d := by
    rcases h.block_perm_or_sublist k with hp | hs
    · exact hp.subset
    · exact List.Subset.trans hs.subset h.subset
  refine ⟨hn, hsu, fun k hk => ?_⟩
  refine ((hn k).subperm (hsu k)).perm_of_length_le ?_
  rw [block, length_take, length_drop]
  rw [Nat.add_mul] at hk
  omega

end FsimRuntime.CyclicDraws
