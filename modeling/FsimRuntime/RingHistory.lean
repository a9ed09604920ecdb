import Mathlib

/-!
# Ring buffers that keep the latest values

A ring of fixed capacity holds the last values of a growing list, from the
oldest one that is kept on.
-/

namespace FsimRuntime.RingHistory
open List

structure RingBuffer (α : Type) where
  values : List α
  first : ℕ
  count : ℕ

namespace RingBuffer

variable {α : Type} {ring : RingBuffer α} {samples : List α} {value : α} {i j : ℕ}

def capacity (ring : RingBuffer α) : ℕ := ring.values.length

def place (ring : RingBuffer α) (index : ℕ) : ℕ := (ring.first + index) % ring.capacity

def get (ring : RingBuffer α) (index : ℕ) : Option α :=
  if index < ring.count then ring.values[ring.place index]? else none

/-- A full ring gives up its oldest value. -/
def push (ring : RingBuffer α) (value : α) : RingBuffer α :=
  if ring.count < ring.capacity then
    ⟨ring.values.set (ring.place ring.count) value, ring.first, ring.count + 1⟩
  else ⟨ring.values.set ring.first value, ring.place 1, ring.count⟩

/-- A ring of another capacity with the values of this one. -/
def grow (ring : RingBuffer α) (capacity : ℕ) (initial : α) : RingBuffer α :=
  ⟨(List.range capacity).map fun index => (ring.get index).getD initial, 0, ring.count⟩

/-- The ring keeps the last of some values, as many as it has room for. -/
structure Keeps (ring : RingBuffer α) (samples : List α) : Prop where
  first : ring.first < ring.capacity
  count : ring.count = min samples.length ring.capacity
  get : ∀ index < ring.count, ring.get index = samples[samples.length - ring.count + index]?

theorem place_lt (h : ring.first < ring.capacity) : ring.place i < ring.capacity :=
  Nat.mod_lt _ (by omega)

theorem place_ne (hi : i < j) (hj : j < i + ring.capacity) : ring.place i ≠ ring.place j := by
  intro he
  have := Nat.sub_mod_eq_zero_of_mod_eq he.symm
  rw [Nat.add_sub_add_left, Nat.mod_eq_of_lt (by omega)] at this
  omega

theorem capacity_push : (ring.push value).capacity = ring.capacity := by
  unfold push
  split <;> exact length_set

/-- The ring keeps one value more, or starts one place later. -/
theorem push_eq (value : α) (h : ring.first < ring.capacity) (hc : ring.count ≤ ring.capacity) :
    ∃ shift, shift + min (ring.count + 1) ring.capacity = ring.count + 1 ∧ ring.push value =
      ⟨ring.values.set (ring.place ring.count) value, ring.place shift,
        min (ring.count + 1) ring.capacity⟩ := by
  have hz : ring.place 0 = ring.first := Nat.mod_eq_of_lt h
  rw [push]
  split_ifs with hr
  · exact ⟨0, by omega, by rw [min_eq_left hr, hz]⟩
  · have he : ring.place ring.count = ring.first := by
      rw [← hz, place, hc.antisymm (not_lt.mp hr), Nat.add_mod_right]
      rfl
    exact ⟨1, by omega, by rw [min_eq_right (by omega), he, hc.antisymm (not_lt.mp hr)]⟩

section
variable (h : ring.Keeps samples)
include h

theorem Keeps.push : (ring.push value).Keeps (samples ++ [value]) := by
  have hco := h.count
  obtain ⟨shift, hs, hp⟩ := push_eq value h.first (by omega)
  have hc : (ring.push value).capacity = ring.capacity := capacity_push
  refine ⟨by rw [hc, hp]; exact place_lt h.first, ?_, fun index hin => ?_⟩
  · rw [hc, hp, length_append, length_singleton]
    show min _ _ = _
    omega
  · have hpl : (ring.push value).place index = ring.place (shift + index) := by
      rw [place, hc, hp]
      exact (Nat.mod_add_mod _ _ _).trans (by rw [Nat.add_assoc]; rfl)
    rw [RingBuffer.get, if_pos hin, hpl]
    simp only [hp, length_append, length_singleton] at hin ⊢
    by_cases he : shift + index = ring.count
    · rw [he, getElem?_set_self (place_lt h.first),
        getElem?_append_right (by omega), show _ - _ = 0 by omega]
      rfl
    · have hb := h.get (shift + index) (by omega)
      rw [RingBuffer.get, if_pos (by omega)] at hb
      rw [getElem?_set_ne (place_ne (by omega) (by omega)).symm, hb,
        getElem?_append_left (by omega)]
      congr 1
      omega

/-- A value near the end of the list. -/
theorem Keeps.get_back {back : ℕ} (hb : back < ring.count) :
    ring.get (ring.count - 1 - back) = samples.reverse[back]? := by
  have hc := h.count
  rw [h.get _ (by omega), getElem?_reverse (by omega)]
  congr 1
  omega

end

theorem keeps_nil {capacity : ℕ} (h : 0 < capacity) :
    Keeps ⟨replicate capacity value, 0, 0⟩ [] :=
  ⟨by simpa [RingBuffer.capacity] using h, by simp, nofun⟩

theorem mem_push {o : α} (h : o ∈ (ring.push value).values) : o ∈ ring.values ∨
    o = value := by
  unfold push at h
  split at h <;> exact mem_or_eq_of_mem_set h

end RingBuffer

end FsimRuntime.RingHistory
