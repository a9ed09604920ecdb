import Mathlib

/-!
# Accumulation by keys

Items that arrive in one sequence and are folded into one slot for each key. A
slot starts at a value of its own with the first item of its key.
-/

namespace FsimRuntime.KeyedAccumulation

variable {α ι κ : Type} [DecidableEq κ]

def itemsOf (key : ι → κ) (items : List ι) (k : κ) : List ι :=
  items.filter fun item => key item = k

def accumulated (key : ι → κ) (start : κ → α) (fold : α → ι → α) (items : List ι)
    (k : κ) : Option α :=
  if itemsOf key items k = [] then none else some ((itemsOf key items k).foldl fold (start k))

variable {key : ι → κ} {start : κ → α} {f : α → ι → α} {items : List ι}
  {i : ι} {k : κ}

theorem itemsOf_concat_self :
    itemsOf key (items ++ [i]) (key i) = itemsOf key items (key i) ++ [i] := by
  simp [itemsOf]

theorem itemsOf_concat_of_ne (h : k ≠ key i) :
    itemsOf key (items ++ [i]) k = itemsOf key items k := by simp [itemsOf, Ne.symm h]

theorem accumulated_concat_self : accumulated key start f (items ++ [i]) (key i) =
    some (f ((accumulated key start f items (key i)).getD (start (key i))) i) := by
  rw [accumulated, accumulated, itemsOf_concat_self, if_neg (by simp)]
  split_ifs with h <;> simp [h]

theorem accumulated_concat_of_ne (h : k ≠ key i) :
    accumulated key start f (items ++ [i]) k = accumulated key start f items k := by
  rw [accumulated, accumulated, itemsOf_concat_of_ne h]

theorem accumulated_eq_none : accumulated key start f items k = none ↔
    ∀ i ∈ items, key i ≠ k := by
  rw [accumulated]
  split_ifs with h
  · simpa [itemsOf] using h
  · simpa [itemsOf] using h

theorem accumulated_step {slot s' : κ → Option α} {v : α}
    (h : ∀ k, slot k = accumulated key start f items k)
    (hv : v = f ((slot (key i)).getD (start (key i))) i)
    (hs : ∀ k, s' k = if k = key i then some v else slot k) (k : κ) :
    s' k = accumulated key start f (items ++ [i]) k := by
  rw [hs]
  split_ifs with hk
  · subst hk
    rw [hv, h, accumulated_concat_self]
  · rw [h, accumulated_concat_of_ne hk]

end FsimRuntime.KeyedAccumulation
