import Mathlib

/-!
# Checks that refuse

Chains of checks in `Except`, and when they succeed.
-/

namespace FsimRuntime
open List

def refuse {ε : Type*} (refused : Bool) (error : ε) : Except ε Unit :=
  if refused then .error error else .ok ()

variable {ε α β : Type} {x : Except ε α} {r b : β} {a : α}

theorem bind_ok {f : α → Except ε β} : (x >>= f) = .ok r ↔ ∃ a, x = .ok a ∧
    f a = .ok r := by
  cases x with
  | error | ok a => simp [bind, Except.bind]

theorem map_ok {f : α → β} : x.map f = .ok r ↔ ∃ a, x = .ok a ∧ f a = r := by
  cases x <;> simp [Except.map]

theorem refuse_ok {ε : Type*} {r : Bool} {e : ε} {u : Unit} : refuse r e = .ok u ↔
    r = false := by
  cases r <;> simp [refuse]

theorem mapError_ok {ε' : Type} {f : ε → ε'} : x.mapError f = .ok a ↔ x = .ok a := by
  cases x <;> simp [Except.mapError]

theorem toOption_eq {y : Except ε α} (h : ∀ a, x = .ok a ↔ y = .ok a) :
    x.toOption = y.toOption := by
  refine Option.ext fun a => ?_
  cases x <;> cases y <;> simp_all [Except.toOption]

theorem foldlM_cons_ok {f : β → α → Except ε β} {l : List α} :
    (a :: l).foldlM f b = .ok r ↔ ∃ b', f b a = .ok b' ∧ l.foldlM f b' = .ok r := by
  exact bind_ok

theorem foldlM_range_succ_ok {f : β → ℕ → Except ε β} {c d : β} {n : ℕ}
    (hf : (range n).foldlM f b = .ok c) (hs : f c n = .ok d) :
    (range (n + 1)).foldlM f b = .ok d := by
  rw [range_succ, foldlM_append, hf]
  show ([n].foldlM f c) = .ok d
  rw [foldlM_cons, hs]
  rfl

section Loops

variable {ε α β : Type} {f : α → Except ε β} {e : ε}

theorem mapM_range_ok {f : ℕ → Except ε β} {g : ℕ → β} :
    ∀ n, (∀ k < n, f k = .ok (g k)) → (range n).mapM f = .ok ((range n).map g)
  | 0, _ => rfl
  | n + 1, h => by
    rw [range_succ, mapM_append, mapM_range_ok n fun k hk => h k (by omega)]
    simp [h n (by omega), bind, Except.bind, pure, Except.pure]

theorem mapM_error (hf : ∀ a, f a = .error e ∨ ∃ b, f a = .ok b) :
    ∀ l : List α, (∃ a ∈ l, f a = .error e) → l.mapM f = .error e
  | [], h => by simp at h
  | a :: l, h => by
    rw [mapM_cons]
    rcases hf a with ha | ⟨b, ha⟩
    · rw [ha]
      rfl
    · have hl : ∃ a ∈ l, f a = .error e := by simpa [ha] using h
      rw [ha, mapM_error hf l hl]
      rfl

theorem foldlM_error {f : β → α → Except ε β}
    (hf : ∀ b a, f b a = .error e ∨ ∃ b', f b a = .ok b') :
    ∀ (l : List α) (b : β), (∃ a ∈ l, ∀ b, f b a = .error e) → l.foldlM f b = .error e
  | [], _, h => by simp at h
  | a :: l, b, h => by
    rw [foldlM_cons]
    rcases hf b a with ha | ⟨b', ha⟩
    · rw [ha]
      rfl
    · have hl : ∃ a ∈ l, ∀ b, f b a = .error e :=
        ((exists_mem_cons_iff ..).mp h).resolve_left fun hn => by simpa [ha] using hn b
      rw [ha]
      exact foldlM_error hf l b' hl

theorem foldlM_cases {f : β → α → Except ε β}
    (hf : ∀ b a, f b a = .error e ∨ ∃ b', f b a = .ok b')
    (l : List α) (b : β) : l.foldlM f b = .error e ∨ ∃ b', l.foldlM f b = .ok b' := by
  induction l generalizing b with
  | nil => exact .inr ⟨b, rfl⟩
  | cons a l ih =>
    rw [foldlM_cons]
    rcases hf b a with ha | ⟨b', ha⟩
    · exact .inl (by rw [ha]; rfl)
    · rw [ha]
      exact ih b'

theorem mapM_option_cases (f : α → Option β) (l : List α) :
    (∃ a ∈ l, f a = none) ∧ l.mapM f = none ∨
      ∃ r : List β, l.mapM f = some r ∧ r.length = l.length ∧
      ∀ i (hl : i < l.length) (hr : i < r.length), f l[i] = some r[i] := by
  induction l with
  | nil => exact .inr ⟨[], by simp⟩
  | cons a l ih =>
    rw [mapM_cons]
    cases ha : f a with
    | none => exact .inl ⟨⟨a, by simp, ha⟩, rfl⟩
    | some b =>
      rcases ih with ⟨⟨c, hc, hf⟩, hl⟩ | ⟨r, hr, hle, hg⟩
      · exact .inl ⟨⟨c, by simp [hc], hf⟩, by rw [hl]; rfl⟩
      · refine .inr ⟨b :: r, by rw [hr]; rfl, by simp [hle], fun i hi hi' => ?_⟩
        cases i with
        | zero => simpa using ha
        | succ i => simpa using hg i (by simpa using hi) (by simpa using hi')

theorem mapM_ok {l : List α} {r : List β} (h : l.mapM f = .ok r) :
    r.length = l.length ∧ ∀ i (hl : i < l.length) (hr : i < r.length), f l[i] = .ok r[i] := by
  induction l generalizing r with
  | nil =>
    cases h
    simp
  | cons a l ih =>
    rw [mapM_cons] at h
    obtain ⟨b, hb, h⟩ := bind_ok.mp h
    obtain ⟨re, hre, h⟩ := bind_ok.mp h
    cases h
    obtain ⟨hle, hg⟩ := ih hre
    refine ⟨by simp [hle], fun i hl hr => ?_⟩
    cases i with
    | zero => simpa using hb
    | succ i => simpa using hg i (by simpa using hl) (by simpa using hr)

end Loops

section Agreement

variable {ε α β : Type}

/-- Computations that may be refused for different reasons, with one result when neither is. -/
def Agree (x y : Except ε α) : Prop := ∀ a b, x = .ok a → y = .ok b → a = b

theorem Agree.refl (x : Except ε α) : Agree x x :=
  fun _ _ ha hb => Except.ok.inj (ha.symm.trans hb)

theorem Agree.unit (x y : Except ε Unit) : Agree x y := fun _ _ _ _ => rfl

theorem Agree.bind {x y : Except ε α} {f g : α → Except ε β} (hx : Agree x y)
    (hf : ∀ a, Agree (f a) (g a)) : Agree (x >>= f) (y >>= g) := by
  intro r s hr hs
  obtain ⟨a, ha, hr⟩ := bind_ok.mp hr
  obtain ⟨b, hb, hs⟩ := bind_ok.mp hs
  obtain rfl := hx a b ha hb
  exact hf a r s hr hs

end Agreement

end FsimRuntime
