import Mathlib

/-!
# Glob patterns

`glob_match` of `glob_match.hpp`. The two indices of its loop are kept as what
they leave of the pattern and of the value, and so are the star it can go back
to and the place of its next try.
-/

namespace FsimRuntime.Glob
open List

def globLoop (pattern value : List Char) (star : Option (List Char × List Char)) : Bool :=
  match value with
  | [] => pattern.all (· = '*')
  | letter :: rest =>
    if pattern.head? = some '?' ∨ pattern.head? = some letter then globLoop pattern.tail rest star
    else if pattern.head? = some '*' then
      globLoop pattern.tail (letter :: rest) (some (pattern.tail, letter :: rest))
    else match star with
      | some (afterStar, retry) => globLoop afterStar retry.tail (some (afterStar, retry.tail))
      | none => false
termination_by ((match star with
  | none => value.length + 1
  | some (_, retry) => max retry.length value.length), pattern.length + value.length)
decreasing_by
  · cases star <;> simp <;> omega
  · cases pattern with
    | nil => simp_all
    | cons => cases star <;> simp <;> omega
  · simp
    omega

def globMatch (pattern value : List Char) : Bool := globLoop pattern value none

/-- The value split among the characters of the pattern, where `run` says what a star may take of
the rest of the value. -/
inductive Splits (run : List Char → List Char → Prop) : List Char → List Char → Prop
  | nil : Splits run [] []
  | star {pattern value : List Char} (taken : List Char) : run taken (taken ++ value) →
    Splits run pattern value → Splits run ('*' :: pattern) (taken ++ value)
  | any {pattern value : List Char} (letter : Char) :
    Splits run pattern value → Splits run ('?' :: pattern) (letter :: value)
  | literal {pattern value : List Char} {letter : Char} : letter ≠ '*' → letter ≠ '?' →
    Splits run pattern value → Splits run (letter :: pattern) (letter :: value)

def Matches : List Char → List Char → Prop := Splits fun _ _ => True

/-- A star that stands before a star of the value takes this one character. -/
def Starwise : List Char → List Char → Prop :=
  Splits fun taken rest => rest.head? = some '*' → taken = ['*']

variable {pattern value taken passed u : List Char} {p c : Char}

theorem Starwise.matches (h : Starwise pattern value) : Matches pattern value := by
  induction h with
  | nil => exact .nil
  | star taken _ _ ih => exact .star taken trivial ih
  | any letter _ ih => exact .any letter ih
  | literal hs ha _ ih => exact .literal hs ha ih

def Takes (p c : Char) : Prop := p = '?' ∨ p = c

theorem starwise_cons_iff (h : Takes p c) :
    Starwise (p :: pattern) (c :: value) ↔ Starwise pattern value := by
  constructor
  · intro hs
    generalize hw : c :: value = whole at hs
    cases hs with
    | star _ hr hs =>
      obtain rfl : '*' = c := h.resolve_left (by decide)
      obtain rfl := hr (by rw [← hw]; rfl)
      rwa [(cons.inj hw).2]
    | any _ hs | literal _ _ hs => rwa [(cons.inj hw).2]
  · intro hs
    by_cases ha : p = '?'
    · exact ha ▸ .any c hs
    · obtain rfl : p = c := h.resolve_left ha
      by_cases hp : p = '*'
      · subst hp
        exact .star ['*'] (fun _ => rfl) hs
      · exact .literal hp ha hs

theorem starwise_append_iff (h : List.Forall₂ Takes taken passed) :
    Starwise (taken ++ pattern) (passed ++ value) ↔ Starwise pattern value := by
  induction h with
  | nil => rfl
  | cons hd _ ih => rw [cons_append, cons_append, starwise_cons_iff hd, ih]

/-- A later try reaches the rest of the pattern no earlier: this is why an earlier star is never
needed again. -/
theorem exists_later (h : List.Forall₂ Takes taken passed) (hu : u <:+ passed ++ value)
    (hs : Starwise (taken ++ pattern) u) : ∃ u', u' <:+ value ∧ Starwise pattern u' := by
  induction h generalizing u with
  | nil => exact ⟨u, hu, hs⟩
  | @cons p c taken passed hd _ ih =>
    have ht : u.tail <:+ passed ++ value := by
      rcases suffix_cons_iff.mp hu with rfl | hsu
      · exact suffix_refl _
      · exact (tail_suffix u).trans hsu
    cases hs with
    | @star _ w run hr hs =>
      rcases suffix_cons_iff.mp hu with he | hsu
      · obtain rfl : '*' = c := hd.resolve_left (by decide)
        obtain rfl := hr (by rw [he]; rfl)
        exact ih ht hs
      · exact ih ((suffix_append run w).trans hsu) hs
    | any _ hs | literal _ _ hs => exact ih ht hs

theorem starwise_nil_iff : Starwise pattern [] ↔ pattern.all (· = '*') = true := by
  induction pattern with
  | nil => exact iff_of_true .nil rfl
  | cons p pattern ih =>
    rw [all_cons, Bool.and_eq_true, ← ih, decide_eq_true_eq]
    constructor
    · intro hs
      generalize hw : ([] : List Char) = whole at hs
      cases hs with
      | star _ _ hs =>
        obtain ⟨rfl, rfl⟩ := append_eq_nil_iff.mp hw.symm
        exact ⟨rfl, hs⟩
      | any | literal => cases hw
    · rintro ⟨rfl, hs⟩
      exact .star [] (by simp) hs

theorem starwise_star_iff (hc : c ≠ '*') :
    Starwise ('*' :: pattern) (c :: value) ↔ ∃ u, u <:+ c :: value ∧ Starwise pattern u := by
  constructor
  · intro hs
    generalize c :: value = whole at hs
    cases hs with
    | star _ _ hs => exact ⟨_, suffix_append .., hs⟩
    | literal hn => exact absurd rfl hn
  · rintro ⟨u, ⟨run, hr⟩, hs⟩
    rw [← hr]
    exact .star run (fun hh => absurd (by simpa [hr] using hh) hc) hs

theorem not_starwise (ht : ¬ (pattern.head? = some '?' ∨ pattern.head? = some c))
    (hp : pattern.head? ≠ some '*') : ¬ Starwise pattern (c :: value) := by
  intro hs
  generalize hw : c :: value = whole at hs
  cases hs with
  | nil => cases hw
  | star => exact hp rfl
  | any => exact ht (.inl rfl)
  | literal => exact ht (.inr (congrArg some (cons.inj hw).1.symm))

theorem exists_suffix_tail (h : ¬ Starwise pattern value) :
    (∃ u, u <:+ value.tail ∧ Starwise pattern u) ↔ ∃ u, u <:+ value ∧
      Starwise pattern u := by
  constructor
  · rintro ⟨u, hu, hs⟩
    exact ⟨u, hu.trans (tail_suffix _), hs⟩
  · rintro ⟨u, hu, hs⟩
    cases value with
    | nil => exact ⟨u, hu, hs⟩
    | cons d value =>
      rcases suffix_cons_iff.mp hu with rfl | hu
      · exact absurd hs h
      · exact ⟨u, hu, hs⟩

def Sought (pattern value : List Char) : Option (List Char × List Char) → Prop
  | none => Starwise pattern value
  | some (afterStar, retry) => ∃ u, u <:+ retry ∧ Starwise afterStar u

def Reached (pattern value : List Char) (star : Option (List Char × List Char)) : Prop :=
  ∀ s ∈ star, ∃ taken passed, List.Forall₂ Takes taken passed ∧
    s = (taken ++ pattern, passed ++ value)

theorem reached_self : Reached pattern value (some (pattern, value)) :=
  fun _ hs => ⟨[], [], .nil, (Option.some.inj hs).symm⟩

theorem globLoop_iff (star : Option (List Char × List Char)) (h : Reached pattern value star) :
    globLoop pattern value star = true ↔ Sought pattern value star := by
  fun_induction globLoop pattern value star with
  | case1 pattern star =>
    rw [← starwise_nil_iff]
    cases star with
    | none => rfl
    | some s =>
      obtain ⟨taken, passed, ht, rfl⟩ := h s rfl
      constructor
      · intro hs
        exact ⟨_, suffix_refl _, (starwise_append_iff ht).mpr hs⟩
      · rintro ⟨u, hu, hs⟩
        obtain ⟨u', hu', hs'⟩ := exists_later ht hu hs
        rwa [suffix_nil.mp hu'] at hs'
  | case2 pattern star letter rest ht ih =>
    obtain ⟨p, pattern, rfl⟩ : ∃ p q, pattern = p :: q := by
      cases pattern <;> simp at ht ⊢
    have htk : Takes p letter := by simpa [Takes] using ht
    rw [ih fun s hs => ?_]
    · cases star with
      | none => exact (starwise_cons_iff htk).symm
      | some s => rfl
    · obtain ⟨taken, passed, hf, rfl⟩ := h s hs
      exact ⟨taken ++ [p], passed ++ [letter], rel_append hf (.cons htk .nil), by simp⟩
  | case3 pattern star letter rest ht hst ih =>
    obtain ⟨pattern, rfl⟩ : ∃ q, pattern = '*' :: q := by
      cases pattern <;> simp_all
    have hl : letter ≠ '*' := fun he => ht (.inr (he ▸ rfl))
    rw [ih reached_self]
    cases star with
    | none => exact (starwise_star_iff hl).symm
    | some s =>
      obtain ⟨taken, passed, hf, rfl⟩ := h s rfl
      constructor
      · intro hs
        exact ⟨_, suffix_refl _, (starwise_append_iff hf).mpr ((starwise_star_iff hl).mpr hs)⟩
      · rintro ⟨u, hu, hs⟩
        obtain ⟨u', hu', hs'⟩ := exists_later hf hu hs
        cases hs' with
        | star _ _ hs' => exact ⟨_, (suffix_append ..).trans hu', hs'⟩
        | literal hn => exact absurd rfl hn
  | case4 pattern letter rest ht hst afterStar retry ih =>
    obtain ⟨taken, passed, hf, he⟩ := h _ rfl
    obtain ⟨rfl, rfl⟩ := Prod.mk.inj he
    rw [ih reached_self]
    exact exists_suffix_tail ((starwise_append_iff hf).not.mpr (not_starwise ht hst))
  | case5 pattern letter rest ht hst => exact iff_of_false nofun (not_starwise ht hst)

theorem globMatch_exact_iff (pattern value : List Char) :
    (globMatch pattern value = true ↔ Matches pattern value) ↔
      (Matches pattern value → Starwise pattern value) := by
  rw [globMatch, globLoop_iff none nofun]
  exact ⟨fun h => h.mpr, fun h => ⟨Starwise.matches, h⟩⟩

theorem globMatch_misses_star :
    ¬ (globMatch ['*'] ['*', 'a'] = true ↔ Matches ['*'] ['*', 'a']) := by
  intro h
  have hm : Matches ['*'] ['*', 'a'] := .star ['*', 'a'] trivial .nil
  simp [globMatch, globLoop, hm] at h

end FsimRuntime.Glob
