import Mathlib

/-!
# Traces of deterministic machines

A machine takes steps with or without a visible event. A simulation that lets
the first machine stutter, as long as a rank decreases, and the second one add
silent steps makes their traces the same.
-/

namespace FsimRuntime.StutterTraces

variable {σ τ ε : Type}

def traceAfter (step : σ → Option (σ × Option ε)) : ℕ → σ → List ε
  | 0, _ => []
  | n + 1, s => match step s with
    | none => []
    | some (s', event) => event.toList ++ traceAfter step n s'

def IsTrace (step : σ → Option (σ × Option ε)) (start : σ) (trace : List ε) : Prop :=
  ∃ n, traceAfter step n start = trace

def Silent (step : σ → Option (σ × Option ε)) : ℕ → σ → σ → Prop
  | 0, s, t => s = t
  | n + 1, s, t => ∃ s', step s = some (s', none) ∧ Silent step n s' t

section Silent

variable {step : σ → Option (σ × Option ε)} {s s' t : σ} {k n : ℕ}

theorem traceAfter_some {e : Option ε} (h : step s = some (s', e)) :
    traceAfter step (n + 1) s = e.toList ++ traceAfter step n s' := by simp [traceAfter, h]

theorem traceAfter_none (h : step s = none) : traceAfter step n s = [] := by
  cases n with
  | zero => rfl
  | succ n => simp [traceAfter, h]

theorem traceAfter_silent (h : Silent step k s t) :
    traceAfter step (k + n) s = traceAfter step n t := by
  induction k generalizing s with
  | zero =>
    obtain rfl : s = t := h
    rw [Nat.zero_add]
  | succ k ih =>
    obtain ⟨s', hs, hr⟩ := h
    rw [Nat.succ_add, traceAfter_some hs, ih hr]
    rfl

theorem traceAfter_within_silent (h : Silent step k s t) (hn : n ≤ k) :
    traceAfter step n s = [] := by
  induction k generalizing s n with
  | zero =>
    obtain rfl : n = 0 := by omega
    rfl
  | succ k ih =>
    cases n with
    | zero => rfl
    | succ n =>
      obtain ⟨s', hs, hr⟩ := h
      rw [traceAfter_some hs, ih hr (by omega)]
      rfl

end Silent

/-- Every step of the first machine is a stuttering one with a smaller rank, or it is a step of the
second one followed by silent steps. -/
structure Simulation (stepA : σ → Option (σ × Option ε))
    (stepB : τ → Option (τ × Option ε)) (related : ℕ → σ → τ → Prop) : Prop where
  stuck : ∀ {r a b}, related r a b → stepA a = none → stepB b = none
  move : ∀ {r a b a' event}, related r a b → stepA a = some (a', event) →
    (event = none ∧ ∃ r' < r, related r' a' b) ∨
      ∃ b' k b'' r', stepB b = some (b', event) ∧ Silent stepB k b' b'' ∧ related r' a' b''

section Simulation

variable {stepA : σ → Option (σ × Option ε)} {stepB : τ → Option (τ × Option ε)}
  {related : ℕ → σ → τ → Prop}
  (h : Simulation stepA stepB related) {r : ℕ} {a : σ} {b : τ}
include h

theorem Simulation.forward (n : ℕ) (ha : related r a b) :
    ∃ m, traceAfter stepB m b = traceAfter stepA n a := by
  induction n generalizing r a b with
  | zero => exact ⟨0, rfl⟩
  | succ n ih =>
    cases hs : stepA a with
    | none => exact ⟨0, (traceAfter_none hs).symm⟩
    | some next =>
      obtain ⟨a', e⟩ := next
      rw [traceAfter_some hs]
      rcases h.move ha hs with ⟨rfl, r', _, hr⟩ | ⟨b', k, b'', r', hmo, hsi, hr⟩
      · exact ih hr
      · obtain ⟨m, hm⟩ := ih hr
        exact ⟨k + m + 1, by rw [traceAfter_some hmo, traceAfter_silent hsi, hm]⟩

theorem Simulation.backward (m : ℕ) : ∀ {r : ℕ} {a : σ} {b : τ}, related r a b →
    ∃ n, traceAfter stepA n a = traceAfter stepB m b := by
  induction m using Nat.strongRecOn with
  | ind m ihm =>
    intro r
    -- The first machine can stutter only as often as the rank allows.
    induction r using Nat.strongRecOn with
    | ind r ihr =>
      intro a b ha
      cases m with
      | zero => exact ⟨0, rfl⟩
      | succ m =>
        cases hs : stepA a with
        | none => exact ⟨0, (traceAfter_none (h.stuck ha hs)).symm⟩
        | some next =>
          obtain ⟨a', e⟩ := next
          rcases h.move ha hs with
            ⟨rfl, r', hr, hre⟩ | ⟨b', k, b'', r', hm, hsi, hre⟩
          · obtain ⟨n, hn⟩ := ihr r' hr hre
            exact ⟨n + 1, by rw [traceAfter_some hs, hn]; rfl⟩
          · rw [traceAfter_some hm]
            by_cases hk : m ≤ k
            · exact ⟨1, by rw [traceAfter_some hs, traceAfter_within_silent hsi hk]; rfl⟩
            · obtain ⟨rest, rfl⟩ : ∃ rest, m = k + rest := ⟨m - k, by omega⟩
              obtain ⟨n, hn⟩ := ihm rest (by omega) hre
              exact ⟨n + 1, by rw [traceAfter_some hs, traceAfter_silent hsi, hn]⟩

theorem Simulation.isTrace_iff (ha : related r a b) (trace : List ε) :
    IsTrace stepA a trace ↔ IsTrace stepB b trace := by
  constructor
  · rintro ⟨n, rfl⟩
    exact h.forward n ha
  · rintro ⟨m, rfl⟩
    exact h.backward m ha

end Simulation

end FsimRuntime.StutterTraces
