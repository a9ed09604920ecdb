import Mathlib

/-!
# Runs that emit events

Finite runs of a machine whose steps can fail and emit events. A run is known
by the events it emitted, in order, and by the state it reached.
-/

namespace FsimRuntime.EventRuns
open List

variable {σ ι ε : Type}

inductive Run (enabled : σ → ι → Prop) (step : σ → ι → Except String (σ × List ε))
    (start : σ) : List ε → σ → Prop
  | nil : Run enabled step start [] start
  | snoc {history : List ε} {s s' : σ} {events : List ε} (call : ι) :
      Run enabled step start history s → enabled s call → step s call = .ok (s', events) →
      Run enabled step start (history ++ events) s'

variable {e : σ → ι → Prop} {step : σ → ι → Except String (σ × List ε)} {start : σ}

variable {history : List ε} {holds : List ε → ε → Prop}

theorem Run.keeps (holds : List ε → σ → Prop) (hs : holds [] start)
    (hst : ∀ {history s call s' events}, holds history s → e s call →
      step s call = .ok (s', events) → holds (history ++ events) s') {s : σ}
        (run : Run e step start history s) : holds history s := by
  induction run with
  | nil => exact hs
  | snoc _ _ he hc ih => exact hst ih he hc

/-- Every event of a history, with the events before it, meets a condition. -/
def AtEvery (holds : List ε → ε → Prop) (history : List ε) : Prop :=
  ∀ before event after, history = before ++ event :: after → holds before event

theorem AtEvery.nil : AtEvery holds [] := by
  intro b event after hs
  simp at hs

theorem AtEvery.concat {event : ε} (h : AtEvery holds history) (he : holds history event) :
    AtEvery holds (history ++ [event]) := by
  intro b o after hs
  rcases eq_nil_or_concat after with rfl | ⟨after, l, rfl⟩
  · obtain ⟨rfl, hl⟩ := append_inj' hs rfl
    obtain rfl : event = o := by simpa using hl
    exact he
  · rw [concat_eq_append, ← cons_append, ← append_assoc] at hs
    exact h b o after (append_inj' hs rfl).1

theorem AtEvery.append {events : List ε} (h : AtEvery holds history)
    (he : ∀ b, ∀ event ∈ events, holds b event) : AtEvery holds (history ++ events) := by
  induction events using reverseRecOn with
  | nil => simpa using h
  | append_singleton events event ih =>
    rw [← append_assoc]
    exact (ih fun b o ho => he b o (by simp [ho])).concat (he _ event (by simp))

end FsimRuntime.EventRuns
