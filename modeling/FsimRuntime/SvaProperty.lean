import Mathlib

/-!
# Property instances of the assertion engine

`Instance::step` of `sva_engine.cpp`: one attempt of a compiled property,
stepped once a tick. A property is the tree its plan's `children` spell out;
the sequences are run by a `Matcher`, of which only match ticks and `dead()`
are used here. `finish`, which settles an attempt at the end of simulation,
and `step_every_match` of `cover sequence` are not modelled.
-/

namespace FsimRuntime.Sva

abbrev Sample := ℕ → Bool

/-- The class `Matcher`: `step` tells whether the sequence matched at the tick. -/
structure Matcher (Program State : Type) where
  start : Program → ℕ → State
  step : Program → State → ℕ → Sample → Bool × State
  dead : State → Bool
  step_dead : ∀ program state now sample, dead state = true →
    (step program state now sample).1 = false ∧ dead (step program state now sample).2 = true

inductive Connective
  | conjunction
  | disjunction
  | implies
  | equivalence
  deriving DecidableEq, Repr

/-- `PropertyKind` with its operands. The pairs `implication`/`followed_by`, `always`/`eventually`
and `accept`/`reject`, which share their code, are told apart by the verdict (`true` for holds) with
which one operand, or the abort, settles them. `strong` is kept where the meaning on an infinite
trace depends on it. -/
inductive Property (Program : Type)
  | sequence (strong : Bool) (program : Program)
  | negation (operand : Property Program)
  | connective (kind : Connective) (left right : Property Program)
  | consequents (early overlapped : Bool) (antecedent : Program) (consequent : Property Program)
  | conditional (guard : ℕ) (first second : Property Program)
  | conditionalAlone (guard : ℕ) (first : Property Program)
  | nexttime (lo : ℕ) (operand : Property Program)
  | window (early : Bool) (lo : ℕ) (hi : Option ℕ) (operand : Property Program)
  | until (strong : Bool) (left right : Property Program)
  | abort (early : Bool) (guard : ℕ) (operand : Property Program)
  | vacuous

namespace Property

variable {Program : Type}

def implication : Bool → Program → Property Program → Property Program := consequents false

def followedBy : Bool → Program → Property Program → Property Program := consequents true

def always : ℕ → Option ℕ → Property Program → Property Program := window false

def eventually : ℕ → Option ℕ → Property Program → Property Program := window true

def accept : ℕ → Property Program → Property Program := abort true

def reject : ℕ → Property Program → Property Program := abort false

end Property

inductive Verdict
  | pending
  | holds
  | fails
  deriving DecidableEq, Repr

def Verdict.of (holds : Bool) : Verdict := if holds then .holds else .fails

structure Instance (State : Type) where
  start : ℕ
  verdict : Verdict
  vacuous : Bool
  matcher : Option State
  antecedentDone : Bool
  satisfied : Bool
  consequents : ℕ
  chosen : Option Bool
  untilStopped : Bool
  /-- `operands_` at index 0. -/
  left : Option (Instance State)
  /-- `operands_` at index 1. -/
  right : Option (Instance State)
  started : List (Instance State)
  entries : List (Instance State × Instance State)

namespace Instance

variable {State : Type}

def fresh (start : ℕ) : Instance State :=
  ⟨start, .pending, false, none, false, false, 0, none, false, none, none, [], []⟩

def decided (i : Instance State) : Bool := i.verdict ≠ .pending

def holds (i : Instance State) : Bool := i.verdict = .holds

def fails (i : Instance State) : Bool := i.verdict = .fails

def resolve (i : Instance State) (holds vacuous : Bool) : Instance State :=
  { i with
    verdict := .of holds
    vacuous := holds && vacuous
    matcher := none
    left := none
    right := none
    started := []
    entries := [] }

def follow (i operand : Instance State) : Instance State :=
  if operand.decided then i.resolve operand.holds operand.vacuous else i

def combine (kind : Connective) (i left right : Instance State) : Instance State :=
  match kind with
  | .conjunction =>
    if left.fails || right.fails then i.resolve false false
    else if left.decided && right.decided then i.resolve true (left.vacuous && right.vacuous)
    else i
  | .disjunction =>
    if left.holds || right.holds then
      i.resolve true (!(left.holds && !left.vacuous) && !(right.holds && !right.vacuous))
    else if left.decided && right.decided then i.resolve false false
    else i
  | .implies =>
    if left.fails then i.resolve true true
    else if right.holds then i.resolve true right.vacuous
    else if left.decided && right.decided then i.resolve false false
    else i
  | .equivalence =>
    if left.decided && right.decided then i.resolve (left.holds = right.holds) false else i

/-- How the loop over `started_` ends: an operand with the early verdict resolves the instance. -/
inductive Scan (State : Type)
  | resolved (vacuous : Bool)
  | through (started : List (Instance State)) (nonvacuous : Bool)

def scan (early : Bool) (stepOperand : Instance State → Instance State) :
    List (Instance State) → Scan State
  | [] => .through [] false
  | operand :: started =>
    let operand := stepOperand operand
    if operand.verdict = .of early then .resolved operand.vacuous
    else match scan early stepOperand started with
      | .resolved vacuous => .resolved vacuous
      | .through started nonvacuous =>
        .through (operand :: started) (operand.decided && !operand.vacuous || nonvacuous)

def stepAntecedent {Program : Type} (M : Matcher Program State) (overlapped : Bool)
    (antecedent : Program) (now : ℕ) (sample : Sample) (i : Instance State) : Instance State :=
  if i.antecedentDone then i
  else
    let (matched, state) :=
      M.step antecedent (i.matcher.getD (M.start antecedent i.start)) now sample
    let i := if matched then
        { i with
          started := i.started ++ [fresh (if overlapped then now else now + 1)]
          consequents := i.consequents + 1 }
      else i
    if M.dead state then { i with matcher := none, antecedentDone := true }
    else { i with matcher := some state }

def stepConsequents {Program : Type} (M : Matcher Program State) (early overlapped : Bool)
    (antecedent : Program) (stepConsequent : Instance State → Instance State) (now : ℕ)
    (sample : Sample) (i : Instance State) : Instance State :=
  let i := stepAntecedent M overlapped antecedent now sample i
  match scan early stepConsequent i.started with
  | .resolved vacuous => i.resolve early vacuous
  | .through started nonvacuous =>
    let i := { i with
      satisfied := i.satisfied || nonvacuous
      started := started.filter fun consequent => !consequent.decided }
    if i.antecedentDone && i.started.isEmpty then
      i.resolve (!early) (i.consequents = 0 || !i.satisfied)
    else i

def stepWindow (early : Bool) (lo : ℕ) (hi : Option ℕ)
    (stepOperand : Instance State → Instance State) (now : ℕ) (i : Instance State) :
    Instance State :=
  let i := if i.start + lo ≤ now ∧ ∀ h ∈ hi, now ≤ i.start + h then
      { i with started := i.started ++ [fresh now] }
    else i
  match scan early stepOperand i.started with
  | .resolved vacuous => i.resolve early vacuous
  | .through started _ =>
    let i := { i with started := started.filter fun operand => !operand.decided }
    if hi.any (fun h => i.start + h ≤ now) && i.started.isEmpty then i.resolve (!early) false
    else i

inductive UntilScan
  | resolved (holds : Bool)
  | waiting
  | through
  deriving DecidableEq, Repr

def scanUntil : (earlier rightPending stopped : Bool) →
    List (Instance State × Instance State) → Bool × UntilScan
  | _, _, stopped, [] => (stopped, .through)
  | earlier, rightPending, stopped, (left, right) :: entries =>
    if right.holds && earlier then (true, .resolved true)
    else
      let rightPending := rightPending || !right.decided
      if left.fails then (true, if rightPending then .waiting else .resolved false)
      else scanUntil (earlier && left.decided) rightPending (stopped || right.holds) entries

def stepUntil (stepLeft stepRight : Instance State → Instance State) (now : ℕ)
    (i : Instance State) : Instance State :=
  let entries := if i.untilStopped then i.entries else i.entries ++ [(fresh now, fresh now)]
  let entries := entries.map fun entry => (stepLeft entry.1, stepRight entry.2)
  let (stopped, result) := scanUntil true false i.untilStopped entries
  let i := { i with untilStopped := stopped, entries := entries }
  match result with
  | .resolved holds => i.resolve holds false
  | .waiting => i
  | .through =>
    { i with entries := entries.dropWhile fun entry => entry.1.holds && entry.2.fails }

def unlessIdle (now : ℕ) (body : Instance State → Instance State) (i : Instance State) :
    Instance State :=
  if i.decided || now < i.start then i else body i

end Instance

section Step

open Instance

variable {Program State : Type} (M : Matcher Program State)

def step (now : ℕ) (sample : Sample) : Property Program → Instance State → Instance State
  | .sequence _ program => unlessIdle now fun i =>
    let (matched, state) := M.step program (i.matcher.getD (M.start program i.start)) now sample
    if matched then i.resolve true false
    else if M.dead state then i.resolve false false
    else { i with matcher := some state }
  | .negation operand => unlessIdle now fun i =>
    let left := step now sample operand (i.left.getD (fresh i.start))
    if left.decided then i.resolve (!left.holds) left.vacuous else { i with left := some left }
  | .connective kind l r => unlessIdle now fun i =>
    let left := step now sample l (i.left.getD (fresh i.start))
    let right := step now sample r (i.right.getD (fresh i.start))
    combine kind { i with left := some left, right := some right } left right
  | .consequents early overlapped antecedent consequent => unlessIdle now
      (stepConsequents M early overlapped antecedent (step now sample consequent) now sample)
  | .conditional guard first second => unlessIdle now fun i =>
    -- The branch is chosen at the first step.
    let chosen := i.chosen.getD (sample guard)
    let i := { i with chosen := some chosen }
    if chosen then
      let left := step now sample first (i.left.getD (fresh i.start))
      follow { i with left := some left } left
    else
      let right := step now sample second (i.right.getD (fresh i.start))
      follow { i with right := some right } right
  | .conditionalAlone guard first => unlessIdle now fun i =>
    let chosen := i.chosen.getD (sample guard)
    if chosen then
      let left := step now sample first (i.left.getD (fresh i.start))
      follow { i with chosen := some true, left := some left } left
    else i.resolve true true
  | .nexttime lo operand => unlessIdle now fun i =>
    let left := step now sample operand (i.left.getD (fresh (i.start + lo)))
    follow { i with left := some left } left
  | .window early lo hi operand => unlessIdle now
      (stepWindow early lo hi (step now sample operand) now)
  | .until _ l r => unlessIdle now (stepUntil (step now sample l) (step now sample r) now)
  | .abort early guard operand => unlessIdle now fun i =>
    if sample guard then i.resolve early early
    else
      let left := step now sample operand (i.left.getD (fresh i.start))
      follow { i with left := some left } left
  | .vacuous => unlessIdle now fun i => i.resolve true true

def run (p : Property Program) (w : ℕ → Sample) (s : ℕ) : ℕ → Instance State
  | 0 => fresh s
  | n + 1 => step M n (w n) p (run p w s n)

end Step

end FsimRuntime.Sva
