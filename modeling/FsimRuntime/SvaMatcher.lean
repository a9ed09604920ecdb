import FsimRuntime.SvaProperty

/-!
# The sequence matcher

`Matcher` of `sva_engine.cpp` for singly clocked plans: a program of
instructions run by a set of threads, each with the window of ticks in which
its next boolean is checked. Identifiers of joins and groups are unbounded
numbers here; the fields and the instruction for clock changes are left out.
-/

namespace FsimRuntime.Sva

inductive Op
  | check
  | delay
  | fork
  | jump
  | counterSet
  | counterBranch
  | counterIncrement
  | throughoutBegin
  | throughoutEnd
  | firstMatchBegin
  | firstMatchEnd
  | joinBegin
  | joinEnd
  | match
  deriving DecidableEq, Repr

abbrev Limit := Option ℤ

structure Instruction where
  op : Op
  a : ℕ := 0
  b : ℕ := 0
  c : ℕ := 0
  lo : ℤ := 0
  hi : Limit := some 0
  deriving DecidableEq, Repr

structure Sequence where
  code : List Instruction
  counters : ℕ
  deriving DecidableEq, Repr

structure Throughout where
  guard : ℕ
  /-- The first tick of the operand; none until its first check. -/
  start : Option ℤ
  deriving DecidableEq, Repr

structure JoinReference where
  join : ℕ
  side : Bool
  deriving DecidableEq, Repr

structure Thread where
  pc : ℕ
  dueLo : ℤ
  dueHi : Limit
  counters : List ℤ
  throughout : List Throughout
  groups : List ℕ
  joins : List JoinReference
  deriving DecidableEq, Repr

structure Join where
  intersect : Bool
  continuation : Thread
  leftEnds : List ℤ
  rightEnds : List ℤ
  deriving DecidableEq, Repr

structure Threads where
  threads : List Thread
  joins : List (ℕ × Join)
  nextJoin : ℕ
  nextGroup : ℕ
  deriving DecidableEq, Repr

structure Work extends Threads where
  queue : List Thread
  visited : List Thread
  matchedGroups : List ℕ
  matched : Bool
  deriving DecidableEq, Repr

def maximumThreads : ℕ := 65536

namespace Threads

def start (sequence : Sequence) (start : ℕ) : Threads where
  threads := [⟨0, start, some (start : ℤ), List.replicate sequence.counters 0, [], [], []⟩]
  joins := []
  nextJoin := 1
  nextGroup := 1

/-- `key()` tells threads apart, so `kept_` holds the keys of `threads`. None: the limit is passed
and an exception thrown. -/
def keep (thread : Thread) (work : Work) : Option Work :=
  if thread ∈ work.threads then some work
  else if maximumThreads ≤ work.threads.length then none
  else some { work with threads := work.threads ++ [thread] }

def settle (now : ℤ) (thread : Thread) (work : Work) : Option (Option Thread × Work) :=
  if thread.dueHi.any (· - 1 < now) then some (none, work)
  else if now < thread.dueLo - 1 then do
    let work ← keep thread work
    return (none, work)
  else do
    let work ← if thread.dueHi.all (now < · - 1) then keep { thread with dueLo := now + 2 } work
      else some work
    return (some { thread with dueLo := now + 1, dueHi := some (now + 1) }, work)

def beginThroughout (now : ℤ) (entry : Throughout) : Throughout :=
  { entry with start := some (entry.start.getD now) }

/-- The first branch of `check`, `counter_branch` and the operand ends return `none` for the thread
when it waits or dies. -/
def execute (now : ℤ) (sample : Sample) (step : Instruction) (thread : Thread) (work : Work) :
    Option (Option Thread × Work) :=
  let next := { thread with pc := thread.pc + 1 }
  match step.op with
  | .check =>
    if thread.dueHi.any (· < now) then some (none, work)
    else if now < thread.dueLo then do
      let work ← keep thread work
      return (none, work)
    else do
      let work ← if thread.dueHi.all (now < ·) then keep { thread with dueLo := now + 1 } work
        else some work
      if !sample step.a then return (none, work)
      if thread.throughout.any fun entry => entry.start.isNone && !sample entry.guard then
        return (none, work)
      return (some { next with
        throughout := thread.throughout.map (beginThroughout now)
        dueLo := now + 1
        dueHi := some (now + 1) }, work)
  | .delay =>
    some (some { next with
      dueLo := thread.dueLo + (step.lo - 1)
      dueHi := thread.dueHi.bind fun due => step.hi.map fun hi => due + hi - 1 }, work)
  | .fork => some (some next, { work with queue := work.queue ++ [{ thread with pc := step.a }] })
  | .jump => some (some { thread with pc := step.a }, work)
  | .counterSet => some (some { next with counters := thread.counters.set step.a 0 }, work)
  | .counterBranch =>
    -- A loop that returns with an unchanged state matched nothing new.
    if thread ∈ work.visited then some (none, work)
    else
      let work := { work with visited := thread :: work.visited }
      let count := thread.counters.getD step.a 0
      let leave : Bool := step.lo ≤ count
      let repeats : Bool := step.hi.all (count < ·)
      let away := { thread with pc := step.b }
      if leave && repeats then some (some next, { work with queue := work.queue ++ [away] })
      else if leave then some (some away, work)
      else if repeats then some (some next, work)
      else some (none, work)
  | .counterIncrement =>
    let count := thread.counters.getD step.a 0 + 1
    let count := if step.hi.isNone then min count (max step.lo 1) else count
    some (some { next with counters := thread.counters.set step.a count }, work)
  | .throughoutBegin =>
    some (some { next with throughout := thread.throughout ++ [⟨step.a, none⟩] }, work)
  | .throughoutEnd => do
    let (ended, work) ← settle now thread work
    return (ended.map fun thread =>
      { thread with pc := thread.pc + 1, throughout := thread.throughout.dropLast }, work)
  | .firstMatchBegin =>
    some (some { next with groups := thread.groups ++ [work.nextGroup] },
      { work with nextGroup := work.nextGroup + 1 })
  | .firstMatchEnd => do
    let (ended, work) ← settle now thread work
    match ended with
    | none => return (none, work)
    | some thread =>
      let groups := match thread.groups.getLast? with
        | some group => group :: work.matchedGroups
        | none => work.matchedGroups
      return (some { thread with pc := thread.pc + 1, groups := thread.groups.dropLast },
        { work with matchedGroups := groups })
  | .joinBegin =>
    let id := work.nextJoin
    let join : Join := ⟨step.a ≠ 0, { thread with pc := step.c }, [], []⟩
    let right := { thread with pc := step.b, joins := thread.joins ++ [⟨id, true⟩] }
    some (some { next with joins := thread.joins ++ [⟨id, false⟩] },
      { work with
        nextJoin := id + 1
        joins := work.joins ++ [(id, join)]
        queue := work.queue ++ [right] })
  | .joinEnd => do
    let (ended, work) ← settle now thread work
    match ended.bind fun thread => thread.joins.getLast? with
    | none => return (none, work)
    | some reference =>
      match work.joins.lookup reference.join with
      | none => return (none, work)
      | some join =>
        let join := if reference.side then
            { join with rightEnds := now :: join.rightEnds }
          else { join with leftEnds := now :: join.leftEnds }
        let other := if reference.side then join.leftEnds else join.rightEnds
        let paired := if join.intersect then decide (now ∈ other) else other.any (· ≤ now)
        let joins := work.joins.map fun item =>
          if item.1 = reference.join then (item.1, join) else item
        let continuation :=
          { join.continuation with dueLo := now + 1, dueHi := some (now + 1) }
        return (none,
          { work with
            joins := joins
            queue := if paired then work.queue ++ [continuation] else work.queue })
  | .match => do
    let (ended, work) ← settle now thread work
    return (none, { work with matched := work.matched || ended.isSome })

def loop (code : List Instruction) (now : ℤ) (sample : Sample) :
    ℕ → Option Thread → Work → Option Work
  | fuel, none, work =>
    match work.queue with
    | [] => some work
    | thread :: queue =>
      match fuel with
      | 0 => none
      | fuel + 1 => loop code now sample fuel (some thread) { work with queue := queue }
  | 0, some _, _ => none
  | fuel + 1, some thread, work =>
    match code[thread.pc]? with
    | none => loop code now sample fuel none work
    | some step => do
      let (thread, work) ← execute now sample step thread work
      loop code now sample fuel thread work

def productive (live : List JoinReference) (item : ℕ × Join) : Bool :=
  let left := decide (⟨item.1, false⟩ ∈ live)
  let right := decide (⟨item.1, true⟩ ∈ live)
  if item.2.intersect then left && right
  else (left || right) && (left || !item.2.leftEnds.isEmpty) &&
    (right || !item.2.rightEnds.isEmpty)

def markContinuations (joins : List (ℕ × Join)) (live : List JoinReference) :
    List JoinReference :=
  joins.foldl (fun live item =>
    if productive live item then live.union item.2.continuation.joins else live) live

/-- The marks only grow and the joins' continuations are finitely many, so as many passes as joins
reach the end of the loop. -/
def liveSides (threads : List Thread) (joins : List (ℕ × Join)) : List JoinReference :=
  (markContinuations joins)^[joins.length] (threads.flatMap (·.joins))

def collectJoins (state : Threads) : Threads :=
  if state.joins.isEmpty then state
  else
    let live := liveSides state.threads state.joins
    let joins := state.joins.filter (productive live)
    { state with
      joins := joins
      threads := state.threads.filter fun thread =>
        thread.joins.all fun reference => joins.any (·.1 = reference.join) }

def lives (now : ℤ) (sample : Sample) (thread : Thread) : Bool :=
  thread.throughout.all fun entry =>
    !entry.start.any (· ≤ now) || sample entry.guard

def step (state : Threads) (fuel : ℕ) (sequence : Sequence) (now : ℕ) (sample : Sample) :
    Option (Bool × Threads) := do
  let work : Work :=
    { state with
      threads := []
      queue := state.threads.filter (lives now sample)
      visited := []
      matchedGroups := []
      matched := false }
  let work ← loop sequence.code now sample fuel none work
  let threads := work.threads.filter fun thread =>
    !thread.groups.any fun group => group ∈ work.matchedGroups
  return (work.matched, collectJoins { work.toThreads with threads := threads })

variable {state : Threads}

theorem collectJoins_nil (h : state.threads = []) : (collectJoins state).threads = [] := by
  rw [collectJoins]
  split
  · exact h
  · simp [h]

theorem step_nil (f : ℕ) (sequence : Sequence) (now : ℕ) (s : Sample)
    (h : state.threads = []) : state.step f sequence now s =
      some (false, collectJoins { state with threads := [] }) := by
  have hl : ∀ work : Work, work.queue = [] →
      loop sequence.code now s f none work = some work := by
    intro work hq
    rw [loop, hq]
  rw [step, h, hl _ rfl]
  rfl

end Threads

/-- The matcher as the property instances use it. A throw ends the evaluation: the matcher neither
matches nor dies any more. -/
def matcher (fuel : ℕ) : Matcher Sequence (Option Threads) where
  start sequence now := some (.start sequence now)
  step sequence state now sample :=
    match state.bind fun threads => threads.step fuel sequence now sample with
    | some (matched, threads) => (matched, some threads)
    | none => (false, none)
  dead state := state.any (·.threads.isEmpty)
  step_dead := by
    rintro sequence (_ | state) now sample hdead
    · simp at hdead
    · have hstep := Threads.step_nil fuel sequence now sample
        (List.isEmpty_iff.mp (by simpa using hdead))
      simp [hstep, Threads.collectJoins_nil]

end FsimRuntime.Sva
