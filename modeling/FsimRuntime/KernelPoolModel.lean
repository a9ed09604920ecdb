import Mathlib

/-!
# The kernel's worker pool

`KernelPool::run`, `run_lanes`, `take` and `work`
(`simir_static_kernel_parallel.cpp`) under sequential consistency. One step of
a thread is one atomic operation with the local computation up to the next
one. Lane 0 is the calling thread. The three fields of `state_` are kept apart:
counts are below `2 ^ 24` and the kernel makes at most 256 lanes, so no field
runs into the next. `stop_` is set by the destructor only, after every call.
-/

namespace FsimRuntime.KernelPool
open Function

inductive Call
  | run (count : ℕ)
  | runLanes
  deriving DecidableEq, Repr

structure Word where
  epoch : ℕ
  count : ℕ
  item : ℕ
  deriving DecidableEq, Repr

structure Invocation where
  body : Option ℕ
  lane : ℕ
  item : ℕ
  deriving DecidableEq, Repr

structure Shared where
  word : Word
  completed : ℕ
  done : ℕ → Option ℕ
  chunk : ℕ
  pinned : Bool
  body : Option ℕ
  started : List Invocation
  finished : List Invocation

inductive TakePc
  | checkPinned (word : Word)
  | checkState (epoch : ℕ)
  | loadPinned (epoch : ℕ)
  | startPinned (epoch : ℕ) (body : Option ℕ)
  | runPinned (epoch : ℕ) (body : Option ℕ)
  | storeDone (epoch : ℕ)
  | claim (epoch : ℕ) (word : Word)
  | exchange (epoch : ℕ) (word : Word) (last : ℕ)
  | loadBody (epoch item last : ℕ)
  | runItems (epoch : ℕ) (body : Option ℕ) (item next last : ℕ)
  | inItem (epoch : ℕ) (body : Option ℕ) (item next last : ℕ)
  | reload (epoch : ℕ)
  deriving DecidableEq, Repr

inductive LeaderPc
  | between
  | storeBody
  | storeChunk
  | storeCompleted
  | loadState
  | storeState (epoch : ℕ)
  | taking
  | waitCompleted
  | scan (first lane : ℕ) (done : Bool)
  | advance (first : ℕ)
  deriving DecidableEq, Repr

/-- `index` calls have returned. `seen` is the batch number a worker saw last,
and for lane 0 the batch number of the current call. -/
structure State where
  shared : Shared
  leader : LeaderPc
  index : ℕ
  take : ℕ → Option TakePc
  seen : ℕ → ℕ

def State.start : State where
  shared := ⟨⟨0, 0, 0⟩, 0, fun _ => none, 1, false, none, [], []⟩
  leader := .between
  index := 0
  take := fun _ => none
  seen := fun _ => 0

def epochLimit : ℕ := 2 ^ 16

/-- One operation of `take`. `none` is the return, and `spurious` makes the
weak compare-and-exchange fail. -/
def takeStep (lane : ℕ) (spurious : Bool) (m : Shared) : TakePc → Shared × Option TakePc
  | .checkPinned word =>
    (m, some (if m.pinned then .checkState word.epoch else .claim word.epoch word))
  | .checkState epoch => (m, if m.word.epoch = epoch then some (.loadPinned epoch) else none)
  | .loadPinned epoch => (m, some (.startPinned epoch m.body))
  | .startPinned epoch body =>
    ({ m with started := m.started ++ [⟨body, lane, lane⟩] }, some (.runPinned epoch body))
  | .runPinned epoch body =>
    ({ m with finished := m.finished ++ [⟨body, lane, lane⟩] }, some (.storeDone epoch))
  | .storeDone epoch => ({ m with done := update m.done lane (some epoch) }, none)
  | .claim epoch word =>
    if word.epoch ≠ epoch ∨ word.count ≤ word.item then (m, none)
    else (m, some (.exchange epoch word (min word.count (word.item + m.chunk))))
  | .exchange epoch word last =>
    if m.word = word ∧ spurious = false then
      ({ m with word := { word with item := last } }, some (.loadBody epoch word.item last))
    else (m, some (.claim epoch m.word))
  | .loadBody epoch item last => (m, some (.runItems epoch m.body item item last))
  | .runItems epoch body item next last =>
    if next < last then
      ({ m with started := m.started ++ [⟨body, lane, next⟩] },
        some (.inItem epoch body item next last))
    else ({ m with completed := m.completed + (last - item) }, some (.reload epoch))
  | .inItem epoch body item next last =>
    ({ m with finished := m.finished ++ [⟨body, lane, next⟩] },
      some (.runItems epoch body item (next + 1) last))
  | .reload epoch => (m, some (.claim epoch m.word))

def stepTake (lane : ℕ) (spurious : Bool) (t : TakePc) (s : State) : State :=
  { s with
    shared := (takeStep lane spurious s.shared t).1
    take := update s.take lane (takeStep lane spurious s.shared t).2 }

def State.callReturn (s : State) : State :=
  { s with leader := .between, index := s.index + 1 }

def doneAt (s : State) (lane : ℕ) : Bool := s.shared.done lane = some (s.seen 0)

def leaderStep (lanes : ℕ) (calls : List Call) (spurious : Bool) (s : State) : State :=
  match calls[s.index]? with
  | none => s
  | some call =>
    match s.leader with
    | .between =>
      { s with
        shared := { s.shared with pinned := decide (call = .runLanes) }
        leader := .storeBody }
    | .storeBody =>
      { s with
        shared := { s.shared with body := some s.index }
        leader := if call = .runLanes then .storeCompleted else .storeChunk }
    | .storeChunk =>
      match call with
      | .run count =>
        { s with
          shared := { s.shared with chunk := max 1 (count / (lanes * 4)) }
          leader := .storeCompleted }
      | .runLanes => s
    | .storeCompleted =>
      { s with shared := { s.shared with completed := 0 }, leader := .loadState }
    | .loadState =>
      { s with leader := .storeState ((s.shared.word.epoch + 1) % epochLimit) }
    | .storeState epoch =>
      let count := match call with
        | .run count => count
        | .runLanes => lanes
      { s with
        shared := { s.shared with word := ⟨epoch, count, 0⟩ }
        leader := .taking
        take := update s.take 0 (some (.checkPinned ⟨epoch, count, 0⟩))
        seen := update s.seen 0 epoch }
    | .taking =>
      match s.take 0, call with
      | some t, _ => stepTake 0 spurious t s
      | none, .run _ => { s with leader := .waitCompleted }
      | none, .runLanes =>
        if 1 < lanes then { s with leader := .scan 1 1 true } else s.callReturn
    | .waitCompleted =>
      match call with
      | .run count => if s.shared.completed = count then s.callReturn else s
      | .runLanes => s
    | .scan first lane done =>
      if lane < lanes then { s with leader := .scan first (lane + 1) (doneAt s lane && done) }
      else if done then s.callReturn
      else { s with leader := .advance first }
    | .advance first =>
      if first < lanes then
        if doneAt s first then { s with leader := .advance (first + 1) }
        else { s with leader := .scan first first true }
      else s.callReturn

def workerStep (lane : ℕ) (spurious : Bool) (s : State) : State :=
  match s.take lane with
  | some t => stepTake lane spurious t s
  | none =>
    if s.shared.word.epoch = s.seen lane then s
    else { s with
      take := update s.take lane (some (.checkPinned s.shared.word))
      seen := update s.seen lane s.shared.word.epoch }

structure Choice where
  lane : ℕ
  spurious : Bool
  deriving DecidableEq, Repr

def step (lanes : ℕ) (calls : List Call) (s : State) (choice : Choice) : State :=
  if choice.lane = 0 then leaderStep lanes calls choice.spurious s
  else if choice.lane < lanes then workerStep choice.lane choice.spurious s
  else s

def run (lanes : ℕ) (calls : List Call) (s : State) (choices : List Choice) : State :=
  choices.foldl (step lanes calls) s

end FsimRuntime.KernelPool
