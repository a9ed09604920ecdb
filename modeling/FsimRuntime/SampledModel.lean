import FsimRuntime.RingHistory
import FsimRuntime.SimirValue

/-!
# Sampled values

The histories behind `$sampled`, `$past` and the value-change functions of
SystemVerilog processes: one for each signal, clock, edge and gate, filled when
the clock changes and when a read runs in a time step with an event of its
clock. A slot of such a history is its time. Processes of other languages have
histories of their own. Every signal is taken to be sampled; the source leaves
out those that no read names.
-/

namespace FsimRuntime.Sampled

open RingHistory Simir Function

inductive ReadKind
  | current | sampled | past | rose | fell | stable | changed
  | future | rising | falling | steady | changing
  deriving DecidableEq, Repr

inductive ClockEdge
  | any | positive | negative
  deriving DecidableEq, Repr

structure Read where
  signal : ℕ
  kind : ReadKind
  ticks : ℕ
  clock : Option ℕ
  clockEdge : ClockEdge
  gate : Option ℕ
  deriving DecidableEq, Repr

structure Key where
  signal : ℕ
  clock : Option ℕ
  edge : ClockEdge
  gate : Option ℕ
  deriving DecidableEq, Repr

def Read.key (read : Read) : Key := ⟨read.signal, read.clock, read.clockEdge, read.gate⟩

structure History where
  ring : RingBuffer Value
  lastSlot : Option ℕ

abbrev Histories : Type := Key → Option History

/-- The signals with their initial values, those that are events, and the reads in the operations of
the processes. -/
structure Design where
  signals : List Value
  isEvent : ℕ → Bool
  reads : List Read

def Design.default (design : Design) (signal : ℕ) : Value := design.signals.getD signal []

structure Stamp where
  time : ℕ
  delta : ℕ
  systemverilog : Bool

structure State where
  now : ℕ
  delta : ℕ
  value : ℕ → Value
  lastValue : ℕ → Value
  sampled : ℕ → Value
  events : ℕ → Option Stamp
  histories : Histories

def lsb (value : Value) : Logic4 := value.getD 0 .x

def ClockEdge.matches (edge : ClockEdge) (before after : Logic4) : Bool :=
  before ≠ after && match edge with
    | .any => true
    | .positive => before = .zero && after ≠ .zero || (before = .x || before = .z) && after = .one
    | .negative => before = .one && after ≠ .one || (before = .x || before = .z) && after = .zero

def maximumRetainedSamples : ℕ := 4097

def sampledHistoryCapacity (read : Read) : ℕ :=
  match read.kind with
  | .past =>
    if maximumRetainedSamples - 1 ≤ read.ticks then maximumRetainedSamples else read.ticks + 1
  | .rose | .fell | .stable | .changed => 2
  | _ => 1

def sampledHistoryKind : ReadKind → Bool
  | .sampled | .rose | .fell | .stable | .changed | .past => true
  | _ => false

def ensureCapacity (history : History) (capacity : ℕ) (initial : Value) : History :=
  if capacity ≤ history.ring.capacity then history
  else { history with ring := history.ring.grow capacity initial }

def historyValue (history : History) (index : ℕ) : Except String Value :=
  match history.ring.get index with
  | some value => .ok value
  | none => .error "sampled history index is out of range"

def append (history : History) (slot : ℕ) (value : Value) : Except String History :=
  let ring := history.ring
  if ring.capacity = 0 then .error "sampled history storage was not prepared before publication"
  else if (ring.values.getD (ring.place (if ring.count < ring.capacity then ring.count else 0))
      []).length ≠ value.length then
    .error "sampled history changed value shape after preallocation"
  else .ok ⟨ring.push value, some slot⟩

section Captures

variable (design : Design)

def Design.indexed : List Read :=
  design.reads.filter fun read =>
    sampledHistoryKind read.kind && read.signal < design.signals.length &&
    read.clock.any (· < design.signals.length) && read.gate.all (· < design.signals.length)

def Design.keysByClock (clock : ℕ) : List Key :=
  ((design.indexed.map Read.key).filter (·.clock = some clock)).dedup

def Design.histories (key : Key) : Option History :=
  let reads := design.indexed.filter (·.key = key)
  if reads.isEmpty then none
  else some
    ⟨⟨List.replicate ((reads.map sampledHistoryCapacity).foldr max 0)
      (design.default key.signal), 0, 0⟩, none⟩

def Design.start : State :=
  ⟨0, 0, design.default, design.default, design.default, fun _ => none, design.histories⟩

def gateOpen (sampled : ℕ → Value) (gate : Option ℕ) : Bool :=
  gate.all fun gate => lsb (sampled gate) = .one

/-- One round of the loop of `capture_sampled_history_clock`. -/
def captureKey (state : State) (clock : ℕ) (histories : Histories) (key : Key) :
    Except String Histories :=
  if !(key.edge = .any || key.edge.matches (lsb (state.lastValue clock)) (lsb (state.value clock)))
      || !gateOpen state.sampled key.gate then .ok histories
  else match histories key with
    | none => .error "map::at"
    | some history =>
      if history.lastSlot = some state.now then .ok histories
      else (append history state.now (state.sampled key.signal)).map fun history =>
        update histories key (some history)

def captureClock (state : State) (clock : ℕ) : Except String State :=
  if (state.lastValue clock).length = 0 ∨ (state.value clock).length = 0 ∨
    state.lastValue clock = state.value clock then
    .ok state
  else ((design.keysByClock clock).foldlM (captureKey state clock) state.histories).map
    fun histories =>
    { state with histories }

def recordEvent (state : State) (signal delta : ℕ) (systemverilog : Bool) : Except String State :=
  captureClock design
    { state with events := update state.events signal (some ⟨state.now, delta, systemverilog⟩) }
      signal

end Captures

def ofTest (test : Bool) : Value := [ofBool test]

def compare (kind : ReadKind) (current previous : Value) : Value :=
  ofTest (match kind with
    | .rose | .rising => lsb current = .one && lsb previous ≠ .one
    | .fell | .falling => lsb current = .zero && lsb previous ≠ .zero
    | .stable | .steady => current = previous
    | _ => current ≠ previous)

def samples (state : State) (read : Read) : Bool :=
  (match read.clock with
    | none => true
    | some clock => match state.events clock with
      | none => false
      | some stamp => stamp.time = state.now && (stamp.systemverilog || stamp.delta = state.delta)
        && (read.clockEdge = .any
          || read.clockEdge.matches (lsb (state.lastValue clock)) (lsb (state.value clock))))
    && gateOpen state.sampled read.gate

def valueOf (design : Design) (read : Read) (history : History) (hasSample : Bool) :
    Except String Value :=
  let back (count : ℕ) : Except String Value :=
    if history.ring.count < count then .ok (design.default read.signal)
    else historyValue history (history.ring.count - count)
  match read.kind with
  | .sampled => back 1
  | .past =>
    let prior := history.ring.count - hasSample.toNat
    if read.ticks ≤ prior then historyValue history (prior - read.ticks)
    else .ok (design.default read.signal)
  | kind => back 1 >>= fun current => (back 2).map fun previous => compare kind current previous

def readHistory (design : Design) (state : State) (read : Read) : Except String (Value × State) :=
  let history := ensureCapacity ((state.histories read.key).getD ⟨⟨[], 0, 0⟩, none⟩)
    (sampledHistoryCapacity read) (design.default read.signal)
  let sample := samples state read
  let same : Bool := history.lastSlot = some state.now
  (if sample && !same then append history state.now (state.sampled read.signal)
    else .ok history) >>= fun history =>
    (valueOf design read history (sample || same)).map fun value =>
      (value, { state with histories := update state.histories read.key (some history) })

def checkedRead (design : Design) (state : State) (read : Read) : Except String (Value × State) :=
  let missing (signal : ℕ) : Bool := design.signals.length ≤ signal
  if read.kind = .sampled ∧ read.clock = none then .ok (state.sampled read.signal, state)
  else if read.ticks = 0 then .error "sampled history depth is zero"
  else if read.clock.any missing then .error "sampled clock state is unavailable"
  else if read.clock.any fun clock => (state.value clock).length = 0 ||
    (state.lastValue clock).length = 0 then
    .error "sampled clock must have a nonzero width"
  else if read.gate.any missing then .error "sampled gating state is unavailable"
  else if read.gate.any fun gate => (state.sampled gate).length = 0 then
    .error "sampled gate must have a nonzero width"
  else readHistory design state read

def runSampledRead (design : Design) (state : State) (read : Read) :
    Except String (Value × State) :=
  if read.kind = .current then .error "current signal read reached the sampled-read service"
  else if design.signals.length ≤ read.signal then .error "sampled signal state is unavailable"
  else match read.kind with
    | .future => .ok (state.value read.signal, state)
    | .rising | .falling | .steady | .changing =>
      .ok (compare read.kind (state.value read.signal) (state.sampled read.signal), state)
    | _ => checkedRead design state read

/-- What happens to sampled values: a time step begins, a delta begins, a signal changes, an event
is triggered, a read runs. -/
inductive Action
  | slot (time : ℕ)
  | nextDelta
  | change (signal : ℕ) (value : Value) (systemverilog : Bool)
  | trigger (event : ℕ) (systemverilog : Bool)
  | read (read : Read)

def step (design : Design) (state : State) : Action → Except String State
  | .slot time => .ok { state with now := time, delta := 0, sampled := state.value }
  | .nextDelta => .ok { state with delta := state.delta + 1 }
  | .change signal value systemverilog =>
    if state.value signal = value then .ok state
    else recordEvent design
      { state with
        value := update state.value signal value
        lastValue := update state.lastValue signal (state.value signal) }
      signal (state.delta + if systemverilog then 0 else 1) systemverilog
  | .trigger event systemverilog => recordEvent design state event state.delta systemverilog
  | .read read => (runSampledRead design state read).map (·.2)

end FsimRuntime.Sampled
