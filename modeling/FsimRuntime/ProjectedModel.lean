import FsimRuntime.Waveform

/-!
# Projected assignments of the interpreter

`Interpreter::Impl::schedule_projected_scalar_waveform` and
`schedule_projected_waveform` (`simir_scheduling.cpp`), together with what
they reach in the scheduler: cancelable update-phase tasks of order `process`,
the pending updates they stage, and the update commit, which the interpreter
queues behind every other task of the phase (`schedule_update_commit`).
A packed value is the list of its bits as `get_logic9` reads them. The native
Logic9 staging and the ordinary staging feed one ordered queue of updates, so
both are `stageUpdateSlice` here.
-/

namespace FsimRuntime.Projected
open Waveform (DelayMode)

inductive Logic9
  | u | x | zero | one | z | w | l | h | dontCare
  deriving DecidableEq, Repr, Inhabited

abbrev Packed := List Logic9

def Packed.getLogic9 (value : Packed) (bit : ℕ) : Logic9 := value.getD bit .x

inductive Error
  | invalidArgument (what : String)
  | overflowError (what : String)
  | logicError (what : String)
  deriving DecidableEq, Repr

def maxTick : ℕ := 2 ^ 64 - 1
def maxUint32 : ℕ := 2 ^ 32 - 1

@[ext]
structure DriverKey where
  process : ℕ
  signal : ℕ
  offset : ℕ
  deriving DecidableEq, Repr

/-- A default handle is `none`. The handle of a cancelable task is its
insertion sequence. -/
structure ProjectedTransaction where
  id : ℕ
  time : ℕ
  value : Logic9
  handle : Option ℕ
  deriving DecidableEq, Repr, Inhabited

inductive Callback
  | scalar (key : DriverKey) (id : ℕ)
  | group (process signal first width : ℕ) (ids : List ℕ) (value : Packed)
  deriving DecidableEq, Repr

structure ScheduledTask where
  sequence : ℕ
  time : ℕ
  order : ℕ
  callback : Callback
  deriving DecidableEq, Repr

structure PendingUpdate where
  process : ℕ
  signal : ℕ
  offset : ℕ
  value : Packed
  deriving DecidableEq, Repr

def PendingUpdate.bit (update : PendingUpdate) (key : DriverKey) : Option Logic9 :=
  if update.process = key.process ∧ update.signal = key.signal ∧
    update.offset ≤ key.offset then
    update.value[key.offset - update.offset]?
  else none

/-- A scalar element of a signal as one driver sees it: a single bit, or all
bits of a multi-bit VHDL scalar. -/
structure Element where
  process : ℕ
  signal : ℕ
  first : ℕ
  width : ℕ
  deriving DecidableEq, Repr

def Element.key (d : Element) (bit : ℕ) : DriverKey := ⟨d.process, d.signal, d.first + bit⟩

/-- Signal widths, and the widths of the signals whose bits form one VHDL
scalar (`vhdl_scalar_widths`). -/
structure Design where
  width : ℕ → ℕ
  vhdlScalarWidths : ℕ → Option ℕ

structure State where
  now : ℕ
  drivers : DriverKey → List ProjectedTransaction
  nextId : ℕ
  nextSequence : ℕ
  scheduled : List ScheduledTask
  pending : List PendingUpdate
  driving : DriverKey → Logic9
  /-- Per element, the time and driving value of every commit that wrote it. -/
  matured : Element → List (Waveform.Transaction Packed)

def State.start (driving : DriverKey → Logic9) : State :=
  ⟨0, fun _ => [], 1, 0, [], [], driving, fun _ => []⟩

def cancel (handle : Option ℕ) (tasks : List ScheduledTask) : List ScheduledTask :=
  match handle with
  | none => tasks
  | some sequence => tasks.filter fun task => task.sequence ≠ sequence

def cancelAll (handles : List (Option ℕ)) (tasks : List ScheduledTask) : List ScheduledTask :=
  handles.foldl (fun tasks handle => cancel handle tasks) tasks

def stageUpdateSlice (process signal : ℕ) (value : Packed) (offset : ℕ) (s : State) : State :=
  { s with pending := s.pending ++ [⟨process, signal, offset, value⟩] }

-- `std::lower_bound` by time, and the count of the alignment scan.
def lowerBound (transactions : List ProjectedTransaction) (time : ℕ) : ℕ :=
  (transactions.takeWhile fun t => t.time < time).length

def markOld (threshold oldCount : ℕ) (transactions : List ProjectedTransaction) : List Bool :=
  (transactions.take oldCount).map (fun t => decide (t.time < threshold)) ++
    (transactions.drop oldCount).map fun _ => true

/-- The pass from the last transaction to the first that marks a transaction
before a marked one of the same value, shared by the scalar marks and the
marks of whole VHDL scalars. -/
def markBackward (equalsNext : ℕ → Bool) : ℕ → List Bool → List Bool
  | 0, marked => marked
  | index + 1, marked =>
    markBackward equalsNext index
      (if !marked.getD index false && marked.getD (index + 1) false && equalsNext index
        then marked.set index true else marked)

def valueEqualsNext (transactions : List ProjectedTransaction) (index : ℕ) : Bool :=
  (transactions.getD index default).value = (transactions.getD (index + 1) default).value

def eraseUnmarked (marked : List Bool) : ℕ → List ProjectedTransaction × List (Option ℕ) →
    List ProjectedTransaction × List (Option ℕ)
  | 0, state => state
  | index + 1, (transactions, handles) =>
    eraseUnmarked marked index
      (if marked.getD index true then (transactions, handles)
        else (transactions.eraseIdx index, handles ++ [(transactions.getD index default).handle]))

def editTransactions (mode : DelayMode) (rejection firstTime : ℕ)
    (retainedOld : Option (List Bool)) (transactions new : List ProjectedTransaction) :
    List ProjectedTransaction × List (Option ℕ) :=
  let oldCount := lowerBound transactions firstTime
  let old := transactions.take oldCount
  let deleted := (transactions.drop oldCount).map (·.handle)
  let all := old ++ new
  if mode = .inertial ∧ oldCount ≠ 0 then
    let byTime := markBackward (valueEqualsNext all) (all.length - 1)
      (markOld (firstTime - rejection) oldCount all)
    let marked := match retainedOld with
      | some retained => if retained.length = oldCount then retained ++ new.map fun _ => true
          else byTime
      | none => byTime
    let result := eraseUnmarked marked oldCount (all, [])
    (result.1, deleted ++ result.2)
  else (all, deleted)

def checkDelays (now : ℕ) : Option ℕ → List ℕ → Except Error Unit
  | _, [] => .ok ()
  | previous, delay :: rest =>
    if previous.any fun p => delay ≤ p then
      .error (.invalidArgument "projected-waveform delays must be strictly ascending")
    else if delay > maxTick - now then
      .error (.overflowError "simulation time overflow while scheduling projected waveform")
    else checkDelays now (some delay) rest

def newTransactions (now nextId : ℕ) : List (Logic9 × ℕ) → List ProjectedTransaction
  | [] => []
  | (value, delay) :: rest =>
    ⟨nextId, now + delay, value, none⟩ :: newTransactions now (nextId + 1) rest

def armTransactions (key : DriverKey) : List ProjectedTransaction →
    List ProjectedTransaction × List ScheduledTask × ℕ →
    Except Error (List ProjectedTransaction × List ScheduledTask × ℕ)
  | [], state => .ok state
  | new :: rest, (transactions, scheduled, sequence) =>
    if transactions.any fun t => t.id = new.id then
      armTransactions key rest
        (transactions.map fun t => if t.id = new.id then { t with handle := some sequence } else t,
          scheduled ++ [⟨sequence, new.time, key.process, .scalar key new.id⟩], sequence + 1)
    else .error (.logicError "new projected transaction was not retained")

def scheduleProjectedScalarWaveform (key : DriverKey) (elements : List (Logic9 × ℕ))
    (rejection : ℕ) (mode : DelayMode) (retainedOld : Option (List Bool)) (s : State) :
    Except Error State :=
  match elements with
  | [] => .error (.invalidArgument "a projected waveform must contain at least one element")
  | (_, firstDelay) :: _ =>
    if mode = .inertial ∧ rejection > firstDelay then
      .error (.invalidArgument "projected-waveform rejection limit exceeds its first delay")
    else do
      checkDelays s.now none (elements.map (·.2))
      let new := newTransactions s.now s.nextId elements
      let edited := editTransactions mode rejection (s.now + firstDelay) retainedOld
        (s.drivers key) new
      let armed ← armTransactions key new
        (edited.1, cancelAll edited.2 s.scheduled, s.nextSequence)
      .ok { s with
        drivers := Function.update s.drivers key armed.1
        nextId := s.nextId + elements.length
        scheduled := armed.2.1
        nextSequence := armed.2.2 }

structure ProjectedWaveformValue where
  value : Packed
  delay : ℕ
  deriving DecidableEq, Repr

structure Call where
  process : ℕ
  signal : ℕ
  elements : List ProjectedWaveformValue
  offset : Option ℕ
  rejection : ℕ
  mode : DelayMode
  deriving Repr

def Call.first (c : Call) : ℕ := c.offset.getD 0

def Call.width (c : Call) : ℕ := (c.elements.head?.map (·.value.length)).getD 0

def Call.key (c : Call) (bit : ℕ) : DriverKey := ⟨c.process, c.signal, c.first + bit⟩

def Call.firstDelay (c : Call) : ℕ := (c.elements.head?.map (·.delay)).getD 0

def Call.value (c : Call) : Packed := (c.elements.head?.map (·.value)).getD []

variable (s : State)

def targetHasPendingTransaction (c : Call) : Bool :=
  (List.range c.width).any fun bit => !(s.drivers (c.key bit)).isEmpty

/-- One bit of the packed single-element path: the edited driver without a
task, the cancelled tasks, and the id it issued. -/
def editPackedBit (c : Call) (element : ProjectedWaveformValue) (s : State) (bit : ℕ) : State :=
  let time := s.now + element.delay
  let edited := editTransactions c.mode c.rejection time none (s.drivers (c.key bit))
    [⟨s.nextId, time, element.value.getLogic9 bit, none⟩]
  { s with
    drivers := Function.update s.drivers (c.key bit) edited.1
    nextId := s.nextId + 1
    scheduled := cancelAll edited.2 s.scheduled }

def schedulePacked (c : Call) (element : ProjectedWaveformValue) (s : State) : Except Error State :=
  if c.mode = .inertial ∧ c.rejection > element.delay then
    .error (.invalidArgument "projected-waveform rejection limit exceeds its first delay")
  else if element.delay > maxTick - s.now then
    .error (.overflowError "simulation time overflow while scheduling projected waveform")
  else
    let edited := (List.range c.width).foldl (editPackedBit c element) s
    let ids := (List.range c.width).map fun bit => s.nextId + bit
    .ok { edited with
      scheduled := edited.scheduled ++ [⟨s.nextSequence, s.now + element.delay, c.process,
        .group c.process c.signal c.first c.width ids element.value⟩]
      nextSequence := s.nextSequence + 1 }

def bitsAligned (c : Call) (firstTime : ℕ) : Bool :=
  let oldCount := lowerBound (s.drivers (c.key 0)) firstTime
  (List.range c.width).all (fun bit => lowerBound (s.drivers (c.key bit)) firstTime = oldCount) &&
    (List.range oldCount).all fun index =>
      (List.range c.width).all fun bit =>
        ((s.drivers (c.key bit)).getD index default).time =
          ((s.drivers (c.key 0)).getD index default).time

def oldValueEqualsNext (c : Call) (next : Packed) (oldCount index : ℕ) : Bool :=
  (List.range c.width).all fun bit =>
    ((s.drivers (c.key bit)).getD index default).value =
      if index + 1 < oldCount then ((s.drivers (c.key bit)).getD (index + 1) default).value
      else next.getLogic9 bit

/-- The bits of a multi-bit VHDL scalar keep or reject their old transactions
together, by comparing whole values. -/
def scalarRetained (design : Design) (s : State) (c : Call) : Option (List Bool) :=
  if c.mode = .inertial ∧ c.first = 0 ∧ c.width = design.width c.signal ∧
      design.vhdlScalarWidths c.signal = some c.width then
    let firstTime := s.now + c.firstDelay
    let oldCount := lowerBound (s.drivers (c.key 0)) firstTime
    if bitsAligned s c firstTime ∧ oldCount ≠ 0 then
      let initial := ((s.drivers (c.key 0)).take oldCount).map
        fun t => decide (t.time < firstTime - c.rejection)
      some ((markBackward (oldValueEqualsNext s c c.value oldCount) oldCount
        (initial ++ [true])).dropLast)
    else none
  else none

def scheduleBits (c : Call) (retainedOld : Option (List Bool)) :
    List ℕ → State → Except Error State
  | [], s => .ok s
  | bit :: rest, s => do
    let scalars := c.elements.map fun element => (element.value.getLogic9 bit, element.delay)
    let s ← scheduleProjectedScalarWaveform (c.key bit) scalars c.rejection c.mode retainedOld s
    scheduleBits c retainedOld rest s

def scheduleProjectedWaveform (design : Design) (c : Call) (s : State) : Except Error State :=
  match c.elements with
  | [] => .error (.invalidArgument "a projected waveform must contain at least one element")
  | element :: rest =>
    if rest.any fun e => e.value.length ≠ c.width then
      .error (.invalidArgument "projected-waveform element widths do not match")
    else if c.width = 0 ∨ c.first > design.width c.signal ∨
        c.width > design.width c.signal - c.first ∨
        (c.offset = none ∧ c.width ≠ design.width c.signal) ∨
        c.first > maxUint32 ∨ c.width > maxUint32 ∨ c.first + c.width > maxUint32 then
      .error (.invalidArgument "projected write range is outside its target signal")
    else if rest = [] ∧ c.mode = .inertial ∧ c.rejection = 0 ∧ element.delay = 0 ∧
        targetHasPendingTransaction s c = false then
      .ok (stageUpdateSlice c.process c.signal element.value c.first s)
    else if c.width > 1 ∧ rest = [] then
      schedulePacked c element s
    else scheduleBits c (scalarRetained design s c) (List.range c.width) s

def findTransaction (key : DriverKey) (id : ℕ) : Option ProjectedTransaction :=
  (s.drivers key).find? fun t => t.id = id

def eraseTransaction (key : DriverKey) (id : ℕ) (s : State) : State :=
  { s with drivers := Function.update s.drivers key ((s.drivers key).eraseP fun t => t.id = id) }

def stageBit (key : DriverKey) (id : ℕ) (s : State) : State :=
  match findTransaction s key id with
  | none => s
  | some t =>
    stageUpdateSlice key.process key.signal [t.value] key.offset (eraseTransaction key id s)

def Callback.run : Callback → State
  | .scalar key id => stageBit key id s
  | .group process signal first width ids value =>
    let key := fun bit => DriverKey.mk process signal (first + bit)
    if (List.range width).all fun bit => (findTransaction s (key bit) (ids.getD bit 0)).isSome then
      stageUpdateSlice process signal value first
        ((List.range width).foldl (fun s bit => eraseTransaction (key bit) (ids.getD bit 0) s) s)
    else (List.range width).foldl (fun s bit => stageBit (key bit) (ids.getD bit 0) s) s

def lastStaged (pending : List PendingUpdate) (key : DriverKey) : Option Logic9 :=
  pending.foldl (fun staged update => (update.bit key).or staged) none

def commitUpdates : State :=
  let driving := fun key => (lastStaged s.pending key).getD (s.driving key)
  { s with
    pending := []
    driving := driving
    matured := fun d =>
      if (List.range d.width).any fun bit => (lastStaged s.pending (d.key bit)).isSome then
        s.matured d ++ [⟨s.now, (List.range d.width).map fun bit => driving (d.key bit)⟩]
      else s.matured d }

def dueTasks : List ScheduledTask :=
  (s.scheduled.filter fun task => task.time = s.now).insertionSort
    fun a b => a.order < b.order ∨ (a.order = b.order ∧ a.sequence ≤ b.sequence)

def runUpdatePhase : State :=
  let staged := (dueTasks s).foldl (fun s task => task.callback.run s) s
  commitUpdates { staged with scheduled := s.scheduled.filter fun task => task.time ≠ s.now }

inductive Event
  | call (c : Call)
  | updatePhase
  | advance (time : ℕ)

/-- The scheduler moves on to a later time only once every task before it has run. -/
def step (design : Design) (s : State) : Event → Option State
  | .call c => (scheduleProjectedWaveform design c s).toOption
  | .updatePhase => some (runUpdatePhase s)
  | .advance time =>
    if s.now < time ∧ s.pending = [] ∧ s.scheduled.all fun task => time ≤ task.time then
      some { s with now := time }
    else none

def run (design : Design) : State → List Event → Option State
  | s, [] => some s
  | s, event :: events => (step design s event).bind fun s => run design s events

end FsimRuntime.Projected
