import FsimRuntime.WorkQueueModel

/-!
# The event scheduler

`Scheduler::run` and the scheduling operations (`scheduler_dispatch.cpp`,
`scheduler.cpp`, `scheduler_systemverilog.cpp`, `scheduler_generic_update.cpp`)
over queues that are bags of logical tasks, which is what `WorkQueue` is. Every
task runs in a callback of its own.
-/

namespace FsimRuntime.Scheduler

open Queue Function

inductive Phase
  | active
  | inactive
  | update
  | observed
  | reactive
  | reInactive
  | reUpdate
  | postponed
  deriving DecidableEq, Repr

namespace Phase

def index : Phase → ℕ
  | active => 0
  | inactive => 1
  | update => 2
  | observed => 3
  | reactive => 4
  | reInactive => 5
  | reUpdate => 6
  | postponed => 7

def all : List Phase :=
  [active, inactive, update, observed, reactive, reInactive, reUpdate, postponed]

def adjustReactive (executing : Option Phase) (phase : Phase) : Phase :=
  if executing.any fun e => reactive.index ≤ e.index && e.index ≤ reUpdate.index then
    match phase with
    | inactive => reInactive
    | update => reUpdate
    | other => other
  else phase

end Phase

def phaseCount : ℕ := 8

def maximum : ℕ := 2 ^ 64 - 1

def callback (slots : CancellationSlots) (entry : Entry) : Option Callback :=
  match entry.task with
  | .task c | .compactFallback c => some c
  | .batch b => some b.fallback
  | .empty => entry.cancellation.bind fun identity =>
    slots.slots[identity.slot]?.bind fun slot => slot.task
  | .ticket _ => none

def pending (slots : CancellationSlots) (queue : List Entry) : List Entry :=
  queue.filter fun e => !e.isCancelled slots

def empty (slots : CancellationSlots) (queue : List Entry) : Bool := (pending slots queue).isEmpty

def next (slots : CancellationSlots) (queue : List Entry) : Option Entry :=
  (pending slots queue).argmin Entry.key

def clearConsumed (slots : CancellationSlots) (queue : List Entry) : List Entry :=
  if empty slots queue then [] else queue

/-- The queues of a slot. A future slot uses `current` for its generic bucket. -/
inductive Place
  | current (phase : Phase)
  | nextDelta (phase : Phase)
  | systemverilog (phase : Phase)
  | systemverilogRunning
  | endOfSlot
  deriving DecidableEq, Repr

def Place.all : List Place :=
  Phase.all.map .current ++ Phase.all.map .nextDelta ++ Phase.all.map .systemverilog ++
    [.systemverilogRunning, .endOfSlot]

structure CurrentSlot where
  time : ℕ
  delta : ℕ
  phase : ℕ
  queues : Place → List Entry
  systemverilogPhase : Option Phase
  systemverilogRound : ℕ
  lastSystemverilogPhase : Option Phase
  executingEndOfSlot : Bool

structure Timed where
  time : ℕ
  place : Place
  entry : Entry
  deriving DecidableEq, Repr

structure OrderKey where
  order : ℕ
  sequence : ℕ
  deriving DecidableEq, Repr

/-- The record a `task_begin` trace event carries; `slot` counts the slots loaded so far. -/
structure Executed where
  slot : ℕ
  time : ℕ
  delta : ℕ
  phase : Phase
  round : ℕ
  systemverilog : Bool
  endOfSlot : Bool
  order : ℕ
  sequence : ℕ
  callback : Option Callback
  deriving DecidableEq, Repr

structure Core where
  maxDeltaCycles : ℕ
  slots : CancellationSlots
  future : List Timed
  current : Option CurrentSlot
  now : ℕ
  nextSequence : ℕ
  reserved : List OrderKey
  loads : ℕ
  trace : List Executed

def Core.waiting (m : Core) : List Entry :=
  (m.current.elim [] fun slot => Place.all.flatMap slot.queues) ++ m.future.map (·.entry)

/-- Which queue the inner loop of `run` drains. -/
inductive Drain
  | generic
  | systemverilog
  | endOfSlot
  deriving DecidableEq, Repr

inductive Location
  | idle
  | outerLoop
  | innerLoop (drain : Drain) (executedEndCallback : Bool)
  | inCallback (drain : Drain)
  deriving DecidableEq, Repr

inductive Error
  | pastEvent
  | timeOverflow
  | sequenceOverflow
  | reservedCurrentPhase
  | invalidReservedTask
  | discardWhileRunning
  | notReentrant
  | limitBeforeNow
  | deltaCycleLimit (time limit : ℕ) (pendingOrders : List ℕ)
  | callbackFailed
  deriving DecidableEq, Repr

def Error.message : Error → String
  | pastEvent => "cannot schedule an event in the past"
  | timeOverflow => "simulation time overflow while scheduling event"
  | sequenceOverflow => "scheduler insertion sequence overflow"
  | reservedCurrentPhase => "reserved current task requires its ordinary callback phase"
  | invalidReservedTask => "invalid reserved scheduler task"
  | discardWhileRunning => "cannot discard scheduler work while it is running"
  | notReentrant => "Scheduler::run is not reentrant"
  | limitBeforeNow => "run time limit is before the current time"
  | deltaCycleLimit time limit _ =>
    "maximum delta-cycle count (" ++ toString limit ++ ") exceeded at simulation tick " ++
      toString time
  | callbackFailed => ""

inductive RunStatus
  | completed
  | timeLimit
  | stopped
  | failed (error : Error)
  deriving DecidableEq, Repr

structure Machine extends Core where
  revision : ℕ
  stop : Bool
  location : Location
  limit : Option ℕ
  status : Option RunStatus

structure KeyReceipt where
  time : ℕ
  delta : ℕ
  round : ℕ
  phase : Phase
  order : ℕ
  sequence : ℕ
  deriving DecidableEq, Repr

structure GenericKeyReceipt where
  time : ℕ
  delta : ℕ
  phase : Phase
  order : ℕ
  sequence : ℕ
  payload : ℕ
  deriving DecidableEq, Repr

inductive Response
  | done
  | refused
  | handle (identity : Identity)
  | key (key : OrderKey)
  | receipts (receipts : List (Option KeyReceipt))
  | genericReceipt (receipt : GenericKeyReceipt)
  | failed (error : Error)
  deriving DecidableEq, Repr

def start (maxDeltaCycles : ℕ) : Machine where
  maxDeltaCycles := maxDeltaCycles
  slots := ⟨[], []⟩
  future := []
  current := none
  now := 0
  nextSequence := 0
  reserved := []
  loads := 0
  trace := []
  revision := 0
  stop := false
  location := .idle
  limit := none
  status := none

def CurrentSlot.push (slot : CurrentSlot) (place : Place) (entry : Entry) : CurrentSlot :=
  { slot with queues := update slot.queues place (slot.queues place ++ [entry]) }

def CurrentSlot.genericPhase (slot : CurrentSlot) : Option Phase := Phase.all[slot.phase]?

def genericPlace (phase : Phase) : Place :=
  if phase = .postponed then .endOfSlot else .current phase

def nextDeltaPlace (phase : Phase) : Place :=
  if phase = .postponed then .endOfSlot else .nextDelta phase

namespace Machine

variable (m : Machine)

def pushCurrent (slot : CurrentSlot) (place : Place) (entry : Entry) : Machine :=
  { m with current := some (slot.push place entry) }

def pushFuture (time : ℕ) (place : Place) (entry : Entry) : Machine :=
  { m with future := m.future ++ [⟨time, place, entry⟩] }

def genericTarget (slot : CurrentSlot) (phase : Phase) : Place :=
  if phase.index < slot.phase then nextDeltaPlace phase else genericPlace phase

def enqueueAt (time : ℕ) (phase : Phase) (entry : Entry)
    (adjustReactiveRegions : Bool) : Except Error Machine :=
  if time < m.now then .error .pastEvent
  else match m.current with
    | some slot =>
      if time = slot.time then
        let phase := if adjustReactiveRegions then phase.adjustReactive slot.genericPhase else phase
        let m := m.pushCurrent slot (genericTarget slot phase) entry
        .ok (if phase ≠ .postponed ∧ phase.index = slot.phase then
          { m with revision := m.revision + 1 } else m)
      else .ok (m.pushFuture time (genericPlace phase) entry)
    | none => .ok (m.pushFuture time (genericPlace phase) entry)

def enqueueNextDelta (phase : Phase) (entry : Entry) : Machine :=
  match m.current with
  | some slot => m.pushCurrent slot (nextDeltaPlace phase) entry
  | none => m.pushFuture m.now (genericPlace phase) entry

def enqueueSystemverilogAt (time : ℕ) (phase : Phase) (entry : Entry) : Except Error Machine :=
  if time < m.now then .error .pastEvent
  else match m.current with
    | some slot =>
      if time = slot.time then
        let phase := phase.adjustReactive slot.systemverilogPhase
        let m := m.pushCurrent slot (.systemverilog phase) entry
        .ok (if slot.systemverilogPhase = some phase then
          { m with revision := m.revision + 1 } else m)
      else .ok (m.pushFuture time (.systemverilog phase) entry)
    | none => .ok (m.pushFuture time (.systemverilog phase) entry)

def makeEntry (order : ℕ) (task : EntryTask) (cancellation : Option Identity) :
    Except Error (Entry × Machine) :=
  if m.nextSequence = maximum then .error .sequenceOverflow
  else .ok (⟨order, m.nextSequence, task, cancellation⟩,
    { m with nextSequence := m.nextSequence + 1 })

def systemverilogRoundAfterPendingPhase (maxDeltaCycles : ℕ) (slot : CurrentSlot)
    (phase : Phase) : Option ℕ :=
  if slot.lastSystemverilogPhase.all fun last => phase.index ≤ last.index then
    if maxDeltaCycles ≤ slot.systemverilogRound then none else some (slot.systemverilogRound + 1)
  else some slot.systemverilogRound

def systemverilogKeyReceipt (phase : Phase) (order sequence : ℕ) : Option KeyReceipt :=
  match m.current with
  | some slot =>
    let phase := phase.adjustReactive slot.systemverilogPhase
    (systemverilogRoundAfterPendingPhase m.maxDeltaCycles slot phase).map fun round =>
      ⟨slot.time, slot.delta, round, phase, order, sequence⟩
  | none => some ⟨m.now, 0, 1, phase, order, sequence⟩

end Machine

/-- Operations that differ only in the form of the callback are one constructor. `accepted` is
whether the pool has a ticket. -/
inductive Op
  | scheduleAt (time : ℕ) (phase : Phase) (order : ℕ) (task : EntryTask)
  | scheduleAfter (delay : ℕ) (phase : Phase) (order : ℕ) (task : EntryTask)
  | schedule (phase : Phase) (order : ℕ) (task : EntryTask)
  | scheduleAfterCancelable (delay : ℕ) (phase : Phase) (order : ℕ) (task : Callback)
  | cancel (handle : Identity)
  | scheduleNextDelta (phase : Phase) (order : ℕ) (task : EntryTask)
  | reserveOrderKey (order : ℕ)
  | scheduleReservedNextDelta (phase : Phase) (key : OrderKey) (task : Callback)
  | scheduleReservedNextDeltaCancelable (phase : Phase) (key : OrderKey) (task : Callback)
  | scheduleReservedCurrent (phase : Phase) (key : OrderKey) (task : Callback)
  | scheduleReservedCurrentCancelable (phase : Phase) (key : OrderKey) (task : Callback)
  | scheduleGenericNextDeltaReadinessMember (accepted : Bool) (executor order payload : ℕ)
  | scheduleSystemverilogAt (time : ℕ) (phase : Phase) (order : ℕ) (task : EntryTask)
  | scheduleSystemverilogAfter (delay : ℕ) (phase : Phase) (order : ℕ) (task : EntryTask)
  | scheduleSystemverilog (phase : Phase) (order : ℕ) (task : EntryTask)
  | scheduleSystemverilogAfterCancelable (delay : ℕ) (phase : Phase) (order : ℕ)
      (task : Callback)
  | scheduleSystemverilogGroupBatchable (phase : Phase) (order : ℕ) (task : BatchEntry)
  | scheduleSystemverilogReadinessMember (phase : Phase) (order : ℕ) (task : BatchEntry)
  | commitSystemverilogGroupBatch (accepted : Bool) (members : List (ℕ × BatchEntry))
  | commitSystemverilogCompactGroupBatch (accepted : Bool) (executor : ℕ)
      (members : List (ℕ × ℕ))
  | scheduleInternalSystemverilogRunningActive (order : ℕ) (task : EntryTask)
  | scheduleEndOfTimeSlot (order : ℕ) (task : EntryTask)
  | requestStop
  | clearStop
  | discardPending
  deriving DecidableEq, Repr

namespace Machine

def finish (before : Machine) (response : Response) : Except Error Machine → Machine × Response
  | .ok m => (m, response)
  | .error error => (before, .failed error)

variable (m : Machine)

def scheduleAt (time : ℕ) (phase : Phase) (order : ℕ) (task : EntryTask) :
    Machine × Response :=
  if time < m.now then (m, .failed .pastEvent)
  else match m.makeEntry order task none with
    | .ok (entry, made) => finish made .done (made.enqueueAt time phase entry true)
    | .error error => (m, .failed error)

def scheduleAfter (delay : ℕ) (phase : Phase) (order : ℕ) (task : EntryTask) :
    Machine × Response :=
  if maximum - m.now < delay then (m, .failed .timeOverflow)
  else m.scheduleAt (m.now + delay) phase order task

def makeCancelable (order sequence : ℕ) (task : Callback) : Entry × Identity × Machine :=
  let acquired := m.slots.acquire task
  (⟨order, sequence, .empty, some acquired.1⟩, acquired.1, { m with slots := acquired.2 })

def scheduleAfterCancelable (delay : ℕ) (phase : Phase) (order : ℕ)
    (task : Callback) : Machine × Response :=
  if maximum - m.now < delay then (m, .failed .timeOverflow)
  else if m.nextSequence = maximum then (m, .failed .sequenceOverflow)
  else
    let (entry, identity, made) :=
      { m with nextSequence := m.nextSequence + 1 }.makeCancelable order m.nextSequence task
    finish made (.handle identity) (made.enqueueAt (m.now + delay) phase entry false)

def cancel (handle : Identity) : Machine × Response :=
  ({ m with slots := m.slots.release handle }, .done)

def scheduleNextDelta (phase : Phase) (order : ℕ) (task : EntryTask) : Machine × Response :=
  match m.makeEntry order task none with
  | .ok (entry, made) => (made.enqueueNextDelta phase entry, .done)
  | .error error => (m, .failed error)

def reserveOrderKey (order : ℕ) : Machine × Response :=
  if m.nextSequence = maximum then (m, .failed .sequenceOverflow)
  else
    let key : OrderKey := ⟨order, m.nextSequence⟩
    ({ m with nextSequence := m.nextSequence + 1, reserved := key :: m.reserved }, .key key)

def scheduleReservedNextDelta (phase : Phase) (key : OrderKey) (task : Callback) :
    Machine × Response :=
  if key ∉ m.reserved then (m, .failed .invalidReservedTask)
  else (m.enqueueNextDelta phase ⟨key.order, key.sequence, .task task, none⟩, .done)

def scheduleReservedNextDeltaCancelable (phase : Phase) (key : OrderKey)
    (task : Callback) : Machine × Response :=
  if key ∉ m.reserved then (m, .failed .invalidReservedTask)
  else
    let (entry, identity, made) := m.makeCancelable key.order key.sequence task
    (made.enqueueNextDelta phase entry, .handle identity)

def inOrdinaryCallback (phase : Phase) : Bool :=
  m.location = .inCallback .generic &&
    m.current.any fun slot => slot.systemverilogPhase = none && !slot.executingEndOfSlot &&
      slot.genericPhase = some phase

def scheduleReservedCurrent (phase : Phase) (key : OrderKey) (task : Callback) :
    Machine × Response :=
  if !m.inOrdinaryCallback phase then (m, .failed .reservedCurrentPhase)
  else if key ∉ m.reserved then (m, .failed .invalidReservedTask)
  else finish m .done
    (m.enqueueAt m.now phase ⟨key.order, key.sequence, .task task, none⟩ true)

def scheduleReservedCurrentCancelable (phase : Phase) (key : OrderKey)
    (task : Callback) : Machine × Response :=
  if !m.inOrdinaryCallback phase then (m, .failed .reservedCurrentPhase)
  else if key ∉ m.reserved then (m, .failed .invalidReservedTask)
  else
    let (entry, identity, made) := m.makeCancelable key.order key.sequence task
    finish made (.handle identity) (made.enqueueAt m.now phase entry true)

def scheduleGenericNextDeltaReadinessMember (accepted : Bool)
    (executor order payload : ℕ) : Machine × Response :=
  match m.location, m.current with
  | .inCallback _, some slot =>
    if accepted ∧ slot.systemverilogPhase = none ∧ slot.executingEndOfSlot = false ∧
        m.nextSequence ≠ maximum then
      let entry : Entry :=
        ⟨order, m.nextSequence, .compactFallback (.fallback executor payload), none⟩
      ({ m with nextSequence := m.nextSequence + 1 }.pushCurrent slot (.nextDelta .active) entry,
        .genericReceipt ⟨slot.time, slot.delta + 1, .active, order, m.nextSequence, payload⟩)
    else (m, .refused)
  | _, _ => (m, .refused)

def scheduleSystemverilogAt (time : ℕ) (phase : Phase) (order : ℕ)
    (task : EntryTask) : Machine × Response :=
  match m.makeEntry order task none with
  | .ok (entry, made) => finish made .done (made.enqueueSystemverilogAt time phase entry)
  | .error error => (m, .failed error)

def scheduleSystemverilogAfter (delay : ℕ) (phase : Phase) (order : ℕ)
    (task : EntryTask) : Machine × Response :=
  if maximum - m.now < delay then (m, .failed .timeOverflow)
  else m.scheduleSystemverilogAt (m.now + delay) phase order task

def scheduleSystemverilogAfterCancelable (delay : ℕ) (phase : Phase) (order : ℕ)
    (task : Callback) : Machine × Response :=
  if maximum - m.now < delay then (m, .failed .timeOverflow)
  else if m.nextSequence = maximum then (m, .failed .sequenceOverflow)
  else
    let (entry, identity, made) :=
      { m with nextSequence := m.nextSequence + 1 }.makeCancelable order m.nextSequence task
    finish made (.handle identity) (made.enqueueSystemverilogAt (m.now + delay) phase entry)

def scheduleSystemverilogGroupBatchable (phase : Phase) (order : ℕ)
    (task : BatchEntry) : Machine × Response :=
  match m.makeEntry order (.batch task) none with
  | .ok (entry, made) =>
    finish made (.receipts [made.systemverilogKeyReceipt phase order entry.sequence])
      (made.enqueueSystemverilogAt m.now phase entry)
  | .error error => (m, .failed error)

def commitMembers (m : Machine) (slot : CurrentSlot) (round : ℕ) :
    List (ℕ × EntryTask) → Machine × List (Option KeyReceipt)
  | [] => (m, [])
  | (order, task) :: members =>
    let slot' := slot.push (.systemverilog .active) ⟨order, m.nextSequence, task, none⟩
    let rest := commitMembers
      { m with nextSequence := m.nextSequence + 1, current := some slot' } slot' round members
    (rest.1, some ⟨slot.time, slot.delta, round, .active, order, m.nextSequence⟩ :: rest.2)

/-- A reservation made and committed with the same members. -/
def commitGroup (accepted : Bool) (members : List (ℕ × EntryTask)) : Machine × Response :=
  match m.current with
  | some slot =>
    match systemverilogRoundAfterPendingPhase m.maxDeltaCycles slot .active with
    | some round =>
      if accepted ∧ slot.systemverilogPhase = some .active ∧
          members.length ≤ maximum - m.nextSequence ∧
          (members.map (·.1)).Pairwise (· ≤ ·) then
        let committed := m.commitMembers slot round members
        (committed.1, .receipts committed.2)
      else (m, .refused)
    | none => (m, .refused)
  | none => (m, .refused)

def scheduleInternalSystemverilogRunningActive (order : ℕ) (task : EntryTask) :
    Machine × Response :=
  match m.current with
  | some slot =>
    if slot.systemverilogPhase = some .active then
      match m.makeEntry order task none with
      | .ok (entry, made) => (made.pushCurrent slot .systemverilogRunning entry, .done)
      | .error error => (m, .failed error)
    else m.scheduleSystemverilogAt m.now .active order task
  | none => m.scheduleSystemverilogAt m.now .active order task

def scheduleEndOfTimeSlot (order : ℕ) (task : EntryTask) : Machine × Response :=
  match m.makeEntry order task none with
  | .ok (entry, made) =>
    (match m.current with
      | some slot => made.pushCurrent slot .endOfSlot entry
      | none => made.pushFuture m.now .endOfSlot entry, .done)
  | .error error => (m, .failed error)

def discardPending : Machine × Response :=
  if m.location ≠ .idle then (m, .failed .discardWhileRunning)
  else
    let released := m.toCore.waiting.filterMap (·.cancellation)
    ({ m with
        current := none
        future := []
        reserved := []
        slots := released.foldl CancellationSlots.release m.slots }, .done)

def perform : Op → Machine × Response
  | .scheduleAt time phase order task => m.scheduleAt time phase order task
  | .scheduleAfter delay phase order task => m.scheduleAfter delay phase order task
  | .schedule phase order task => m.scheduleAt m.now phase order task
  | .scheduleAfterCancelable delay phase order task =>
    m.scheduleAfterCancelable delay phase order task
  | .cancel handle => m.cancel handle
  | .scheduleNextDelta phase order task => m.scheduleNextDelta phase order task
  | .reserveOrderKey order => m.reserveOrderKey order
  | .scheduleReservedNextDelta phase key task => m.scheduleReservedNextDelta phase key task
  | .scheduleReservedNextDeltaCancelable phase key task =>
    m.scheduleReservedNextDeltaCancelable phase key task
  | .scheduleReservedCurrent phase key task => m.scheduleReservedCurrent phase key task
  | .scheduleReservedCurrentCancelable phase key task =>
    m.scheduleReservedCurrentCancelable phase key task
  | .scheduleGenericNextDeltaReadinessMember accepted executor order payload =>
    m.scheduleGenericNextDeltaReadinessMember accepted executor order payload
  | .scheduleSystemverilogAt time phase order task =>
    m.scheduleSystemverilogAt time phase order task
  | .scheduleSystemverilogAfter delay phase order task =>
    m.scheduleSystemverilogAfter delay phase order task
  | .scheduleSystemverilog phase order task => m.scheduleSystemverilogAt m.now phase order task
  | .scheduleSystemverilogAfterCancelable delay phase order task =>
    m.scheduleSystemverilogAfterCancelable delay phase order task
  | .scheduleSystemverilogGroupBatchable phase order task
  | .scheduleSystemverilogReadinessMember phase order task =>
    m.scheduleSystemverilogGroupBatchable phase order task
  | .commitSystemverilogGroupBatch accepted members =>
    m.commitGroup accepted (members.map fun member => (member.1, .batch member.2))
  | .commitSystemverilogCompactGroupBatch accepted executor members =>
    m.commitGroup accepted
      (members.map fun member => (member.1, .compactFallback (.fallback executor member.2)))
  | .scheduleInternalSystemverilogRunningActive order task =>
    m.scheduleInternalSystemverilogRunningActive order task
  | .scheduleEndOfTimeSlot order task => m.scheduleEndOfTimeSlot order task
  | .requestStop => ({ m with stop := true }, .done)
  | .clearStop => ({ m with stop := false }, .done)
  | .discardPending => m.discardPending

end Machine

inductive Begun
  | started (slot : CurrentSlot)
  | limit (pendingOrders : List ℕ)
  | nothing

def pendingOrders (slots : CancellationSlots) (queue : List Entry) : List ℕ :=
  (pending slots queue).map Entry.order

def beginSystemverilogBatch (maxDeltaCycles : ℕ) (slots : CancellationSlots) (slot : CurrentSlot)
    (includePostponed : Bool) : Begun :=
  let regions := if includePostponed then Phase.all else Phase.all.take (phaseCount - 1)
  match regions.find? fun phase => !empty slots (slot.queues (.systemverilog phase)) with
  | some phase =>
    match Machine.systemverilogRoundAfterPendingPhase maxDeltaCycles slot phase with
    | some round => .started
        { slot with
          systemverilogRound := round
          lastSystemverilogPhase := some phase
          queues := update
            (update slot.queues .systemverilogRunning
              (slot.queues (.systemverilog phase))) (.systemverilog phase)
            (slot.queues .systemverilogRunning)
          systemverilogPhase := some phase }
    | none => .limit (pendingOrders slots (slot.queues (.systemverilog phase)))
  | none => .nothing

def CurrentSlot.swapDelta (slot : CurrentSlot) : CurrentSlot :=
  { slot with
    delta := slot.delta + 1
    phase := 0
    queues := fun place => match place with
      | .current phase => slot.queues (.nextDelta phase)
      | .nextDelta phase => slot.queues (.current phase)
      | other => slot.queues other }

def CurrentSlot.drained (slot : CurrentSlot) : Drain → Place
  | .generic => .current (slot.genericPhase.getD .postponed)
  | .systemverilog => .systemverilogRunning
  | .endOfSlot => .endOfSlot

namespace Core

def nextPendingTime (m : Core) : Option ℕ :=
  ((m.future.filter fun t => !t.entry.isCancelled m.slots).map Timed.time).min?

def dropEmptySlots (m : Core) : Core :=
  { m with
    future := m.nextPendingTime.elim [] fun time => m.future.filter fun t => time ≤ t.time }

def loadNextSlot (m : Core) (time : ℕ) : Core :=
  { m with
    current := some
      { time := time
        delta := 0
        phase := 0
        queues := fun place =>
          (m.future.filter fun t => t.time = time ∧ t.place = place).map Timed.entry
        systemverilogPhase := none
        systemverilogRound := 0
        lastSystemverilogPhase := none
        executingEndOfSlot := false }
    future := m.future.filter fun t => time < t.time
    now := time
    loads := m.loads + 1 }

def nextDeltaEmpty (m : Core) (slot : CurrentSlot) : Bool :=
  Phase.all.all fun phase => empty m.slots (slot.queues (.nextDelta phase))

def executed (m : Core) (slot : CurrentSlot) (drain : Drain) (entry : Entry) : Executed where
  slot := m.loads
  time := m.now
  delta := slot.delta
  phase := match drain with
    | .generic => slot.genericPhase.getD .postponed
    | .systemverilog => slot.systemverilogPhase.getD .postponed
    | .endOfSlot => .postponed
  round := slot.systemverilogRound
  systemverilog := drain = .systemverilog
  endOfSlot := drain = .endOfSlot
  order := entry.order
  sequence := entry.sequence
  callback := callback m.slots entry

def take (m : Core) (slot : CurrentSlot) (drain : Drain) (entry : Entry) : Core :=
  let place := slot.drained drain
  { m with
    current := some { slot with
      queues := update slot.queues place ((slot.queues place).erase entry) }
    slots := (entry.cancellation.map m.slots.release).getD m.slots
    trace := m.trace ++ [executed m slot drain entry] }

def finishQueue (m : Core) (slot : CurrentSlot) (drain : Drain) : Core :=
  let slot := { slot with
    queues := update slot.queues (slot.drained drain)
      (clearConsumed m.slots (slot.queues (slot.drained drain)))
    executingEndOfSlot := false }
  { m with
    current := some (match drain with
      | .systemverilog => { slot with systemverilogPhase := none }
      | .generic => { slot with phase := slot.phase + 1 }
      | .endOfSlot => slot) }

end Core

namespace Machine

variable (m : Machine)

def leave (status : RunStatus) : Machine :=
  { m with location := .idle, status := some status }

def nextSlot : Machine :=
  if m.stop then m.leave .stopped
  else
    let dropped := { m with toCore := m.toCore.dropEmptySlots }
    match m.toCore.nextPendingTime, m.limit with
    | none, some limit =>
      if m.now < limit then { dropped with now := limit }.leave .timeLimit
      else dropped.leave .completed
    | none, none => dropped.leave .completed
    | some time, some limit =>
      if limit < time then { dropped with now := limit }.leave .timeLimit
      else { m with toCore := dropped.toCore.loadNextSlot time }
    | some time, none => { m with toCore := dropped.toCore.loadNextSlot time }

def drain (m : Machine) (slot : CurrentSlot) (drain : Drain) : Machine :=
  { m with
    current := some { slot with executingEndOfSlot := drain = .endOfSlot }
    location := .innerLoop drain false }

def fail (slot : CurrentSlot) (pendingOrders : List ℕ) : Machine :=
  m.leave (.failed (.deltaCycleLimit slot.time m.maxDeltaCycles pendingOrders))

def endDelta (slot : CurrentSlot) : Machine :=
  if !m.toCore.nextDeltaEmpty slot then
    if m.maxDeltaCycles ≤ slot.delta + 1 then
      m.fail slot ((Phase.all.flatMap fun phase =>
        pendingOrders m.slots (slot.queues (.nextDelta phase))).insertionSort (· ≤ ·)).dedup
    else { m with current := some slot.swapDelta }
  else match beginSystemverilogBatch m.maxDeltaCycles m.slots slot true with
    | .started slot => m.drain slot .systemverilog
    | .limit orders => m.fail slot orders
    | .nothing =>
      if empty m.slots (slot.queues .endOfSlot) then { m with current := none }
      else m.drain slot .endOfSlot

def selectQueue (slot : CurrentSlot) : Machine :=
  if m.stop then m.leave .stopped
  else if slot.systemverilogPhase.isSome then m.drain slot .systemverilog
  else match beginSystemverilogBatch m.maxDeltaCycles m.slots slot false with
    | .started slot => m.drain slot .systemverilog
    | .limit orders => m.fail slot orders
    | .nothing => if slot.phase = phaseCount then m.endDelta slot else m.drain slot .generic

def finishQueue (m : Machine) (slot : CurrentSlot) (drain : Drain) : Machine :=
  { m with toCore := m.toCore.finishQueue slot drain, location := .outerLoop }

def innerLoop (slot : CurrentSlot) (drain : Drain) (executedEndCallback : Bool) : Machine :=
  match next m.slots (slot.queues (slot.drained drain)) with
  | none => m.finishQueue slot drain
  | some entry =>
    if executedEndCallback then m.finishQueue slot drain
    else if m.stop then m.leave .stopped
    else { m with
      toCore := m.toCore.take slot drain entry
      location := .inCallback drain }

def advance : Machine :=
  match m.location, m.current with
  | .idle, _ => m
  | .outerLoop, none => m.nextSlot
  | .outerLoop, some slot => m.selectQueue slot
  | .innerLoop drain executedEndCallback, some slot => m.innerLoop slot drain executedEndCallback
  | .innerLoop .., none => { m with location := .outerLoop }
  | .inCallback drain, _ => { m with location := .innerLoop drain (drain = .endOfSlot) }

def call (limit : Option ℕ) : Machine × Response :=
  if m.location ≠ .idle then (m, .failed .notReentrant)
  else if limit.any (· < m.now) then (m, .failed .limitBeforeNow)
  else ({ m with location := .outerLoop, limit := limit, status := none }, .done)

def throw : Machine :=
  match m.location with
  | .inCallback _ => m.leave (.failed .callbackFailed)
  | _ => m

inductive Action
  | call (limit : Option ℕ)
  | advance
  | op (op : Op)
  | throw
  deriving DecidableEq, Repr

/-- Callbacks, hooks and the callers of `run` may use any operation at any moment; another thread
may only stop the run. -/
def Permits (op : Op) : Prop :=
  match m.location with
  | .innerLoop .. => op = .requestStop ∨ op = .clearStop
  | _ => True

instance (op : Op) : Decidable (m.Permits op) := by
  unfold Permits
  split <;> infer_instance

def act : Action → Machine
  | .call limit => (m.call limit).1
  | .advance => m.advance
  | .op op => if m.Permits op then (m.perform op).1 else m
  | .throw => m.throw

def run (actions : List Action) : Machine := actions.foldl act m

end Machine

end FsimRuntime.Scheduler
