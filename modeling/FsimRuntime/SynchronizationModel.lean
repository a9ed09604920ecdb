import FsimRuntime.Logic
import FsimRuntime.Refusal

/-!
# Mailboxes and semaphores

`Interpreter::Impl::run_synchronization` of `simir_synchronization.cpp` on one
mailbox or one semaphore, together with what it reads and writes of the
processes. A killed process stays in the queues it waits in. Every call
returns the events a history is made of; they are not part of the source.
-/

namespace FsimRuntime.Synchronization

abbrev ProcessId := ℕ
abbrev RegisterId := ℕ

inductive ProcessStatus
  | running | waiting | finished | killed
  deriving DecidableEq, Repr

structure ProcessState where
  halted : Bool
  status : ProcessStatus
  deriving DecidableEq, Repr

abbrev Processes := ProcessId → ProcessState

variable (processes : Processes)

def synchronizationHalted (id : ProcessId) : Bool := (processes id).halted

def synchronizationWake (id : ProcessId) : Processes :=
  if synchronizationHalted processes id then processes
  else Function.update processes id { processes id with status := .running }

def wait (id : ProcessId) : Processes :=
  Function.update processes id { processes id with status := .waiting }

def kill (id : ProcessId) : Processes :=
  if synchronizationHalted processes id then processes
  else Function.update processes id ⟨true, .killed⟩

def Active (id : ProcessId) : Prop :=
  (processes id).halted = false ∧ (processes id).status = .running

instance (id : ProcessId) : Decidable (Active processes id) :=
  inferInstanceAs (Decidable (_ ∧ _))

inductive MailboxElementKind
  | packed | string
  deriving DecidableEq, Repr

inductive Message
  | packed (value : List Logic4)
  | string (text : List UInt8)
  deriving DecidableEq, Repr

def Message.elementKind : Message → MailboxElementKind
  | .packed _ => .packed
  | .string _ => .string

def Message.bytes : Message → ℕ
  | .packed _ => 0
  | .string text => text.length

structure MailboxReader where
  process : ProcessId
  destination : RegisterId
  peek : Bool
  deriving DecidableEq, Repr

structure MailboxWriter where
  process : ProcessId
  value : Message
  deriving DecidableEq, Repr

/-- `entries` and `string_entries` are one list: a mailbox uses the one of its element kind. -/
structure MailboxState where
  elementKind : MailboxElementKind
  elementWidth : ℕ
  capacity : ℕ
  entries : List Message
  stringBytes : ℕ
  readers : List MailboxReader
  writers : List MailboxWriter
  deriving DecidableEq, Repr

def maximumContainerStorageBytes : ℕ := 256 * 1024 * 1024

def maximumStringBytes : ℕ := 2 ^ 20

def mailboxEntryStorageBytes (width : ℕ) : ℕ := max 1 ((width + 63) / 64 * 8 * 2)

def mailboxStringEntryStorageBytes : ℕ := 32

def mailboxCreate (elementKind : MailboxElementKind) (elementWidth requested : ℕ) :
    Except String MailboxState := do
  refuse (if elementKind = .packed then elementWidth = 0 else elementWidth ≠ 0)
    "mailbox has an invalid element kind or width"
  let maximum := maximumContainerStorageBytes /
    (if elementKind = .string then mailboxStringEntryStorageBytes
      else mailboxEntryStorageBytes elementWidth)
  refuse (maximum = 0 || (requested ≠ 0 && maximum < requested))
    "mailbox capacity exceeds the bounded storage limit"
  pure ⟨elementKind, elementWidth, if requested = 0 then maximum else requested, [], 0, [], []⟩

inductive MailboxEvent
  | accepted (process : ProcessId) (message : Message)
  | blockedPut (process : ProcessId) (message : Message)
  | refusedPut (process : ProcessId) (message : Message)
  | admitted (process : ProcessId) (message : Message)
  | received (process : ProcessId) (destination : RegisterId) (message : Message)
  | peeked (process : ProcessId) (destination : RegisterId) (message : Message)
  | blockedGet (process : ProcessId)
  | refusedGet (process : ProcessId)
  | killed (process : ProcessId)
  deriving DecidableEq, Repr

def MailboxReader.answer (reader : MailboxReader) (message : Message) : MailboxEvent :=
  if reader.peek then .peeked reader.process reader.destination message
  else .received reader.process reader.destination message

abbrev Registers := ProcessId → RegisterId → Option Message

def writeRegister (registers : Registers) (id : ProcessId) (destination : RegisterId)
    (message : Message) : Registers :=
  Function.update registers id (Function.update (registers id) destination (some message))

def synchronizationDeliver (registers : Registers) (id : ProcessId)
    (destination : RegisterId) (message : Message) : Registers :=
  if synchronizationHalted processes id then registers
  else writeRegister registers id destination message

structure MailboxWorld where
  mailbox : MailboxState
  processes : Processes
  registers : Registers

structure Delivery where
  processes : Processes
  registers : Registers
  readers : List MailboxReader
  consumed : Bool
  events : List MailboxEvent

def deliver (message : Message) : List MailboxReader → Processes → Registers → Delivery
  | [], processes, registers => ⟨processes, registers, [], false, []⟩
  | reader :: readers, processes, registers =>
    let registers :=
      synchronizationDeliver processes registers reader.process reader.destination message
    if synchronizationHalted processes reader.process then
      deliver message readers processes registers
    else
      let processes := synchronizationWake processes reader.process
      if reader.peek then
        let rest := deliver message readers processes registers
        { rest with events := reader.answer message :: rest.events }
      else ⟨processes, registers, readers, true, [reader.answer message]⟩

structure MailboxPut where
  elementWidth : ℕ
  message : Message
  nonblocking : Bool
  deriving DecidableEq, Repr

structure MailboxGet where
  elementKind : MailboxElementKind
  elementWidth : ℕ
  destination : RegisterId
  peek : Bool
  nonblocking : Bool
  deriving DecidableEq, Repr

def checkPut (mailbox : MailboxState) (put : MailboxPut) : Except String Unit := do
  refuse (put.message.elementKind ≠ mailbox.elementKind || put.elementWidth ≠
    mailbox.elementWidth) "mailbox put operation has the wrong element type"
  match put.message with
  | .packed value =>
    refuse (value.length ≠ put.elementWidth) "mailbox put value has the wrong element width"
  | .string text => do
    refuse (maximumStringBytes < text.length) "mailbox string value exceeds the byte limit"
    refuse (maximumContainerStorageBytes - min mailbox.stringBytes maximumContainerStorageBytes
        < text.length)
      "mailbox string storage exceeds the bounded storage limit"

variable (world : MailboxWorld)

def mailboxPut (process : ProcessId) (put : MailboxPut) :
    Except String (MailboxWorld × List MailboxEvent) := do
  let mailbox := world.mailbox
  checkPut mailbox put
  if mailbox.writers.isEmpty &&
      (!mailbox.readers.isEmpty || mailbox.entries.length < mailbox.capacity) then
    let delivery := deliver put.message mailbox.readers world.processes world.registers
    let mailbox := { mailbox with readers := delivery.readers }
    let mailbox := if delivery.consumed then mailbox
      else { mailbox with
        entries := mailbox.entries ++ [put.message]
        stringBytes := mailbox.stringBytes + put.message.bytes }
    pure (⟨mailbox, delivery.processes, delivery.registers⟩,
      .accepted process put.message :: delivery.events)
  else if put.nonblocking then pure (world, [.refusedPut process put.message])
  else
    pure (⟨{ mailbox with writers := mailbox.writers ++ [⟨process, put.message⟩] },
      wait world.processes process, world.registers⟩, [.blockedPut process put.message])

structure Admission where
  mailbox : MailboxState
  processes : Processes
  events : List MailboxEvent

def admitWriter (mailbox : MailboxState) : List MailboxWriter → Processes → Admission
  | [], processes => ⟨{ mailbox with writers := [] }, processes, []⟩
  | writer :: writers, processes =>
    if synchronizationHalted processes writer.process then admitWriter mailbox writers processes
    else
      ⟨{ mailbox with
          entries := mailbox.entries ++ [writer.value]
          stringBytes := mailbox.stringBytes + writer.value.bytes
          writers := writers }, synchronizationWake processes writer.process,
        [.admitted writer.process writer.value]⟩

def MailboxGet.reader (get : MailboxGet) (process : ProcessId) : MailboxReader :=
  ⟨process, get.destination, get.peek⟩

def mailboxGet (process : ProcessId) (get : MailboxGet) :
    Except String (MailboxWorld × List MailboxEvent) := do
  let mailbox := world.mailbox
  refuse (get.elementKind ≠ mailbox.elementKind || get.elementWidth ≠ mailbox.elementWidth)
    "mailbox get operation has the wrong element type"
  match mailbox.entries with
  | front :: entries =>
    let registers := writeRegister world.registers process get.destination front
    if get.peek then pure ({ world with registers }, [(get.reader process).answer front])
    else
      let taken := { mailbox with entries, stringBytes := mailbox.stringBytes - front.bytes }
      let admission := admitWriter taken mailbox.writers world.processes
      pure (⟨admission.mailbox, admission.processes, registers⟩,
        (get.reader process).answer front :: admission.events)
  | [] =>
    if get.nonblocking then pure (world, [.refusedGet process])
    else
      pure (⟨{ mailbox with readers := mailbox.readers ++ [get.reader process] },
        wait world.processes process, world.registers⟩, [.blockedGet process])

inductive MailboxCall
  | put (process : ProcessId) (put : MailboxPut)
  | get (process : ProcessId) (get : MailboxGet)
  | kill (process : ProcessId)
  deriving DecidableEq, Repr

/-- Only a live process that is not blocked executes an operation. -/
def MailboxCall.Enabled : MailboxCall → Prop
  | .put process _ | .get process _ => Active world.processes process
  | .kill process => (world.processes process).halted = false

instance : (call : MailboxCall) → Decidable (call.Enabled world)
  | .put process _ | .get process _ => inferInstanceAs (Decidable (Active world.processes process))
  | .kill process => inferInstanceAs (Decidable ((world.processes process).halted = false))

def MailboxWorld.step : MailboxCall →
    Except String (MailboxWorld × List MailboxEvent)
  | .put process put => mailboxPut world process put
  | .get process get => mailboxGet world process get
  | .kill process =>
    .ok ({ world with processes := kill world.processes process }, [.killed process])

structure SemaphoreWaiter where
  process : ProcessId
  keys : ℤ
  deriving DecidableEq, Repr

structure SemaphoreState where
  keys : ℤ
  waiters : List SemaphoreWaiter
  deriving DecidableEq, Repr

inductive SemaphoreEvent
  | put (keys : ℤ)
  | granted (process : ProcessId) (keys : ℤ)
  | refused (process : ProcessId) (keys : ℤ)
  | blocked (process : ProcessId) (keys : ℤ)
  | woken (process : ProcessId) (keys : ℤ)
  | killed (process : ProcessId)
  deriving DecidableEq, Repr

structure SemaphoreWorld where
  semaphore : SemaphoreState
  processes : Processes

variable (world : SemaphoreWorld)

def semaphoreGet (process : ProcessId) (requested : ℤ)
    (nonblocking : Bool) : Except String (SemaphoreWorld × List SemaphoreEvent) := do
  let semaphore := world.semaphore
  refuse (requested < 0) "semaphore get count cannot be negative"
  if semaphore.waiters.isEmpty && requested ≤ semaphore.keys then
    pure (⟨{ semaphore with keys := semaphore.keys - requested }, world.processes⟩,
      [.granted process requested])
  else if nonblocking then pure (world, [.refused process requested])
  else
    pure (⟨{ semaphore with waiters := semaphore.waiters ++ [⟨process, requested⟩] },
      wait world.processes process⟩, [.blocked process requested])

def serve : List SemaphoreWaiter → ℤ → Processes → SemaphoreWorld × List SemaphoreEvent
  | [], keys, processes => (⟨⟨keys, []⟩, processes⟩, [])
  | waiter :: waiters, keys, processes =>
    if synchronizationHalted processes waiter.process then serve waiters keys processes
    else if keys < waiter.keys then (⟨⟨keys, waiter :: waiters⟩, processes⟩, [])
    else
      let (world, events) :=
        serve waiters (keys - waiter.keys) (synchronizationWake processes waiter.process)
      (world, .woken waiter.process waiter.keys :: events)

/-- `returned` is a 32-bit number, the keys have 64 bits. -/
def semaphorePut (returned : ℤ) :
    Except String (SemaphoreWorld × List SemaphoreEvent) := do
  refuse (returned < 0) "semaphore put count cannot be negative"
  refuse (2 ^ 63 - 1 - returned < world.semaphore.keys) "semaphore key count overflow"
  let (world, events) :=
    serve world.semaphore.waiters (world.semaphore.keys + returned) world.processes
  pure (world, .put returned :: events)

inductive SemaphoreCall
  | get (process : ProcessId) (keys : ℤ) (nonblocking : Bool)
  | put (process : ProcessId) (keys : ℤ)
  | kill (process : ProcessId)
  deriving DecidableEq, Repr

/-- Only a live process that is not blocked executes an operation. -/
def SemaphoreCall.Enabled : SemaphoreCall → Prop
  | .get process _ _ | .put process _ => Active world.processes process
  | .kill process => (world.processes process).halted = false

instance : (call : SemaphoreCall) → Decidable (call.Enabled world)
  | .get process _ _ | .put process _ =>
    inferInstanceAs (Decidable (Active world.processes process))
  | .kill process => inferInstanceAs (Decidable ((world.processes process).halted = false))

def SemaphoreWorld.step : SemaphoreCall →
    Except String (SemaphoreWorld × List SemaphoreEvent)
  | .get process keys nonblocking => semaphoreGet world process keys nonblocking
  | .put _ keys => semaphorePut world keys
  | .kill process =>
    .ok ({ world with processes := kill world.processes process }, [.killed process])

end FsimRuntime.Synchronization
