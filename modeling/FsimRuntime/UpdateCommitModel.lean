import FsimRuntime.Refusal

/-!
# The update commit

The callback of `schedule_update_commit` in `simir_scheduling_stage.cpp`, on
signals without switches, container aliases and native staged words: the
pending updates are staged, the staged drivers installed, and one row for each
updated signal committed. A value is the list of its bit states, whatever kind
they have; hooks, profiles and the provenance of updates are left out.
-/

namespace FsimRuntime.UpdateCommit
open Function

abbrev SignalId := ℕ
abbrev ProcessId := ℕ

section State

inductive ResolutionKind
  | none | svWire | stdLogic | vhdlUserOr | vhdlUserAnd | svWand | svWor | svUserFirst
  | vhdlUserFunction
  deriving DecidableEq, Repr

/-- `initialDriver` is the `initial_driver_value`; `forced` and `driversForced` tell whether the
signal or one of its drivers is forced. -/
structure Signal (β : Type) where
  resolution : ResolutionKind
  initialDriver : List β
  hasImplicitDriver : Bool
  hasChargeStrength : Bool
  forced : Bool
  driversForced : Bool

structure DriverRecord (β : Type) where
  process : ProcessId
  value : List β
  defaultStrength : Bool
  scalarRegions : Bool

/-- What does not change during a commit. `resolve` combines the drivers of a signal where
`resolved_local_driver_value` has no shortcut, `lastResolved` is the last result of a resolver
program, and `charged` what the charge rules of `commit_resolved` store. All values of a signal
have one width. -/
structure Design (β : Type) where
  signalCount : ℕ
  signal : SignalId → Signal β
  defaultStrength : ProcessId → Bool
  resolve : SignalId → List (DriverRecord β) → Option (List β) → List β
  driverForce : SignalId → ProcessId → List β → List β
  lastResolved : SignalId → List β
  charged : SignalId → List β → List β
  length_resolve : ∀ s records external,
    (resolve s records external).length = (signal s).initialDriver.length
  length_driverForce : ∀ s process value, (driverForce s process value).length = value.length
  length_lastResolved : ∀ s, (lastResolved s).length = (signal s).initialDriver.length
  length_charged : ∀ s value, (charged s value).length = value.length

def Design.width {β : Type} (design : Design β) (signal : SignalId) : ℕ :=
  (design.signal signal).initialDriver.length

structure State (β : Type) where
  drivers : SignalId → List (DriverRecord β)
  external : SignalId → Option (List β)
  driven : SignalId → List β
  route : SignalId → Option ProcessId

variable {β : Type} (design : Design β)

def findDriver (records : List (DriverRecord β)) (process : ProcessId) :
    Option (DriverRecord β) :=
  records.find? (·.process = process)

def insertRecord (record : DriverRecord β) : List (DriverRecord β) → List (DriverRecord β)
  | [] => [record]
  | other :: records =>
    if record.process < other.process then record :: other :: records
    else other :: insertRecord record records

def setRecord (records : List (DriverRecord β)) (process : ProcessId) (value : List β) :
    List (DriverRecord β) :=
  records.map fun record => if record.process = process then { record with value } else record

def identitySingleDriver (signal : Signal β) : Bool :=
  signal.resolution = .svWire || signal.resolution = .stdLogic

variable (state : State β)

def directRoute (signal : SignalId) : Option ProcessId :=
  match state.drivers signal with
  | [record] =>
    let info := design.signal signal
    if identitySingleDriver info && !info.hasImplicitDriver && !info.hasChargeStrength
        && (state.external signal).isNone && !info.forced && !info.driversForced
        && record.defaultStrength && !record.scalarRegions
    then some record.process else none
  | _ => none

def refreshRoute (signal : SignalId) : State β :=
  { state with route := update state.route signal (directRoute design state signal) }

def driverSlot (process : ProcessId) (signal : SignalId) : State β × List β :=
  match findDriver (state.drivers signal) process with
  | some record => (state, record.value)
  | none =>
    let initial := (design.signal signal).initialDriver
    let records := insertRecord ⟨process, initial, design.defaultStrength process, false⟩
      (state.drivers signal)
    (refreshRoute design { state with drivers := update state.drivers signal records }
      signal, initial)

def externalDriverSlot (signal : SignalId) : State β × List β :=
  match state.external signal with
  | some value => (state, value)
  | none =>
    let initial := (design.signal signal).initialDriver
    ({ state with external := update state.external signal (some initial) }, initial)

def directSingleDriverRecord (signal : SignalId) : Option (DriverRecord β) :=
  (state.route signal).bind (findDriver (state.drivers signal))

def driverResolution (signal : SignalId) : List β :=
  let info := design.signal signal
  match state.drivers signal, state.external signal with
  | [record], none =>
    if identitySingleDriver info && !record.scalarRegions && !info.hasImplicitDriver
        && !info.hasChargeStrength && record.defaultStrength then
      if info.driversForced then design.driverForce signal record.process record.value
      else record.value
    else design.resolve signal [record] none
  | records, external => design.resolve signal records external

def resolvedDriverValue (signal : SignalId) : List β :=
  if (design.signal signal).resolution = .vhdlUserFunction then design.lastResolved signal
  else driverResolution design state signal

end State

section Staging

structure PendingUpdate (β : Type) where
  signal : SignalId
  driver : Option ProcessId
  offset : Option ℕ
  value : List β

structure PendingDriverCommit (β : Type) where
  driver : Option ProcessId
  value : List β

structure Staging (β : Type) where
  unresolvedScratch : SignalId → Option (List β)
  unresolvedSignals : List SignalId
  directSignals : List SignalId
  driverScratch : SignalId → List (PendingDriverCommit β)
  driverSignals : List SignalId
  driverIndex : SignalId → Option (List (ℕ × ℕ))
  resolvedMarked : SignalId → Bool
  resolvedSignals : List SignalId

def Staging.empty {β : Type} : Staging β :=
  ⟨fun _ => none, [], [], fun _ => [], [], fun _ => none, fun _ => false, []⟩

variable {β : Type} (design : Design β)

def insertBits (target source : List β) (offset : ℕ) : Except String (List β) := do
  refuse (source.length = 0 || target.length < offset || target.length - offset < source.length)
    "insert range is outside its target value"
  pure (target.take offset ++ source ++ target.drop (offset + source.length))

def applyPending (value : List β) (pending : PendingUpdate β) : Except String (List β) :=
  match pending.offset with
  | none => pure pending.value
  | some offset => insertBits value pending.value offset

def markResolved (staging : Staging β) (signal : SignalId) : Staging β :=
  if staging.resolvedMarked signal then staging
  else { staging with
    resolvedMarked := update staging.resolvedMarked signal true
    resolvedSignals := staging.resolvedSignals ++ [signal] }

def stageSingle (staging : Staging β) (pending : PendingUpdate β) (stored : List β)
    (enqueue : Staging β → Staging β) : Except String (Staging β) := do
  let staged := staging.unresolvedScratch pending.signal
  let value ← applyPending (staged.getD stored) pending
  let staging := if staged.isNone then enqueue staging else staging
  pure { staging with
    unresolvedScratch := update staging.unresolvedScratch pending.signal (some value) }

def driverKey : Option ProcessId → ℕ
  | none => 0
  | some process => process + 1

def emplace (index : List (ℕ × ℕ)) (key slot : ℕ) : List (ℕ × ℕ) :=
  if index.any (·.1 = key) then index else index ++ [(key, slot)]

def buildIndex (staged : List (PendingDriverCommit β)) : List (ℕ × ℕ) :=
  (staged.zipIdx).foldl (fun index (entry, slot) => emplace index (driverKey entry.driver) slot) []

def findStaged (staging : Staging β) (signal : SignalId) (driver : Option ProcessId) :
    Staging β × Option ℕ :=
  let staged := staging.driverScratch signal
  if staged.length < 16 then (staging, staged.findIdx? (·.driver = driver))
  else
    let index := (staging.driverIndex signal).getD []
    let index := if index.length ≠ staged.length then buildIndex staged else index
    ({ staging with driverIndex := update staging.driverIndex signal (some index) },
      (index.find? (·.1 = driverKey driver)).map (·.2))

def pushStaged (staging : Staging β) (signal : SignalId) (entry : PendingDriverCommit β) :
    Staging β :=
  let staged := staging.driverScratch signal
  { staging with
    driverSignals :=
      if staged.isEmpty then staging.driverSignals ++ [signal] else staging.driverSignals
    driverScratch := update staging.driverScratch signal (staged ++ [entry])
    driverIndex := match staging.driverIndex signal with
      | some index =>
        if index.length = staged.length then
          update staging.driverIndex signal
            (some (emplace index (driverKey entry.driver) staged.length))
        else staging.driverIndex
      | none => staging.driverIndex }

def startSlot (state : State β) (pending : PendingUpdate β) : State β × List β :=
  match pending.offset, pending.driver with
  | none, _ => (state, [])
  | some _, some process => driverSlot design state process pending.signal
  | some _, none => externalDriverSlot design state pending.signal

def stageDriver (state : State β) (staging : Staging β) (pending : PendingUpdate β) :
    Except String (State β × Staging β) := do
  let signal := pending.signal
  let (staging, found) := findStaged staging signal pending.driver
  match found with
  | some slot =>
    let staged := staging.driverScratch signal
    let value ← applyPending ((staged[slot]?.map (·.value)).getD []) pending
    let staged := staged.modify slot fun entry => { entry with value }
    pure (state, markResolved
      { staging with driverScratch := update staging.driverScratch signal staged } signal)
  | none =>
    let (state, initial) := startSlot design state pending
    let value ← applyPending initial pending
    pure (state, markResolved (pushStaged staging signal ⟨pending.driver, value⟩) signal)

def directSingleDriver (state : State β) (pending : PendingUpdate β) : Option (DriverRecord β) :=
  (directSingleDriverRecord state pending.signal).filter fun record =>
    record.value.length ≤ 64 && pending.driver = some record.process
      && (state.external pending.signal).isNone && !(design.signal pending.signal).driversForced

def stageUpdate (staged : State β × Staging β) (pending : PendingUpdate β) :
    Except String (State β × Staging β) := do
  let (state, staging) := staged
  if (design.signal pending.signal).resolution = .none then
    let staging ← stageSingle staging pending (state.driven pending.signal) fun staging =>
      { staging with unresolvedSignals := staging.unresolvedSignals ++ [pending.signal] }
    pure (state, staging)
  else match directSingleDriver design state pending with
    | some record => do
      let staging ← stageSingle staging pending record.value fun staging =>
        { staging with directSignals := staging.directSignals ++ [pending.signal] }
      pure (state, staging)
    | none => stageDriver design state staging pending

end Staging

section Installation

variable {β : Type} (design : Design β)

structure Installing (β : Type) where
  state : State β
  staging : Staging β
  directMarked : SignalId → Bool

def installDirect (installing : Installing β) (signal : SignalId) :
    Except String (Installing β) :=
  let ⟨state, staging, marked⟩ := installing
  match staging.unresolvedScratch signal, state.drivers signal with
  | some value, [record] =>
    let state := { state with
      drivers := update state.drivers signal [{ record with value }] }
    if staging.resolvedMarked signal then
      pure ⟨state, { staging with
        unresolvedScratch := update staging.unresolvedScratch signal none }, marked⟩
    else
      pure ⟨state, { staging with unresolvedSignals := staging.unresolvedSignals ++ [signal] },
        update marked signal true⟩
  | _, _ => .error "direct single-driver update lost its staged value"

def setDriver (state : State β) (process : ProcessId) (signal : SignalId) (value : List β) :
    Except String (State β) := do
  refuse (design.width signal ≠ value.length) "SimIR driver assignment width mismatch"
  let (state, _) := driverSlot design state process signal
  pure { state with
    drivers := update state.drivers signal (setRecord (state.drivers signal) process value) }

def installDriver (signal : SignalId) (state : State β) (update : PendingDriverCommit β) :
    Except String (State β) :=
  match update.driver with
  | some process => setDriver design state process signal update.value
  | none =>
    let (state, _) := externalDriverSlot design state signal
    pure (refreshRoute design
      { state with external := Function.update state.external signal (some update.value) } signal)

def installDrivers (staging : Staging β) (state : State β) (signal : SignalId) :
    Except String (State β) :=
  (staging.driverScratch signal).foldlM (installDriver design signal) state

end Installation

section Rows

variable {β : Type} (design : Design β)

structure Row (β : Type) where
  signal : SignalId
  value : List β
  nextInWord : Option ℕ

structure CommitWord where
  dirtyMask : BitVec 64
  head : Option ℕ

structure Rows (β : Type) where
  scratch : List (Row β)
  words : ℕ → CommitWord

def Rows.empty {β : Type} : Rows β := ⟨[], fun _ => ⟨0, none⟩⟩

def appendCommitRow (rows : Rows β) (signal : SignalId) (value : List β) :
    Except String (Rows β) := do
  refuse (design.signalCount ≤ signal) "update commit row exceeds the signal table"
  let word := rows.words (signal / 64)
  refuse (word.dirtyMask.getLsbD (signal % 64)) "update commit signal was staged more than once"
  pure ⟨rows.scratch ++ [⟨signal, value, word.head⟩],
    update rows.words (signal / 64)
      ⟨word.dirtyMask ||| 1#64 <<< (signal % 64), some rows.scratch.length⟩⟩

def linkRows (scratch : List (Row β)) (wordIndex : ℕ) (word : CommitWord) :
    ℕ → Option ℕ → (ℕ → Option ℕ) → ℕ →
      Except String ((ℕ → Option ℕ) × ℕ)
  | _, none, rowByBit, linked => .ok (rowByBit, linked)
  | 0, some _, _, _ => .error "update commit word has an invalid row link"
  | rounds + 1, some rowIndex, rowByBit, linked =>
    match scratch[rowIndex]? with
    | none => .error "update commit word has an invalid row link"
    | some row =>
      if row.signal / 64 ≠ wordIndex ∨ word.dirtyMask.getLsbD (row.signal % 64) = false
          ∨ (rowByBit (row.signal % 64)).isSome
      then .error "update commit word does not match its rows"
      else linkRows scratch wordIndex word rounds row.nextInWord
        (update rowByBit (row.signal % 64) (some rowIndex)) (linked + 1)

structure Committed (β : Type) where
  state : State β
  published : List (SignalId × List β)

def commitRow (marked : SignalId → Bool) (committed : Committed β) (row : Row β) :
    Except String (Committed β) := do
  let ⟨state, published⟩ := committed
  let signal := row.signal
  let store := fun value =>
    (⟨{ state with driven := update state.driven signal value },
      published ++ [(signal, row.value)]⟩ : Committed β)
  if marked signal && (directSingleDriverRecord state signal).isSome then pure (store row.value)
  else if (design.signal signal).resolution ≠ .none &&
    (design.signal signal).hasChargeStrength then
    pure (store (design.charged signal row.value))
  else do
    refuse ((state.driven signal).length ≠ row.value.length)
      ("SimIR signal assignment width mismatch (signal " ++ toString signal ++ " has width " ++
        toString (state.driven signal).length ++ ", value has width " ++
        toString row.value.length ++ ")")
    pure (store row.value)

def commitWord (marked : SignalId → Bool) (rows : Rows β) (committed : Committed β)
    (wordIndex : ℕ) : Except String (Committed β) := do
  let word := rows.words wordIndex
  let dirty := (List.range 64).filter word.dirtyMask.getLsbD
  if dirty.isEmpty then do
    refuse word.head.isSome "empty update commit word has a linked row"
    pure committed
  else do
    let (rowByBit, linked) ←
      linkRows rows.scratch wordIndex word rows.scratch.length word.head (fun _ => none) 0
    refuse (linked ≠ dirty.length) "update commit word mask does not match its rows"
    dirty.foldlM (fun committed bit =>
      match (rowByBit bit).bind (rows.scratch[·]?) with
      | none => .error "update commit word mask has no value row"
      | some row => commitRow design marked committed row) committed

end Rows

section Commit

variable {β : Type} (design : Design β)

def appendUnresolved (staging : Staging β) (rows : Rows β) (signal : SignalId) :
    Except String (Rows β) :=
  appendCommitRow design rows signal ((staging.unresolvedScratch signal).getD [])

def appendResolved (state : State β) (rows : Rows β) (signal : SignalId) :
    Except String (Rows β) :=
  appendCommitRow design rows signal (resolvedDriverValue design state signal)

def commitUpdates (state : State β) (queue : List (PendingUpdate β)) :
    Except String (Committed β) := do
  let (state, staging) ← queue.foldlM (stageUpdate design) (state, .empty)
  let ⟨state, staging, marked⟩ ←
    staging.directSignals.foldlM installDirect ⟨state, staging, fun _ => false⟩
  let state ← staging.driverSignals.foldlM (installDrivers design staging) state
  let rows ← staging.unresolvedSignals.foldlM (appendUnresolved design staging) .empty
  let rows ← staging.resolvedSignals.foldlM (appendResolved design state) rows
  (List.range ((design.signalCount + 63) / 64)).foldlM
    (commitWord design marked rows) ⟨state, []⟩

end Commit

end FsimRuntime.UpdateCommit
