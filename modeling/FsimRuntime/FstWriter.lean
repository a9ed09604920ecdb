import FsimRuntime.FstContainer
import FsimRuntime.ExternalSort

/-!
# The FST writer

`FstWriter` as a state machine over its calls. Changes are staged in a bounded
buffer that spills sorted runs; closing merges the runs, gives each change its
place in the table of times, sorts again by handle through a second set of runs
and writes the container. Every check stands before the first byte of output.
Left out are failures of the streams and of the temporary files, which hold the
events as they were written, and counters that reach `2 ^ 64`.
-/

namespace FsimRuntime.Fst

open ExternalSort KeyedSort

def mergeFanIn : ℕ := 8

def mergeRecordOverhead : ℕ := 2 * mergeFanIn + 4

/-- `sizeof(SpoolEvent)` with 64-bit sizes and texts of 32 bytes. -/
def spoolEventBytes : ℕ := 152

/-- A staged change; `value` stands for the profile, payload and type fields copied from it. -/
structure SpoolEvent where
  event : TraceEvent
  insertionOrder : ℕ
  handle : ℕ := 0
  timeIndex : ℕ := 0
  value : FstEncodedValue
deriving DecidableEq, Repr

/-- What `event_order_less` compares. -/
def eventKey (event : SpoolEvent) : (ℕ ×ₗ ℕ ×ₗ ℕ ×ₗ ℕ ×ₗ ℕ) ×ₗ ℕ :=
  toLex (event.event.identity, event.insertionOrder)

/-- What `indexed_event_order_less` compares. -/
def indexedKey (event : SpoolEvent) :
    ℕ ×ₗ ℕ ×ₗ (ℕ ×ₗ ℕ ×ₗ ℕ ×ₗ ℕ ×ₗ ℕ) ×ₗ ℕ :=
  toLex (event.handle, toLex (event.timeIndex, eventKey event))

def SpoolEvent.payloadBytes (event : SpoolEvent) : ℕ :=
  event.value.canonicalType.length + event.value.payload.length

section Staging

/-- The event buffer and the levels of sorted runs it spilled. -/
structure Staging where
  buffer : List SpoolEvent := []
  capacity : ℕ := 0
  payloadBytes : ℕ := 0
  runs : List (List (List SpoolEvent)) := []
deriving DecidableEq, Repr

def Staging.work (staging : Staging) : ℕ :=
  staging.capacity * spoolEventBytes + staging.payloadBytes

variable {β : Type} [LinearOrder β] (key : SpoolEvent → β)

def spillEventBuffer (staging : Staging) : Staging :=
  if staging.buffer.isEmpty then staging
  else { runs := addRun key mergeFanIn (sortBy key staging.buffer) staging.runs }

def capacityFits (limits : FstWriterLimits) (retained workLimit : ℕ) (staging : Staging)
    (event : SpoolEvent) (capacity : ℕ) : Bool :=
  let work := capacity * spoolEventBytes + (staging.payloadBytes + event.payloadBytes)
  work ≤ workLimit && retained ≤ limits.maximumBufferBytes &&
    work ≤ limits.maximumBufferBytes - retained

def targetCapacity (staging : Staging) : ℕ :=
  if staging.buffer.length = staging.capacity then
    if staging.capacity = 0 then 1 else staging.capacity * 2
  else staging.capacity

def requireEventWork (limits : FstWriterLimits) (retained work : ℕ) : Except Error Unit := do
  refuse (limits.maximumEventWorkBytes / mergeRecordOverhead < work)
    (.lengthError "FST individual event exceeds its permitted event-work budget")
  refuse (limits.maximumBufferBytes < retained || limits.maximumBufferBytes - retained < work)
    (.lengthError "FST change buffer exceeds its limit")

def makeRoom (limits : FstWriterLimits) (retained workLimit : ℕ) (staging : Staging)
    (event : SpoolEvent) : Except Error (Staging × ℕ) :=
  if capacityFits limits retained workLimit staging event (targetCapacity staging) then
    pure (staging, targetCapacity staging)
  else do
    let spilled := spillEventBuffer key staging
    refuse (!capacityFits limits retained workLimit spilled event 1)
      (.lengthError "FST change buffer exceeds its limit")
    pure (spilled, 1)

def stageSpoolEvent (limits : FstWriterLimits) (retained workLimit : ℕ) (staging : Staging)
    (event : SpoolEvent) : Except Error Staging := do
  requireEventWork limits retained (spoolEventBytes + event.payloadBytes)
  let (staging, capacity) ← makeRoom key limits retained workLimit staging event
  let staged : Staging :=
    { staging with
      buffer := staging.buffer ++ [event]
      capacity := max staging.capacity capacity
      payloadBytes := staging.payloadBytes + event.payloadBytes }
  refuse (limits.maximumBufferBytes < retained + staged.work || workLimit < staged.work)
    (.lengthError "FST event-work buffer exceeds its limit")
  pure staged

def mergedEvents (staging : Staging) : List SpoolEvent :=
  mergeRuns key (finishRuns key mergeFanIn (spillEventBuffer key staging).runs)

end Staging

section IndexPass

variable (limits : FstWriterLimits)

structure IndexPass where
  times : List ℕ
  previousEvent : Option TraceEvent := none
  staging : Staging := {}
  count : ℕ := 0

def appendTimestamp (times : List ℕ) (time : ℕ) : Except Error (List ℕ) := do
  refuse (times.length = limits.maximumTimestamps)
    (.lengthError "FST timestamp count exceeds its limit")
  pure (times ++ [time])

def timestampFor (times : List ℕ) (time : ℕ) : Except Error (List ℕ) :=
  if times.getLast? = some time then pure times else appendTimestamp limits times time

def handleFor (handles : Handles) (signal : ℕ) : Except Error ℕ :=
  match handleOf handles signal with
  | some handle => pure handle
  | none => throw (.outOfRange "FST change references an undeclared signal")

def indexEvent (retained finalTime : ℕ) (handles : Handles) (pass : IndexPass)
    (event : SpoolEvent) : Except Error IndexPass := do
  refuse (finalTime < event.event.time) (.invalidArgument "FST change time exceeds final time")
  refuse (pass.previousEvent = some event.event)
    (.invalidArgument "FST change ordering identity is duplicated")
  let handle ← handleFor handles event.event.signal
  let times ← timestampFor limits pass.times event.event.time
  let staging ← stageSpoolEvent indexedKey limits retained (limits.maximumEventWorkBytes / 4)
    pass.staging { event with handle := handle, timeIndex := times.length - 1 }
  pure ⟨times, some event.event, staging, pass.count + 1⟩

def beginTimes (initialTime : ℕ) (initialValues : List (ℕ × FstEncodedValue)) :
    Except Error (List ℕ) :=
  if initialValues.isEmpty then pure [] else appendTimestamp limits [] initialTime

end IndexPass

section Waves

variable (limits : FstWriterLimits)

structure WaveState where
  waves : Bytes := []
  positions : List (Option ℕ)
  active : ℕ := 0
  currentHandle : ℕ := 0
  handleStarted : Bool := false
  previousTimeIndex : Option ℕ := none

def appendWaveBytes (state : WaveState) (bytes : Bytes) : Except Error WaveState := do
  refuse (limits.maximumContainerBytes - state.waves.length < bytes.length)
    (.lengthError "FST value frame exceeds its container limit")
  pure { state with waves := state.waves ++ bytes }

def appendChainPrefix (state : WaveState) (index : ℕ) : Except Error WaveState := do
  let marked ← appendWaveBytes limits
    { state with positions := state.positions.set index (some (state.waves.length + 1)) } (varint 0)
  pure { marked with active := marked.active + 1 }

def beginChain (state : WaveState) (index : ℕ) : Except Error WaveState :=
  match state.previousTimeIndex with
  | some _ => pure state
  | none => appendChainPrefix limits state index

def appendChange (type : TraceTypeDeclaration) (state : WaveState) (index timeIndex : ℕ)
    (value : FstEncodedValue) : Except Error WaveState := do
  let delta := timeIndex - state.previousTimeIndex.getD 0
  let state ← beginChain limits state index
  let bytes ← appendTimedWaveChange type delta value
  let state ← appendWaveBytes limits state bytes
  pure { state with previousTimeIndex := some timeIndex }

variable (handles : Handles) (initialValues : List (ℕ × FstEncodedValue))

def startHandle (state : WaveState) (index : ℕ) : Except Error WaveState :=
  let state := { state with handleStarted := true, previousTimeIndex := none }
  match handles[index]? with
  | none => pure state
  | some (signal, type) =>
    match initialValues.lookup signal with
    | none => pure state
    | some value => appendChange limits type state index 0 value

def startThrough : ℕ → WaveState → ℕ → Except Error WaveState
  | 0, state, _ => pure state
  | fuel + 1, state, index =>
    if state.handleStarted && index ≤ state.currentHandle then pure state
    else do
      let current := if state.handleStarted then state.currentHandle + 1 else state.currentHandle
      let state ← startHandle limits handles initialValues
        { state with currentHandle := current } current
      startThrough fuel state index

def appendEvent (state : WaveState) (event : SpoolEvent) : Except Error WaveState :=
  match handles[event.handle - 1]? with
  | none => throw (.runtimeError "FST temporary event does not match its declaration")
  | some (_, type) => do
    refuse (event.value.canonicalType ≠ type.canonicalMetadata || event.value.width ≠
      type.width) (.runtimeError "FST temporary event does not match its declaration")
    let state ← startThrough limits handles initialValues event.handle state (event.handle - 1)
    appendChange limits type state (event.handle - 1) event.timeIndex event.value

def writeWaves (events : List SpoolEvent) : Except Error WaveState := do
  let state ← events.foldlM (appendEvent limits handles initialValues)
    { positions := List.replicate handles.length none }
  if handles.isEmpty then pure state
  else startThrough limits handles initialValues handles.length state (handles.length - 1)

end Waves

def Error.message : Error → String
  | .invalidArgument message | .lengthError message | .outOfRange message | .logicError message
  | .runtimeError message => message

inductive FstWriterState
  | configuring | «open» | complete | failed
deriving DecidableEq, Repr

structure FstWriter where
  output : Bytes := []
  settings : FstSettings
  limits : FstWriterLimits
  declarations : Option TraceDeclarationModel := none
  initialValues : List (ℕ × FstEncodedValue) := []
  staging : Staging := {}
  retainedBytes : ℕ := 0
  eventCount : ℕ := 0
  nextInsertionOrder : ℕ := 0
  initialTime : ℕ := 0
  state : FstWriterState := .configuring
  failure : String := ""
deriving DecidableEq, Repr

namespace FstWriter

def create (limits : FstWriterLimits) (settings : FstSettings) : Except Error FstWriter := do
  refuse (0 < settings.timescaleExponent || settings.timescaleExponent < -18)
    (.invalidArgument "FST timescale exponent must be between -18 and 0")
  refuse ([limits.maximumScopes, limits.maximumSignals, limits.maximumEvents,
      limits.maximumTimestamps, limits.maximumNameBytes, limits.maximumTypeMetadataBytes,
      limits.maximumValueBytes, limits.maximumHierarchyBytes, limits.maximumBufferBytes,
      limits.maximumEventWorkBytes].contains 0 || limits.maximumContainerBytes < 330)
    (.invalidArgument "FST writer limits must be nonzero")
  pure { settings := settings, limits := limits }

section Publication

variable (limits : FstWriterLimits)

def requireFrame : ℕ → List TraceTypeDeclaration → Except Error Unit
  | _, [] => pure ()
  | size, type :: types => do
    let width ← fstStorageWidth type
    refuse (limits.maximumContainerBytes - size < width)
      (.lengthError "FST initial value frame exceeds its limit")
    requireFrame (size + width) types

def storeBits (compression : FstWriterCompression) (bits : Bytes) : Except Error Bytes :=
  if compressed compression bits then
    compressFstBlock bits .initialValueZlibFixedV1 limits.maximumContainerBytes
      limits.maximumContainerBytes
  else pure bits

def requireCounts (model : TraceDeclarationModel) : Except Error Unit :=
  refuse (limits.maximumScopes < model.scopes.length || limits.maximumSignals <
    model.entries.length) (.lengthError "FST declaration count exceeds its limit")

def boundedHierarchy (model : TraceDeclarationModel) : Except Error (Handles × Bytes) := do
  let (handles, bytes) ← hierarchy limits model
  refuse (limits.maximumHierarchyBytes < bytes.length)
    (.lengthError "FST hierarchy block exceeds its limit")
  pure (handles, bytes)

def indexEvents (writer : FstWriter) (handles : Handles) (finalTime : ℕ) :
    Except Error (List ℕ × List SpoolEvent) := do
  let times ← beginTimes writer.limits writer.initialTime writer.initialValues
  let pass ← (mergedEvents eventKey writer.staging).foldlM
    (indexEvent writer.limits writer.retainedBytes finalTime handles) { times := times }
  refuse (pass.count ≠ writer.eventCount) (.runtimeError "FST temporary merge lost an event")
  pure (pass.times, mergedEvents indexedKey pass.staging)

def requireWaves (state : WaveState) : Except Error Unit :=
  refuse (limits.maximumContainerBytes < state.waves.length || state.waves.length < state.active)
    (.lengthError "FST value frame exceeds its container limit")

def valueSections (initialValues : List (ℕ × FstEncodedValue)) (handles : Handles)
    (times : List ℕ) (events : List SpoolEvent) : Except Error ValueSections := do
  let state ← writeWaves limits handles initialValues events
  requireWaves limits state
  let positions ← encodePositions state.positions
  pure ⟨state.waves, state.active, positions, timeBytes 0 times, times.length⟩

def requireDeclarations (writer : FstWriter) : Except Error TraceDeclarationModel :=
  match writer.declarations with
  | some model => pure model
  | none => throw (.logicError "FST declarations were not provided")

def publishContainer (writer : FstWriter) (finalTime : ℕ) : Except Error Bytes := do
  let model ← writer.requireDeclarations
  refuse (finalTime < writer.initialTime) (.invalidArgument "FST final time precedes initial time")
  requireCounts writer.limits model
  let (handles, hierarchyBytes) ← boundedHierarchy writer.limits model
  let (times, events) ← indexEvents writer handles finalTime
  requireFrame writer.limits 0 (handles.map (·.2))
  let _ ← storeBits writer.limits writer.settings.compression (initialBits (handles.map (·.2)))
  let sections ← valueSections writer.limits writer.initialValues handles times events
  let _ ← compressFstBlock hierarchyBytes .hierarchyGzipStoreV1
    writer.limits.maximumHierarchyBytes writer.limits.maximumContainerBytes
  let bytes :=
    assemble writer.settings model handles hierarchyBytes writer.initialTime finalTime sections
  refuse (writer.limits.maximumContainerBytes < bytes.length)
    (.lengthError "FST container exceeds its limit")
  pure bytes

end Publication

variable (writer : FstWriter)

def releaseBuffers : FstWriter :=
  { writer with
    staging := {}, initialValues := [], declarations := none, retainedBytes := 0 }

def fail (message : String) : FstWriter :=
  if writer.state = .failed then writer
  else releaseBuffers { writer with state := .failed, failure := message }

def bufferedBytes : ℕ := writer.retainedBytes + writer.staging.work

abbrev Outcome := FstWriter × Except Error Unit

def accept : Outcome := (writer, .ok ())

def reject (error : Error) : Outcome := (writer, .error error)

def terminate (error : Error) : Outcome := (writer.fail error.message, .error error)

def inState (state : FstWriterState) (message : String) (call : Outcome) : Outcome :=
  if writer.state = .failed then
    writer.reject (.logicError ("FST writer is terminal after failure: " ++ writer.failure))
  else if writer.state = state then call
  else writer.terminate (.logicError message)

def declared : TraceDeclarationModel := writer.declarations.getD {}

def declare (model : TraceDeclarationModel) : Outcome :=
  writer.inState .configuring "cannot replace FST declarations after begin" <|
    let outcome := do
      requireCounts writer.limits model
      let (_, bytes) ← boundedHierarchy writer.limits model
      refuse (writer.limits.maximumBufferBytes < bytes.length)
        (.lengthError "FST declaration buffer exceeds its limit")
      pure bytes.length
    match outcome with
    | .ok retained => accept { writer with declarations := some model, retainedBytes := retained }
    | .error (.lengthError message) => writer.terminate (.lengthError message)
    | .error error => reject { writer with declarations := none } error

def begin (writer : FstWriter) (initialTime : ℕ) : Outcome :=
  writer.inState .configuring "FST writer has already begun" <|
    if writer.declarations.isNone then
      writer.terminate (.logicError "FST declarations must precede begin")
    else accept { writer with initialTime := initialTime, state := .open }

def requireDeclared (signal : ℕ) (value : FstEncodedValue) : Except Error Unit := do
  let declaration ← writer.declared.variableOf signal
  let type ← writer.declared.typeOf declaration.type
  requireValueProfile type value

def bufferedValueBytes (value : FstEncodedValue) (fixedBytes : ℕ) : ℕ :=
  fixedBytes + (if value.payloadKind = .real then 8 else value.payload.length) +
    value.canonicalType.length

def setInitialValue (signal : ℕ) (value : FstEncodedValue) : Outcome :=
  writer.inState .open "FST initial values require an open writer" <|
    match writer.requireDeclared signal value with
    | .error error => writer.reject error
    | .ok () =>
      let bytes := bufferedValueBytes value 8
      if writer.limits.maximumValueBytes < value.payload.length then
        writer.terminate (.lengthError "FST value exceeds its writer limit")
      else if (writer.initialValues.lookup signal).isSome then
        writer.terminate (.logicError "FST initial value was already provided")
      else if writer.limits.maximumBufferBytes < writer.bufferedBytes ||
          writer.limits.maximumBufferBytes - writer.bufferedBytes < bytes then
        writer.terminate (.lengthError "FST initial-value buffer exceeds its limit")
      else
        accept { writer with
          initialValues := writer.initialValues ++ [(signal, value)]
          retainedBytes := writer.retainedBytes + bytes }

def stageChange (event : TraceEvent) (value : FstEncodedValue) : Except Error Staging := do
  refuse (writer.eventCount = writer.limits.maximumEvents)
    (.lengthError "FST change count exceeds its limit")
  let spooled : SpoolEvent :=
    { event := event, insertionOrder := writer.nextInsertionOrder, value := value }
  requireEventWork writer.limits writer.retainedBytes (spoolEventBytes + spooled.payloadBytes)
  stageSpoolEvent eventKey writer.limits writer.retainedBytes
    (writer.limits.maximumEventWorkBytes / 2) writer.staging spooled

def change (writer : FstWriter) (event : TraceEvent) (value : FstEncodedValue) : Outcome :=
  writer.inState .open "FST changes require an open writer" <|
    if event.time < writer.initialTime then
      writer.reject (.invalidArgument "FST change precedes initial time")
    else
      match writer.requireDeclared event.signal value with
      | .error error => writer.reject error
      | .ok () =>
        if writer.limits.maximumValueBytes < value.payload.length then
          writer.terminate (.lengthError "FST value exceeds its writer limit")
        else
          match writer.stageChange event value with
          | .error error => writer.terminate error
          | .ok staging =>
            accept { writer with
              staging := staging
              eventCount := writer.eventCount + 1
              nextInsertionOrder := writer.nextInsertionOrder + 1 }

def flush (writer : FstWriter) : Outcome :=
  writer.inState .open "FST flush requires an open writer" <|
    accept { writer with staging := spillEventBuffer eventKey writer.staging }

def close (finalTime : ℕ) : Outcome :=
  writer.inState .open
    (if writer.state = .complete then "FST writer is already closed"
      else "FST writer has not begun") <|
    match writer.publishContainer finalTime with
    | .error error => writer.terminate error
    | .ok bytes =>
      accept (releaseBuffers { writer with output := writer.output ++ bytes, state := .complete })

inductive Call
  | declare (model : TraceDeclarationModel)
  | begin (initialTime : ℕ)
  | setInitialValue (signal : ℕ) (value : FstEncodedValue)
  | change (event : TraceEvent) (value : FstEncodedValue)
  | flush
  | close (finalTime : ℕ)
deriving DecidableEq, Repr

def call : Call → Outcome
  | .declare model => writer.declare model
  | .begin initialTime => writer.begin initialTime
  | .setInitialValue signal value => writer.setInitialValue signal value
  | .change event value => writer.change event value
  | .flush => writer.flush
  | .close finalTime => writer.close finalTime

def run (writer : FstWriter) : List Call → Outcome
  | [] => accept writer
  | c :: calls =>
    match writer.call c with
    | (writer, .ok ()) => run writer calls
    | (writer, .error error) => writer.reject error

end FstWriter

end FsimRuntime.Fst
