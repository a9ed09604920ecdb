import FsimRuntime.FstValues

/-!
# The FST container

The bytes that `publish_container` writes once every part is known, and the
part that the changes decide: the table of times and, for each handle, the chain
of its values. A chain holds the place in the table of times and the value; an
initial value stands at place zero.
-/

namespace FsimRuntime.Fst
open List

inductive FstWriterCompression
  | none | deterministic
deriving DecidableEq, Repr

structure FstSettings where
  timescaleExponent : Int8
  compression : FstWriterCompression
deriving DecidableEq, Repr

def unknownInitialValue (type : TraceTypeDeclaration) : Bytes :=
  if type.kind = .systemVerilogString then []
  else if isReal type then le64 0x7ff8000000000000
  else replicate (storageWidth type) 120

def initialBits (types : List TraceTypeDeclaration) : Bytes := types.flatMap unknownInitialValue

def compressed (compression : FstWriterCompression) (bits : Bytes) : Bool :=
  compression = .deterministic && minimumInputBytes ≤ bits.length

def storedBits (compression : FstWriterCompression) (bits : Bytes) : Bytes :=
  if compressed compression bits then encodeFstBlock .initialValueZlibFixedV1 bits else bits

structure ValueSections where
  waves : Bytes
  active : ℕ
  positions : Bytes
  times : Bytes
  timestampCount : ℕ

def containerProfile : FstWriterCompression → Bytes
  | .deterministic =>
    ascii "fsim clean-room FST profile 3; gzip-store-v1; zlib-fixed-rle-v1; metadata-v1"
  | .none => ascii "fsim clean-room FST profile 3; gzip-store-v1; values-none; metadata-v1"

def endianTest : Bytes := [0x69, 0x57, 0x14, 0x8b, 0x0a, 0xbf, 0x05, 0x40]

def hasRootDeclarations (model : TraceDeclarationModel) : Bool :=
  model.entries.any fun entry => model.entryScope entry = .ok 0

def header (settings : FstSettings) (model : TraceDeclarationModel) (initialTime finalTime : ℕ)
    (handleCount : ℕ) : Bytes :=
  [0] ++ be64 329 ++ be64 initialTime ++ be64 finalTime ++ endianTest ++ be64 0 ++
    be64 (model.scopes.length + (hasRootDeclarations model).toNat) ++ be64 model.entries.length ++
    be64 handleCount ++ be64 (if handleCount = 0 then 0 else 1) ++
    [settings.timescaleExponent.toUInt8] ++ containerProfile settings.compression ++
    replicate (128 - (containerProfile settings.compression).length) 0 ++
    replicate 119 0 ++ [0] ++ be64 0

def block (type : UInt8) (payload : Bytes) : Bytes := [type] ++ be64 (payload.length + 8) ++ payload

def skipBlock : Bytes := 0xff :: replicate 35 0

def valuesPayload (settings : FstSettings) (types : List TraceTypeDeclaration)
    (initialTime finalTime : ℕ) (sections : ValueSections) : Bytes :=
  let bits := initialBits types
  let stored := storedBits settings.compression bits
  be64 initialTime ++ be64 finalTime ++ be64 (sections.waves.length - sections.active) ++
    varint bits.length ++ varint stored.length ++ varint types.length ++ stored ++
    varint (if sections.active = 0 then 0 else types.length) ++ ascii "4" ++ sections.waves ++
    sections.positions ++ be64 sections.positions.length ++ sections.times ++
    be64 sections.times.length ++ be64 sections.times.length ++ be64 sections.timestampCount

def geometry (types : List TraceTypeDeclaration) : Bytes :=
  types.flatMap fun type => varint (storageWidth type)

def geometryPayload (types : List TraceTypeDeclaration) : Bytes :=
  be64 (geometry types).length ++ be64 (geometry types).length ++ geometry types

def hierarchyPayload (bytes : Bytes) : Bytes :=
  be64 bytes.length ++ encodeFstBlock .hierarchyGzipStoreV1 bytes

def assemble (settings : FstSettings) (model : TraceDeclarationModel) (handles : Handles)
    (hierarchyBytes : Bytes) (initialTime finalTime : ℕ) (sections : ValueSections) : Bytes :=
  let types := handles.map (·.2)
  header settings model initialTime finalTime types.length ++
    (if types.isEmpty then skipBlock
      else block 8 (valuesPayload settings types initialTime finalTime sections)) ++
    block 3 (geometryPayload types) ++ block 4 (hierarchyPayload hierarchyBytes)

abbrev Chain := List (ℕ × FstEncodedValue)

/-- The changes of a chain after the place `previous`. -/
def chainChanges (type : TraceTypeDeclaration) : ℕ → Chain → Bytes
  | _, [] => []
  | previous, (place, value) :: chain =>
    changeBytes type (place - previous) value ++ chainChanges type place chain

def waveChain (type : TraceTypeDeclaration) (chain : Chain) : Bytes :=
  if chain.isEmpty then [] else varint 0 ++ chainChanges type 0 chain

def chainPositions : ℕ → List Bytes → List (Option ℕ)
  | _, [] => []
  | offset, chain :: chains =>
    (if chain.isEmpty then none else some (offset + 1)) ::
      chainPositions (offset + chain.length) chains

/-- The times that the changes use and the chain of each handle. -/
structure TraceContent where
  times : List ℕ
  chains : List Chain

def waveChains (handles : Handles) (chains : List Chain) : List Bytes :=
  zipWith (fun handle chain => waveChain handle.2 chain) handles chains

def TraceContent.sections (content : TraceContent) (handles : Handles) : ValueSections where
  waves := (waveChains handles content.chains).flatten
  active := (waveChains handles content.chains).countP fun chain => !chain.isEmpty
  positions := positionBytes 0 0 (chainPositions 0 (waveChains handles content.chains))
  times := timeBytes 0 content.times
  timestampCount := content.times.length

abbrev Change := TraceEvent × FstEncodedValue

def extendTimes (times : List ℕ) (time : ℕ) : List ℕ :=
  if times.getLast? = some time then times else times ++ [time]

def initialTimes (initialTime : ℕ) (initialValues : List (ℕ × FstEncodedValue)) : List ℕ :=
  if initialValues.isEmpty then [] else [initialTime]

def initialChain (initialValues : List (ℕ × FstEncodedValue)) (signal : ℕ) : Chain :=
  (initialValues.lookup signal).toList.map fun value => (0, value)

def contentOf (initialTime : ℕ) (initialValues : List (ℕ × FstEncodedValue))
    (handles : Handles) (changes : List Change) : TraceContent :=
  let times := (changes.map (·.1.time)).foldl extendTimes (initialTimes initialTime initialValues)
  { times := times
    chains := handles.map fun (signal, _) =>
      initialChain initialValues signal ++
        (changes.filter (·.1.signal = signal)).map fun (event, value) =>
          (times.idxOf event.time, value) }

end FsimRuntime.Fst
