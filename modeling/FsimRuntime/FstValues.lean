import FsimRuntime.FstDeclarations

/-!
# Values and changes of an FST trace

Encoded values with the payloads that the encoders of `fst_value_encoder.cpp`
build, trace events with their ordering identity, and the bytes of one value
change, of a table of times and of a table of positions.
-/

namespace FsimRuntime.Fst

inductive FstValueProfile
  | bitVector | logicVector | systemVerilogBit | systemVerilogLogic | systemVerilogReg
  | systemVerilogShortReal | systemVerilogReal | systemVerilogRealtime | systemVerilogTime
  | systemVerilogOpaqueHandle | systemVerilogString | enumeration | vhdlPhysical | vhdlTime
  | vhdlLogic9 | typedLeaf
deriving DecidableEq, Repr

inductive FstPayloadKind
  | symbols | real | string
deriving DecidableEq, Repr

inductive TraceRegion
  | snapshot | preponed | active | inactive | nonblockingAssign | observed | reactive | postponed
  | callback
deriving DecidableEq, Repr

def payloadKindOf : FstValueProfile → FstPayloadKind
  | .systemVerilogShortReal | .systemVerilogReal | .systemVerilogRealtime => .real
  | .systemVerilogString => .string
  | _ => .symbols

def logic4Symbols : Bytes := ascii "01xz"

def logic9Symbols : Bytes := ascii "ux01zwlh-"

/-- What the encoders give for a profile. -/
def validPayload (profile : FstValueProfile) (width : ℕ) (payload : Bytes)
    (realBits : ℕ) : Bool :=
  match payloadKindOf profile with
  | .symbols =>
    width ≠ 0 && payload.length = width && realBits = 0 &&
      payload.all (if profile = .vhdlLogic9 then logic9Symbols else logic4Symbols).contains
  | .real => (width = 32 || width = 64) && payload.isEmpty && realBits < 2 ^ 64
  | .string => width = 0 && realBits = 0 && payload.length ≤ 2 ^ 20

structure FstEncodedValue where
  profile : FstValueProfile
  width : ℕ
  payload : Bytes
  realBits : ℕ
  canonicalType : Bytes
  valid : validPayload profile width payload realBits
deriving DecidableEq, Repr

def FstEncodedValue.payloadKind (value : FstEncodedValue) : FstPayloadKind :=
  payloadKindOf value.profile

def fstProfileIsPacked : FstValueProfile → Bool
  | .bitVector | .systemVerilogBit | .logicVector | .systemVerilogLogic | .systemVerilogReg => true
  | _ => false

variable (type : TraceTypeDeclaration)

def expectedProfile : Option FstValueProfile :=
  match type.kind with
  | .packed => none
  | .systemVerilogString => some .systemVerilogString
  | .enumeration => some .enumeration
  | .vhdlPhysical => some .vhdlPhysical
  | .vhdlTime => some .vhdlTime
  | .vhdlLogic9 => some .vhdlLogic9
  | .typedLeaf => some .typedLeaf
  | .systemVerilogScalar =>
    match type.scalarKind with
    | .shortReal => some .systemVerilogShortReal
    | .real => some .systemVerilogReal
    | .realtime => some .systemVerilogRealtime
    | .time => some .systemVerilogTime
    | .chandle => some .systemVerilogOpaqueHandle
    | .none => none

def expectedPayload : FstPayloadKind :=
  if type.kind = .systemVerilogString then .string else if isReal type then .real else .symbols

def requireValueProfile (value : FstEncodedValue) : Except Error Unit := do
  refuse (value.width ≠ type.width)
    (.invalidArgument "FST value width does not match its declaration")
  refuse (type.canonicalMetadata ≠ value.canonicalType)
    (.invalidArgument "FST value type metadata does not match its declaration")
  if type.kind = .packed then
    refuse (!fstProfileIsPacked value.profile)
      (.invalidArgument "FST packed declaration has an incompatible value profile")
  else
    refuse (expectedProfile type).isNone (.invalidArgument "unsupported FST trace type")
    refuse (expectedProfile type ≠ some value.profile)
      (.invalidArgument "FST scalar declaration has an incompatible value profile")
    refuse (value.payloadKind ≠ expectedPayload type)
      (.invalidArgument "FST value payload does not match its declaration")

structure TraceEvent where
  signal : ℕ
  time : ℕ
  delta : ℕ
  region : TraceRegion
  sequence : ℕ
deriving DecidableEq, Repr

def TraceEvent.identity (event : TraceEvent) : ℕ ×ₗ ℕ ×ₗ ℕ ×ₗ ℕ ×ₗ ℕ :=
  toLex (event.time, toLex (event.delta, toLex (event.region.ctorIdx,
    toLex (event.sequence, event.signal))))

def allBinary (symbols : Bytes) : Bool := symbols.all fun symbol => symbol = 48 || symbol = 49

def packSymbols : ℕ → Bytes → ℕ
  | _, [] => 0
  | weight, symbol :: symbols => (if symbol = 49 then weight else 0) +
      packSymbols (weight / 2) symbols

def packedBinaryBytes : ℕ → Bytes → Bytes
  | 0, _ => []
  | _ + 1, [] => []
  | fuel + 1, symbol :: symbols =>
    UInt8.ofNat (packSymbols 128 ((symbol :: symbols).take 8)) ::
      packedBinaryBytes fuel ((symbol :: symbols).drop 8)

def packedBinary (symbols : Bytes) : Bytes := packedBinaryBytes symbols.length symbols

def parseLogic9 (symbol : UInt8) : Option ℕ :=
  match Char.ofNat symbol.toNat with
  | 'U' | 'u' => some 0
  | 'X' | 'x' => some 1
  | '0' => some 2
  | '1' => some 3
  | 'Z' | 'z' => some 4
  | 'W' | 'w' => some 5
  | 'L' | 'l' => some 6
  | 'H' | 'h' => some 7
  | '-' => some 8
  | _ => none

def logic9Digits (code : ℕ) : Bytes :=
  [3, 2, 1, 0].map fun shift => if code.testBit shift then 49 else 48

/-- Four binary symbols for each nine-state symbol. -/
def logic9BinarySymbols (symbols : Bytes) : Bytes :=
  symbols.flatMap fun symbol => logic9Digits ((parseLogic9 symbol).getD 0)

def scalarCode (symbol : UInt8) : Option ℕ :=
  match Char.ofNat symbol.toNat with
  | '0' => some 0
  | '1' => some 2
  | 'x' => some 1
  | 'z' => some 3
  | _ => none

def symbolChange (delta : ℕ) : Bytes → Bytes
  | [symbol] => varint (delta * 4 + (scalarCode symbol).getD 0)
  | symbols =>
    if allBinary symbols then varint (delta * 2) ++ packedBinary symbols
    else varint (delta * 2 + 1) ++ symbols

def changeBytes (delta : ℕ) (value : FstEncodedValue) : Bytes :=
  match value.payloadKind with
  | .real => varint (delta * 2 + 1) ++ le64 value.realBits
  | .string => varint (delta * 2) ++ varint value.payload.length ++ value.payload
  | .symbols =>
    symbolChange delta
      (if type.kind = .vhdlLogic9 then logic9BinarySymbols value.payload else value.payload)

def requireSymbolChange (delta : ℕ) : Bytes → Except Error Unit
  | [symbol] => do
    refuse (sizeMax / 4 < delta) (.lengthError "FST scalar time delta overflows")
    refuse (scalarCode symbol).isNone (.invalidArgument "unsupported FST scalar symbol")
  | _ => refuse (sizeMax / 2 < delta) (.lengthError "FST vector time delta overflows")

def requirePayload (delta : ℕ) (value : FstEncodedValue) : Except Error Unit :=
  match value.payloadKind with
  | .real | .string => pure ()
  | .symbols =>
    if type.kind = .vhdlLogic9 then do
      refuse (value.payload.any fun symbol => (parseLogic9 symbol).isNone)
        (.invalidArgument "unsupported FST Logic9 symbol")
      requireSymbolChange delta (logic9BinarySymbols value.payload)
    else requireSymbolChange delta value.payload

def appendTimedWaveChange (delta : ℕ) (value : FstEncodedValue) : Except Error Bytes := do
  refuse (sizeMax / 2 < delta) (.lengthError "FST typed time delta overflows")
  requirePayload type delta value
  pure (changeBytes type delta value)

theorem appendTimedWaveChange_ok {type : TraceTypeDeclaration} {d : ℕ} {value : FstEncodedValue}
    {bytes : Bytes} (h : appendTimedWaveChange type d value = .ok bytes) :
    bytes = changeBytes type d value := by
  obtain ⟨_, -, h⟩ := bind_ok.mp h
  obtain ⟨_, -, h⟩ := bind_ok.mp h
  exact (Except.ok.inj h).symm

def timeBytes : ℕ → List ℕ → Bytes
  | _, [] => []
  | previous, time :: times => varint (time - previous) ++ timeBytes time times

def zeroRunBytes (zeroRun : ℕ) : Bytes := if zeroRun = 0 then [] else varint (zeroRun * 2)

/-- Differences of the positions, and the lengths of the runs without one. -/
def positionBytes : ℕ → ℕ → List (Option ℕ) → Bytes
  | _, zeroRun, [] => zeroRunBytes zeroRun
  | previous, zeroRun, none :: positions => positionBytes previous (zeroRun + 1) positions
  | previous, zeroRun, some position :: positions =>
    zeroRunBytes zeroRun ++ varint ((position - previous) * 2 + 1) ++
      positionBytes position 0 positions

def requirePositions : ℕ → List (Option ℕ) → Except Error Unit
  | _, [] => pure ()
  | previous, none :: positions => requirePositions previous positions
  | previous, some position :: positions => do
    refuse (position ≤ previous || sizeMax / 2 < position - previous)
      (.lengthError "FST value position exceeds its field")
    requirePositions position positions

def encodePositions (positions : List (Option ℕ)) : Except Error Bytes := do
  requirePositions 0 positions
  pure (positionBytes 0 0 positions)

end FsimRuntime.Fst
