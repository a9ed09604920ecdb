import FsimRuntime.PackedValue

/-!
# Packed values as functions of the bit index

A value is the list of its states, of one of two domains. The operations are
described index by index: a replacement gives the indices it addresses a new
state and leaves the others. Promotion keeps every state under its Logic9 name.
-/

namespace FsimRuntime.Packed
open List
open BitWords (bit)

inductive Bits
  | logic4 (states : List Logic4)
  | logic9 (states : List Logic9)
  deriving DecidableEq, Repr

namespace Bits

def width : Bits → ℕ
  | .logic4 states => states.length
  | .logic9 states => states.length

def isLogic9 : Bits → Bool
  | .logic4 _ => false
  | .logic9 _ => true

def states9 : Bits → List Logic9
  | .logic4 states => states.map toLogic9
  | .logic9 states => states

def state4 : Bits → ℕ → Logic4
  | .logic4 states, i => states.getD i .x
  | .logic9 states, i => toLogic4 (states.getD i .x)

def state9 (bits : Bits) (i : ℕ) : Logic9 := bits.states9.getD i .x

def promote (bits : Bits) : Bits := .logic9 bits.states9

def replaceStates {σ : Type} (new : ℕ → Option σ) (states : List σ) : List σ :=
  states.mapIdx fun i state => (new i).getD state

def replace (new : ℕ → Option Logic4) : Bits → Bits
  | .logic4 states => .logic4 (replaceStates new states)
  | .logic9 states => .logic9 (replaceStates (fun i => (new i).map toLogic9) states)

def replace9 (new : ℕ → Option Logic9) (bits : Bits) : Bits :=
  .logic9 (replaceStates new bits.states9)

def slice (offset width : ℕ) : Bits → Bits
  | .logic4 states => .logic4 ((states.drop offset).take width)
  | .logic9 states => .logic9 ((states.drop offset).take width)

def single {σ : Type} (index : ℕ) (state : σ) : ℕ → Option σ :=
  fun i => if i = index then some state else none

def range {σ : Type} (offset width : ℕ) (source : ℕ → σ) : ℕ → Option σ :=
  fun i => if offset ≤ i ∧ i < offset + width then some (source (i - offset)) else none

def masked {σ : Type} (mask : ℕ → Bool) (offset : ℕ) (new : ℕ → Option σ) :
    ℕ → Option σ :=
  fun i => if mask (i - offset) then new i else none

end Bits

namespace PackedLogic4

def Logic4Word.state (word : Logic4Word) (index : ℕ) : Logic4 :=
  Logic4.ofPlanes (word.aval.getLsbD index) (word.bval.getLsbD index)

def Logic9Word.state (word : Logic9Word) (index : ℕ) : Logic9 :=
  Logic9.ofPlanes ((word.planes 0).getLsbD index) ((word.planes 1).getLsbD index)
    ((word.planes 2).getLsbD index) ((word.planes 3).getLsbD index)

def view (v : PackedLogic4) : Bits :=
  if v.isLogic9 then .logic9 ((range v.width).map v.readLogic9)
  else .logic4 ((range v.width).map v.readLogic4)

end PackedLogic4

namespace Bits
open PackedLogic4

section Operations

variable (bits : Bits)

def fill (value : Logic4) : Bits := bits.replace fun _ => some value

def fillLogic9 (value : UInt8) : Bits := bits.replace9 fun _ => some (Logic9.ofCode value.toNat)

def set (index : ℕ) (value : Logic4) : Except Error Bits := do
  checkIndex index bits.width
  pure (bits.replace (single index value))

def setLogic9 (index : ℕ) (value : UInt8) : Except Error Bits := do
  checkIndex index bits.width
  pure (bits.replace9 (single index (Logic9.ofCode value.toNat)))

def insertWord (source : Logic4Word) (offset : ℕ) : Except Error Bits := do
  requireWordRange bits.width source offset "insert word range is outside its target value"
  pure (bits.replace (range offset source.width source.state))

def insertMaskedWord (source : Logic4Word) (mask : Word) (offset : ℕ) : Except Error Bits := do
  requireWordRange bits.width source offset "masked insert word range is outside its target value"
  pure (bits.replace (masked mask.getLsbD offset (range offset source.width source.state)))

def insertBits (source : Bits) (offset : ℕ) : Except Error Bits := do
  requireBitRange bits.width source.width offset
  pure (if bits.isLogic9 || source.isLogic9
    then bits.replace9 (range offset source.width source.state9)
    else bits.replace (range offset source.width source.state4))

def assignWord (source : Logic4Word) : Except Error Bits := do
  requireMatchingWord bits.isLogic9 bits.width source
  pure (bits.replace fun i => some (source.state i))

def assignLogic9Word (source : Logic9Word) : Except Error Bits := do
  requireSingleWord bits.isLogic9 bits.width source
    "nine-state word assignment requires a matching single-word value"
  pure (bits.replace9 fun i => some (source.state i))

def insertMaskedLogic9Word (source : Logic9Word) (mask : Word) : Except Error Bits := do
  requireSingleWord bits.isLogic9 bits.width source
    "masked nine-state word assignment requires a matching single-word value"
  pure (bits.replace9 (masked mask.getLsbD 0 fun i => some (source.state i)))

def extractBits (offset width : ℕ) : Except Error Bits := do
  requireExtractRange bits.width offset width
  pure (bits.slice offset width)

end Operations

def ofWidth (width : ℕ) (initial : Logic4) : Except Error Bits := do
  checkedPackedWidth width
  pure (.logic4 (replicate width initial))

def parseStates {σ : Type} (parse : Char → Option σ) (message : String) (digits : List Char) :
    Except Error (List σ) :=
  match digits.reverse.mapM parse with
  | none => .error (.invalidArgument message)
  | some states => .ok states

def fromMsbString (value : String) : Except Error Bits := do
  checkedPackedWidth value.toList.length
  let states ← parseStates parseLogic4 "four-state vector contains an invalid digit" value.toList
  pure (.logic4 states)

def fromLogic9MsbString (value : String) : Except Error Bits := do
  checkedPackedWidth value.toList.length
  let states ← parseStates parseLogic9 "nine-state vector contains an invalid digit" value.toList
  pure (.logic9 states)

def fromAvalBval (width : ℕ) (aval bval : Word) : Except Error Bits := do
  requireWordWidth width "four-state word width must be between 1 and 64"
  pure (.logic4 ((List.range width).map (Logic4Word.mk width aval bval).state))

def fromWordPlanes (width : ℕ) (aval bval : List Word) : Except Error Bits := do
  requirePlanes width [aval, bval] "four-state plane dimensions do not match the packed width"
  checkedPackedWidth width
  pure (.logic4 ((List.range width).map fun i => Logic4.ofPlanes (bit aval i) (bit bval i)))

def fromLogic9WordPlanes (width : ℕ) (planes : Fin 4 → List Word) : Except Error Bits := do
  requirePlanes width ((List.finRange 4).map planes)
    "nine-state plane dimensions do not match the packed width"
  checkedPackedWidth width
  pure (.logic9 ((List.range width).map fun i =>
    Logic9.ofPlanes (bit (planes 0) i) (bit (planes 1) i) (bit (planes 2) i) (bit (planes 3) i)))

def fromLogic9Word (value : Logic9Word) : Except Error Bits := do
  requireWordWidth value.width "nine-state word width must be between 1 and 64"
  pure (.logic9 ((List.range value.width).map value.state))

end Bits

end FsimRuntime.Packed
