import FsimRuntime.BitWords
import FsimRuntime.Logic
import FsimRuntime.Refusal

/-!
# Packed four-state values

`PackedLogic4` of `packed_value.cpp`. A value keeps two planes of words, or
four once it was promoted to nine states. The planes live in the four inline
words while they fit (two Logic4 planes of up to 128 bits, four Logic9 planes
of up to 64 bits) and in the vectors of a `WideStorage` otherwise. Copies share
those vectors until one is written, which is the value semantics used here;
values bound to the planes of a component are not modelled.
-/

namespace FsimRuntime.Packed
open BitWords

abbrev Word := BitVec 64

inductive Error
  | invalidArgument (message : String)
  | outOfRange (message : String)
  | lengthError (message : String)
  deriving DecidableEq, Repr

def sizeMax : ℕ := 2 ^ 64 - 1

def wordCount (width : ℕ) : ℕ := (width + 63) / 64

def finalWordMask (width : ℕ) : Word :=
  if width % 64 = 0 then ~~~0 else (1#64 <<< (width % 64)) - 1

def maskLast (words : List Word) (width : ℕ) : List Word :=
  words.modify (words.length - 1) (· &&& finalWordMask width)

def writeBit (words : List Word) (index : ℕ) (value : Bool) : List Word :=
  let mask : Word := 1#64 <<< (index % 64)
  words.modify (index / 64) fun word => if value then word ||| mask else word &&& ~~~mask

def copiedWord (source : List Word) (offset rangeEnd word : ℕ) (old : Word) : Word :=
  let destinationBegin := word * 64
  let copiedBegin := max destinationBegin offset
  let copiedEnd := min (destinationBegin + 64) rangeEnd
  let copiedWidth := copiedEnd - copiedBegin
  let bits := window source (copiedBegin - offset)
  let copiedMask : Word := if copiedWidth = 64 then ~~~0 else (1#64 <<< copiedWidth) - 1
  let shift := copiedBegin - destinationBegin
  (old &&& ~~~(copiedMask <<< shift)) ||| ((bits &&& copiedMask) <<< shift)

def copyBitRange (destination source : List Word) (offset width : ℕ) : List Word :=
  let rangeEnd := offset + width
  let firstWord := offset / 64
  let lastWord := (rangeEnd - 1) / 64
  editWords (copiedWord source offset rangeEnd) firstWord (lastWord + 1 - firstWord) destination

def extractBitRange (source : List Word) (offset : ℕ) (destination : List Word) : List Word :=
  (List.range destination.length).map fun word => window source (offset + word * 64)

def copyWordRange (destination : List Word) (source : Word) (offset width : ℕ) : List Word :=
  let sourceMask := finalWordMask width
  let source := source &&& sourceMask
  let firstWord := offset / 64
  let shift := offset % 64
  if shift = 0 then destination.modify firstWord fun word => (word &&& ~~~sourceMask) ||| source
  else
    let firstWidth := min width (64 - shift)
    let firstMask := finalWordMask firstWidth <<< shift
    let first := destination.modify firstWord fun word =>
      (word &&& ~~~firstMask) ||| ((source <<< shift) &&& firstMask)
    if firstWidth = width then first
    else
      let secondMask := finalWordMask (width - firstWidth)
      first.modify (firstWord + 1) fun word =>
        (word &&& ~~~secondMask) ||| ((source >>> firstWidth) &&& secondMask)

def readWordRange (source : List Word) (offset width : ℕ) : Word :=
  let firstWord := offset / 64
  let shift := offset % 64
  let low := source.getD firstWord 0 >>> shift
  let result := if shift ≠ 0 ∧ 64 < shift + width
    then low ||| (source.getD (firstWord + 1) 0 <<< (64 - shift)) else low
  result &&& finalWordMask width

/-- Two words for each of two planes. -/
structure InlineStorage where
  aval : Word × Word
  bval : Word × Word
  deriving DecidableEq, Repr

structure WideStorage where
  aval : List Word
  bval : List Word
  logic9Plane2 : List Word
  logic9Plane3 : List Word
  deriving DecidableEq, Repr

inductive Storage
  | inline (value : InlineStorage)
  | wide (value : WideStorage)
  deriving DecidableEq, Repr

structure PackedLogic4 where
  width : ℕ
  isLogic9 : Bool
  storage : Storage
  deriving DecidableEq, Repr

/-- `InlineStorage` holding the planes of a narrow Logic9 value puts plane 2 into the second
`aval` word and plane 3 into the second `bval` word. -/
def Storage.plane (storage : Storage) (words plane : ℕ) : List Word :=
  match storage, plane with
  | .inline s, 0 => [s.aval.1, s.aval.2].take words
  | .inline s, 1 => [s.bval.1, s.bval.2].take words
  | .inline s, 2 => [s.aval.2]
  | .inline s, _ => [s.bval.2]
  | .wide s, 0 => s.aval
  | .wide s, 1 => s.bval
  | .wide s, 2 => s.logic9Plane2
  | .wide s, _ => s.logic9Plane3

def storePair (old : Word × Word) : List Word → Word × Word
  | [] => old
  | [first] => (first, old.2)
  | first :: second :: _ => (first, second)

def Storage.setPlane (storage : Storage) (plane : ℕ) (words : List Word) : Storage :=
  match storage, plane with
  | .inline s, 0 => .inline { s with aval := storePair s.aval words }
  | .inline s, 1 => .inline { s with bval := storePair s.bval words }
  | .inline s, 2 => .inline { s with aval := (s.aval.1, words.headD 0) }
  | .inline s, _ => .inline { s with bval := (s.bval.1, words.headD 0) }
  | .wide s, 0 => .wide { s with aval := words }
  | .wide s, 1 => .wide { s with bval := words }
  | .wide s, 2 => .wide { s with logic9Plane2 := words }
  | .wide s, _ => .wide { s with logic9Plane3 := words }

namespace PackedLogic4

variable (v : PackedLogic4)

def usesInlineStorage : Bool := v.width ≤ if v.isLogic9 then 64 else 128

def planeCount : ℕ := if v.isLogic9 then 4 else 2

def planeWords (plane : ℕ) : List Word :=
  if v.width = 0 then [] else v.storage.plane (wordCount v.width) plane

def editPlane (plane : ℕ) (edit : List Word → List Word) : PackedLogic4 :=
  if v.width = 0 then v
  else { v with storage := v.storage.setPlane plane (edit (v.planeWords plane)) }

def editPlanes (edit : ℕ → List Word → List Word) : PackedLogic4 :=
  (List.range v.planeCount).foldl (fun v plane => v.editPlane plane (edit plane)) v

def maskUnusedBits : PackedLogic4 :=
  v.editPlanes fun _ words => maskLast words v.width

end PackedLogic4

namespace PackedLogic4

def checkIndex (index width : ℕ) : Except Error Unit :=
  refuse (width ≤ index) (.outOfRange "packed value bit index is out of range")

variable (v : PackedLogic4)

def readLogic4 (index : ℕ) : Logic4 :=
  Logic4.ofPlanes (bit (v.planeWords 0) index) (bit (v.planeWords 1) index)

def readLogic9 (index : ℕ) : Logic9 :=
  Logic9.ofPlanes (bit (v.planeWords 0) index) (bit (v.planeWords 1) index)
    (bit (v.planeWords 2) index) (bit (v.planeWords 3) index)

def get (index : ℕ) : Except Error Logic4 := do
  checkIndex index v.width
  pure (if v.isLogic9 then toLogic4 (v.readLogic9 index) else v.readLogic4 index)

def getLogic9 (index : ℕ) : Except Error Logic9 := do
  checkIndex index v.width
  pure (if v.isLogic9 then v.readLogic9 index else toLogic9 (v.readLogic4 index))

def equal (left right : PackedLogic4) : Bool :=
  left.width = right.width && left.isLogic9 = right.isLogic9 &&
    (List.range left.planeCount).all fun plane => left.planeWords plane = right.planeWords plane

/-- A Logic9 object can hold any byte; the bytes past the enumerators stand for `x`. -/
def canonicalLogic9Value (value : UInt8) : ℕ := if value ≤ 8 then value.toNat else Logic9.x.code

def fillWords (value : Bool) (words : List Word) : List Word :=
  words.map fun _ => if value then ~~~0 else 0

def promoteToLogic9 : PackedLogic4 :=
  if v.isLogic9 then v
  else match v.storage with
    | .inline s =>
      if v.width ≤ 64 then
        maskUnusedBits { v with
          isLogic9 := true
          storage := .inline ⟨(s.aval.1, ~~~s.aval.1 &&& s.bval.1), (~~~s.bval.1, 0)⟩ }
      else
        let words := wordCount v.width
        let aval := [s.aval.1, s.aval.2].take words
        let bval := [s.bval.1, s.bval.2].take words
        maskUnusedBits { v with
          isLogic9 := true
          storage := .wide ⟨aval, bval.map (~~~·), List.zipWith (~~~· &&& ·) aval bval,
            List.replicate words 0⟩ }
    | .wide s =>
      maskUnusedBits { v with
        isLogic9 := true
        storage := .wide ⟨s.aval, s.bval.map (~~~·), List.zipWith (~~~· &&& ·) s.aval s.bval,
          List.replicate (wordCount v.width) 0⟩ }

def fill (value : Logic4) : PackedLogic4 :=
  if v.isLogic9 then
    maskUnusedBits (v.editPlanes fun plane => fillWords ((toLogic9 value).plane plane))
  else
    maskUnusedBits (v.editPlanes fun plane =>
      fillWords (value.plane plane))

def fillLogic9 (value : UInt8) : PackedLogic4 :=
  maskUnusedBits (v.promoteToLogic9.editPlanes fun plane =>
    fillWords ((canonicalLogic9Value value).testBit plane))

def setLogic9 (index : ℕ) (value : UInt8) : Except Error PackedLogic4 := do
  checkIndex index v.width
  pure (v.promoteToLogic9.editPlanes fun plane words =>
    writeBit words index ((canonicalLogic9Value value).testBit plane))

def set (index : ℕ) (value : Logic4) : Except Error PackedLogic4 := do
  checkIndex index v.width
  if v.isLogic9 then v.setLogic9 index (UInt8.ofNat (toLogic9 value).code)
  else pure (v.editPlanes fun plane words =>
    writeBit words index (value.plane plane))

structure Logic4Word where
  width : ℕ
  aval : Word
  bval : Word
  deriving DecidableEq, Repr

def Logic4Word.plane (word : Logic4Word) (plane : ℕ) : Word :=
  if plane = 0 then word.aval else word.bval

structure Logic9Word where
  width : ℕ
  planes : Fin 4 → Word

def outsideTarget (width sourceWidth offset : ℕ) : Bool :=
  width < offset || width - offset < sourceWidth

def requireWordRange (width : ℕ) (source : Logic4Word) (offset : ℕ) (message : String) :
    Except Error Unit :=
  refuse (source.width = 0 || 64 < source.width || outsideTarget width source.width offset)
    (.invalidArgument message)

def promotedPlane (aval bval : Word) : ℕ → Word
  | 0 => aval
  | 1 => ~~~bval
  | 2 => ~~~aval &&& bval
  | _ => 0

def writeWord (source : Logic4Word) (offset : ℕ) : PackedLogic4 :=
  if v.isLogic9 then
    let mask := finalWordMask source.width
    let aval := source.aval &&& mask
    let bval := source.bval &&& mask
    maskUnusedBits (v.editPlanes fun plane words =>
      copyWordRange words (promotedPlane aval bval plane) offset source.width)
  else
    maskUnusedBits (v.editPlanes fun plane words =>
      copyWordRange words (source.plane plane) offset source.width)

def insertWord (source : Logic4Word) (offset : ℕ) : Except Error PackedLogic4 := do
  requireWordRange v.width source offset "insert word range is outside its target value"
  pure (v.writeWord source offset)

def insertMaskedWord (source : Logic4Word) (mask : Word) (offset : ℕ) :
    Except Error PackedLogic4 := do
  requireWordRange v.width source offset "masked insert word range is outside its target value"
  let widthMask := finalWordMask source.width
  let mask := mask &&& widthMask
  if mask = 0 then pure v
  else if mask = widthMask then v.insertWord source offset
  else if v.isLogic9 then
    (List.range source.width).foldlM (fun v index =>
      if mask.getLsbD index then
        v.set (offset + index)
          (Logic4.ofPlanes (source.aval.getLsbD index) (source.bval.getLsbD index))
      else pure v) v
  else if offset % 64 = 0 then
    pure (maskUnusedBits (v.editPlanes fun plane words =>
      words.modify (offset / 64) fun word =>
        (word &&& ~~~mask) ||| (source.plane plane &&& mask)))
  else
    pure (maskUnusedBits (v.editPlanes fun plane words =>
      copyWordRange words
        ((readWordRange words offset source.width &&& ~~~mask) ||| (source.plane plane &&& mask))
        offset source.width))

def requireBitRange (width sourceWidth offset : ℕ) : Except Error Unit :=
  refuse (sourceWidth = 0 || outsideTarget width sourceWidth offset)
    (.invalidArgument "insert range is outside its target value")

def insertBits (v source : PackedLogic4) (offset : ℕ) : Except Error PackedLogic4 := do
  requireBitRange v.width source.width offset
  if !v.isLogic9 && !source.isLogic9 then
    pure (maskUnusedBits (v.editPlanes fun plane words =>
      copyBitRange words (source.planeWords plane) offset source.width))
  else
    pure (maskUnusedBits (v.promoteToLogic9.editPlanes fun plane words =>
      copyBitRange words (source.promoteToLogic9.planeWords plane) offset source.width))

def requireMatchingWord (isLogic9 : Bool) (width : ℕ) (source : Logic4Word) : Except Error Unit :=
  refuse (isLogic9 || width = 0 || 64 < width || source.width ≠ width)
    (.invalidArgument "assigned four-state word must match a single-word Logic4 value")

def assignWord (source : Logic4Word) : Except Error PackedLogic4 := do
  requireMatchingWord v.isLogic9 v.width source
  let mask := finalWordMask v.width
  pure (v.editPlanes fun plane words =>
    words.modify 0 fun _ => source.plane plane &&& mask)

/-- The planes with every malformed code replaced by the code of `x`. -/
def normalizeInvalidCodesToX (planes : ℕ → Word) : ℕ → Word :=
  let invalid := planes 3 &&& (planes 2 ||| planes 1 ||| planes 0)
  fun plane => if plane = 0 then planes 0 ||| invalid else planes plane &&& ~~~invalid

def Logic9Word.plane (source : Logic9Word) (plane : ℕ) : Word :=
  if h : plane < 4 then source.planes ⟨plane, h⟩ else 0

def Logic9Word.canonical (source : Logic9Word) : ℕ → Word :=
  normalizeInvalidCodesToX source.plane

def requireSingleWord (isLogic9 : Bool) (width : ℕ) (source : Logic9Word) (message : String) :
    Except Error Unit :=
  refuse (!isLogic9 || width = 0 || 64 < width || source.width ≠ width) (.invalidArgument message)

def assignLogic9Word (source : Logic9Word) : Except Error PackedLogic4 := do
  requireSingleWord v.isLogic9 v.width source
    "nine-state word assignment requires a matching single-word value"
  pure (maskUnusedBits (v.editPlanes fun plane words =>
    words.modify 0 fun _ => source.canonical plane))

def insertMaskedLogic9Word (source : Logic9Word) (mask : Word) : Except Error PackedLogic4 := do
  requireSingleWord v.isLogic9 v.width source
    "masked nine-state word assignment requires a matching single-word value"
  let mask := mask &&& finalWordMask v.width
  pure (v.editPlanes fun plane words =>
    words.modify 0 fun word => (word &&& ~~~mask) ||| (source.canonical plane &&& mask))

def blank (width : ℕ) : PackedLogic4 where
  width := width
  isLogic9 := false
  storage :=
    if width ≤ 128 then .inline ⟨(0, 0), (0, 0)⟩
    else .wide ⟨List.replicate (wordCount width) 0, List.replicate (wordCount width) 0, [], []⟩

def checkedPackedWidth (width : ℕ) : Except Error Unit :=
  refuse (sizeMax / 4 < width) (.lengthError "packed value width is too large")

def ofWidth (width : ℕ) (initial : Logic4) : Except Error PackedLogic4 := do
  checkedPackedWidth width
  pure ((blank width).fill initial)

def stringDigit {σ : Type} (parse : Char → Option σ) (planeOf : σ → ℕ → Bool)
    (message : String)
    (digits : List Char) (first : ℕ) (planes : ℕ → Word) (offset : ℕ) :
    Except Error (ℕ → Word) :=
  match parse (digits.getD (digits.length - offset - 1) ' ') with
  | none => .error (.invalidArgument message)
  | some state => .ok fun plane =>
    if planeOf state plane then planes plane ||| (1#64 <<< (offset - first)) else planes plane

def stringWord {σ : Type} (parse : Char → Option σ) (planeOf : σ → ℕ → Bool)
    (message : String) (digits : List Char) (word : ℕ) : Except Error (ℕ → Word) :=
  let first := word * 64
  let last := min digits.length (first + 64)
  (List.range' first (last - first)).foldlM (stringDigit parse planeOf message digits first)
    fun _ => 0

def stringPlanes {σ : Type} (parse : Char → Option σ) (planeOf : σ → ℕ → Bool)
    (message : String) (digits : List Char) : Except Error (List (ℕ → Word)) :=
  (List.range (wordCount digits.length)).mapM (stringWord parse planeOf message digits)

def fromMsbString (value : String) : Except Error PackedLogic4 := do
  let result ← ofWidth value.toList.length .zero
  let words ← stringPlanes parseLogic4 Logic4.plane
    "four-state vector contains an invalid digit" value.toList
  pure (result.editPlanes fun plane _ => words.map (· plane))

def fromLogic9MsbString (value : String) : Except Error PackedLogic4 := do
  let result ← ofWidth value.toList.length .zero
  let words ← stringPlanes parseLogic9 Logic9.plane
    "nine-state vector contains an invalid digit" value.toList
  pure (result.promoteToLogic9.editPlanes fun plane _ => words.map (· plane))

def requireWordWidth (width : ℕ) (message : String) : Except Error Unit :=
  refuse (width = 0 || 64 < width) (.invalidArgument message)

def fromAvalBval (width : ℕ) (aval bval : Word) : Except Error PackedLogic4 := do
  requireWordWidth width "four-state word width must be between 1 and 64"
  let result ← ofWidth width .zero
  let mask : Word := if width = 64 then ~~~0 else (1#64 <<< width) - 1
  pure (result.editPlanes fun plane words =>
    words.modify 0 fun _ => (if plane = 0 then aval else bval) &&& mask)

/-- The check that `word_count` makes before it adds, and the one on the given planes. -/
def requirePlanes (width : ℕ) (planes : List (List Word)) (message : String) :
    Except Error Unit := do
  refuse (sizeMax - 63 < width) (.lengthError "packed value width is too large")
  refuse (width = 0 || planes.any fun plane => plane.length ≠ wordCount width)
    (.invalidArgument message)

def fromWordPlanes (width : ℕ) (aval bval : List Word) : Except Error PackedLogic4 := do
  requirePlanes width [aval, bval] "four-state plane dimensions do not match the packed width"
  let result ← ofWidth width .zero
  pure (maskUnusedBits (result.editPlanes fun plane _ => if plane = 0 then aval else bval))

def fromLogic9WordPlanes (width : ℕ) (planes : Fin 4 → List Word) :
    Except Error PackedLogic4 := do
  requirePlanes width ((List.finRange 4).map planes)
    "nine-state plane dimensions do not match the packed width"
  let result ← ofWidth width .zero
  let given := fun word plane => if h : plane < 4 then (planes ⟨plane, h⟩).getD word 0 else 0
  pure (maskUnusedBits (result.promoteToLogic9.editPlanes fun plane _ =>
    (List.range (wordCount width)).map fun word => normalizeInvalidCodesToX (given word) plane))

def fromLogic9Word (value : Logic9Word) : Except Error PackedLogic4 := do
  requireWordWidth value.width "nine-state word width must be between 1 and 64"
  let result ← ofWidth value.width .zero
  pure (maskUnusedBits { result with
    isLogic9 := true
    storage := .inline ⟨(value.canonical 0, value.canonical 2),
      (value.canonical 1, value.canonical 3)⟩ })

def requireExtractRange (sourceWidth offset width : ℕ) : Except Error Unit :=
  refuse (width = 0 || outsideTarget sourceWidth width offset)
    (.invalidArgument ("extract range offset " ++ toString offset ++ " width " ++ toString width ++
      " is outside source width " ++ toString sourceWidth))

def extractBits (offset width : ℕ) : Except Error PackedLogic4 := do
  requireExtractRange v.width offset width
  let result ← ofWidth width .zero
  if v.isLogic9 then
    pure (maskUnusedBits (result.promoteToLogic9.editPlanes fun plane words =>
      extractBitRange (v.planeWords plane) offset words))
  else
    pure (maskUnusedBits (result.editPlanes fun plane words =>
      extractBitRange (v.planeWords plane) offset words))

end PackedLogic4

end FsimRuntime.Packed
