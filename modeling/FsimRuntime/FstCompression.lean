import FsimRuntime.FstBytes
import FsimRuntime.Refusal

/-!
# Block encodings of the FST container

`fst_compression.cpp`: stored GZip blocks for the hierarchy, and fixed-Huffman
zlib blocks with runs of the previous byte for the initial values. The bit
writer is the list of the bits it was given, the low bit of a byte first. The
digests of the blocks are left out.
-/

namespace FsimRuntime.Fst

/-- An exception of the writer: its class and its text. -/
inductive Error
  | invalidArgument (message : String)
  | lengthError (message : String)
  | outOfRange (message : String)
  | logicError (message : String)
  | runtimeError (message : String)
deriving DecidableEq, Repr

def crcBit (crc : UInt32) : UInt32 :=
  if crc &&& 1 = 1 then (crc >>> 1) ^^^ 0xedb88320 else crc >>> 1

def crc32 (input : Bytes) : UInt32 :=
  ~~~input.foldl (fun crc byte => crcBit^[8] (crc ^^^ byte.toUInt32)) 0xffffffff

def adler32 (input : Bytes) : ℕ :=
  let (first, second) := input.foldl (fun (first, second) byte =>
    ((first + byte.toNat) % 65521, (second + (first + byte.toNat) % 65521) % 65521)) (1, 0)
  second * 65536 + first

def blockBytes : ℕ := 65535

def gzipHeader : Bytes := [0x1f, 0x8b, 0x08, 0x00, 0x00, 0x00, 0x00, 0x00, 0x00, 0xff]

def gzipBlocks : ℕ → Bytes → Bytes
  | 0, _ => []
  | fuel + 1, input =>
    let block := input.take blockBytes
    let rest := input.drop blockBytes
    [if rest.isEmpty then 1 else 0] ++ le16 block.length ++ le16 (65535 - block.length) ++ block ++
      if rest.isEmpty then [] else gzipBlocks fuel rest

def gzipStore (input : Bytes) : Bytes :=
  gzipHeader ++ gzipBlocks (input.length + 1) input ++ le32 (crc32 input).toNat ++ le32 input.length

def bitsOf (value count : ℕ) : List Bool := (List.range count).map value.testBit

def reverseBits (value : ℕ) : ℕ → ℕ
  | 0 => 0
  | count + 1 => value % 2 * 2 ^ count + reverseBits (value / 2) count

def fixedCode (symbol : ℕ) : ℕ × ℕ :=
  if symbol ≤ 143 then (0x30 + symbol, 8)
  else if symbol ≤ 255 then (0x190 + symbol - 144, 9)
  else if symbol ≤ 279 then (symbol - 256, 7)
  else (0xc0 + symbol - 280, 8)

def fixedSymbol (symbol : ℕ) : List Bool :=
  bitsOf (reverseBits (fixedCode symbol).1 (fixedCode symbol).2) (fixedCode symbol).2

def lengthBases : List ℕ :=
  [3, 4, 5, 6, 7, 8, 9, 10, 11, 13, 15, 17, 19, 23, 27, 31, 35, 43, 51, 59, 67, 83, 99, 115, 131,
    163, 195, 227, 258]

def lengthExtras : List ℕ :=
  [0, 0, 0, 0, 0, 0, 0, 0, 1, 1, 1, 1, 2, 2, 2, 2, 3, 3, 3, 3, 4, 4, 4, 4, 5, 5, 5, 5, 0]

/-- The last base that is not above `length`, which is at least three. -/
def lengthIndex (length : ℕ) : ℕ := (lengthBases.takeWhile (· ≤ length)).length - 1

/-- A match of `length` bytes at distance one. -/
def fixedRun (length : ℕ) : List Bool :=
  fixedSymbol (257 + lengthIndex length) ++
    bitsOf (length - lengthBases.getD (lengthIndex length) 0)
      (lengthExtras.getD (lengthIndex length) 0) ++ bitsOf 0 5

def maximumMatchBytes : ℕ := 258

/-- How often the byte before stands at the head of `input`. -/
def runLength (previous : UInt8) (input : Bytes) : ℕ :=
  min maximumMatchBytes (input.takeWhile (· = previous)).length

/-- The symbols of a block after its first byte; `previous` is the byte before. -/
def fixedBody : ℕ → UInt8 → Bytes → List Bool
  | 0, _, _ => []
  | _ + 1, _, [] => []
  | fuel + 1, previous, byte :: bytes =>
    if 3 ≤ runLength previous (byte :: bytes) then
      fixedRun (runLength previous (byte :: bytes)) ++
        fixedBody fuel previous ((byte :: bytes).drop (runLength previous (byte :: bytes)))
    else fixedSymbol byte.toNat ++ fixedBody fuel byte bytes

def fixedSymbols : Bytes → List Bool
  | [] => []
  | byte :: bytes => fixedSymbol byte.toNat ++ fixedBody bytes.length byte bytes

def fixedBlocks : ℕ → Bytes → List Bool
  | 0, _ => []
  | fuel + 1, input =>
    let rest := input.drop blockBytes
    [rest.isEmpty] ++ bitsOf 1 2 ++ fixedSymbols (input.take blockBytes) ++ fixedSymbol 256 ++
      if rest.isEmpty then [] else fixedBlocks fuel rest

def packByte (bits : List Bool) : UInt8 :=
  UInt8.ofNat (bits.foldr (fun bit byte => byte * 2 + bit.toNat) 0)

/-- Eight bits a byte, the last one filled with zeros. -/
def packBits : ℕ → List Bool → Bytes
  | 0, _ => []
  | _ + 1, [] => []
  | fuel + 1, bit :: bits =>
    packByte ((bit :: bits).take 8) :: packBits fuel ((bit :: bits).drop 8)

def zlibFixed (input : Bytes) : Bytes :=
  let bits := fixedBlocks (input.length + 1) input
  [0x78, 0x01] ++ packBits bits.length bits ++ be32 (adler32 input)

inductive FstCompressionKind
  | hierarchyGzipStoreV1
  | initialValueZlibFixedV1
deriving DecidableEq, Repr

def minimumInputBytes : ℕ := 128

def encodeFstBlock : FstCompressionKind → Bytes → Bytes
  | .hierarchyGzipStoreV1, input => gzipStore input
  | .initialValueZlibFixedV1, input => zlibFixed input

def compressFstBlock (input : Bytes) (kind : FstCompressionKind)
    (maximumInputBytes maximumOutputBytes : ℕ) : Except Error Bytes := do
  refuse (maximumInputBytes = 0 || maximumOutputBytes = 0 || maximumInputBytes < input.length)
    (.lengthError "FST compression exceeds its resource limits")
  refuse (kind = .hierarchyGzipStoreV1 && 2 ^ 32 ≤ input.length)
    (.lengthError "FST gzip input exceeds its portable size field")
  -- the bytes are counted as they are appended, so the count only grows
  refuse (maximumOutputBytes < (encodeFstBlock kind input).length)
    (.lengthError "FST compressed output exceeds its byte limit")
  pure (encodeFstBlock kind input)

end FsimRuntime.Fst
