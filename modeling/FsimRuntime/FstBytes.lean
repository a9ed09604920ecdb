import Mathlib

/-!
# Bytes of the FST container

The integer and text fields that `fst_writer.cpp` appends. Texts are byte
strings; integers are natural numbers, which the source keeps in 64 bits.
-/

namespace FsimRuntime.Fst

abbrev Bytes := List UInt8

def ascii (text : String) : Bytes := text.toList.map fun c => UInt8.ofNat c.toNat

variable (value : ℕ)

def be32 : Bytes := [24, 16, 8, 0].map fun shift => UInt8.ofNat (value >>> shift)

def be64 : Bytes :=
  [56, 48, 40, 32, 24, 16, 8, 0].map fun shift => UInt8.ofNat (value >>> shift)

def le16 : Bytes := [0, 8].map fun shift => UInt8.ofNat (value >>> shift)

def le32 : Bytes := [0, 8, 16, 24].map fun shift => UInt8.ofNat (value >>> shift)

def le64 : Bytes :=
  [0, 8, 16, 24, 32, 40, 48, 56].map fun shift => UInt8.ofNat (value >>> shift)

def varintGroups : ℕ → ℕ → Bytes
  | 0, _ => []
  | groups + 1, value =>
    if value / 128 = 0 then [UInt8.ofNat value]
    else UInt8.ofNat (value % 128 + 128) :: varintGroups groups (value / 128)

/-- Seven bits a byte, the low ones first; ten bytes hold 64 bits. -/
def varint : Bytes := varintGroups 10 value

def cString (text : Bytes) : Bytes := text ++ [0]

def decimalDigits : ℕ → ℕ → Bytes
  | 0, _ => []
  | digits + 1, value =>
    if value < 10 then [UInt8.ofNat (48 + value)]
    else decimalDigits digits (value / 10) ++ [UInt8.ofNat (48 + value % 10)]

def decimal : Bytes := decimalDigits 20 value

def sizedText (text : Bytes) : Bytes := decimal text.length ++ ascii ":" ++ text

end FsimRuntime.Fst
