/-
  Records of an archive: numbers of fixed widths, the least significant byte first, behind a
  signature that tells the kind of record.
-/

namespace BlockScript.Archive

/-! ## Fields -/

/-- The number that some bytes stand for, the least significant byte first. -/
def littleEndian : List UInt8 → Nat
  | [] => 0
  | low :: high => low.toNat + 256 * littleEndian high

section

variable (bytes : ByteArray)

/-- The number in `width` bytes from `start` on, the least significant byte first. -/
def field? (start : Nat) : (width : Nat) → Option Nat
  | 0 => some 0
  | width + 1 => do
    let low ← bytes[start]?
    let high ← field? (start + 1) width
    some (low.toNat + 256 * high)

/-- The bytes from `start` on, `length` of them. -/
def slice? (start length : Nat) : Option ByteArray :=
  if start + length ≤ bytes.size then some (bytes.extract start (start + length)) else none

end

/-! ## Signatures -/

/-- What a record starts with. -/
inductive Signature where
  | localHeader
  | directoryHeader
  | endRecord
  /-- The end record with wider numbers. -/
  | wideEndRecord
  /-- What tells, right in front of the end record, where the wide one stands. -/
  | wideEndLocator

def Signature.value : Signature → Nat
  | .localHeader => 0x04034b50
  | .directoryHeader => 0x02014b50
  | .endRecord => 0x06054b50
  | .wideEndRecord => 0x06064b50
  | .wideEndLocator => 0x07064b50

/-- Whether a record of the given kind starts at a place. -/
def startsAt (bytes : ByteArray) (signature : Signature) (place : Nat) : Bool :=
  field? bytes place 4 == some signature.value

/-- The first place from `start` on and before `stop` at which a record of the given kind starts
    that `accept` takes, as a distance from `start`. -/
def findRecord? (bytes : ByteArray) (signature : Signature) (start stop : Nat)
    (accept : Nat → Bool) : Option Nat :=
  (List.range (stop - start)).find? fun distance =>
    startsAt bytes signature (start + distance) && accept (start + distance)

/-! ## Sizes -/

/-- The size of a local header without its name and extra fields. -/
def localHeaderSize : Nat := 30

/-- The size of a directory header without its name, extra fields and comment. -/
def directoryHeaderSize : Nat := 46

/-- The size of the end record without its comment. -/
def endRecordSize : Nat := 22

/-- The size of the wide end record without what may be added to it. -/
def wideEndRecordSize : Nat := 56

/-- The size of the locator of the wide end record. -/
def wideEndLocatorSize : Nat := 20

/-- What stands in a field of two bytes for a number that is given elsewhere. -/
def tooWideForTwo : Nat := 0xFFFF

/-- What stands in a field of four bytes for a number that is given elsewhere. -/
def tooWideForFour : Nat := 0xFFFFFFFF

end BlockScript.Archive
