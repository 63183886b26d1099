/-
  The extra fields of an entry: each has a kind, a size and as many bytes, and some kinds amend what
  the header says.

  The fields are read one after the other. Where the bytes run out within a field the reading ends,
  and what was amended up to there stays. A field that breaks the rules of its kind makes the header
  malformed. A field that replaces a text names the check value of what it replaces, the same cyclic
  redundancy check that the data of an entry has to pass.
-/
import BlockScript.Archive.Header

namespace BlockScript.Archive

/-! ## The check value -/

namespace Crc32

/-- The generator polynomial, bits reversed. -/
def polynomial : UInt32 := 0xEDB88320

/-- Divides out one bit. -/
def bitStep (crc : UInt32) : UInt32 :=
  if crc &&& 1 = 1 then (crc >>> 1) ^^^ polynomial else crc >>> 1

/-- Takes in one byte, its eight bits from the least one on. -/
def byteStep (crc : UInt32) (byte : UInt8) : UInt32 :=
  (List.range 8).foldl (fun crc _ => bitStep crc) (crc ^^^ byte.toUInt32)

end Crc32

/-- The check value of some bytes. -/
def crc32 (bytes : ByteArray) : UInt32 :=
  bytes.data.foldl Crc32.byteStep 0xFFFFFFFF ^^^ 0xFFFFFFFF

/-! ## Readers -/

namespace Extra

/-- Why the reading of a field ends within it. -/
inductive Stop where
  | cutOff
  | malformed
deriving DecidableEq, Repr

/-- A reader of fields: it goes on from the bytes that are left and amends a header, and what it
    amended outlives a stop. -/
abbrev Reader := ExceptT Stop (StateM (Header × List UInt8))

/-! ## Numbers and bytes -/

/-- The next bytes, `count` of them. -/
def bytes (count : Nat) : Reader (List UInt8) := do
  let (header, rest) ← get
  if rest.length < count then throw .cutOff
  else
    set (header, rest.drop count)
    return rest.take count

/-- The next number of `width` bytes. -/
def number (width : Nat) : Reader Nat := return littleEndian (← bytes width)

def skip (count : Nat) : Reader Unit := do
  let _ ← bytes count

/-- The header as it is amended so far. -/
def header : Reader Header := return (← get).1

def amend (change : Header → Header) : Reader Unit :=
  modify fun (header, rest) => (change header, rest)

/-- Goes on only if a rule is kept. -/
def check (rule : Bool) : Reader Unit :=
  if rule then pure () else throw .malformed

/-! ## Kinds of fields -/

/-- Reads a number of eight bytes in place of one that was too wide for its field, or in any case if
    every one is given. Tells how many bytes it took. -/
def wideNumber (every : Bool) (old : Header → Nat) (put : Nat → Header → Header) :
    Reader Nat := do
  if every || old (← header) == tooWideForFour then
    let value ← number 8
    amend (put value)
    return 8
  else return 0

/-- Sizes and place of the data in wider numbers. A field of 24 bytes or more gives all three. -/
def wideNumbers (size : Nat) : Reader Unit := do
  let every := decide (24 ≤ size)
  let unpacked ← wideNumber every Header.unpackedSize fun n h => { h with unpackedSize := n }
  let packed ← wideNumber every Header.packedSize fun n h => { h with packedSize := n }
  let start ← wideNumber every Header.start fun n h => { h with start := n }
  let taken := unpacked + packed + start
  check (decide (taken ≤ size))
  skip (size - taken)

/-- Three times in the one attribute that this kind knows. -/
def fileTimes (size : Nat) : Reader Unit := do
  check (size == 32)
  skip 4
  check ((← number 2) == 1)
  check ((← number 2) == 24)
  skip 24

/-- Up to three times, with a bit for each that is there. A directory may keep the bits of all and
    give only the first. -/
def timestamps (size : Nat) : Reader Unit := do
  let bits ← number 1
  let times := ([0, 1, 2].filter bits.testBit).length
  check (decide (bits < 8) && (size == 5 || size == 1 + 4 * times))
  skip (size - 1)

/-- How the data is encrypted by AES, and the method by which it was packed before. -/
def aesEncryption (size : Nat) : Reader Unit := do
  check (size == 7)
  let version ← number 2
  let vendor ← number 2
  let strength ← number 1
  let method ← number 2
  check (vendor == 0x4541 && (version == 1 || version == 2) &&
    (strength == 1 || strength == 2 || strength == 3))
  amend fun h => { h with aes := true, method }

/-- A text in UTF-8 that replaces the bytes `replaced`: it comes with their check value. -/
def unicodeText (size : Nat) (replaced : ByteArray) : Reader (ByteArray × String) := do
  skip 1
  let checksum ← number 4
  check (decide (5 ≤ size))
  let raw := (← bytes (size - 5)).toByteArray
  check ((crc32 replaced).toNat == checksum)
  match String.fromUTF8? raw with
  | some text => return (raw, text)
  | none => throw .malformed

def unicodeName (size : Nat) : Reader Unit := do
  let (raw, _) ← unicodeText size (← header).rawName
  amend fun h => { h with rawName := raw, inUtf8 := true }

def unicodeComment (size : Nat) : Reader Unit := do
  let (_, text) ← unicodeText size (← header).comment.toUTF8
  amend fun h => { h with comment := text }

/-- The kinds of fields that are looked into. -/
inductive Kind where
  | wideNumbers
  | fileTimes
  | timestamps
  | unicodeComment
  | unicodeName
  | aesEncryption
deriving DecidableEq, Repr

def Kind.ofNumber? (n : Nat) : Option Kind :=
  if n = 0x0001 then some .wideNumbers
  else if n = 0x000A then some .fileTimes
  else if n = 0x5455 then some .timestamps
  else if n = 0x6375 then some .unicodeComment
  else if n = 0x7075 then some .unicodeName
  else if n = 0x9901 then some .aesEncryption
  else none

/-- The rest of a field behind its kind and size. -/
def body (kind : Option Kind) (size : Nat) : Reader Unit :=
  match kind with
  | some .wideNumbers => wideNumbers size
  | some .fileTimes => fileTimes size
  | some .timestamps => timestamps size
  | some .unicodeComment => unicodeComment size
  | some .unicodeName => unicodeName size
  | some .aesEncryption => aesEncryption size
  | none => skip size

/-- The fields up to the end of the bytes. Every field takes some, so their number is enough
    fuel. -/
def fields : (fuel : Nat) → Reader Unit
  | 0 => pure ()
  | fuel + 1 => do
    if (← get).2.isEmpty then return
    else
      let kind ← number 2
      let size ← number 2
      body (Kind.ofNumber? kind) size
      fields fuel

end Extra

/-- The header as its extra fields amend it. `none` if one of them is malformed. -/
def Header.amended? (h : Header) (extra : List UInt8) : Option Header :=
  match (Extra.fields extra.length).run.run (h, extra) with
  | (.error .malformed, _) => none
  | (_, header, _) => some header

end BlockScript.Archive
