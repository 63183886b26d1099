/-
  Directory headers: what the directory of an archive says about one entry, before the extra fields
  of the entry amend it. A name that is not marked as UTF-8 is in code page 437, whose lower half
  is ASCII.
-/
import BlockScript.Archive.Record
import BlockScript.Text.Utf8

namespace BlockScript.Archive

/-! ## Names in a code page -/

namespace CodePage

/-- The characters of the bytes from 128 on. -/
def upperHalf : List Char :=
  ("ÇüéâäàåçêëèïîìÄÅÉæÆôöòûùÿÖÜ¢£¥₧ƒáíóúñÑªº¿⌐¬½¼¡«»" ++
    "░▒▓│┤╡╢╖╕╣║╗╝╜╛┐└┴┬├─┼╞╟╚╔╩╦╠═╬╧╨╤╥╙╘╒╓╫╪┘┌█▄▌▐▀" ++
    "αßΓπΣσµτΦΘΩδ∞φε∩≡±≥≤⌠⌡÷≈°∙·√ⁿ²■\xa0").toList

/-- The character of a byte. -/
def char (byte : UInt8) : Char :=
  if byte.toNat < 128 then Char.ofNat byte.toNat
  else upperHalf.getD (byte.toNat - 128) ' '

/-- The text of some bytes. -/
def decode (bytes : ByteArray) : String := String.ofList (bytes.data.toList.map char)

end CodePage

/-! ## Headers -/

/-- What is said about an entry. -/
structure Header where
  /-- The bytes of the name. -/
  rawName : ByteArray
  /-- Whether the bytes of the name are UTF-8. -/
  inUtf8 : Bool
  comment : String
  encrypted : Bool
  /-- Whether a field says that the data is encrypted by AES. -/
  aes : Bool
  method : Nat
  checksum : Nat
  /-- The size of the data in the archive. -/
  packedSize : Nat
  /-- The size of the data once it is unpacked. -/
  unpackedSize : Nat
  /-- Where the local header stands, counted from the start of the archive. -/
  start : Nat

/-- The text of a name or a comment. Bytes that are not UTF-8 are of code page 437. -/
def headerText (inUtf8 : Bool) (raw : ByteArray) : String :=
  if inUtf8 then String.ofList (Text.lossyUtf8 raw.data.toList) else CodePage.decode raw

namespace Header

/-- The name of the entry. -/
def name (h : Header) : String := headerText h.inUtf8 h.rawName

/-- The header at `place`, its extra fields, and where the next header stands. -/
def at? (bytes : ByteArray) (place : Nat) : Option (Header × List UInt8 × Nat) := do
  if !startsAt bytes .directoryHeader place then none
  else
    let flags ← field? bytes (place + 8) 2
    let method ← field? bytes (place + 10) 2
    let checksum ← field? bytes (place + 16) 4
    let packedSize ← field? bytes (place + 20) 4
    let unpackedSize ← field? bytes (place + 24) 4
    let nameSize ← field? bytes (place + 28) 2
    let extraSize ← field? bytes (place + 30) 2
    let commentSize ← field? bytes (place + 32) 2
    let start ← field? bytes (place + 42) 4
    let rawName ← slice? bytes (place + directoryHeaderSize) nameSize
    let extra ← slice? bytes (place + directoryHeaderSize + nameSize) extraSize
    let rawComment ←
      slice? bytes (place + directoryHeaderSize + nameSize + extraSize) commentSize
    let inUtf8 := flags.testBit 11
    let header : Header :=
      { rawName, inUtf8, method, checksum, packedSize, unpackedSize, start
        comment := headerText inUtf8 rawComment, encrypted := flags.testBit 0, aes := false }
    some (header, extra.data.toList,
      place + directoryHeaderSize + nameSize + extraSize + commentSize)

end Header

end BlockScript.Archive
