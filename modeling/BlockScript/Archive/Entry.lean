/-
  Entries of an archive: what the directory lists, and the data that belongs to it.
-/
import BlockScript.Archive.Extra
import BlockScript.Archive.Inflate
import BlockScript.Text.Pieces

namespace BlockScript.Archive

/-- An entry as the directory lists it. -/
structure Entry where
  name : String
  encrypted : Bool
  method : Nat
  checksum : Nat
  /-- The size of the data in the archive. -/
  packedSize : Nat
  /-- Where the local header stands. -/
  start : Nat
deriving DecidableEq, Repr

/-- The method that stands for encryption by AES. -/
def aesMethod : Nat := 99

namespace Entry

/-- The entry that a header is about, in an archive that starts at `shift`. Encryption by AES has to
    be described by an extra field. -/
def ofHeader? (h : Header) (shift : Nat) : Option Entry :=
  if h.method = aesMethod ∧ !h.aes then none
  else some
    { name := h.name, encrypted := h.encrypted || h.aes, method := h.method
      checksum := h.checksum, packedSize := h.packedSize, start := h.start + shift }

/-- The entry whose header stands at `place`, in an archive that starts at `shift`, and where the
    next header stands. -/
def at? (bytes : ByteArray) (shift place : Nat) : Option (Entry × Nat) := do
  let (header, extra, next) ← Header.at? bytes place
  let header ← header.amended? extra
  let entry ← ofHeader? header shift
  some (entry, next)

end Entry

/-! ## The data of an entry -/

/-- How the data of an entry is packed. -/
inductive Method where
  | stored
  | deflated
deriving DecidableEq, Repr

def Method.ofNumber? (n : Nat) : Option Method :=
  if n = 0 then some .stored else if n = 8 then some .deflated else none

/-- An entry that was opened: how to unpack which bytes, and what they have to check to. -/
structure Opened where
  method : Method
  packed : ByteArray
  checksum : Nat

namespace Entry

/-- Opens an entry. `none` for an encrypted entry, for one without a local header, and for one that
    is packed in another way. Data that would reach past the end of the file ends with it. -/
def open? (e : Entry) (bytes : ByteArray) : Option Opened := do
  if e.encrypted || !startsAt bytes .localHeader e.start then none
  else
    let nameSize ← field? bytes (e.start + 26) 2
    let extraSize ← field? bytes (e.start + 28) 2
    let method ← Method.ofNumber? e.method
    let start := e.start + localHeaderSize + nameSize + extraSize
    let stop := Nat.min (start + e.packedSize) bytes.size
    some ⟨method, bytes.extract start stop, e.checksum⟩

/-- A name that ends in a slash or a backslash is a directory. -/
def isDirectory (e : Entry) : Bool :=
  e.name.toList.getLast? == some '/' || e.name.toList.getLast? == some '\\'

/-- How deep below its start a relative path stands after each of its pieces. `none` once it would
    climb above it. -/
def depthAfter? (depth : Nat) (piece : List Char) : Option Nat :=
  if piece = [] ∨ piece = ['.'] then some depth
  else if piece = ['.', '.'] then (if depth = 0 then none else some (depth - 1))
  else some (depth + 1)

/-- Whether the name stays below the place it is unpacked to: it is relative, holds no NUL and at no
    piece climbs above its start. -/
def isEnclosed (e : Entry) : Bool :=
  let name := e.name.toList
  !name.contains '\x00' && name.head? != some '/' &&
    ((Text.pieces '/' name).foldlM depthAfter? 0).isSome

end Entry

namespace Opened

/-- The bytes of an entry. `none` if they cannot be unpacked or do not check. -/
def read? (o : Opened) : Option ByteArray := do
  let content ← match o.method with
    | .stored => some o.packed
    | .deflated => inflate? o.packed
  if (crc32 content).toNat = o.checksum then some content else none

end Opened

end BlockScript.Archive
