/-
  The directory of an archive, found through the record at its end.

  The end record is searched backwards. From the place it names the directory may have been moved on
  by bytes in front of the archive, so the first directory header from there on gives the shift.
  Numbers that do not fit the end record stand in a wide one, which a locator leads to. An end
  record that leads to no readable directory is passed over for an earlier one.
-/
import BlockScript.Archive.Entry
import BlockScript.Keyed

namespace BlockScript.Archive

/-- Where a directory stands, how many headers it has, and by how much the archive is shifted. -/
structure Directory where
  start : Nat
  count : Nat
  shift : Nat
deriving DecidableEq, Repr

/-! ## The end record -/

/-- The end record, at `place`. -/
structure EndRecord where
  place : Nat
  disk : Nat
  directoryDisk : Nat
  /-- How many entries are on this disk. -/
  count : Nat
  /-- How many entries there are in all. -/
  total : Nat
  /-- Where the directory is said to start. -/
  offset : Nat
deriving DecidableEq, Repr

namespace EndRecord

/-- The end record at a place. Its comment has to end within the file. -/
def at? (bytes : ByteArray) (place : Nat) : Option EndRecord := do
  if !startsAt bytes .endRecord place then none
  else
    let disk ← field? bytes (place + 4) 2
    let directoryDisk ← field? bytes (place + 6) 2
    let count ← field? bytes (place + 8) 2
    let total ← field? bytes (place + 10) 2
    let offset ← field? bytes (place + 16) 4
    let commentSize ← field? bytes (place + 20) 2
    if bytes.size < place + endRecordSize + commentSize then none
    else some { place, disk, directoryDisk, count, total, offset }

/-- Whether a number did not fit the record. -/
def isTooNarrow (e : EndRecord) : Bool := e.total == tooWideForTwo || e.offset == tooWideForFour

/-- By how much the archive is shifted: the directory ends in front of the record if it is empty,
    and otherwise starts at the first directory header. -/
def shift? (e : EndRecord) (bytes : ByteArray) : Option Nat :=
  if e.total = 0 then some (e.place - e.offset)
  else findRecord? bytes .directoryHeader e.offset e.place fun _ => true

/-- The directory that the record itself leads to. -/
def directory? (e : EndRecord) (bytes : ByteArray) : Option Directory := do
  let shift ← e.shift? bytes
  if e.disk ≠ e.directoryDisk then none
  else some { start := e.offset + shift, count := e.count, shift }

end EndRecord

/-! ## The wide end record -/

/-- What leads to the wide end record, at `place`. -/
structure Locator where
  place : Nat
  directoryDisk : Nat
  /-- Where the wide record is said to start. -/
  offset : Nat
  disks : Nat
deriving DecidableEq, Repr

/-- The locator right in front of an end record. -/
def Locator.before? (bytes : ByteArray) (e : EndRecord) : Option Locator := do
  let place := e.place - wideEndLocatorSize
  if e.place < wideEndLocatorSize ∨ !startsAt bytes .wideEndLocator place then none
  else
    let directoryDisk ← field? bytes (place + 4) 4
    let offset ← field? bytes (place + 8) 8
    let disks ← field? bytes (place + 16) 4
    some { place, directoryDisk, offset, disks }

/-- The end record with wider numbers, at `place`. -/
structure WideEndRecord where
  place : Nat
  /-- The size of the record from the version on. -/
  size : Nat
  /-- The version that wrote the archive. -/
  version : Nat
  /-- The version that it takes to read it. -/
  versionNeeded : Nat
  disk : Nat
  directoryDisk : Nat
  count : Nat
  total : Nat
  offset : Nat
deriving DecidableEq, Repr

namespace WideEndRecord

def at? (bytes : ByteArray) (place : Nat) : Option WideEndRecord := do
  if !startsAt bytes .wideEndRecord place then none
  else
    let size ← field? bytes (place + 4) 8
    let version ← field? bytes (place + 12) 2
    let versionNeeded ← field? bytes (place + 14) 2
    let disk ← field? bytes (place + 16) 4
    let directoryDisk ← field? bytes (place + 20) 4
    let count ← field? bytes (place + 24) 8
    let total ← field? bytes (place + 32) 8
    let offset ← field? bytes (place + 48) 8
    some { place, size, version, versionNeeded, disk, directoryDisk, count, total, offset }

/-- Whether the record is the one that a locator means: it reaches up to the locator, names the same
    disk, and has room in front of it for all headers of the directory. -/
def fits (w : WideEndRecord) (l : Locator) : Bool :=
  decide (wideEndRecordSize ≤ w.size + 12) && w.place + w.size + 12 == l.place &&
    w.directoryDisk == l.directoryDisk &&
    decide (w.total * directoryHeaderSize + w.offset ≤ w.place)

/-- The directory that the record leads to in an archive with the given shift. -/
def directory? (w : WideEndRecord) (shift : Nat) : Option Directory :=
  if w.total < w.count ∨ w.version < w.versionNeeded ∨ w.disk ≠ w.directoryDisk then none
  else some { start := w.offset + shift, count := w.total, shift }

end WideEndRecord

/-- The directory that a locator leads to: by the first fitting record from the place it names. -/
def Locator.directory? (l : Locator) (bytes : ByteArray) : Option Directory := do
  if l.place ≤ l.offset ∨ 1 < l.disks then none
  else
    let shift ← findRecord? bytes .wideEndRecord l.offset l.place fun place =>
      (WideEndRecord.at? bytes place).any (·.fits l)
    let record ← WideEndRecord.at? bytes (l.offset + shift)
    record.directory? shift

/-! ## The entries -/

namespace Directory

/-- The directory that the end record at a place leads to. -/
def at? (bytes : ByteArray) (place : Nat) : Option Directory := do
  let record ← EndRecord.at? bytes place
  let locator := if record.isTooNarrow then Locator.before? bytes record else none
  match locator with
  | some locator => locator.directory? bytes
  | none => record.directory? bytes

/-- The entries of `count` headers in a row. Every entry stands in front of the directory. -/
def entriesFrom? (d : Directory) (bytes : ByteArray) :
    (count place : Nat) → Option (List Entry)
  | 0, _ => some []
  | count + 1, place => do
    let (entry, next) ← Entry.at? bytes d.shift place
    if d.start ≤ entry.start then none
    else
      let rest ← d.entriesFrom? bytes count next
      some (entry :: rest)

/-- The entries that the directory lists. `none` if one of them cannot be read. -/
def entries? (d : Directory) (bytes : ByteArray) : Option (List Entry) :=
  d.entriesFrom? bytes d.count d.start

end Directory

/-- The entries of an archive, from the last end record that leads to some. Of two entries with one
    name the place of the first and the data of the second count. `none` for bytes that are no
    archive. -/
def entries? (bytes : ByteArray) : Option (List Entry) :=
  let listed := (List.range bytes.size).reverse.findSome? fun place =>
    (Directory.at? bytes place).bind (·.entries? bytes)
  listed.map fun entries =>
    (Keyed.settle (entries.map fun entry => (entry.name, entry))).map Prod.snd

end BlockScript.Archive
