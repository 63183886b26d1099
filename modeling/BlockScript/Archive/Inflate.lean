/-
  Deflated data: blocks of stored bytes, or of literals and back references in Huffman codes.

  Bits are taken from the least significant one of each byte on. Every reader is a function of the
  position and fails at the end of the data. Loops run on fuel: a turn takes at least one bit.
-/

namespace BlockScript.Archive

namespace Inflate

/-- A reader of bits: from the position of the next bit to a value and a later position. -/
abbrev Bits := StateT Nat Option

/-! ## Bits and codes -/

section

variable (source : ByteArray)

def bit : Bits Nat := fun position =>
  (source[position / 8]?).map fun byte =>
    (byte.toNat / Nat.pow 2 (position % 8) % 2, position + 1)

/-- A number of `width` bits, the least significant first. -/
def number : (width : Nat) → Bits Nat
  | 0 => pure 0
  | width + 1 => do
    let low ← bit source
    let high ← number width
    return low + 2 * high

/-- Moves on to the next whole byte. -/
def align : Bits Unit := fun position => some ((), (position + 7) / 8 * 8)

/-- A byte at a position that is a whole byte. -/
def byte : Bits UInt8 := fun position =>
  (source[position / 8]?).map fun byte => (byte, position + 8)

end

/-- A Huffman code in canonical form: how many symbols have codes of each length from one on, and
    the symbols in the order of their codes. -/
structure Code where
  counts : List Nat
  symbols : Array Nat

/-- The longest code, in bits. -/
def longestCode : Nat := 15

/-- How much of the space of codes the symbols take: a code of the longest length takes one. -/
def spaceTaken (counts : List Nat) : Nat := counts.foldl (fun space count => 2 * space + count) 0

/-- The code in which symbol `i` has a code of `lengths[i]` bits, or none at length zero. A code has
    to use up the space of codes, unless it has no symbol at all or a single one of one bit. -/
def Code.ofLengths? (lengths : List Nat) : Option Code :=
  let widths := (List.range longestCode).map (· + 1)
  let counts := widths.map fun width => lengths.count width
  let symbols := widths.flatMap fun width =>
    (lengths.zipIdx.filter fun (length, _) => length == width).map Prod.snd
  let space := spaceTaken counts
  let whole := Nat.pow 2 longestCode
  if space = whole ∨ symbols = [] ∨ (symbols.length = 1 ∧ 2 * space = whole) then
    some ⟨counts, symbols.toArray⟩
  else none

/-- The symbol whose code comes next. `code` holds the bits so far, `first` the first code of the
    current length and `index` the place of its symbol. -/
def symbolFrom (source : ByteArray) (symbols : Array Nat) :
    (counts : List Nat) → (code first index : Nat) → Bits Nat
  | [], _, _, _ => failure
  | count :: counts, code, first, index => do
    let code := 2 * code + (← bit source)
    let first := 2 * first
    if code < first + count then
      match symbols[index + (code - first)]? with
      | some symbol => return symbol
      | none => failure
    else symbolFrom source symbols counts code (first + count) (index + count)

@[inherit_doc symbolFrom]
def symbol (source : ByteArray) (code : Code) : Bits Nat :=
  symbolFrom source code.symbols code.counts 0 0 0

/-! ## Tables of the format -/

/-- Least length and number of extra bits of the length symbols from 257 on. -/
def lengthTable : List (Nat × Nat) :=
  [(3, 0), (4, 0), (5, 0), (6, 0), (7, 0), (8, 0), (9, 0), (10, 0), (11, 1), (13, 1), (15, 1),
    (17, 1), (19, 2), (23, 2), (27, 2), (31, 2), (35, 3), (43, 3), (51, 3), (59, 3), (67, 4),
    (83, 4), (99, 4), (115, 4), (131, 5), (163, 5), (195, 5), (227, 5), (258, 0)]

/-- Least distance and number of extra bits of the distance symbols. -/
def distanceTable : List (Nat × Nat) :=
  [(1, 0), (2, 0), (3, 0), (4, 0), (5, 1), (7, 1), (9, 2), (13, 2), (17, 3), (25, 3), (33, 4),
    (49, 4), (65, 5), (97, 5), (129, 6), (193, 6), (257, 7), (385, 7), (513, 8), (769, 8),
    (1025, 9), (1537, 9), (2049, 10), (3073, 10), (4097, 11), (6145, 11), (8193, 12), (12289, 12),
    (16385, 13), (24577, 13)]

/-- The order in which the lengths of the code for code lengths are given. -/
def lengthOrder : List Nat := [16, 17, 18, 0, 8, 7, 9, 6, 10, 5, 11, 4, 12, 3, 13, 2, 14, 1, 15]

/-- The lengths of the fixed code for literals. -/
def fixedLengths : List Nat :=
  List.replicate 144 8 ++ List.replicate 112 9 ++ List.replicate 24 7 ++ List.replicate 8 8

/-- The lengths of the fixed code for distances. -/
def fixedDistances : List Nat := List.replicate 32 5

/-! ## Blocks -/

/-- The byte that lies `distance` bytes back. In front of the first byte all are zero. -/
def byteBack (distance : Nat) (out : ByteArray) : UInt8 :=
  if distance ≤ out.size then (out[out.size - distance]?).getD 0 else 0

/-- Repeats `length` bytes that lie `distance` bytes back, one by one. -/
def copyBack : (length : Nat) → (distance : Nat) → ByteArray → ByteArray
  | 0, _, out => out
  | length + 1, distance, out => copyBack length distance (out.push (byteBack distance out))

section

variable (source : ByteArray)

/-- A value of a table of least values and extra bits. -/
def tableValue (table : List (Nat × Nat)) (index : Nat) : Bits Nat :=
  match table[index]? with
  | some (least, width) => do return least + (← number source width)
  | none => failure

/-- The bytes of a block in Huffman codes, up to its end symbol. -/
def codedBlock (literals distances : Code) : (fuel : Nat) → ByteArray → Bits ByteArray
  | 0, _ => failure
  | fuel + 1, out => do
    let symbol ← symbol source literals
    if symbol < 256 then codedBlock literals distances fuel (out.push symbol.toUInt8)
    else if symbol = 256 then return out
    else
      let length ← tableValue source lengthTable (symbol - 257)
      let distance ← tableValue source distanceTable (← Inflate.symbol source distances)
      codedBlock literals distances fuel (copyBack length distance out)

/-- A given number of bytes as they stand. -/
def plainBytes : (count : Nat) → ByteArray → Bits ByteArray
  | 0, out => pure out
  | count + 1, out => do plainBytes count (out.push (← byte source))

/-- A stored block: its length, the complement of it, and that many bytes. -/
def storedBlock (out : ByteArray) : Bits ByteArray := do
  align
  let length ← number source 16
  let complement ← number source 16
  if length + complement = 0xFFFF then plainBytes source length out else failure

/-- Code lengths in run-length form, `total` of them. -/
def codeLengths (code : Code) (total : Nat) : (fuel : Nat) → List Nat → Bits (List Nat)
  | 0, _ => failure
  | fuel + 1, done =>
    if total < done.length then failure
    else if done.length = total then return done
    else do
      let symbol ← symbol source code
      if symbol < 16 then codeLengths code total fuel (done ++ [symbol])
      else if symbol = 16 then
        match done.getLast? with
        | some last =>
          let times := 3 + (← number source 2)
          codeLengths code total fuel (done ++ List.replicate times last)
        | none => failure
      else if symbol = 17 then
        let times := 3 + (← number source 3)
        codeLengths code total fuel (done ++ List.replicate times 0)
      else
        let times := 11 + (← number source 7)
        codeLengths code total fuel (done ++ List.replicate times 0)

/-- The lengths of the code for code lengths, given in their own order. -/
def orderedLengths (given : List Nat) : List Nat :=
  (List.range 19).map fun symbol => ((lengthOrder.zip given).lookup symbol).getD 0

/-- The most literals and lengths that a code may be for: 256 bytes, the end and the lengths. -/
def mostLiterals : Nat := 257 + lengthTable.length

/-- The two codes that a block brings along, neither of them for symbols without a meaning. -/
def dynamicCodes : Bits (Code × Code) := do
  let literalCount := 257 + (← number source 5)
  let distanceCount := 1 + (← number source 5)
  let lengthCount := 4 + (← number source 4)
  if mostLiterals < literalCount ∨ distanceTable.length < distanceCount then failure
  else
    let given ← (List.range lengthCount).mapM fun _ => number source 3
    match Code.ofLengths? (orderedLengths given) with
    | none => failure
    | some code =>
      let total := literalCount + distanceCount
      let lengths ← codeLengths source code total (total + 1) []
      match Code.ofLengths? (lengths.take literalCount),
          Code.ofLengths? (lengths.drop literalCount) with
      | some literals, some distances => return (literals, distances)
      | _, _ => failure

/-- The codes of blocks that bring none along. -/
def fixedCodes : Bits (Code × Code) :=
  match Code.ofLengths? fixedLengths, Code.ofLengths? fixedDistances with
  | some literals, some distances => return (literals, distances)
  | _, _ => failure

/-- The blocks up to the one that is marked as the last. -/
def blocks : (fuel : Nat) → ByteArray → Bits ByteArray
  | 0, _ => failure
  | fuel + 1, out => do
    let last ← bit source
    let kind ← number source 2
    let bound := 8 * source.size + 1
    let out ← match kind with
      | 0 => storedBlock source out
      | 1 => do
        let (literals, distances) ← fixedCodes
        codedBlock source literals distances bound out
      | 2 => do
        let (literals, distances) ← dynamicCodes source
        codedBlock source literals distances bound out
      | _ => failure
    if last = 1 then return out else blocks fuel out

end

end Inflate

/-- The bytes that deflated data stands for. What follows its last block is passed over. -/
def inflate? (source : ByteArray) : Option ByteArray :=
  ((Inflate.blocks source (8 * source.size + 1) ByteArray.empty).run 0).map Prod.fst

end BlockScript.Archive
