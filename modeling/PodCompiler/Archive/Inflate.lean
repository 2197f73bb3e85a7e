import PodCompiler.Archive.Huffman

namespace PodCompiler.Archive.Inflate

-- The packed bytes, the number of bits taken, and what was unpacked.
structure State where
  data : Bytes
  bitPos : Nat := 0
  out : Bytes := #[]

-- A step that takes bits and unpacks bytes, or fails.
abbrev InflateM := StateT State Option

-- Bits are taken from the low end of each byte.
def bit : InflateM Nat := fun s =>
  s.data[s.bitPos / 8]?.map fun b =>
    (b.toNat / Nat.pow 2 (s.bitPos % 8) % 2, { s with bitPos := s.bitPos + 1 })

-- A number of `n` bits, lowest first.
def bits : Nat → InflateM Nat
  | 0 => pure 0
  | n + 1 => do
    let low ← bit
    let high ← bits n
    return low + 2 * high

-- Follows a code word. `code` is the word so far, `first` the first word of its length and `index`
-- the place of its symbol; `left` lengths remain.
def symbolFrom (h : Huffman) (code first index : Nat) : Nat → InflateM Nat
  | 0 => failure
  | left + 1 => do
    let code := 2 * code + (← bit)
    let count := h.counts.getD (Huffman.maxLength - left) 0
    if code < first + count then
      StateT.lift h.symbols[index + (code - first)]?
    else symbolFrom h code (2 * (first + count)) (index + count) left

def symbol (h : Huffman) : InflateM Nat :=
  symbolFrom h 0 0 0 Huffman.maxLength

def emit (b : UInt8) : InflateM Unit :=
  modify fun s => { s with out := s.out.push b }

-- Repeats what was unpacked `distance` bytes ago. Before the start there are zeros.
def copy (distance : Nat) : Nat → InflateM Unit
  | 0 => pure ()
  | n + 1 => do
    modify fun s =>
      let b := if distance ≤ s.out.size then s.out.getD (s.out.size - distance) 0 else 0
      { s with out := s.out.push b }
    copy distance n

-- Least length and number of further bits, by length symbol less 257.
def lengthBase : Array (Nat × Nat) := #[
  (3, 0), (4, 0), (5, 0), (6, 0), (7, 0), (8, 0), (9, 0), (10, 0), (11, 1), (13, 1), (15, 1),
  (17, 1), (19, 2), (23, 2), (27, 2), (31, 2), (35, 3), (43, 3), (51, 3), (59, 3), (67, 4), (83, 4),
  (99, 4), (115, 4), (131, 5), (163, 5), (195, 5), (227, 5), (258, 0)]

-- Least distance and number of further bits, by distance symbol.
def distanceBase : Array (Nat × Nat) := #[
  (1, 0), (2, 0), (3, 0), (4, 0), (5, 1), (7, 1), (9, 2), (13, 2), (17, 3), (25, 3), (33, 4),
  (49, 4), (65, 5), (97, 5), (129, 6), (193, 6), (257, 7), (385, 7), (513, 8), (769, 8), (1025, 9),
  (1537, 9), (2049, 10), (3073, 10), (4097, 11), (6145, 11), (8193, 12), (12289, 12), (16385, 13),
  (24577, 13)]

-- A number given by a symbol and further bits.
def extended (table : Array (Nat × Nat)) (s : Nat) : InflateM Nat := do
  let (base, extra) ← StateT.lift table[s]?
  return base + (← bits extra)

-- The symbols of a block up to its end. Each takes at least one bit, so `fuel` is the number of
-- bits that remain.
def symbols (lits dists : Huffman) : Nat → InflateM Unit
  | 0 => failure
  | fuel + 1 => do
    let s ← symbol lits
    if s < 256 then
      emit s.toUInt8
      symbols lits dists fuel
    else if s = 256 then return
    else
      let length ← extended lengthBase (s - 257)
      let distance ← extended distanceBase (← symbol dists)
      copy distance length
      symbols lits dists fuel

-- A block of plain bytes behind its length and the complement of that.
def stored : InflateM Unit := do
  modify fun s => { s with bitPos := (s.bitPos + 7) / 8 * 8 }
  let size ← bits 16
  let complement ← bits 16
  if size + complement ≠ 0xFFFF then failure
  let s ← get
  let start := s.bitPos / 8
  let chunk ← StateT.lift (s.data.slice? start size)
  set { s with out := s.out ++ chunk, bitPos := s.bitPos + 8 * size }

-- The order in which the lengths of the length code are given.
def lengthOrder : List Nat :=
  [16, 17, 18, 0, 8, 7, 9, 6, 10, 5, 11, 4, 12, 3, 13, 2, 14, 1, 15]

def lengthCodeFrom (lengths : Array Nat) : List Nat → InflateM (Array Nat)
  | [] => return lengths
  | place :: rest => do
    let n ← bits 3
    lengthCodeFrom (lengths.set! place n) rest

-- Code lengths until there are `total`; runs are written as one symbol.
def codeLengths (code : Huffman) (total : Nat) (lengths : Array Nat) : Nat → InflateM (Array Nat)
  | 0 => failure
  | fuel + 1 => do
    if lengths.size = total then return lengths
    if total < lengths.size then failure
    let s ← symbol code
    if s < 16 then codeLengths code total (lengths.push s) fuel
    else if s = 16 then
      let last ← StateT.lift lengths.back?
      let n ← bits 2
      codeLengths code total (lengths ++ Array.replicate (3 + n) last) fuel
    else if s = 17 then
      let n ← bits 3
      codeLengths code total (lengths ++ Array.replicate (3 + n) 0) fuel
    else
      let n ← bits 7
      codeLengths code total (lengths ++ Array.replicate (11 + n) 0) fuel

def bitsLeft : InflateM Nat := do
  let s ← get
  return 8 * s.data.size - s.bitPos

def huffman (lengths : Array Nat) (single : Bool) : InflateM Huffman :=
  StateT.lift (Huffman.ofLengths? lengths single)

-- The most symbols that a code of literals and lengths may have, and a code of distances.
def maxLits : Nat := 286

def maxDists : Nat := 30

-- A block that carries its own codes.
def dynamic : InflateM Unit := do
  let lits := 257 + (← bits 5)
  let dists := 1 + (← bits 5)
  let count := 4 + (← bits 4)
  if maxLits < lits || maxDists < dists then failure
  let lengths ← lengthCodeFrom (Array.replicate 19 0) (lengthOrder.take count)
  let code ← huffman lengths false
  let all ← codeLengths code (lits + dists) #[] (← bitsLeft).succ
  let litCode ← huffman (all.extract 0 lits) true
  let distCode ← huffman (all.extract lits all.size) true
  symbols litCode distCode (← bitsLeft).succ

def fixed : InflateM Unit := do
  let lits ← huffman Huffman.fixedLengths true
  let dists ← huffman Huffman.fixedDistances true
  symbols lits dists (← bitsLeft).succ

-- Blocks up to the last one. Each takes at least three bits.
def blocks : Nat → InflateM Unit
  | 0 => failure
  | fuel + 1 => do
    let last ← bit
    let kind ← bits 2
    match kind with
    | 0 => stored
    | 1 => fixed
    | 2 => dynamic
    | _ => failure
    if last = 0 then blocks fuel

end PodCompiler.Archive.Inflate

namespace PodCompiler.Archive

-- What a deflate stream holds, if it is whole; bytes after its last block are not looked at.
def inflate (data : Bytes) : Option Bytes :=
  ((Inflate.blocks (8 * data.size + 1)).run { data }).map (·.2.out)

end PodCompiler.Archive
