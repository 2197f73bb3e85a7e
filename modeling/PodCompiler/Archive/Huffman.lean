import PodCompiler.Bytes

namespace PodCompiler.Archive

-- A prefix code, canonical: `counts` says how many codes there are of each length, and `symbols`
-- lists the symbols by length and then by value.
structure Huffman where
  counts : Array Nat
  symbols : Array Nat
  deriving DecidableEq, Repr

namespace Huffman

-- The longest code.
def maxLength : Nat := 15

-- How many codes of each length the lengths of the symbols give; length zero means no code.
def countLengths (lengths : Array Nat) : Array Nat :=
  lengths.foldl (fun counts n => counts.modify n (· + 1)) (Array.replicate (maxLength + 1) 0)

-- How much of the code space of words of the longest length is taken.
def taken (counts : Array Nat) : Nat :=
  (List.range maxLength).foldl
    (fun sum k => sum + counts.getD (k + 1) 0 * Nat.pow 2 (maxLength - (k + 1))) 0

-- The code in which each symbol has its given length. The words must use up the code space; where
-- `single` allows it there may also be none, or a single one of one bit.
def ofLengths? (lengths : Array Nat) (single : Bool) : Option Huffman :=
  let counts := (countLengths lengths).set! 0 0
  let used := counts.foldl (· + ·) 0
  if taken counts = Nat.pow 2 maxLength || (single && used ≤ 1 && counts.getD 1 0 = used) then
    let ofLength (n : Nat) := (List.range lengths.size).filter fun s => lengths.getD s 0 = n
    some ⟨counts, ((List.range maxLength).flatMap fun k => ofLength (k + 1)).toArray⟩
  else none

-- The code of blocks that carry none: literals and lengths, and distances.
def fixedLengths : Array Nat :=
  Array.replicate 144 8 ++ Array.replicate 112 9 ++ Array.replicate 24 7 ++ Array.replicate 8 8

def fixedDistances : Array Nat :=
  Array.replicate 32 5

end Huffman

end PodCompiler.Archive
