import PodCompiler.Bytes

namespace PodCompiler.Archive

-- The largest number of bytes in one plain block.
def maxChunk : Nat := 65535

-- A plain block: a mark that is one for the last block, the length, its complement, the bytes.
def storedBlock (last : Bool) (chunk : Bytes) : Bytes :=
  #[if last then 1 else 0] ++ Bytes.le2 chunk.size.toUInt16 ++
    Bytes.le2 (maxChunk - chunk.size).toUInt16 ++ chunk

-- A deflate stream that holds the data, as plain blocks.
def deflate (data : Bytes) : Bytes :=
  if maxChunk < data.size then
    storedBlock false (data.extract 0 maxChunk) ++ deflate (data.extract maxChunk data.size)
  else storedBlock true data
termination_by data.size
decreasing_by
  simp
  have : 0 < maxChunk := by decide
  omega

end PodCompiler.Archive
