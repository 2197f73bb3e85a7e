import PodCompiler.Text.ModifiedUtf8

namespace PodCompiler.Bytes

-- Appends a byte run behind its length, of which two bytes are kept.
def putBuf (b : Bytes) (run : Bytes) : Bytes :=
  b.put2 run.size.toUInt16 ++ run

-- Appends a text behind the length of its encoding.
def putUtf (b : Bytes) (s : String) : Bytes :=
  b.putBuf (Text.ModifiedUtf8.encode s)

-- Appends a table: the count of the items, of which two bytes are kept, and each of them.
def putTable (b : Bytes) (items : List α) (put : Bytes → α → Bytes) : Bytes :=
  items.foldl put (b.put2 items.length.toUInt16)

end PodCompiler.Bytes
