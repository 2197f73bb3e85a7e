import PodCompiler.Bytes

namespace PodCompiler.Archive

-- One bit of the division by the polynomial of the checksum, lowest bit first.
def crcBit (r : UInt32) : UInt32 :=
  if r &&& 1 = 1 then (r >>> 1) ^^^ 0xEDB88320 else r >>> 1

def crcByte (r : UInt32) (b : UInt8) : UInt32 :=
  Nat.repeat crcBit 8 (r ^^^ b.toUInt32)

-- The checksum of an archive entry.
def crc32 (data : Bytes) : UInt32 :=
  data.foldl crcByte 0xFFFFFFFF ^^^ 0xFFFFFFFF

end PodCompiler.Archive
