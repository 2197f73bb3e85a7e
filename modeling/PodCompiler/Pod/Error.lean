import PodCompiler.Archive.Fault
import PodCompiler.Text.ModifiedUtf8

namespace PodCompiler.Pod

-- Why the bytes of a pod cannot be read.
inductive FormatError where
  | badMagic (found : UInt32)
  | badVersion (found : UInt32)
  | truncated (what : String) (pos : Nat)
  | missingEntry (name : String)
  | badIndex (table : String) (index size : Nat)
  | unknownOpcode (byte : UInt8)
  | text (fault : Text.ModifiedUtf8.Fault)
  | archive (fault : Archive.Fault)
  | io (fault : Archive.IoFault)
  deriving DecidableEq, Repr

def FormatError.message : FormatError → String
  | .badMagic found => s!"Bad fcode magic: 0x{Text.hex 8 found.toNat}"
  | .badVersion found => s!"Unsupported fcode version: 0x{Text.hex 8 found.toNat}"
  | .truncated what pos => s!"Truncated {what} at byte {pos}"
  | .missingEntry name => s!"Missing pod entry: {name}"
  | .badIndex table index size => s!"Index {index} out of range for {table} table (len {size})"
  | .unknownOpcode byte => s!"Unknown fcode opcode: {byte.toNat}"
  | .text fault => s!"Invalid modified UTF-8: {fault.message}"
  | .archive fault => s!"Zip error: {fault.message}"
  | .io fault => s!"IO error: {fault.message}"

end PodCompiler.Pod
