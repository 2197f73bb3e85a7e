import PodCompiler.Pod.Error

namespace PodCompiler.ClassFile

-- Why the bytes of a class file cannot be read. A constant that is not of the expected kind is
-- given as text.
inductive ClassFault where
  | badMagic (found : UInt32)
  | unknownTag (tag : UInt8)
  | noConstant (index : UInt16)
  | notUtf8 (found : String)
  | notClass (found : String)
  | notNameAndType (found : String)
  | notDescribable (found : String)
  | unreadable (error : Pod.FormatError)
  deriving DecidableEq, Repr

def ClassFault.message : ClassFault → String
  | .badMagic found => s!"bad magic 0x{Text.hex 8 found.toNat}"
  | .unknownTag tag => s!"pool tag {tag.toNat}"
  | .noConstant index => s!"pool index {index.toNat}"
  | .notUtf8 found => s!"expected utf8, got {found}"
  | .notClass found => s!"expected class, got {found}"
  | .notNameAndType found => s!"expected name-and-type, got {found}"
  | .notDescribable found => s!"cannot describe {found}"
  | .unreadable error => error.message

-- Why a class file cannot be written or read.
inductive ClassError where
  | poolOverflow
  | codeTooLarge (size : Nat)
  | branchOutOfRange (offset : Int)
  | badSignature (sig : String)
  | malformed (fault : ClassFault)
  deriving DecidableEq, Repr

def ClassError.message : ClassError → String
  | .poolOverflow => "Constant pool overflow"
  | .codeTooLarge size => s!"Method code too large: {size} bytes"
  | .branchOutOfRange offset => s!"Branch offset out of range: {offset}"
  | .badSignature sig => s!"Malformed member signature: {sig}"
  | .malformed fault => s!"Malformed class file: {fault.message}"

end PodCompiler.ClassFile
