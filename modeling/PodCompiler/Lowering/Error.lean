import PodCompiler.ClassFile.Error
import PodCompiler.Instruction.Opcode
import PodCompiler.Pod.Literals

namespace PodCompiler.Lowering

open Pod (FormatError LiteralKind)
open ClassFile (ClassError)

-- How many finally blocks may be copied into one another.
def maxInlineDepth : Nat := 16

-- How many classes a chain of base classes may have.
def maxBaseDepth : Nat := 64

-- What an operand or an instruction gets wrong.
inductive OperandFault where
  | undecodable (error : FormatError)
  | noRegister (index : UInt16)
  | notFinallyStart (pos : UInt16) (found : Opcode)
  | finallyNeverEnds (pos : UInt16)
  | finallyEndAlone
  deriving DecidableEq, Repr

def OperandFault.message : OperandFault → String
  | .undecodable error => error.message
  | .noRegister index => s!"no register {index.toNat}"
  | .notFinallyStart pos found => s!"target {pos.toNat} is {found.name}, not FinallyStart"
  | .finallyNeverEnds pos => s!"finally at {pos.toNat} never ends"
  | .finallyEndAlone => "FinallyEnd without FinallyStart"

-- What a reference does not lead to.
inductive Missing where
  | typeRef (error : FormatError)
  | fieldRef (error : FormatError)
  | methodRef (error : FormatError)
  | literal (kind : LiteralKind) (index size : Nat)
  | type (qname : String)
  deriving DecidableEq, Repr

def Missing.message : Missing → String
  | .typeRef error => s!"typeRef: {error.message}"
  | .fieldRef error => s!"fieldRef: {error.message}"
  | .methodRef error => s!"methodRef: {error.message}"
  | .literal kind index size => s!"literal {kind.fieldName index} (table has {size})"
  | .type qname => s!"type {qname}"

-- What lowering itself does not allow for.
inductive InternalFault where
  | finallyTooDeep (method : String)
  | noFinallySlot (pos : Nat)
  | noBoxing (stack : StackType)
  | tooManyArgs (method : String)
  | missingDefault (owner method : String) (index : Nat)
  | typeIndex (index : Nat)
  | bodyNotRead (qname : String)
  | baseChainTooDeep (qname : String)
  deriving DecidableEq, Repr

def InternalFault.message : InternalFault → String
  | .finallyTooDeep method => s!"finally nesting deeper than {maxInlineDepth} in {method}"
  | .noFinallySlot pos => s!"no slot for finally at {pos}"
  | .noBoxing stack => s!"box {stack.name}"
  | .tooManyArgs method => s!"too many args: {method}"
  | .missingDefault owner method index =>
    s!"{owner}.{method}: param {index} after a default has none"
  | .typeIndex index => s!"type index {index} out of range"
  | .bodyNotRead qname => s!"type {qname} body not read"
  | .baseChainTooDeep qname => s!"base chain of {qname} deeper than {maxBaseDepth}"

-- Why a pod cannot be lowered. `overflow` is a count of slots that has no sixteen-bit value.
inductive LoweringError where
  | unknownOpcode (byte : UInt8) (method : String)
  | badOperand (op : Option Opcode) (method : String) (fault : OperandFault)
  | missingReloc (target : UInt16) (method : String)
  | jumpOutOfRange (offset : Int) (method : String)
  | badCoerce (source target : String)
  | internal (fault : InternalFault)
  | unresolved (missing : Missing)
  | format (error : FormatError)
  | classFile (error : ClassError)
  | overflow
  deriving DecidableEq, Repr

namespace LoweringError

def message : LoweringError → String
  | .unknownOpcode byte method => s!"unknown opcode {byte.toNat} in {method}"
  | .badOperand op method fault =>
    "bad operand for " ++ (match op with
      | some op => op.name
      | none => "?") ++ s!" in {method}: {fault.message}"
  | .missingReloc target method => s!"no relocation for fcode offset {target.toNat} in {method}"
  | .jumpOutOfRange offset method => s!"jump offset {offset} out of range in {method}"
  | .badCoerce source target => s!"cannot coerce {source} to {target}"
  | .internal fault => s!"internal error: {fault.message}"
  | .unresolved missing => s!"unresolved reference: {missing.message}"
  | .format error => error.message
  | .classFile error => error.message
  | .overflow => "slot count out of range"

-- Whether the error speaks of lowering, or of code that no compiler writes, rather than of a pod
-- that does not fit the others.
def isInternal : LoweringError → Bool
  | .unknownOpcode .. | .badOperand .. | .missingReloc .. | .jumpOutOfRange .. | .badCoerce ..
  | .internal _ | .format (.unknownOpcode _) | .overflow => true
  | .unresolved _ | .format _ | .classFile _ => false

end LoweringError

end PodCompiler.Lowering
