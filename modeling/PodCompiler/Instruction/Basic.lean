import PodCompiler.Instruction.Opcode
import PodCompiler.Pod.Error

namespace PodCompiler

open Pod (FormatError)

-- One instruction, the position of its first byte, and its operands (for a switch, its targets).
structure Instr where
  pos : Nat
  op : Opcode
  args : List UInt16
  deriving DecidableEq, Repr

namespace Instr

-- The first operand.
def arg (i : Instr) : UInt16 :=
  i.args.headD 0

-- How many bytes the instruction takes.
def size (i : Instr) : Nat :=
  match i.op.shape with
  | .none => 1
  | .index | .jump => 3
  | .typePair => 5
  | .switch => 3 + 2 * i.args.length

theorem size_pos (i : Instr) : 0 < i.size := by
  unfold size
  split <;> omega

-- The operand at `pos`.
def operandAt (code : Bytes) (pos : Nat) : Except FormatError UInt16 :=
  match code.be2? pos with
  | some v => .ok v
  | none => .error (.truncated "code" pos)

-- `n` operands from `pos` on.
def operandsAt (code : Bytes) (pos n : Nat) : Except FormatError (List UInt16) :=
  (List.range n).mapM fun k => operandAt code (pos + 2 * k)

-- The operands of an instruction whose opcode stands at `pos`.
def argsAt (code : Bytes) (pos : Nat) : OperandShape → Except FormatError (List UInt16)
  | .none => .ok []
  | .index | .jump => operandsAt code (pos + 1) 1
  | .typePair => operandsAt code (pos + 1) 2
  | .switch => do
    let count ← operandAt code (pos + 1)
    operandsAt code (pos + 3) count.toNat

-- The instruction at `pos`.
def decodeAt (code : Bytes) (pos : Nat) : Except FormatError Instr :=
  match code[pos]? with
  | none => .error (.truncated "code" pos)
  | some b =>
    match Opcode.ofByte? b with
    | none => .error (.unknownOpcode b)
    | some op => do
      let args ← argsAt code pos op.shape
      return { pos, op, args }

-- One line of a listing.
def format (i : Instr) : String :=
  let line := Text.padLeft ' ' 4 (toString i.pos) ++ ": " ++ i.op.name
  if i.args.isEmpty then line
  else line ++ " " ++ ", ".intercalate (i.args.map fun a => toString a.toNat)

end Instr

-- The first position at which no instruction starts, its opcode if the byte there is one, and why.
structure DecodeFault where
  pos : Nat
  op : Option Opcode
  error : FormatError
  deriving DecidableEq, Repr

-- The instructions of a piece of code, and what ended them.
structure Decoded where
  instrs : List Instr
  fault : Option DecodeFault
  deriving DecidableEq, Repr

namespace Instr

-- Decodes from `pos` while it is before `stop`; `done` holds what was decoded before. Nothing behind
-- a fault is looked at, so a consumer meets it in the order of the code.
def decodeAfter (code : Bytes) (stop : Nat) (done : Array Instr) (pos : Nat) : Decoded :=
  if pos < stop then
    match decodeAt code pos with
    | .ok i =>
      have := i.size_pos
      decodeAfter code stop (done.push i) (pos + i.size)
    | .error e => ⟨done.toList, some ⟨pos, code[pos]?.bind Opcode.ofByte?, e⟩⟩
  else ⟨done.toList, none⟩
termination_by stop - pos

-- The instructions in `[start, stop)`.
def decodeRange (code : Bytes) (start stop : Nat) : Decoded :=
  decodeAfter code stop #[] start

-- All instructions of a buffer, or the first fault.
def disassemble (code : Bytes) : Except FormatError (List Instr) :=
  match decodeRange code 0 code.size with
  | ⟨instrs, none⟩ => .ok instrs
  | ⟨_, some fault⟩ => .error fault.error

-- Looks for the end of the finally block of which `depth` blocks are open at `pos`. The result is
-- `none` if the buffer ends first.
def findFinallyEnd (code : Bytes) (depth pos : Nat) : Except FormatError (Option Nat) :=
  if pos < code.size then
    match decodeAt code pos with
    | .error e => .error e
    | .ok i =>
      have := i.size_pos
      match i.op, depth with
      | .finallyStart, d => findFinallyEnd code (d + 1) (pos + i.size)
      | .finallyEnd, 0 => .ok (some pos)
      | .finallyEnd, d + 1 => findFinallyEnd code d (pos + i.size)
      | _, d => findFinallyEnd code d (pos + i.size)
  else .ok none
termination_by code.size - pos

end Instr

end PodCompiler
