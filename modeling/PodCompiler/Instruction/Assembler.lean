import PodCompiler.Instruction.Basic

namespace PodCompiler

-- Code under assembly. A jump or a switch whose targets are not known yet is written with
-- placeholders, which `patch` overwrites.
structure Assembler where
  code : Bytes := #[]

namespace Assembler

-- The position of the next instruction, of which two bytes are kept.
def here (a : Assembler) : UInt16 :=
  a.code.size.toUInt16

def op (a : Assembler) (o : Opcode) : Assembler :=
  ⟨a.code.put1 o.byte⟩

def op1 (a : Assembler) (o : Opcode) (x : UInt16) : Assembler :=
  ⟨(a.code.put1 o.byte).put2 x⟩

def op2 (a : Assembler) (o : Opcode) (x y : UInt16) : Assembler :=
  ⟨(a.op1 o x).code.put2 y⟩

-- A jump, and the position of its operand.
def jump (a : Assembler) (o : Opcode) : Nat × Assembler :=
  (a.code.size + 1, a.op1 o 0xFFFF)

-- A switch, and the positions of its operands.
def switch (a : Assembler) (count : UInt16) : List Nat × Assembler :=
  let head := a.op1 .switch count
  ((List.range count.toNat).map fun k => head.code.size + 2 * k,
    ⟨head.code ++ Array.replicate (2 * count.toNat) 0xFF⟩)

def patch (a : Assembler) (pos : Nat) (target : UInt16) : Assembler :=
  ⟨a.code.set2 pos target⟩

def raw (a : Assembler) (bytes : Bytes) : Assembler :=
  ⟨a.code ++ bytes⟩

end Assembler

end PodCompiler
