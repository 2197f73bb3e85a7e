import PodCompiler.ClassFile.Parsed

namespace PodCompiler.ClassFile.Listing

-- What stands after the word of the instruction at `pos`, whose length is `length`. Operands past
-- the end of the code count as zero.
def operands (pool : ConstantTable) (code : Bytes) (pos length : Nat) : String :=
  let op := code.getD pos Op.nop
  let constant (i : UInt16) : String :=
    match pool.describe i with
    | .ok s => " " ++ s
    | .error _ => " "
  if op = Op.ldc then constant (code.getD (pos + 1) 0).toUInt16
  else if Op.hasPoolIndex op then constant (Op.word2 code (pos + 1))
  else if Op.isBranch op then
    " " ++ toString ((pos : Int) + (Op.word2 code (pos + 1)).toInt16.toInt)
  else String.join ((code.extract (pos + 1) (pos + length)).toList.map fun b => s!" {b.toNat}")

-- Lists from `pos` on; `done` holds the lines before.
def linesAfter (pool : ConstantTable) (code : Bytes) (done : Array String) (pos : Nat) :
    Option (Array String) :=
  if pos < code.size then
    match Op.length? code pos with
    | none => none
    | some n =>
      let length := max n 1
      let word := Op.mnemonic (code.getD pos Op.nop)
      let line :=
        Text.padLeft ' ' 4 (toString pos) ++ ": " ++ word ++ operands pool code pos length
      linesAfter pool code (done.push line) (pos + length)
  else some done
termination_by code.size - pos

-- The lines of some code. There are none if the length of an instruction has no value.
def lines (pool : ConstantTable) (code : Bytes) : Option (Array String) :=
  linesAfter pool code #[] 0

end PodCompiler.ClassFile.Listing
