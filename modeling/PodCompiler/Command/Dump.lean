import PodCompiler.Command.Console
import PodCompiler.Text.Numeral

namespace PodCompiler.Command

open Pod (MethodDef Symbols TypeDef)

-- The signature of a type ref.
def signatureOf (s : Symbols) (index : UInt16) : ConsoleM String :=
  match s.typeRef index with
  | .ok t => return t.signature
  | .error e => throw (Failure.ofFormat e)

-- Prints a method and its instructions.
def dumpMethod (m : MethodDef) : ConsoleM Unit := do
  let params := m.params.length
  let locals := m.vars.size - params
  printLine s!"  method {m.name} (params={params}, locals={locals}, max_stack={m.maxStack.toNat})"
  match Instr.disassemble m.code with
  | .ok instrs => instrs.forM fun i => printLine ("    " ++ i.format)
  | .error e => throw (Failure.ofFormat e)

-- Prints a type with all that it has.
def dumpType (s : Symbols) (t : TypeDef) : ConsoleM Unit := do
  let self ← signatureOf s t.self
  printLine s!"--- {self} (flags 0x{Text.hex 8 t.flags.toNat}) ---"
  if let some base := t.base then
    printLine ("  base " ++ (← signatureOf s base))
  for m in t.mixins.toList do
    printLine ("  mixin " ++ (← signatureOf s m))
  for f in t.fields.toList do
    printLine (s!"  field {f.name}: " ++ (← signatureOf s f.type))
  t.methods.toList.forM dumpMethod
  printLine ""

-- Prints the pod in a file.
def dump (path : String) : ConsoleM Unit := do
  let pod ← ofExcept (openPod (← get).files path)
  printLine s!"=== Pod {pod.name} {pod.version} ==="
  printLine ("depends: " ++ ", ".intercalate pod.depends.toList)
  printLine s!"literals: {pod.literals.size}"
  printLine ""
  pod.types.toList.forM (dumpType pod.symbols)

-- Prints the instructions: number, name, and what follows.
def dumpOpcodes : ConsoleM Unit :=
  (List.range 256).forM fun value =>
    match Opcode.ofByte? value.toUInt8 with
    | some op =>
      printLine (Text.padLeft ' ' 3 (toString value) ++ "  " ++ Text.padRight 20 op.name ++ " " ++
        op.shape.name)
    | none => return

end PodCompiler.Command
