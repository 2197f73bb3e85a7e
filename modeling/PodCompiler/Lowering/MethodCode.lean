import PodCompiler.Lowering.Body
import PodCompiler.Lowering.Protection

namespace PodCompiler.Lowering

open ClassFile (CodeBuffer)
open Pod (Attributes LineNumber MethodDef)

-- Code with the position of each instruction, as far as it has one outside of copies, and the
-- jumps.
structure MethodCode where
  code : CodeBuffer
  reloc : Array (Option Nat)
  jumps : Array JumpNode

-- Code whose jumps go where they should, before its tables.
structure PlacedCode where
  out : CodeBuffer
  reloc : Relocation
  jumps : Array JumpNode
  finallies : FinallySlots

-- Writes the instructions in `code` behind `out`.
def placeCode (f : Frame) (code : Bytes) (out : CodeBuffer) : ClassM PlacedCode := do
  let (_, body) ← (emitBody f code).run {}
  let finallies := body.finallies
  let layout := (Layout.start out code.size).putAll body.items
  let reloc := layout.reloc
  let jumps := layout.jumps
  let table : JumpTable := { nodes := jumps, prologue := finallies.prologue }
  match (table.backpatch reloc f.name).run layout.out with
  | .ok _ out => return { out, reloc, jumps, finallies }
  | .error e _ => throw e

-- The lines of those instructions that have a position.
def lineEntries (r : Relocation) (lines : List LineNumber) : List ClassFile.LineEntry :=
  lines.filterMap fun l =>
    (r.getLocal Relocation.mainScope l.pc.toNat).map fun java =>
      { startPc := java.toUInt16, line := l.line }

-- The code with room for the frame and the finally blocks.
def PlacedCode.finish (p : PlacedCode) (f : Frame) : Except LoweringError MethodCode := do
  let locals ← p.finallies.maxLocals f
  let code := { p.out with
    maxLocals := max p.out.maxLocals locals
    maxStack := max p.out.maxStack f.maxStack.toUInt16 }
  return { code, reloc := p.reloc.mainMap, jumps := p.jumps }

-- The code of a whole method, with its tables.
def lowerCode (f : Frame) (code : Bytes) (attrs : Attributes) (out : CodeBuffer) :
    ClassM MethodCode := do
  let p ← placeCode f code out
  let errs ← ClassM.ofFormat attrs.errTable
  let exceptions ← Protection.table p.reloc f.name errs.toList
  let p := { p with out := exceptions.foldl CodeBuffer.addException p.out }
  if (← read).config.lineNumbers then
    let lines ← ClassM.ofFormat attrs.lineNumbers
    let p := { p with out := (lineEntries p.reloc lines.toList).foldl CodeBuffer.addLine p.out }
    ofExcept (p.finish f)
  else ofExcept (p.finish f)

-- The code of an expression, which has no tables.
def lowerFragment (f : Frame) (code : Bytes) (out : CodeBuffer) : ClassM MethodCode := do
  let p ← placeCode f code out
  ofExcept (p.finish f)

def lowerBody (f : Frame) (m : MethodDef) (out : CodeBuffer) : ClassM MethodCode :=
  lowerCode f m.code m.attrs out

end PodCompiler.Lowering
