import PodCompiler.Lowering.Item

namespace PodCompiler.Lowering

open ClassFile (CodeBuffer)

-- Code that is written so far. `outer` holds, for each open copy, the scope around it and where its
-- code starts.
structure Layout where
  out : CodeBuffer
  reloc : Relocation
  jumps : Array JumpNode := #[]
  scope : Nat := Relocation.mainScope
  outer : List (Nat × Nat) := []

namespace Layout

-- Nothing is written yet behind `out`, for a method of `size` bytes.
def start (out : CodeBuffer) (size : Nat) : Layout :=
  { out, reloc := .ofSize size }

-- The placeholders of the targets of a switch, from `operand` on.
def switchNodes (scope origin operand : Nat) : List UInt16 → List JumpNode
  | [] => []
  | target :: rest =>
    { target, origin, operand, kind := .switch, scope } ::
      switchNodes scope origin (operand + 4) rest

-- A table switch from zero on; every other value goes on behind it. Without targets the value is
-- taken off the stack and that is all.
def putSwitch (l : Layout) (targets : List UInt16) : Layout :=
  if targets.isEmpty then { l with out := l.out.op ClassFile.Op.pop2 }
  else
    let out := l.out.op ClassFile.Op.l2i
    let origin := out.pos
    let out := out.op ClassFile.Op.tableSwitch
    let pad := out.padding
    let out := out.pad4
    let out := out.u4 (1 + pad + 12 + targets.length * 4).toUInt32
    let out := (out.u4 0).u4 (targets.length - 1).toUInt32
    let nodes := switchNodes l.scope origin out.pos targets
    let out := targets.foldl (fun out _ => out.u4 0xFFFFFFFF) out
    { l with out, jumps := l.jumps ++ nodes.toArray }

def enter (l : Layout) : Layout :=
  { l with
    reloc := l.reloc.pushScope l.scope
    scope := l.reloc.nextScope
    outer := (l.scope, l.out.pos) :: l.outer }

-- Ends the copy that was begun last. Where it stops is a position of its scope too.
def leave (l : Layout) (site finallyStart stop : Nat) : Layout :=
  match l.outer with
  | [] => l
  | (parent, javaStart) :: outer =>
    let javaEnd := l.out.pos
    let reloc := l.reloc.record l.scope stop javaEnd
    let reloc := reloc.closeScope l.scope
      { site, finallyStart, start := finallyStart + 1, stop, javaStart, javaEnd }
    { l with reloc, scope := parent, outer }

def put (l : Layout) : Item UInt16 → Layout
  | .mark pos => { l with reloc := l.reloc.record l.scope pos l.out.pos }
  | .reserve _ => l
  | .op o => { l with out := l.out.op o }
  | .byte o x => { l with out := l.out.op1 o x }
  | .const o r => { l with out := l.out.op2 o r }
  | .interface r slots =>
    { l with out := ((l.out.op2 ClassFile.Op.invokeInterface r).u1 slots).u1 0 }
  | .load t slot => { l with out := l.out.loadVar t slot }
  | .store t slot => { l with out := l.out.storeVar t slot }
  | .onSlot o slot => { l with out := l.out.slotOp o slot }
  | .hop o distance => { l with out := l.out.op2 o distance }
  | .jump kind o target =>
    let origin := l.out.pos
    { l with
      out := l.out.branch o
      jumps := l.jumps.push { target, origin, operand := origin + 1, kind, scope := l.scope } }
  | .switch targets => l.putSwitch targets
  | .enter => l.enter
  | .leave site finallyStart stop => l.leave site finallyStart stop

def putAll (l : Layout) (items : Array (Item UInt16)) : Layout :=
  items.foldl put l

end Layout

end PodCompiler.Lowering
