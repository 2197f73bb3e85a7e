import PodCompiler.Lowering.Comparison
import PodCompiler.Lowering.Conversion
import PodCompiler.Lowering.FinallyBlock
import PodCompiler.Lowering.Layout

namespace PodCompiler.Lowering

open ClassFile.Op
open Pod (LiteralKind)

-- The items so far, and the slots of the finally blocks.
structure BodyState where
  items : Array (Item UInt16) := #[]
  finallies : FinallySlots := {}

abbrev BodyM := StateT BodyState ClassM

namespace BodyM

-- Appends items, whose constants enter the pool in their order.
def emit : List (Item Ref) → BodyM Unit
  | [] => pure ()
  | i :: rest => do
    let i ← (i.mapM Ref.intern : ClassM (Item UInt16))
    modify fun s => { s with items := s.items.push i }
    emit rest

def emitOk (items : Except LoweringError (List (Item Ref))) : BodyM Unit := do
  emit (← ofExcept items)

-- Asks for slots.
def slots (m : FinallySlots → Except LoweringError (α × FinallySlots)) : BodyM α :=
  fun ⟨items, finallies⟩ => do
    let (a, finallies) ← ofExcept (m finallies)
    return (a, ⟨items, finallies⟩)

end BodyM

-- An error of the method.
def badOperand (f : Frame) (i : Instr) (fault : OperandFault) : LoweringError :=
  .badOperand (some i.op) f.name fault

-- The error for code at which no instruction starts.
def faultError (f : Frame) (d : DecodeFault) : LoweringError :=
  match d.error with
  | .unknownOpcode byte => .unknownOpcode byte f.name
  | e => .badOperand none f.name (.undecodable e)

-- The field that holds a literal, which must be in its table.
def literalRef (pod : Pod) (kind : LiteralKind) (index : UInt16) : Except LoweringError Ref :=
  let size := kind.count pod.literals
  if index.toNat < size then
    .ok (.field s!"{literalClass pod.name}.{kind.fieldName index.toNat}:{kind.desc}")
  else .error (.unresolved (.literal kind index.toNat size))

-- Takes a primitive out of the field of a literal. The other literals stay objects.
def literalValue : LiteralKind → List (Item Ref)
  | .int => [.callVirtual "java/lang/Long.longValue()J"]
  | .float => [.callVirtual "java/lang/Double.doubleValue()D"]
  | _ => []

def emitLiteral (kind : LiteralKind) (i : Instr) : BodyM Unit := do
  let r ← ofExcept (literalRef (← read).pod kind i.arg)
  BodyM.emit (.const getStatic r :: literalValue kind)

-- The variable of the register that an instruction names.
def variableOf (f : Frame) (i : Instr) : Except LoweringError Local :=
  match f.local? i.arg with
  | some l => .ok l
  | none => .error (badOperand f i (.noRegister i.arg))

-- A call, or what it is lowered to in its place.
def Call.items : Call → List (Item Ref)
  | .intrinsic (.ops codes) => codes.map .op
  | .intrinsic (.newObject cls) => [.const newObject (.class_ cls), .op dup]
  | .intrinsic (.classLiteral cls) => [.const ldcW (.class_ cls)]
  | .intrinsic (.newArray element) => [.byte newArray element]
  | .invoke i =>
    match i.slots with
    | some slots => [.interface (.interfaceMethod i.sig) slots]
    | none => [.const i.op (.method i.sig)]

def emitCall (kind : CallKind) (i : Instr) : BodyM Unit := do
  let call ← ClassM.onResolver (Resolver.call (← ClassM.symbols) i.arg kind)
  BodyM.emit call.items

def emitField (op : UInt8) (i : Instr) (mixin : Bool) : BodyM Unit := do
  let sig ← ClassM.onResolver (Resolver.field (← ClassM.symbols) i.arg mixin)
  BodyM.emit [.const op (.field sig)]

-- The types of the two operands of a comparison or a conversion.
def typePair (i : Instr) : ClassM (TypeRef × TypeRef) := do
  let lhs ← ClassM.typeRef i.arg
  let rhs ← ClassM.typeRef (i.args.getD 1 0)
  return (lhs, rhs)

-- Drops a value of the type.
def popItems (t : TypeRef) : List (Item Ref) :=
  if t.isVoid then [] else [.op (if t.isWide then pop2 else pop)]

def emitCompared (c : Compared) : BodyM Bool := do
  BodyM.emit c.items
  return c.fused

def emitRelation (rel : Relation) (i : Instr) (next : Following) : BodyM Bool := do
  let (lhs, rhs) ← typePair i
  emitCompared (Comparison.relation rel lhs rhs next)

-- Enters a finally block by an exception. As a subroutine the block calls itself and then throws
-- the exception again; behind that is the place that other calls enter.
def emitFinallyStart (f : Frame) (i : Instr) : BodyM Unit := do
  match (← read).config.finallyStrategy with
  | .subroutine =>
    let (exception, address) ← BodyM.slots (FinallySlots.forSubroutine f)
    let size := FinallySlots.slotOpSize exception
    BodyM.emit [
      .onSlot astore exception,
      .hop jsr (3 + size + 1).toUInt16,
      .onSlot aload exception,
      .op athrow,
      .store .obj address]
  | .inline =>
    let slot ← BodyM.slots (FinallySlots.forBlock f i.pos)
    modify fun s =>
      { s with finallies := { s.finallies with pending := i.pos :: s.finallies.pending } }
    BodyM.emit [.store .obj slot]

-- Leaves a finally block: back to the call, or by throwing the exception again.
def emitFinallyEnd (f : Frame) (i : Instr) : BodyM Unit := do
  match (← read).config.finallyStrategy with
  | .subroutine =>
    let (_, address) ← BodyM.slots (FinallySlots.forSubroutine f)
    BodyM.emit [.onSlot ClassFile.Op.ret address]
  | .inline =>
    let finallies := (← get).finallies
    match finallies.pending with
    | [] => throw (badOperand f i .finallyEndAlone)
    | pos :: pending =>
      modify fun s => { s with finallies := { s.finallies with pending } }
      match finallies.exceptions[pos]? with
      | none => throw (.internal (.noFinallySlot pos))
      | some slot => BodyM.emit [.load .obj slot, .op athrow]

-- Runs a finally block. `copy` lowers a copy of it.
def emitJumpFinally (copy : Instr → BodyM Unit) (i : Instr) : BodyM Unit := do
  match (← read).config.finallyStrategy with
  | .subroutine => BodyM.emit [.jump .finally_ jsr i.arg]
  | .inline => copy i

-- An instruction whose items need nothing but themselves.
def plain (items : List (Item Ref)) : BodyM Bool := do
  BodyM.emit items
  return false

-- The items of one instruction. The result says whether the jump behind it is lowered too.
def emitInstr (f : Frame) (copy : Instr → BodyM Unit) (i : Instr) (next : Following) :
    BodyM Bool := do
  match i.op with
  | .nop | .catchEnd => return false
  | .loadNull => plain [.op aconstNull]
  | .loadFalse => plain [.op iconst0]
  | .loadTrue => plain [.op iconst1]
  | .loadInt => emitLiteral .int i; return false
  | .loadFloat => emitLiteral .float i; return false
  | .loadDecimal => emitLiteral .decimal i; return false
  | .loadStr => emitLiteral .str i; return false
  | .loadDuration => emitLiteral .duration i; return false
  | .loadUri => emitLiteral .uri i; return false
  | .loadType => plain (Conversion.pushType (← ClassM.typeRef i.arg))
  | .loadVar =>
    let l ← ofExcept (variableOf f i)
    plain [.load l.stack l.slot.toUInt16]
  | .storeVar =>
    let l ← ofExcept (variableOf f i)
    plain [.store l.stack l.slot.toUInt16]
  | .loadInstance => emitField getField i false; return false
  | .storeInstance => emitField putField i false; return false
  | .loadStatic => emitField getStatic i false; return false
  | .storeStatic => emitField putStatic i false; return false
  | .loadMixinStatic => emitField getStatic i true; return false
  | .storeMixinStatic => emitField putStatic i true; return false
  | .coerce =>
    let (source, target) ← typePair i
    BodyM.emitOk (Conversion.coerce source target)
    return false
  | .callNew => emitCall .new i; return false
  | .callCtor => emitCall .ctor i; return false
  | .callStatic => emitCall .static i; return false
  | .callVirtual => emitCall .virtual i; return false
  | .callNonVirtual => emitCall .nonVirtual i; return false
  | .callMixinStatic => emitCall .mixinStatic i; return false
  | .callMixinVirtual => emitCall .mixinVirtual i; return false
  | .callMixinNonVirtual => emitCall .mixinNonVirtual i; return false
  | .jump | .leave => plain [.jump .branch goto i.arg]
  | .jumpTrue => plain [.jump .branch ifne i.arg]
  | .jumpFalse => plain [.jump .branch ifeq i.arg]
  | .compareEQ => emitRelation .eq i next
  | .compareNE => emitRelation .ne i next
  | .compareLT => emitRelation .lt i next
  | .compareLE => emitRelation .le i next
  | .compareGT => emitRelation .gt i next
  | .compareGE => emitRelation .ge i next
  | .compare =>
    let (lhs, rhs) ← typePair i
    plain (Comparison.threeWay lhs rhs)
  | .compareSame => emitCompared (Comparison.same true next)
  | .compareNotSame => emitCompared (Comparison.same false next)
  | .compareNull => emitCompared (Comparison.null true (← ClassM.typeRef i.arg) next)
  | .compareNotNull => emitCompared (Comparison.null false (← ClassM.typeRef i.arg) next)
  | .returnVoid => plain [.op ClassFile.Op.returnVoid]
  | .returnObj => plain [.op (returnOp f.ret)]
  | .pop => plain (popItems (← ClassM.typeRef i.arg))
  | .dup => plain [.op (if (← ClassM.typeRef i.arg).isWide then dup2 else dup)]
  | .dupDown => plain [.op dupX1]
  | .is => plain (Conversion.isInstance (← ClassM.typeRef i.arg))
  | .as => plain (Conversion.asInstance (← ClassM.typeRef i.arg))
  | .cast => BodyM.emitOk (Conversion.cast (← ClassM.typeRef i.arg)); return false
  | .switch => plain [.switch i.args]
  | .throw => plain Conversion.throwErr
  | .jumpFinally => emitJumpFinally copy i; return false
  | .catchAllStart => plain [.op pop]
  | .catchErrStart =>
    BodyM.emit [.callStatic "fan/sys/Err.make(Ljava/lang/Throwable;)Lfan/sys/Err;"]
    BodyM.emitOk (Conversion.cast (← ClassM.typeRef i.arg))
    return false
  | .finallyStart => emitFinallyStart f i; return false
  | .finallyEnd => emitFinallyEnd f i; return false

-- What is behind the instructions: nothing, or the fault that ended them.
def emitFault (f : Frame) : Option DecodeFault → BodyM Unit
  | none => pure ()
  | some fault => throw (faultError f fault)

-- The items of instructions and of the fault behind them.
def emitInstrs (f : Frame) (copy : Instr → BodyM Unit) (fault : Option DecodeFault) :
    List Instr → BodyM Unit
  | [] => emitFault f fault
  | [i] => do
    BodyM.emit [.mark i.pos]
    let _ ← emitInstr f copy i (.ofRest [] fault)
    emitFault f fault
  | i :: j :: rest => do
    BodyM.emit [.mark i.pos]
    let fused ← emitInstr f copy i (.ofRest (j :: rest) fault)
    if fused then emitInstrs f copy fault rest else emitInstrs f copy fault (j :: rest)

-- A copy of the finally block that an instruction runs; `range` lowers the instructions in it.
def emitCopy (f : Frame) (code : Bytes) (range : Nat → Nat → BodyM Unit) (i : Instr) :
    BodyM Unit := do
  let stop ← ofExcept (finallyEnd f.name code i)
  BodyM.emit [.enter]
  range (i.arg.toNat + 1) stop
  BodyM.emit [.leave i.pos i.arg.toNat stop]

-- The items of the code in `[start, stop)`, in which copies may be `depth` deep.
def emitRange (f : Frame) (code : Bytes) : (depth start stop : Nat) → BodyM Unit
  | 0, start, stop =>
    let d := Instr.decodeRange code start stop
    emitInstrs f (fun _ => throw (.internal (.finallyTooDeep f.name))) d.fault d.instrs
  | depth + 1, start, stop =>
    let d := Instr.decodeRange code start stop
    emitInstrs f (emitCopy f code (emitRange f code depth)) d.fault d.instrs

-- The items of a whole method. Its end is a position too.
def emitBody (f : Frame) (code : Bytes) : BodyM Unit := do
  emitRange f code maxInlineDepth 0 code.size
  BodyM.emit [.mark code.size]

end PodCompiler.Lowering
