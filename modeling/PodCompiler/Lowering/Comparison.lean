import PodCompiler.Instruction.Basic
import PodCompiler.Lowering.Item
import PodCompiler.TypeRef.Basic

namespace PodCompiler.Lowering

open ClassFile.Op

-- What follows a comparison: a conditional jump that is taken when the comparison is `sense`, one
-- whose operand is cut off, or anything else.
inductive Following where
  | jump (pos : Nat) (sense : Bool) (target : UInt16)
  | cutOff
  | other
  deriving DecidableEq, Repr

namespace Following

-- The sense of a conditional jump.
def sense? : Opcode → Option Bool
  | .jumpTrue => some true
  | .jumpFalse => some false
  | _ => none

-- What comes next, before the rest of the instructions and the fault that ends them.
def ofRest (rest : List Instr) (fault : Option DecodeFault) : Following :=
  match rest with
  | i :: _ =>
    match sense? i.op with
    | some sense => .jump i.pos sense i.arg
    | none => .other
  | [] =>
    match (fault.bind (·.op)).bind sense? with
    | some _ => .cutOff
    | none => .other

end Following

-- The code of a comparison, and whether it is that of the jump behind it too.
structure Compared where
  items : List (Item Ref)
  fused : Bool := false
  deriving DecidableEq, Repr

-- The relations between two values.
inductive Relation where
  | eq
  | ne
  | lt
  | le
  | gt
  | ge
  deriving DecidableEq, Repr

namespace Relation

-- The method of the runtime that decides the relation.
def helper : Relation → String
  | .eq => "compareEQ"
  | .ne => "compareNE"
  | .lt => "compareLT"
  | .le => "compareLE"
  | .gt => "compareGT"
  | .ge => "compareGE"

-- The jump that is taken if a three-way comparison came out in the relation.
def jumpOp : Relation → UInt8
  | .eq => ifeq
  | .ne => ifne
  | .lt => iflt
  | .le => ifle
  | .gt => ifgt
  | .ge => ifge

end Relation

namespace Comparison

-- The descriptor under which the runtime takes a value.
def operandDesc (t : TypeRef) : String :=
  match t.stack with
  | .bool => "Z"
  | .long => "J"
  | .double => "D"
  | _ => "Ljava/lang/Object;"

-- The conditional jump that stands for the jump at `pos`; `op` is taken if the comparison holds.
def fusedJump (pos : Nat) (before : List (Item Ref)) (op : UInt8) (sense : Bool) (target : UInt16) :
    Compared :=
  let op := if sense then op else negateBranch op
  { items := .mark pos :: before ++ [.jump .branch op target], fused := true }

-- A comparison that jumps by `op` behind `before`, or pushes its result by `unfused`. A jump that
-- is cut off ends the method, and nothing is written before that.
def jumpOr (next : Following) (before : List (Item Ref)) (op : UInt8) (unfused : Compared) :
    Compared :=
  match next with
  | .jump pos sense target => fusedJump pos before op sense target
  | .cutOff => { items := [] }
  | .other => unfused

-- The machine's own comparison of two values of one type, and the jump behind it. Comparing
-- doubles, one that is no number makes every relation but `ne` fail.
def direct? (rel : Relation) (lhs rhs : StackType) : Option (List (Item Ref) × UInt8) :=
  if lhs = rhs then
    match lhs, rel with
    | .long, _ => some ([.op lcmp], rel.jumpOp)
    | .double, .lt | .double, .le => some ([.op dcmpg], rel.jumpOp)
    | .double, _ => some ([.op dcmpl], rel.jumpOp)
    | .bool, .eq => some ([], ifIcmpeq)
    | .bool, .ne => some ([], ifIcmpne)
    | _, _ => none
  else none

-- The comparison by the runtime; its result decides the jump behind it.
def byRuntime (rel : Relation) (lhs rhs : TypeRef) (next : Following) : Compared :=
  let call := .callStatic
    s!"fanx/util/OpUtil.{rel.helper}({operandDesc lhs}{operandDesc rhs})Z"
  match next with
  | .jump pos sense target =>
    let fused := fusedJump pos [] ifne sense target
    { fused with items := call :: fused.items }
  | .cutOff | .other => { items := [call] }

def relation (rel : Relation) (lhs rhs : TypeRef) (next : Following) : Compared :=
  match direct? rel lhs.stack rhs.stack with
  | some (before, op) => jumpOr next before op (byRuntime rel lhs rhs next)
  | none => byRuntime rel lhs rhs next

-- The order of two values as a number.
def threeWay (lhs rhs : TypeRef) : List (Item Ref) :=
  [.callStatic s!"fanx/util/OpUtil.compare({operandDesc lhs}{operandDesc rhs})J"]

-- Whether two references are the same object, or are not.
def same (want : Bool) (next : Following) : Compared :=
  let name := if want then "compareSame" else "compareNotSame"
  jumpOr next [] (if want then ifAcmpeq else ifAcmpne)
    { items := [
        .callStatic s!"fanx/util/OpUtil.{name}(Ljava/lang/Object;Ljava/lang/Object;)Z"] }

-- Whether a value is null, or is not. A primitive never is.
def null (want : Bool) (t : TypeRef) (next : Following) : Compared :=
  if t.isPrimitive then
    { items := [.op (if t.isWide then pop2 else pop), .op (if want then iconst0 else iconst1)] }
  else
    let name := if want then "compareNull" else "compareNotNull"
    jumpOr next [] (if want then ifNull else ifNonNull)
      { items := [.callStatic s!"fanx/util/OpUtil.{name}(Ljava/lang/Object;)Z"] }

end Comparison

end PodCompiler.Lowering
