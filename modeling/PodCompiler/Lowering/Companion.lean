import PodCompiler.Lowering.Method

namespace PodCompiler.Lowering

open ClassFile.Op
open ClassFile (CodeBuffer Draft DraftM Pool)

-- What is thrown for the root of all errors.
def rootCarrier : String := "fan/sys/Err$Val"

-- Code of a class that keeps no types.
def addStub (access : UInt16) (name desc : String) (maxStack maxLocals : Nat)
    (write : CodeBuffer → CodeBuffer) : DraftM Unit :=
  Draft.addMethod access name desc (some (write (CodeBuffer.sized maxStack maxLocals)))

-- The class that is thrown for an error; it extends that of the base type.
def lowerCarrier (name superName : String) (config : EmitConfig) :
    Except LoweringError ClassOutput :=
  let access := ClassFile.Access.public_ ||| ClassFile.Access.super_
  OpenClass.build name superName access config do
    let init ← Draft.onPool (Pool.method s!"{superName}.<init>()V")
    addStub ClassFile.Access.public_ "<init>" "()V" 1 1 fun out =>
      ((out.op aload0).op2 invokeSpecial init).op returnVoid

-- The subclass whose objects hold their type.
def lowerDynamic (base : String) (config : EmitConfig) : Except LoweringError ClassOutput :=
  let name := base ++ "$Dynamic"
  let access := ClassFile.Access.public_ ||| ClassFile.Access.super_
  OpenClass.build name base access config do
    Draft.addField (ClassFile.Access.private_ ||| ClassFile.Access.final_) "$type" typeDesc
    let field ← Draft.onPool (Pool.field s!"{name}.$type:{typeDesc}")
    let init ← Draft.onPool (Pool.method s!"{base}.<init>()V")
    addStub ClassFile.Access.public_ "<init>" s!"({typeDesc})V" 2 2 fun out =>
      let out := (out.op aload0).op2 invokeSpecial init
      (((out.op aload0).op aload1).op2 putField field).op returnVoid
    addStub ClassFile.Access.public_ "typeof" s!"(){typeDesc}" 1 1 fun out =>
      ((out.op aload0).op2 getField field).op areturn

end PodCompiler.Lowering
