import PodCompiler.Lowering.Companion
import PodCompiler.Lowering.Hierarchy

namespace PodCompiler.Lowering

open ClassFile (CodeBuffer Draft)
open ClassFile.Op
open Pod (MethodDef TypeDef)

-- A step on the types of a pod.
abbrev PodM := ReaderT PodEnv (EStateM LoweringError Resolver)

-- Lowers into a class. What is resolved stays so even if that fails.
def inClass (draft : Draft) (selfName : String) (m : ClassM Unit) : PodM OpenClass :=
  fun e resolver =>
    match (m.run { pod := e.pod, config := e.config, selfName }).run { draft, resolver } with
    | .ok _ ⟨draft, resolver, literals⟩ => .ok { draft, literals } resolver
    | .error err c => .error err c.resolver

-- The method that initializes a class, and the one that initializes its objects.
def staticInit : String := "static$init"

def instanceInit : String := "instance$init"

-- The last method of a name.
def lastNamed? (t : TypeDef) (name : String) : Option MethodDef :=
  t.methods.toList.reverse.find? (·.name = name)

-- The access of a class.
def classAccess (flags : UInt32) : UInt16 :=
  let has := Pod.Flag.has flags
  ClassFile.Access.super_ |||
  (if has (Pod.Flag.public_ ||| Pod.Flag.internal_) then ClassFile.Access.public_ else 0) |||
  (if has Pod.Flag.abstract_ then ClassFile.Access.abstract_ else 0) |||
  (if has Pod.Flag.final_ then ClassFile.Access.final_ else 0)

-- Names the mixins of a type as interfaces.
def addInterfaces (t : TypeDef) : ClassM Unit := do
  for m in t.mixins.toList do
    let r ← ClassM.typeRef m
    ClassM.onDraft (Draft.addInterface r.jname)

-- Names the source file of a type.
def addSource (t : TypeDef) : ClassM Unit := do
  if (← read).config.sourceFiles then
    let file ← ClassM.ofFormat t.attrs.sourceFile
    modify fun c => { c with draft := c.draft.setSourceFile file }

-- The code of an initializer: what is there already, and the body of a method if it has one.
def lowerInit (out : CodeBuffer) : Option MethodDef → ClassM CodeBuffer
  | none => return out.op returnVoid
  | some m => do
    if m.hasCode then
      let f ← ClassM.frame m .bound
      let out := { out with
        maxStack := max out.maxStack f.maxStack.toUInt16
        maxLocals := max out.maxLocals f.maxLocals.toUInt16 }
      return (← lowerBody f m out).code
    else return out.op returnVoid

-- Initializes a class. `self` is the type that a class keeps as its own.
def lowerClassInit (self : Option TypeRef) (body : Option MethodDef) : ClassM Unit := do
  let cls ← ClassM.className
  let items : List (Item Ref) := match self with
    | none => []
    | some t => [
      .const ldcW (.string t.signature),
      .callStatic "fan/sys/Type.find(Ljava/lang/String;)Lfan/sys/Type;",
      .const putStatic (.field s!"{cls}.$Type:{typeDesc}")]
  let out ← ClassM.assemble (CodeBuffer.sized 2 0) items
  let out ← lowerInit out body
  ClassM.addMethod ClassFile.Access.static_ "<clinit>" "()V" (some out)

-- Makes the peer of an object.
def peerItems (self : String) : List (Item Ref) := [
  .op aload0,
  .op dup,
  .callStatic s!"{self}Peer.make(L{self};)L{self}Peer;",
  .const putField (.field s!"{self}.peer:L{self}Peer;")]

-- Initializes an object whose superclass takes the arguments `args`, already in variables.
def lowerObjectInit (superName desc : String) (args : List (Item Ref)) (maxLocals : Nat)
    (native : Bool) (body : Option MethodDef) : ClassM Unit := do
  let self := (← read).selfName
  let out ← ClassM.assemble (CodeBuffer.sized 3 maxLocals) (
    .op aload0 :: args ++
    .const invokeSpecial (.method s!"{superName}.<init>{desc}") ::
    (if native then peerItems self else []))
  let out ← lowerInit out body
  ClassM.addMethod ClassFile.Access.public_ "<init>" desc (some out)

-- Initializes an error: with what is thrown for it, which is made if it is not given.
def lowerErrInit (superName : String) (native : Bool) (body : Option MethodDef) : ClassM Unit := do
  let cls ← ClassM.className
  let carrier := cls ++ "$Val"
  let desc := s!"(L{rootCarrier};)V"
  let out ← ClassM.assemble (CodeBuffer.sized 3 1) [
    .op aload0,
    .const newObject (.class_ carrier),
    .op dup,
    .const invokeSpecial (.method s!"{carrier}.<init>()V"),
    .const invokeSpecial (.method s!"{cls}.<init>{desc}"),
    .op returnVoid]
  ClassM.addMethod ClassFile.Access.public_ "<init>" "()V" (some out)
  lowerObjectInit superName desc [.op aload1] 2 native body

-- The field that keeps the type of a class, and the method that gives it.
def addTypeOf : ClassM Unit := do
  let cls ← ClassM.className
  let access := ClassFile.Access.public_ ||| ClassFile.Access.static_ ||| ClassFile.Access.final_
  ClassM.onDraft (Draft.addField access "$Type" typeDesc)
  let out ← ClassM.assemble (CodeBuffer.sized 1 1) [
    .const getStatic (.field s!"{cls}.$Type:{typeDesc}"),
    .op areturn]
  ClassM.addMethod ClassFile.Access.public_ "typeof" s!"(){typeDesc}" (some out)

-- The fields of a type that hold a value, as far as `keep` says, with the access they get.
def addFields (t : TypeDef) (keep : Pod.FieldDef → Bool) (access : Pod.FieldDef → UInt16) :
    ClassM Unit := do
  for f in t.fields.toList do
    if f.isStorage && keep f then
      let r ← ClassM.typeRef f.type
      ClassM.onDraft (Draft.addField (access f) f.name r.jsig)

-- All that a class has but the routers.
def lowerMembers (self : TypeRef) (t : TypeDef) (superName : String) (isErr : Bool) :
    ClassM Unit := do
  addInterfaces t
  addSource t
  addTypeOf
  let cls ← ClassM.className
  let native := t.hasNativePeer
  if native then
    ClassM.onDraft (Draft.addField ClassFile.Access.public_ "peer" s!"L{cls}Peer;")
  addFields t (fun _ => true) fun f => withoutAbstract (accessOf f.flags)
  for m in t.methods.toList do
    if m.name ≠ staticInit && m.name ≠ instanceInit then lowerMethod m
  lowerClassInit (some self) (lastNamed? t staticInit)
  let body := lastNamed? t instanceInit
  if isErr then lowerErrInit superName native body
  else lowerObjectInit superName "()V" [] 1 native body

-- The classes of a type that is no mixin.
def lowerClass (self : TypeRef) (l : LoadedType) : PodM (List ClassOutput) := do
  let e ← read
  let bases ← ofExcept (Hierarchy.ancestors e self l)
  let base := bases.head?.map (·.ref)
  let superName := (base.map TypeRef.jimpl).getD "fan/sys/FanObj"
  let isErr := bases.any (·.ref.isErr)
  let name := self.jname
  let draft ← ofExcept (OpenClass.create name superName (classAccess l.type.flags) e.config)
  let cls ← inClass draft name do
    lowerMembers self l.type superName isErr
    let routes ← ofExcept (Hierarchy.routes e l bases)
    routes.forM fun (mixin, m) => lowerRouter mixin.pod mixin.type m
  let main ← ofExcept cls.finish
  let carriers ← if isErr then
      let root := (base.map fun r => r.jname ++ "$Val").getD rootCarrier
      List.singleton <$> ofExcept (lowerCarrier (name ++ "$Val") root e.config)
    else pure []
  let dynamics ← if e.config.emitDynamicSubclasses && !l.type.isFinal then
      List.singleton <$> ofExcept (lowerDynamic name e.config)
    else pure []
  return main :: carriers ++ dynamics

-- The interface of a mixin and the class of its bodies.
def lowerMixin (self : TypeRef) (t : TypeDef) : PodM (List ClassOutput) := do
  let e ← read
  let name := self.jname
  let access := ClassFile.Access.public_ ||| ClassFile.Access.interface_ |||
    ClassFile.Access.abstract_
  let draft ← ofExcept (OpenClass.create name "java/lang/Object" access e.config)
  let interface ← inClass draft name do
    addInterfaces t
    addSource t
    t.methods.toList.forM lowerMixinInterface
  let access := ClassFile.Access.public_ ||| ClassFile.Access.super_
  let draft ← ofExcept (OpenClass.create (name ++ "$") "java/lang/Object" access e.config)
  let bodies ← inClass draft name do
    addSource t
    addFields t (·.isStatic) fun _ => ClassFile.Access.public_ ||| ClassFile.Access.static_
    for m in t.methods.toList do
      if m.name ≠ staticInit && m.name ≠ instanceInit && !m.isCtor then lowerMixinBody m
    match lastNamed? t staticInit with
    | some m => lowerClassInit none (some m)
    | none => return
  let interface ← ofExcept interface.finish
  let bodies ← ofExcept bodies.finish
  return [interface, bodies]

-- The classes of the type at an index.
def lowerType (index : Nat) : PodM (List ClassOutput) := do
  let pod := (← read).pod
  match pod.types[index]? with
  | none => throw (.internal (.typeIndex index))
  | some t =>
    let self ← ofExcept (typeRefAt pod.symbols t.self)
    if t.isHollow then throw (.internal (.bodyNotRead self.qname))
    if t.isMixin then lowerMixin self t else lowerClass self ⟨pod, t⟩

end PodCompiler.Lowering
