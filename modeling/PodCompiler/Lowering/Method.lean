import PodCompiler.Lowering.Descriptor
import PodCompiler.Lowering.MethodCode

namespace PodCompiler.Lowering

open ClassFile (CodeBuffer Draft)
open ClassFile.Op
open Pod (MethodDef TypeDef)

namespace ClassM

-- Writes items that hold no jumps behind code.
def assemble (out : CodeBuffer) (items : List (Item Ref)) : ClassM CodeBuffer := do
  let items ← items.mapM fun i => i.mapM Ref.intern
  return ((Layout.start out 0).putAll items.toArray).out

def addMethod (access : UInt16) (name desc : String) (code : Option CodeBuffer) : ClassM Unit :=
  onDraft (Draft.addMethod access name desc code)

-- The descriptor of a method with its first `n` parameters.
def desc (m : MethodDef) (self : Option String) (n : Nat) (result : Result) : ClassM String := do
  ofExcept (methodDesc (← symbols) m self (m.params.take n) result)

def frame (m : MethodDef) (mode : SelfMode) : ClassM Frame := do
  ofExcept (Frame.forMethod (← symbols) (← className) m mode)

def resultStack (m : MethodDef) : ClassM StackType :=
  return (← typeRef m.inheritedRet).stack

end ClassM

open ClassM

-- The instructions that push variables.
def loadLocals (locals : List Local) : List (Item Ref) :=
  locals.map fun l => .load l.stack l.slot.toUInt16

-- The method that wrappers call. `self` is the class of its first argument, if that is the
-- receiver.
structure Target where
  name : String
  desc : String
  isStatic : Bool
  self : Option String := none
  result : Result := .inherited
  resultStack : StackType

-- The code that pushes the values of the parameters from the one at `index` on, each by its
-- default.
def lowerDefaults (m : MethodDef) (f : Frame) (out : CodeBuffer) :
    (index : Nat) → List Pod.VarDef → ClassM CodeBuffer
  | _, [] => return out
  | index, p :: rest => do
    match p.default? with
    | none => throw (.internal (.missingDefault (← className) m.name index))
    | some code =>
      let fragment ← lowerFragment f code out
      lowerDefaults m f fragment.code (index + 1) rest

-- The wrapper that takes the first `n` parameters.
def lowerWrapper (m : MethodDef) (t : Target) (access : UInt16) (f : Frame) (ref : UInt16)
    (n : Nat) : ClassM Unit := do
  let desc ← ClassM.desc m t.self n t.result
  let out := CodeBuffer.sized (max f.maxStack 16 + 2 * m.params.length) f.maxLocals
  let receiver := if t.self.isSome || !t.isStatic then [.op aload0] else []
  let out ← assemble out (receiver ++ loadLocals (f.params n))
  let out ← lowerDefaults m f out n (m.params.drop n)
  let out := out.op2 (if t.isStatic then invokeStatic else invokeVirtual) ref
  addMethod access t.name desc (some (out.returnOp t.resultStack))

-- The wrappers of a method: one for each number of arguments that leaves out parameters with defaults.
def lowerWrappers (m : MethodDef) (t : Target) (access : UInt16) (mode : SelfMode) :
    ClassM Unit := do
  match m.firstDefault? with
  | none => return
  | some first =>
    let f ← frame m mode
    let cls ← className
    let ref ← Ref.intern (.method s!"{cls}.{t.name}{t.desc}")
    let n := m.params.length
    ((List.range n).drop first).forM (lowerWrapper m t access f ref)

-- The code of a method by itself.
def lowerPlainBody (m : MethodDef) (f : Frame) : ClassM CodeBuffer :=
  return (← lowerBody f m (CodeBuffer.sized f.maxStack f.maxLocals)).code

def withoutAbstract (access : UInt16) : UInt16 :=
  access &&& ~~~ClassFile.Access.abstract_

def lowerStandard (m : MethodDef) : ClassM Unit := do
  let access := accessOf m.flags
  let desc ← ClassM.desc m none m.params.length .inherited
  if m.isAbstract || !m.hasCode then
    addMethod (access ||| ClassFile.Access.abstract_) m.name desc none
  else
    let f ← frame m .bound
    addMethod access m.name desc (some (← lowerPlainBody m f))
  let stack ← resultStack m
  lowerWrappers m { name := m.name, desc, isStatic := m.isStatic, resultStack := stack }
    (withoutAbstract access) .bound

-- The static method that runs the body of a constructor on an object.
def lowerCtorBody (m : MethodDef) (access : UInt16) : ClassM Target := do
  let self := (← read).selfName
  let name := m.name ++ "$"
  let desc ← ClassM.desc m (some self) m.params.length .void
  let f := (← frame m .bound).withRet .void
  addMethod access name desc (some (← lowerPlainBody m f))
  let t : Target :=
    { name, desc, isStatic := true, self := some self, result := .void, resultStack := .void }
  lowerWrappers m t access .bound
  return t

-- The items of a factory: a new object, the parameters, and the body on both.
def factoryItems (self : String) (body : Target) (params : List Local) : List (Item Ref) :=
  [.const newObject (.class_ self),
    .op dup,
    .const invokeSpecial (.method s!"{self}.<init>()V"),
    .op dup] ++
  loadLocals params ++
  [.callStatic s!"{self}.{body.name}{body.desc}",
    .op areturn]

def lowerCtor (m : MethodDef) : ClassM Unit := do
  let access := accessOf m.flags ||| ClassFile.Access.static_
  let self := (← read).selfName
  let n := m.params.length
  let body ← lowerCtorBody m access
  let desc ← ClassM.desc m none n (.object self)
  let f ← frame m .unbound
  let slots := f.paramSlots n
  let out ← assemble (CodeBuffer.sized (slots + 3) slots) (factoryItems self body (f.params n))
  addMethod access m.name desc (some out)
  let t : Target :=
    { name := m.name, desc, isStatic := true, result := .object self, resultStack := .obj }
  lowerWrappers m t access .unbound

-- The items that pass the arguments of a native method on to the class of peers. An instance method
-- goes to the peer of its object and passes the object too.
def nativeItems (self : String) (m : MethodDef) (desc : String) (params : List Local)
    (result : StackType) : List (Item Ref) :=
  let peer := self ++ "Peer"
  (if m.isStatic then
    loadLocals params ++ [.callStatic s!"{peer}.{m.name}{desc}"]
  else
    [.op aload0,
      .const getField (.field s!"{self}.peer:L{peer};"),
      .op aload0] ++
    loadLocals params ++
    [.callVirtual s!"{peer}.{m.name}{desc}"]) ++
  [.op (returnOp result)]

def lowerNative (m : MethodDef) : ClassM Unit := do
  let access := withoutAbstract (accessOf m.flags)
  let self := (← read).selfName
  let n := m.params.length
  let desc ← ClassM.desc m none n .inherited
  let stack ← resultStack m
  let f ← frame m .bound
  let peerDesc ← if m.isStatic then pure desc else ClassM.desc m (some self) n .inherited
  let out ← assemble (CodeBuffer.sized (f.paramSlots n + 2) f.maxLocals)
    (nativeItems self m peerDesc (f.params n) stack)
  addMethod access m.name desc (some out)
  lowerWrappers m { name := m.name, desc, isStatic := m.isStatic, resultStack := stack } access
    .bound

-- A method of a class, by its kind. A constructor becomes a factory, which makes the object, and the
-- method that runs the body on it; a native method passes its arguments on to the peer.
def lowerMethod (m : MethodDef) : ClassM Unit :=
  if m.isCtor then lowerCtor m else if m.isNative then lowerNative m else lowerStandard m

-- The declarations of a method in the interface of a mixin, for each number of arguments.
def lowerMixinInterface (m : MethodDef) : ClassM Unit := do
  if m.isStatic || m.isCtor then return
  let access := ClassFile.Access.public_ ||| ClassFile.Access.abstract_
  addMethod access m.name (← ClassM.desc m none m.params.length .inherited) none
  for (p, n) in m.params.zipIdx do
    if p.hasDefault then
      addMethod access m.name (← ClassM.desc m none n .inherited) none

-- The body of a method of a mixin as a static method.
def lowerMixinBody (m : MethodDef) : ClassM Unit := do
  if !m.hasCode then return
  let access := withoutAbstract (accessOf m.flags) ||| ClassFile.Access.public_ |||
    ClassFile.Access.static_
  let selfName := (← read).selfName
  let self := if m.isStatic then none else some selfName
  let desc ← ClassM.desc m self m.params.length .inherited
  let f ← frame m .bound
  addMethod access m.name desc (some (← lowerPlainBody m f))
  let stack ← resultStack m
  lowerWrappers m { name := m.name, desc, isStatic := true, self, resultStack := stack } access
    .bound

-- The variables of the parameters of a router, behind the receiver. Here a type without values
-- takes no slot.
def routerLocals (slot : Nat) : List StackType → List Local
  | [] => []
  | t :: rest => ⟨slot, t⟩ :: routerLocals (slot + t.slots) rest

-- The router for the first `n` parameters of a method of a mixin, unless the class has such a
-- method. All types are those of the pod of the mixin.
def lowerRouterFor (pod : Pod) (mixin : String) (m : MethodDef) (access : UInt16)
    (result : StackType) (n : Nat) : ClassM Unit := do
  let params := m.params.take n
  let desc ← ofExcept (methodDesc pod.symbols m none params .inherited)
  if (← get).draft.hasMethod m.name desc then return
  let bodyDesc ← ofExcept (methodDesc pod.symbols m (some mixin) params .inherited)
  let kinds ← ofExcept (params.mapM fun p => TypeRef.stack <$> typeRefAt pod.symbols p.type)
  let slots := 1 + StackType.totalSlots kinds
  let out ← assemble (CodeBuffer.sized slots slots) (
    .op aload0 :: loadLocals (routerLocals 1 kinds) ++
    [.callStatic s!"{mixin}$.{m.name}{bodyDesc}", .op (returnOp result)])
  addMethod access m.name desc (some out)

-- The routers of a method of a mixin, for each number of arguments.
def lowerRouter (pod : Pod) (mixin : TypeDef) (m : MethodDef) : ClassM Unit := do
  let name := (← ofExcept (typeRefAt pod.symbols mixin.self)).jname
  let access := (accessOf m.flags &&&
    ~~~(ClassFile.Access.abstract_ ||| ClassFile.Access.static_)) ||| ClassFile.Access.public_
  let result := (← ofExcept (typeRefAt pod.symbols m.inheritedRet)).stack
  let n := m.params.length
  let first := m.firstDefault?.getD n
  ((List.range (n + 1)).drop first).forM (lowerRouterFor pod name m access result)

end PodCompiler.Lowering
