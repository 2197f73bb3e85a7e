import Std.Data.HashMap
import PodCompiler.Lowering.Error
import PodCompiler.Lowering.Intrinsic

namespace PodCompiler.Lowering

open Pod (FormatError FieldRef MethodRef Symbols)

-- The kinds of calls.
inductive CallKind where
  | new
  | ctor
  | static
  | virtual
  | nonVirtual
  | mixinStatic
  | mixinVirtual
  | mixinNonVirtual
  deriving DecidableEq, Hashable, Repr

namespace CallKind

def ofOpcode? : Opcode → Option CallKind
  | .callNew => some .new
  | .callCtor => some .ctor
  | .callStatic => some .static
  | .callVirtual => some .virtual
  | .callNonVirtual => some .nonVirtual
  | .callMixinStatic => some .mixinStatic
  | .callMixinVirtual => some .mixinVirtual
  | .callMixinNonVirtual => some .mixinNonVirtual
  | _ => none

-- Whether a call of the kind may become an intrinsic.
def allowsIntrinsic : CallKind → Bool
  | .new | .static | .virtual | .mixinStatic => true
  | _ => false

end CallKind

-- A call instruction: its opcode, the method, the argument slots that an interface call states, and
-- whether the receiver is passed as the first argument of a static method.
structure Invoke where
  op : UInt8
  sig : String
  slots : Option UInt8 := none
  explicitSelf : Bool := false
  deriving DecidableEq, Repr

inductive Call where
  | intrinsic (i : Intrinsic)
  | invoke (i : Invoke)
  deriving DecidableEq, Repr

-- The type ref at an index.
def typeRefAt (s : Symbols) (i : UInt16) : Except LoweringError TypeRef :=
  match s.typeRef i with
  | .ok t => .ok t
  | .error e => .error (.unresolved (.typeRef e))

def fieldRefAt (s : Symbols) (i : UInt16) : Except LoweringError FieldRef :=
  match s.fieldRef i with
  | .ok f => .ok f
  | .error e => .error (.unresolved (.fieldRef e))

def methodRefAt (s : Symbols) (i : UInt16) : Except LoweringError MethodRef :=
  match s.methodRef i with
  | .ok m => .ok m
  | .error e => .error (.unresolved (.methodRef e))

namespace Resolver

-- The descriptors of some types one after the other.
def jsigs (ts : List TypeRef) : String :=
  String.join (ts.map TypeRef.jsig)

-- The slots that an interface call states: the receiver, and each parameter at least once.
def interfaceSlots (params : List TypeRef) : Nat :=
  1 + StackType.totalWidth (params.map TypeRef.stack)

-- The call instruction for a method of `parent`.
def invoke (kind : CallKind) (parent : TypeRef) (name : String) (params : List TypeRef)
    (ret : TypeRef) : Except LoweringError Invoke :=
  open ClassFile.Op in
  let jname := parent.jname
  let jimpl := parent.jimpl
  let args := jsigs params
  match kind with
  | .new => .ok { op := invokeStatic, sig := s!"{jname}.{name}({args}){parent.jsig}" }
  | .ctor =>
    if name = "<init>" then .ok { op := invokeSpecial, sig := s!"{jname}.<init>({args})V" }
    else .ok { op := invokeStatic, sig := s!"{jname}.{name}$({parent.jsig}{args})V" }
  | .static => .ok { op := invokeStatic, sig := s!"{jimpl}.{name}({args}){ret.jsig}" }
  | .virtual =>
    if jname = jimpl then .ok { op := invokeVirtual, sig := s!"{jimpl}.{name}({args}){ret.jsig}" }
    else
      .ok {
        op := invokeStatic
        sig := s!"{jimpl}.{name}({parent.jsig}{args}){ret.jsig}"
        explicitSelf := true }
  | .nonVirtual => .ok { op := invokeSpecial, sig := s!"{jimpl}.{name}({args}){ret.jsig}" }
  | .mixinStatic => .ok { op := invokeStatic, sig := s!"{jimpl}$.{name}({args}){ret.jsig}" }
  | .mixinVirtual =>
    let slots := interfaceSlots params
    if slots ≤ 255 then
      .ok {
        op := invokeInterface
        sig := s!"{jname}.{name}({args}){ret.jsig}"
        slots := some slots.toUInt8 }
    else .error (.internal (.tooManyArgs name))
  | .mixinNonVirtual =>
    .ok {
      op := invokeStatic
      sig := s!"{jname}$.{name}({parent.jsig}{args}){ret.jsig}"
      explicitSelf := true }

-- What a call of a method ref becomes.
def computeCall (s : Symbols) (index : UInt16) (kind : CallKind) : Except LoweringError Call := do
  let m ← methodRefAt s index
  let parent ← typeRefAt s m.parent
  match if kind.allowsIntrinsic then Intrinsic.lookup? parent m.name else none with
  | some i => return .intrinsic i
  | none =>
    let params ← m.params.toList.mapM (typeRefAt s)
    let ret ← typeRefAt s m.ret
    .invoke <$> invoke kind parent m.name params ret

-- The field that a field ref stands for. The static fields of a mixin are kept in the class of its
-- bodies.
def computeField (s : Symbols) (index : UInt16) (mixin : Bool) : Except LoweringError String := do
  let f ← fieldRefAt s index
  let parent ← typeRefAt s f.parent
  let type ← typeRefAt s f.type
  return parent.jimpl ++ (if mixin then "$" else "") ++ s!".{f.name}:{type.jsig}"

end Resolver

-- The results that are kept, and how often a call was and was not among them.
structure Resolver where
  calls : Std.HashMap (UInt16 × CallKind) Call := ∅
  fields : Std.HashMap (UInt16 × Bool) String := ∅
  hits : Nat := 0
  misses : Nat := 0

abbrev ResolverM := EStateM LoweringError Resolver

namespace Resolver

def call (s : Symbols) (index : UInt16) (kind : CallKind) : ResolverM Call := fun r =>
  match r.calls[(index, kind)]? with
  | some c => .ok c { r with hits := r.hits + 1 }
  | none =>
    match computeCall s index kind with
    | .ok c => .ok c { r with calls := r.calls.insert (index, kind) c, misses := r.misses + 1 }
    | .error e => .error e r

def field (s : Symbols) (index : UInt16) (mixin : Bool) : ResolverM String := fun r =>
  match r.fields[(index, mixin)]? with
  | some sig => .ok sig r
  | none =>
    match computeField s index mixin with
    | .ok sig => .ok sig { r with fields := r.fields.insert (index, mixin) sig }
    | .error e => .error e r

end Resolver

end PodCompiler.Lowering
