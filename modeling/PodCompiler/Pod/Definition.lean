import PodCompiler.Pod.Attributes

namespace PodCompiler.Pod

-- Flags of types, fields and methods.
namespace Flag

def abstract_ : UInt32 := 0x1

def ctor : UInt32 := 0x4

def final_ : UInt32 := 0x10

def internal_ : UInt32 := 0x40

def mixin_ : UInt32 := 0x80

def native : UInt32 := 0x100

def private_ : UInt32 := 0x400

def protected_ : UInt32 := 0x800

def public_ : UInt32 := 0x1000

def static_ : UInt32 := 0x4000

def storage : UInt32 := 0x8000

-- Flag of variables: the variable is a parameter.
def param : UInt8 := 0x1

-- Whether one of the flags in `mask` is set.
def has (flags mask : UInt32) : Bool :=
  flags &&& mask ≠ 0

end Flag

-- A variable of a method. Parameters come before the other variables.
structure VarDef where
  name : String
  type : UInt16
  flags : UInt8
  attrs : Attributes
  deriving DecidableEq, Repr

namespace VarDef

def isParam (v : VarDef) : Bool :=
  v.flags &&& Flag.param ≠ 0

-- The code of the default value.
def default? (v : VarDef) : Option Bytes :=
  v.attrs.get? "ParamDefault"

def hasDefault (v : VarDef) : Bool :=
  v.default?.isSome

def read (s : Symbols) : Read VarDef := do
  let name ← s.readName
  let type ← Read.u2
  let flags ← Read.u1
  let attrs ← Attributes.read s
  return { name, type, flags, attrs }

end VarDef

structure FieldDef where
  name : String
  flags : UInt32
  type : UInt16
  attrs : Attributes
  deriving DecidableEq, Repr

namespace FieldDef

def isStatic (f : FieldDef) : Bool :=
  Flag.has f.flags Flag.static_

-- Whether the field holds a value, and is more than its accessors.
def isStorage (f : FieldDef) : Bool :=
  Flag.has f.flags Flag.storage

def read (s : Symbols) : Read FieldDef := do
  let name ← s.readName
  let flags ← Read.u4
  let type ← Read.u2
  let attrs ← Attributes.read s
  return { name, flags, type, attrs }

end FieldDef

structure MethodDef where
  name : String
  flags : UInt32
  ret : UInt16
  inheritedRet : UInt16
  maxStack : UInt8
  paramCount : UInt8
  localCount : UInt8
  vars : Array VarDef
  code : Bytes
  attrs : Attributes
  deriving DecidableEq, Repr

namespace MethodDef

def read (s : Symbols) : Read MethodDef := do
  let name ← s.readName
  let flags ← Read.u4
  let ret ← Read.u2
  let inheritedRet ← Read.u2
  let maxStack ← Read.u1
  let paramCount ← Read.u1
  let localCount ← Read.u1
  let vars ← Read.times (paramCount.toNat + localCount.toNat) (VarDef.read s)
  let code ← Read.buf
  let attrs ← Attributes.read s
  return { name, flags, ret, inheritedRet, maxStack, paramCount, localCount, vars, code, attrs }

def isStatic (m : MethodDef) : Bool :=
  Flag.has m.flags Flag.static_

def isCtor (m : MethodDef) : Bool :=
  Flag.has m.flags Flag.ctor

def isNative (m : MethodDef) : Bool :=
  Flag.has m.flags Flag.native

def isAbstract (m : MethodDef) : Bool :=
  Flag.has m.flags Flag.abstract_

def isPrivate (m : MethodDef) : Bool :=
  Flag.has m.flags Flag.private_

def params (m : MethodDef) : List VarDef :=
  m.vars.toList.take m.paramCount.toNat

-- The position of the first parameter with a default.
def firstDefault? (m : MethodDef) : Option Nat :=
  m.params.findIdx? VarDef.hasDefault

def hasCode (m : MethodDef) : Bool :=
  !m.code.isEmpty

end MethodDef

-- What the body of a type holds.
structure TypeBody where
  fields : Array FieldDef := #[]
  methods : Array MethodDef := #[]
  attrs : Attributes := {}
  deriving DecidableEq, Repr

def TypeBody.read (s : Symbols) : Read TypeBody := do
  let fields ← Read.table (FieldDef.read s)
  let methods ← Read.table (MethodDef.read s)
  let attrs ← Attributes.read s
  return { fields, methods, attrs }

-- A type. As long as its body is not read, `body` is `none`.
structure TypeDef where
  self : UInt16
  base : Option UInt16
  mixins : Array UInt16
  flags : UInt32
  body? : Option TypeBody := none
  deriving DecidableEq, Repr

namespace TypeDef

-- The index that stands for no type.
def nullIndex : UInt16 := 0xFFFF

def readMeta : Read TypeDef := do
  let self ← Read.u2
  let baseIndex ← Read.u2
  let base := if baseIndex = nullIndex then none else some baseIndex
  let mixins ← Read.table Read.u2
  let flags ← Read.u4
  return { self, base, mixins, flags }

def isHollow (t : TypeDef) : Bool :=
  t.body?.isNone

def body (t : TypeDef) : TypeBody :=
  t.body?.getD {}

def fields (t : TypeDef) : Array FieldDef :=
  t.body.fields

def methods (t : TypeDef) : Array MethodDef :=
  t.body.methods

def attrs (t : TypeDef) : Attributes :=
  t.body.attrs

def isMixin (t : TypeDef) : Bool :=
  Flag.has t.flags Flag.mixin_

def isNative (t : TypeDef) : Bool :=
  Flag.has t.flags Flag.native

def isAbstract (t : TypeDef) : Bool :=
  Flag.has t.flags Flag.abstract_

def isFinal (t : TypeDef) : Bool :=
  Flag.has t.flags Flag.final_

def findMethod? (t : TypeDef) (name : String) : Option MethodDef :=
  t.methods.find? (·.name = name)

-- Whether objects of the type have a native peer.
def hasNativePeer (t : TypeDef) : Bool :=
  t.isNative || t.methods.any MethodDef.isNative

end TypeDef

end PodCompiler.Pod
