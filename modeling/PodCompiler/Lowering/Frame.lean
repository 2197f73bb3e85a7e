import PodCompiler.Lowering.Resolver
import PodCompiler.Pod.Definition

namespace PodCompiler.Lowering

open Pod (MethodDef Symbols VarDef)

-- A variable of the machine: its first slot and what it holds.
structure Local where
  slot : Nat
  stack : StackType
  deriving DecidableEq, Repr

-- Whether register zero of an instance method has a slot. It has none in a factory, where the
-- parameters start at slot zero.
inductive SelfMode where
  | bound
  | unbound
  deriving DecidableEq, Repr

-- Where the registers of a method are kept. `name` is the method in errors, and `ret` what it
-- returns.
structure Frame where
  name : String
  regs : Array (Option Local)
  hasSelf : Bool
  paramCount : Nat
  maxLocals : Nat
  maxStack : Nat
  ret : StackType
  deriving DecidableEq, Repr

namespace Frame

-- The variables of the given stack types from a slot on. Even a type without values takes a slot.
def layout (slot : Nat) : List StackType → List Local
  | [] => []
  | t :: rest => ⟨slot, t⟩ :: layout (slot + t.width) rest

-- The first slot after the variables.
def layoutEnd (slot : Nat) (ts : List StackType) : Nat :=
  slot + StackType.totalWidth ts

def forMethod (s : Symbols) (owner : String) (m : MethodDef) (mode : SelfMode) :
    Except LoweringError Frame := do
  let kinds ← m.vars.toList.mapM fun v => TypeRef.stack <$> typeRefAt s v.type
  let ret ← typeRefAt s m.inheritedRet
  let self : List (Option Local) :=
    if m.isStatic then []
    else match mode with
      | .bound => [some ⟨0, .obj⟩]
      | .unbound => [none]
  let start := if !m.isStatic && mode = .bound then 1 else 0
  return {
    name := s!"{owner}.{m.name}"
    regs := (self ++ (layout start kinds).map some).toArray
    hasSelf := !m.isStatic
    paramCount := m.params.length
    maxLocals := layoutEnd start kinds
    maxStack := m.maxStack.toNat * 2 + 4
    ret := ret.stack }

def withRet (f : Frame) (ret : StackType) : Frame :=
  { f with ret }

-- The variable of a register.
def local? (f : Frame) (reg : UInt16) : Option Local :=
  (f.regs[reg.toNat]?).join

def self? (f : Frame) : Option Local :=
  if f.hasSelf then f.local? 0 else none

-- The variables of the first `n` parameters.
def params (f : Frame) (n : Nat) : List Local :=
  let regs := f.regs.toList.drop (if f.hasSelf then 1 else 0)
  (regs.take (min n f.paramCount)).filterMap id

-- The slots of the first `n` parameters.
def paramSlots (f : Frame) (n : Nat) : Nat :=
  StackType.totalSlots ((f.params n).map Local.stack)

end Frame

end PodCompiler.Lowering
