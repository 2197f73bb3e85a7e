import PodCompiler.ClassFile.Op
import PodCompiler.Lowering.Resolver
import PodCompiler.Pod.Definition

namespace PodCompiler.Lowering

open Pod (MethodDef Symbols VarDef)

-- The access of a member with the given flags. Every visibility but private becomes public.
def accessOf (flags : UInt32) : UInt16 :=
  let has := Pod.Flag.has flags
  (if has (Pod.Flag.public_ ||| Pod.Flag.protected_ ||| Pod.Flag.internal_) then
    ClassFile.Access.public_ else 0) |||
  (if has Pod.Flag.abstract_ then ClassFile.Access.abstract_ else 0) |||
  (if has Pod.Flag.static_ then ClassFile.Access.static_ else 0)

-- What a method of the machine returns: what the method says, nothing, or an object of a class.
inductive Result where
  | inherited
  | void
  | object (cls : String)
  deriving DecidableEq, Repr

-- The descriptor of a method with a receiver as its first argument, if there is one, and the given
-- parameters.
def methodDesc (s : Symbols) (m : MethodDef) (self : Option String) (params : List VarDef)
    (result : Result) : Except LoweringError String := do
  let receiver := match self with
    | some cls => s!"L{cls};"
    | none => ""
  let args ← params.mapM fun p => TypeRef.jsig <$> typeRefAt s p.type
  let ret ← match result with
    | .inherited => TypeRef.jsig <$> typeRefAt s m.inheritedRet
    | .void => pure "V"
    | .object cls => pure s!"L{cls};"
  return s!"({receiver}{String.join args}){ret}"

end PodCompiler.Lowering
