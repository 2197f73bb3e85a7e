import PodCompiler.ClassFile.Draft
import PodCompiler.Config.Basic
import PodCompiler.Lowering.Item
import PodCompiler.Lowering.Resolver
import PodCompiler.Pod.Basic

namespace PodCompiler.Lowering

open ClassFile (Draft DraftM Pool PoolM)

-- The descriptor of a type as a value.
def typeDesc : String := "Lfan/sys/Type;"

-- The class that holds the literals of a pod.
def literalClass (pod : String) : String :=
  s!"fan/{pod}/$Pod"

-- What stays the same for a class. `selfName` is the type of its receivers: for the bodies of a
-- mixin it is the interface.
structure ClassEnv where
  pod : Pod
  config : EmitConfig
  selfName : String

-- The class, what is resolved, and the signatures of the types that it keeps, in the order of their
-- fields.
structure OpenClass where
  draft : Draft
  resolver : Resolver := {}
  literals : Array String := #[]

-- A finished class.
structure ClassOutput where
  name : String
  bytes : Bytes
  deriving DecidableEq, Repr

-- The file of a class, from the output directory on.
def ClassOutput.path (c : ClassOutput) : String :=
  c.name ++ ".class"

-- A step of lowering. If it fails, what was done to the class before stays.
abbrev ClassM := ReaderT ClassEnv (EStateM LoweringError OpenClass)

namespace ClassM

-- A table of the pod that cannot be read.
def ofFormat : Except Pod.FormatError α → ClassM α
  | .ok a => pure a
  | .error e => throw (.format e)

def onDraft (m : DraftM α) : ClassM α := fun _ ⟨draft, resolver, literals⟩ =>
  match m draft with
  | .ok a draft => .ok a ⟨draft, resolver, literals⟩
  | .error e draft => .error (.classFile e) ⟨draft, resolver, literals⟩

def onPool (m : PoolM α) : ClassM α :=
  onDraft (Draft.onPool m)

def onResolver (m : ResolverM α) : ClassM α := fun _ ⟨draft, resolver, literals⟩ =>
  match m resolver with
  | .ok a resolver => .ok a ⟨draft, resolver, literals⟩
  | .error e resolver => .error e ⟨draft, resolver, literals⟩

def symbols : ClassM Pod.Symbols :=
  return (← read).pod.symbols

def className : ClassM String :=
  return (← get).draft.name

def typeRef (i : UInt16) : ClassM TypeRef := do
  ofExcept (typeRefAt (← symbols) i)

end ClassM

-- The name of the field for the type that is kept at an index.
def literalField (index : Nat) : String :=
  s!"type${index}"

-- The position of a type among those that the class keeps; a new one is put behind them.
def literalIndex (signature : String) : ClassM Nat := fun _ ⟨draft, resolver, literals⟩ =>
  match literals.findIdx? (· = signature) with
  | some n => .ok n ⟨draft, resolver, literals⟩
  | none => .ok literals.size ⟨draft, resolver, literals.push signature⟩

-- The field of the class for a type.
def typeLiteralField (signature : String) : ClassM String := do
  let index ← literalIndex signature
  let cls ← ClassM.className
  return s!"{cls}.{literalField index}:{typeDesc}"

-- The index of a constant in the pool of the class.
def Ref.intern : Ref → ClassM UInt16
  | .class_ name => ClassM.onPool (Pool.class_ name)
  | .string text => ClassM.onPool (Pool.string text)
  | .field sig => ClassM.onPool (Pool.field sig)
  | .method sig => ClassM.onPool (Pool.method sig)
  | .interfaceMethod sig => ClassM.onPool (Pool.interfaceMethod sig)
  | .typeLiteral signature => do
    let sig ← typeLiteralField signature
    ClassM.onPool (Pool.field sig)

namespace OpenClass

-- Runs steps on a class. On an error the class is given up.
def run (d : Draft) (m : DraftM α) : Except LoweringError (α × Draft) :=
  match m.run d with
  | .ok a d => .ok (a, d)
  | .error e _ => .error (.classFile e)

-- A class without members.
def create (name superName : String) (access : UInt16) (config : EmitConfig) :
    Except LoweringError Draft :=
  (Draft.create name superName access config.classMajor).mapError .classFile

-- The bytes of a class.
def output (d : Draft) : Except LoweringError ClassOutput :=
  match d.finish with
  | .ok bytes => .ok { name := d.name, bytes }
  | .error e => .error (.classFile e)

-- The fields for the types that the class keeps.
def addLiteralFields (c : OpenClass) : DraftM Unit :=
  (List.range c.literals.size).forM fun index =>
    Draft.addField (ClassFile.Access.private_ ||| ClassFile.Access.static_) (literalField index)
      typeDesc

-- The class with the fields for the types that it keeps.
def finish (c : OpenClass) : Except LoweringError ClassOutput := do
  let (_, d) ← run c.draft c.addLiteralFields
  output d

-- A class that needs nothing but its own members.
def build (name superName : String) (access : UInt16) (config : EmitConfig)
    (members : DraftM Unit) : Except LoweringError ClassOutput := do
  let d ← create name superName access config
  let (_, d) ← run d members
  output d

end OpenClass

end PodCompiler.Lowering
