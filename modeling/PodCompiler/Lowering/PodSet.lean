import PodCompiler.Config.Basic
import PodCompiler.Lowering.Resolver
import PodCompiler.Pod.Basic

namespace PodCompiler.Lowering

-- The pods in which types are looked up, in the order in which they were added. No two have the
-- same name.
structure PodSet where
  pods : Array Pod := #[]

-- A type with the pod that it comes from.
structure LoadedType where
  pod : Pod
  type : Pod.TypeDef

namespace LoadedType

-- The mixins that the type names, each an index into the type refs of its pod.
def mixins (l : LoadedType) : List (Pod × UInt16) :=
  l.type.mixins.toList.map fun i => (l.pod, i)

def methods (l : LoadedType) : List Pod.MethodDef :=
  l.type.methods.toList

-- The type of a pod that a type ref means. Its body must be known.
def ofPod (pod : Pod) (t : TypeRef) : Except LoweringError LoadedType :=
  match (pod.findType? t.name).bind (pod.types[·]?) with
  | none => .error (.unresolved (.type t.qname))
  | some type =>
    if type.isHollow then .error (.internal (.bodyNotRead t.qname)) else .ok ⟨pod, type⟩

end LoadedType

namespace PodSet

-- A pod replaces the one of its name, in its place.
def add (s : PodSet) (p : Pod) : PodSet :=
  match s.pods.findIdx? (·.name = p.name) with
  | some i => ⟨s.pods.setIfInBounds i p⟩
  | none => ⟨s.pods.push p⟩

def pod? (s : PodSet) (name : String) : Option Pod :=
  s.pods.find? (·.name = name)

def size (s : PodSet) : Nat :=
  s.pods.size

-- The type that a type ref means; none if its pod is not here.
def lookup (s : PodSet) (t : TypeRef) : Except LoweringError (Option LoadedType) :=
  match s.pod? t.pod with
  | none => .ok none
  | some pod => some <$> LoadedType.ofPod pod t

end PodSet

-- What stays the same while a pod is lowered: the pod, the pods around it, and the settings.
structure PodEnv where
  pod : Pod
  others : PodSet
  config : EmitConfig

-- The type that a type ref means. The pod itself goes before one of its name among the others.
def PodEnv.find (e : PodEnv) (t : TypeRef) : Except LoweringError (Option LoadedType) :=
  if t.pod = e.pod.name then some <$> LoadedType.ofPod e.pod t else e.others.lookup t

end PodCompiler.Lowering
