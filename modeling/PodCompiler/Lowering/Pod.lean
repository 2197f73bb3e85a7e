import PodCompiler.Lowering.LiteralClass
import PodCompiler.Lowering.Type

namespace PodCompiler.Lowering

-- The classes of the types at some indices, one type after the other.
def lowerTypes : List Nat → PodM (List ClassOutput)
  | [] => return []
  | index :: rest => do
    let classes ← lowerType index
    return classes ++ (← lowerTypes rest)

-- The classes of a pod whose bodies are known: that of its literals, and those of its types in
-- their order.
def lowerPod (pod : Pod) (others : PodSet) (config : EmitConfig) :
    Except LoweringError (List ClassOutput) := do
  let literals ← lowerLiterals pod config
  match ((lowerTypes (List.range pod.types.size)).run { pod, others, config }).run {} with
  | .ok classes _ => return literals :: classes
  | .error e _ => throw e

-- The classes of a pod on its own.
def lowerAlone (pod : Pod) (config : EmitConfig) : Except LoweringError (List ClassOutput) :=
  lowerPod pod (PodSet.add {} pod) config

end PodCompiler.Lowering
