import PodCompiler.Lowering.PodSet

namespace PodCompiler.Lowering

open Pod (MethodDef)

-- A base type. One whose pod is not known ends the chain.
structure Ancestor where
  ref : TypeRef
  loaded : Option LoadedType

namespace Hierarchy

variable (e : PodEnv)

-- The base types of a type from the nearest on, `depth` at most.
def ancestorsWithin (tooDeep : LoweringError) :
    (depth : Nat) → LoadedType → Except LoweringError (List Ancestor)
  | depth, l =>
    match l.type.base, depth with
    | none, _ => .ok []
    | some _, 0 => .error tooDeep
    | some base, depth + 1 => do
      let ref ← typeRefAt l.pod.symbols base
      let loaded ← e.find ref
      match loaded with
      | none => return [⟨ref, none⟩]
      | some next => return ⟨ref, some next⟩ :: (← ancestorsWithin tooDeep depth next)

-- The base types of a type.
def ancestors (self : TypeRef) (l : LoadedType) : Except LoweringError (List Ancestor) :=
  ancestorsWithin e (.internal (.baseChainTooDeep self.qname)) maxBaseDepth l

-- The names of all mixins that any type has.
def allMixins : List String :=
  (e.pod :: e.others.pods.toList).flatMap fun pod =>
    pod.types.toList.flatMap fun t =>
      t.mixins.toList.filterMap fun i =>
        match pod.symbols.typeRef i with
        | .ok r => some r.qname
        | .error _ => none

-- What is unmet once `q` is met.
def without (unmet : List String) (q : String) : List String :=
  unmet.filter (· ≠ q)

theorem length_without_lt {q : String} {unmet : List String} (h : q ∈ unmet) :
    (without unmet q).length < unmet.length := by
  apply List.length_filter_lt_length_iff_exists.2
  exact ⟨q, h, by simp⟩

-- Meets the mixins on the stack and all that they have, which may be in a circle. The result is what
-- is still unmet.
def meet (unmet : List String) (stack : List (Pod × UInt16)) :
    Except LoweringError (List String) :=
  match stack with
  | [] => .ok unmet
  | (pod, i) :: rest =>
    match typeRefAt pod.symbols i with
    | .error err => .error err
    | .ok r =>
      if h : r.qname ∈ unmet then
        have := length_without_lt h
        match e.find r with
        | .error err => .error err
        | .ok none => meet (without unmet r.qname) rest
        | .ok (some l) => meet (without unmet r.qname) (l.mixins ++ rest)
      else meet unmet rest
termination_by (unmet.length, stack.length)

-- A mixin that a class has to serve, and the names of the mixins that it has itself.
structure Mixin where
  name : String
  loaded : LoadedType
  supers : List String

-- The mixins on the stack that are not met yet, each before those that it has.
def serve (unmet : List String) (stack : List (Pod × UInt16)) :
    Except LoweringError (List Mixin) :=
  match stack with
  | [] => .ok []
  | (pod, i) :: rest =>
    match typeRefAt pod.symbols i with
    | .error err => .error err
    | .ok r =>
      if h : r.qname ∈ unmet then
        have := length_without_lt h
        match e.find r with
        | .error err => .error err
        | .ok none => serve (without unmet r.qname) rest
        | .ok (some l) => do
          let all := allMixins e
          let left ← meet e all l.mixins
          let supers := all.filter (· ∉ left)
          let others ← serve (without unmet r.qname) (l.mixins ++ rest)
          return ⟨r.qname, l, supers⟩ :: others
      else serve unmet rest
termination_by (unmet.length, stack.length)

-- The mixins that a class has to serve because no base type does.
def mixinsToServe (l : LoadedType) (bases : List Ancestor) : Except LoweringError (List Mixin) := do
  let loaded := bases.filterMap (·.loaded)
  let unmet ← loaded.foldlM (fun unmet base => meet e unmet base.mixins) (allMixins e)
  serve e unmet l.mixins

-- Whether a more specific mixin has a method of the name.
def isOverridden (all : List Mixin) (m : Mixin) (method : String) : Bool :=
  all.any fun other =>
    other.supers.contains m.name &&
      other.loaded.methods.any fun o => o.name = method && !o.isStatic

-- Whether a method of a mixin can be routed to.
def isRoutable (m : MethodDef) : Bool :=
  !m.isStatic && !m.isCtor && !m.isPrivate && m.hasCode

-- The methods of mixins that a class routes to. `taken` holds the names that are declared or
-- routed.
def routesFrom (all : List Mixin) (taken : List String) :
    List (Mixin × MethodDef) → List (LoadedType × MethodDef)
  | [] => []
  | (mixin, m) :: rest =>
    if isRoutable m && !taken.contains m.name && !isOverridden all mixin m.name then
      (mixin.loaded, m) :: routesFrom all (m.name :: taken) rest
    else routesFrom all taken rest

-- The methods of mixins that neither the class nor a base type declares, each once.
def routes (l : LoadedType) (bases : List Ancestor) :
    Except LoweringError (List (LoadedType × MethodDef)) := do
  let loaded := bases.filterMap (·.loaded)
  let declared := (l :: loaded).flatMap fun t => t.methods.map (·.name)
  let mixins ← mixinsToServe e l bases
  return routesFrom mixins declared (mixins.flatMap fun m => m.loaded.methods.map (m, ·))

end Hierarchy

end PodCompiler.Lowering
