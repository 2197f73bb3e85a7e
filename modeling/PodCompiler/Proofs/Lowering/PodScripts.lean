import PodCompiler.Proofs.Lowering.Scripts

namespace PodCompiler.Lowering

open ClassFile (CodeBuffer Draft)
open Pod (MethodDef TypeDef)

section Members

open ClassM (Scripted scripted_bind)

variable (t : TypeDef)

theorem scripted_addInterfaces : Scripted (addInterfaces t) := by
  refine scripted_bind (ClassM.scripted_forIn (fun m _ => ?_) _ _) fun _ => ClassM.scripted_pure _
  exact scripted_bind (ClassM.scripted_typeRef m) fun r =>
    scripted_bind (ClassM.scripted_onDraft _) fun _ => ClassM.scripted_pure _

theorem scripted_addSource : Scripted (addSource t) := by
  refine ClassM.scripted_read (fun env => ?_) fun _ _ => rfl
  refine ClassM.scripted_ite ?_ (ClassM.scripted_pure _)
  exact scripted_bind (ClassM.scripted_ofFormat _) fun file => ClassM.scripted_modify _

theorem scripted_lowerInit (out : CodeBuffer) (body : Option MethodDef) :
    Scripted (lowerInit out body) := by
  cases body with
  | none => exact ClassM.scripted_pure _
  | some m =>
    refine ClassM.scripted_ite ?_ (ClassM.scripted_pure _)
    refine scripted_bind (scripted_frame m _) fun f => ?_
    exact scripted_bind (scripted_lowerBody f m _) fun _ => ClassM.scripted_pure _

theorem scripted_lowerClassInit (self : Option TypeRef) (body : Option MethodDef) :
    Scripted (lowerClassInit self body) := by
  refine scripted_bind ClassM.scripted_className fun cls => ?_
  refine scripted_bind (scripted_assemble _ _) fun out => ?_
  exact scripted_bind (scripted_lowerInit out body) fun _ => scripted_addMethod _ _ _ _

theorem scripted_lowerObjectInit (superName desc : String) (args : List (Item Ref))
    (maxLocals : Nat) (native : Bool) (body : Option MethodDef) :
    Scripted (lowerObjectInit superName desc args maxLocals native body) := by
  refine ClassM.scripted_read (fun env => ?_) fun _ _ => rfl
  refine scripted_bind (scripted_assemble _ _) fun out => ?_
  exact scripted_bind (scripted_lowerInit out body) fun _ => scripted_addMethod _ _ _ _

theorem scripted_lowerErrInit (superName : String) (native : Bool) (body : Option MethodDef) :
    Scripted (lowerErrInit superName native body) := by
  refine scripted_bind ClassM.scripted_className fun cls => ?_
  refine scripted_bind (scripted_assemble _ _) fun out => ?_
  exact scripted_bind (scripted_addMethod _ _ _ _) fun _ => scripted_lowerObjectInit _ _ _ _ _ _

theorem scripted_addTypeOf : Scripted addTypeOf := by
  refine scripted_bind ClassM.scripted_className fun cls => ?_
  refine scripted_bind (ClassM.scripted_onDraft _) fun _ => ?_
  exact scripted_bind (scripted_assemble _ _) fun _ => scripted_addMethod _ _ _ _

theorem scripted_addFields (keep : Pod.FieldDef → Bool) (access : Pod.FieldDef → UInt16) :
    Scripted (addFields t keep access) := by
  refine scripted_bind (ClassM.scripted_forIn (fun f _ => ?_) _ _) fun _ => ClassM.scripted_pure _
  refine ClassM.scripted_ite ?_ (ClassM.scripted_pure _)
  exact scripted_bind (ClassM.scripted_typeRef _) fun r =>
    scripted_bind (ClassM.scripted_onDraft _) fun _ => ClassM.scripted_pure _

-- A loop over the methods that a test picks.
theorem scripted_forPicked {p : MethodDef → Bool} {k : MethodDef → ClassM Unit}
    (hk : ∀ m, Scripted (k m)) : Scripted (ClassM.forPicked t.methods.toList p k) := by
  refine ClassM.scripted_forIn (fun m _ => ClassM.scripted_ite ?_ (ClassM.scripted_pure _)) _ _
  exact scripted_bind (hk m) fun _ => ClassM.scripted_pure _

theorem scripted_lowerMembers (self : TypeRef) (superName : String) (isErr : Bool) :
    Scripted (lowerMembers self t superName isErr) := by
  have hrest : Scripted (addFields t (fun _ => true) (fun f => withoutAbstract (accessOf f.flags))
      >>= fun _ => ClassM.forPicked t.methods.toList isListed lowerMethod >>= fun _ =>
      lowerClassInit (some self) (lastNamed? t staticInit) >>= fun _ =>
      if isErr = true then lowerErrInit superName t.hasNativePeer (lastNamed? t instanceInit)
      else lowerObjectInit superName "()V" [] 1 t.hasNativePeer (lastNamed? t instanceInit)) := by
    refine scripted_bind (scripted_addFields t _ _) fun _ => ?_
    refine scripted_bind (scripted_forPicked t scripted_lowerMethod) fun _ => ?_
    refine scripted_bind (scripted_lowerClassInit _ _) fun _ => ?_
    exact ClassM.scripted_ite (scripted_lowerErrInit _ _ _) (scripted_lowerObjectInit _ _ _ _ _ _)
  refine scripted_bind (scripted_addInterfaces t) fun _ => ?_
  refine scripted_bind (scripted_addSource t) fun _ => ?_
  refine scripted_bind scripted_addTypeOf fun _ => ?_
  refine scripted_bind ClassM.scripted_className fun cls => ?_
  dsimp only
  split
  · exact scripted_bind (ClassM.scripted_onDraft _) fun _ => hrest
  · exact hrest

end Members

-- Whether types are lowered side by side.
def PodEnv.withParallel (e : PodEnv) (parallel : Bool) : PodEnv :=
  { e with config := { e.config with parallel } }

section Inherited

variable (e : PodEnv) (parallel : Bool)

theorem ancestorsWithin_withParallel (tooDeep : LoweringError) (depth : Nat) (l : LoadedType) :
    Hierarchy.ancestorsWithin (e.withParallel parallel) tooDeep depth l =
      Hierarchy.ancestorsWithin e tooDeep depth l := by
  induction depth generalizing l with
  | zero =>
    unfold Hierarchy.ancestorsWithin
    cases l.type.base <;> rfl
  | succ depth ih =>
    unfold Hierarchy.ancestorsWithin
    cases l.type.base with
    | none => rfl
    | some base =>
      simp only [ih]
      rfl

theorem meet_withParallel (unmet : List String) (stack : List (Pod × UInt16)) :
    Hierarchy.meet (e.withParallel parallel) unmet stack = Hierarchy.meet e unmet stack := by
  have hfind : ∀ t, (e.withParallel parallel).find t = e.find t := fun _ => rfl
  fun_induction Hierarchy.meet e unmet stack with
  | case1 => rw [Hierarchy.meet]
  | case2 => simp [Hierarchy.meet, *]
  | case3 => simp [Hierarchy.meet, *]
  | case4 => simp [Hierarchy.meet, *]
  | case5 => simp [Hierarchy.meet, *]
  | case6 => simp [Hierarchy.meet, *]

theorem serve_withParallel (unmet : List String) (stack : List (Pod × UInt16)) :
    Hierarchy.serve (e.withParallel parallel) unmet stack = Hierarchy.serve e unmet stack := by
  have hfind : ∀ t, (e.withParallel parallel).find t = e.find t := fun _ => rfl
  have hall : Hierarchy.allMixins (e.withParallel parallel) = Hierarchy.allMixins e := rfl
  fun_induction Hierarchy.serve e unmet stack with
  | case1 => rw [Hierarchy.serve]
  | case2 => simp [Hierarchy.serve, *]
  | case3 => simp [Hierarchy.serve, *]
  | case4 => simp [Hierarchy.serve, *]
  | case5 =>
    simp [Hierarchy.serve, meet_withParallel, *]
    rfl
  | case6 => simp [Hierarchy.serve, *]

theorem ancestors_withParallel (self : TypeRef) (l : LoadedType) :
    Hierarchy.ancestors (e.withParallel parallel) self l = Hierarchy.ancestors e self l :=
  ancestorsWithin_withParallel e parallel _ _ l

theorem routes_withParallel (l : LoadedType) (bases : List Ancestor) :
    Hierarchy.routes (e.withParallel parallel) l bases = Hierarchy.routes e l bases := by
  have hall : Hierarchy.allMixins (e.withParallel parallel) = Hierarchy.allMixins e := rfl
  unfold Hierarchy.routes Hierarchy.mixinsToServe
  simp only [meet_withParallel, serve_withParallel, hall]

end Inherited

namespace PodM

variable {α β : Type}

-- A step on the types of a pod that is a script.
def Scripted (m : PodM α) : Prop :=
  ∀ e : PodEnv, ∃ σ : Script α, ∀ parallel, m (e.withParallel parallel) = σ.run e.pod.symbols

theorem scripted_ofExcept (x : Except LoweringError α) : Scripted (ofExcept x) :=
  fun _ => ⟨.done x, fun _ => by cases x <;> rfl⟩

theorem scripted_pure (a : α) : Scripted (pure a) :=
  scripted_ofExcept (.ok a)

theorem scripted_throw (e : LoweringError) : Scripted (throw e : PodM α) :=
  scripted_ofExcept (.error e)

theorem scripted_bind {m : PodM α} {k : α → PodM β} (hm : Scripted m)
    (hk : ∀ a, Scripted (k a)) : Scripted (m >>= k) := by
  intro e
  obtain ⟨σ, hσ⟩ := hm e
  choose τ hτ using fun a => hk a e
  refine ⟨σ.bind τ, fun parallel => ?_⟩
  rw [Script.run_bind, ← hσ parallel, ← funext fun a => hτ a parallel]
  rfl

theorem scripted_map {m : PodM α} (hm : Scripted m) (g : α → β) : Scripted (g <$> m) := by
  rw [map_eq_pure_bind]
  exact scripted_bind hm fun _ => scripted_pure _

-- What is read must not say whether types are lowered side by side.
theorem scripted_read {k : PodEnv → PodM α} (hk : ∀ e, Scripted (k e))
    (hsame : ∀ e parallel, k (e.withParallel parallel) = k e) : Scripted (read >>= k) := by
  intro e
  obtain ⟨σ, hσ⟩ := hk e e
  refine ⟨σ, fun parallel => ?_⟩
  rw [← hσ parallel, ← hsame e parallel]
  rfl

-- The resolver of a class is that of the pod.
theorem inClass_eq (draft : Draft) (selfName : String) (m : ClassM Unit) (e : PodEnv) :
    inClass draft selfName m e = m.resolving ⟨e.pod, e.config, selfName⟩ draft #[] >>= fun x =>
      pure { draft := x.2.1, literals := x.2.2 } := by
  funext resolver
  change _ = EStateM.bind _ _ resolver
  unfold EStateM.bind inClass ReaderT.run EStateM.run ClassM.resolving
  dsimp only
  cases m ⟨e.pod, e.config, selfName⟩ ⟨draft, resolver, #[]⟩ with
  | ok u c => rfl
  | error err c => rfl

theorem scripted_inClass (draft : Draft) (selfName : String) {m : ClassM Unit}
    (hm : ClassM.Scripted m) : Scripted (inClass draft selfName m) := by
  intro e
  obtain ⟨σ, hσ⟩ := hm ⟨e.pod, e.config, selfName⟩ draft #[]
  refine ⟨σ.bind fun x => .done (.ok { draft := x.2.1, literals := x.2.2 }), fun parallel => ?_⟩
  rw [Script.run_bind, inClass_eq, ← hσ parallel]
  rfl

-- A class that stands beside another one.
theorem scripted_singleton (x : Except LoweringError ClassOutput) {k : List ClassOutput → PodM α}
    (hk : ∀ outputs, Scripted (k outputs)) : Scripted (List.singleton <$> ofExcept x >>= k) :=
  scripted_bind (scripted_map (scripted_ofExcept x) _) hk

end PodM

section Types

open PodM (Scripted scripted_bind)

theorem scripted_lowerRouted (self : TypeRef) (t : TypeDef) (superName : String) (isErr : Bool)
    (routes : Except LoweringError (List (LoadedType × MethodDef))) :
    ClassM.Scripted (lowerMembers self t superName isErr >>= fun _ =>
      ofExcept routes >>= fun routes => routes.forM fun p => lowerRouter p.1.pod p.1.type p.2) := by
  refine ClassM.scripted_bind (scripted_lowerMembers _ _ _ _) fun _ => ?_
  refine ClassM.scripted_bind (ClassM.scripted_ofExcept _) fun routes => ?_
  refine ClassM.scripted_forM (fun p => ?_) _
  exact scripted_lowerRouter _ _ _

theorem scripted_lowerClass (self : TypeRef) (l : LoadedType) : Scripted (lowerClass self l) := by
  refine PodM.scripted_read (fun e => ?_) fun e parallel => ?_
  · refine scripted_bind (PodM.scripted_ofExcept _) fun bases => ?_
    refine scripted_bind (PodM.scripted_ofExcept _) fun draft => ?_
    refine scripted_bind (PodM.scripted_inClass _ _ (scripted_lowerRouted _ _ _ _ _)) fun cls => ?_
    refine scripted_bind (PodM.scripted_ofExcept _) fun main => ?_
    have hlast : ∀ carriers, Scripted (if (e.config.emitDynamicSubclasses && !l.type.isFinal) = true
        then List.singleton <$> ofExcept (lowerDynamic self.jname e.config) >>= fun dynamics =>
          pure (main :: carriers ++ dynamics)
        else (pure [] : PodM (List ClassOutput)) >>= fun dynamics =>
          pure (main :: carriers ++ dynamics)) := by
      intro carriers
      split
      · exact PodM.scripted_singleton _ fun _ => PodM.scripted_pure _
      · exact PodM.scripted_pure _
    dsimp only
    split
    · exact PodM.scripted_singleton _ hlast
    · exact hlast []
  · simp only [ancestors_withParallel, routes_withParallel]
    rfl

theorem scripted_lowerMixin (self : TypeRef) (t : TypeDef) : Scripted (lowerMixin self t) := by
  refine PodM.scripted_read (fun e => ?_) fun _ _ => rfl
  refine scripted_bind (PodM.scripted_ofExcept _) fun draft => ?_
  refine scripted_bind (PodM.scripted_inClass _ _ ?_) fun interface => ?_
  · refine ClassM.scripted_bind (scripted_addInterfaces t) fun _ => ?_
    refine ClassM.scripted_bind (scripted_addSource t) fun _ => ?_
    exact ClassM.scripted_forM scripted_lowerMixinInterface _
  refine scripted_bind (PodM.scripted_ofExcept _) fun draft => ?_
  refine scripted_bind (PodM.scripted_inClass _ _ ?_) fun bodies => ?_
  · refine ClassM.scripted_bind (scripted_addSource t) fun _ => ?_
    refine ClassM.scripted_bind (scripted_addFields t _ _) fun _ => ?_
    refine ClassM.scripted_bind (scripted_forPicked t scripted_lowerMixinBody) fun _ => ?_
    split
    · exact scripted_lowerClassInit _ _
    · exact ClassM.scripted_pure _
  refine scripted_bind (PodM.scripted_ofExcept _) fun interface => ?_
  exact scripted_bind (PodM.scripted_ofExcept _) fun bodies => PodM.scripted_pure _

theorem scripted_lowerType (index : Nat) : Scripted (lowerType index) := by
  refine PodM.scripted_read (fun e => ?_) fun _ _ => rfl
  dsimp only
  split
  · exact PodM.scripted_throw _
  · refine scripted_bind (PodM.scripted_ofExcept _) fun self => ?_
    split
    · exact PodM.scripted_throw _
    · split
      · exact scripted_lowerMixin _ _
      · exact scripted_lowerClass _ _

end Types

end PodCompiler.Lowering
