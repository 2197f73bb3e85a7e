import PodCompiler.Proofs.Lowering.ClassMembers
import PodCompiler.Proofs.Lowering.Script

namespace PodCompiler.Lowering

open ClassFile (CodeBuffer Draft)
open Pod (MethodDef TypeDef)

-- Whether types are lowered side by side.
def ClassEnv.withParallel (env : ClassEnv) (parallel : Bool) : ClassEnv :=
  { env with config := { env.config with parallel } }

namespace ClassM

variable {α β : Type}

-- A result with the resolver as its only state.
def onKept : EStateM.Result LoweringError OpenClass α →
    EStateM.Result LoweringError Resolver (α × Draft × Array String)
  | .ok a c => .ok (a, c.draft, c.literals) c.resolver
  | .error e c => .error e c.resolver

-- A step as one on the resolver.
def resolving (m : ClassM α) (env : ClassEnv) (draft : Draft) (literals : Array String) :
    ResolverM (α × Draft × Array String) :=
  fun resolver => onKept (m env ⟨draft, resolver, literals⟩)

theorem resolving_bind (m : ClassM α) (k : α → ClassM β) (env : ClassEnv) (draft : Draft)
    (literals : Array String) :
    (m >>= k).resolving env draft literals =
      m.resolving env draft literals >>= fun x => (k x.1).resolving env x.2.1 x.2.2 := by
  funext resolver
  change onKept ((m >>= k) env ⟨draft, resolver, literals⟩) = EStateM.bind _ _ _
  unfold EStateM.bind resolving
  rw [run_bind]
  cases m env ⟨draft, resolver, literals⟩ with
  | ok a c => rfl
  | error e c => rfl

-- A step that asks what its class, the pod and the settings tell it to.
def Scripted (m : ClassM α) : Prop :=
  ∀ (env : ClassEnv) draft literals, ∃ σ : Script (α × Draft × Array String), ∀ parallel,
    m.resolving (env.withParallel parallel) draft literals = σ.run env.pod.symbols

@[simp] theorem scripted_pure (a : α) : Scripted (pure a) :=
  fun _ draft literals => ⟨.done (.ok (a, draft, literals)), fun _ => rfl⟩

@[simp] theorem scripted_throw (e : LoweringError) : Scripted (throw e : ClassM α) :=
  fun _ _ _ => ⟨.done (.error e), fun _ => rfl⟩

@[simp] theorem scripted_ofExcept (x : Except LoweringError α) : Scripted (ofExcept x) := by
  cases x with
  | ok a => exact scripted_pure a
  | error e => exact scripted_throw e

@[simp] theorem scripted_ofFormat (x : Except Pod.FormatError α) : Scripted (ofFormat x) := by
  cases x with
  | ok a => exact scripted_pure a
  | error e => exact scripted_throw _

@[simp] theorem scripted_bind {m : ClassM α} {k : α → ClassM β} (hm : Scripted m)
    (hk : ∀ a, Scripted (k a)) : Scripted (m >>= k) := by
  intro env draft literals
  obtain ⟨σ, hσ⟩ := hm env draft literals
  choose τ hτ using fun x : α × Draft × Array String => hk x.1 env x.2.1 x.2.2
  refine ⟨σ.bind τ, fun parallel => ?_⟩
  rw [resolving_bind, hσ, Script.run_bind]
  exact congrArg _ (funext fun x => hτ x parallel)

@[simp] theorem scripted_map {m : ClassM α} (hm : Scripted m) (g : α → β) :
    Scripted (g <$> m) := by
  rw [map_eq_pure_bind]
  exact scripted_bind hm fun _ => scripted_pure _

-- What is read must not say whether types are lowered side by side.
theorem scripted_read {k : ClassEnv → ClassM α} (hk : ∀ env, Scripted (k env))
    (hsame : ∀ env parallel, k (env.withParallel parallel) = k env) : Scripted (read >>= k) := by
  intro env draft literals
  obtain ⟨σ, hσ⟩ := hk env env draft literals
  refine ⟨σ, fun parallel => ?_⟩
  rw [← hσ parallel, ← hsame env parallel]
  rfl

-- What is looked at of a class must not be the resolver.
theorem scripted_get {k : OpenClass → ClassM α} (hk : ∀ c, Scripted (k c))
    (hsame : ∀ c resolver, k { c with resolver } = k c) : Scripted (get >>= k) := by
  intro env draft literals
  obtain ⟨σ, hσ⟩ := hk ⟨draft, {}, literals⟩ env draft literals
  refine ⟨σ, fun parallel => ?_⟩
  rw [← hσ parallel]
  funext resolver
  change onKept (k ⟨draft, resolver, literals⟩ (env.withParallel parallel) _) = _
  rw [← hsame ⟨draft, resolver, literals⟩ {}]
  rfl

@[simp] theorem scripted_symbols : Scripted symbols :=
  scripted_read (fun _ => scripted_pure _) fun _ _ => rfl

@[simp] theorem scripted_typeRef (i : UInt16) : Scripted (typeRef i) :=
  scripted_bind scripted_symbols fun _ => scripted_ofExcept _

@[simp] theorem scripted_className : Scripted className :=
  scripted_get (fun _ => scripted_pure _) fun _ _ => rfl

@[simp] theorem scripted_onDraft (m : ClassFile.DraftM α) : Scripted (onDraft m) := by
  intro env draft literals
  cases hm : m draft with
  | ok a d =>
    refine ⟨.done (.ok (a, d, literals)), fun parallel => funext fun resolver => ?_⟩
    simp only [resolving, onDraft, hm]
    rfl
  | error e d =>
    refine ⟨.done (.error (.classFile e)), fun parallel => funext fun resolver => ?_⟩
    simp only [resolving, onDraft, hm]
    rfl

@[simp] theorem scripted_onPool (m : ClassFile.PoolM α) : Scripted (onPool m) :=
  scripted_onDraft _

theorem scripted_modify (g : Draft → Draft) :
    Scripted (modify fun c => { c with draft := g c.draft }) :=
  fun _ draft literals => ⟨.done (.ok ((), g draft, literals)), fun _ => rfl⟩

@[simp] theorem scripted_literalIndex (signature : String) :
    Scripted (literalIndex signature) := by
  intro env draft literals
  cases hfound : literals.findIdx? (· = signature) with
  | some n =>
    refine ⟨.done (.ok (n, draft, literals)), fun parallel => funext fun resolver => ?_⟩
    simp only [resolving, literalIndex, hfound]
    rfl
  | none =>
    refine ⟨.done (.ok (literals.size, draft, literals.push signature)),
      fun parallel => funext fun resolver => ?_⟩
    simp only [resolving, literalIndex, hfound]
    rfl

-- The resolver of a class is asked about the tables of the pod.
theorem scripted_ask (q : Query) : Scripted (symbols >>= fun s => onResolver (q.ask s)) := by
  intro env draft literals
  refine ⟨.ask q fun a => .done (.ok (a, draft, literals)), fun parallel => ?_⟩
  funext resolver
  change onKept (onResolver (q.ask env.pod.symbols) (env.withParallel parallel)
    ⟨draft, resolver, literals⟩) = EStateM.bind _ _ _
  unfold onResolver EStateM.bind
  dsimp only
  cases q.ask env.pod.symbols resolver <;> rfl

@[simp] theorem scripted_mapM {g : α → ClassM β} (hg : ∀ x, Scripted (g x)) (xs : List α) :
    Scripted (xs.mapM g) := by
  induction xs with
  | nil => exact scripted_pure _
  | cons x xs ih =>
    rw [List.mapM_cons]
    exact scripted_bind (hg x) fun _ => scripted_bind ih fun _ => scripted_pure _

@[simp] theorem scripted_forM {g : α → ClassM PUnit} (hg : ∀ x, Scripted (g x)) (xs : List α) :
    Scripted (xs.forM g) := by
  induction xs with
  | nil => exact scripted_pure _
  | cons x xs ih => exact scripted_bind (hg x) fun _ => ih

@[simp] theorem scripted_forIn {g : α → β → ClassM (ForInStep β)}
    (hg : ∀ x b, Scripted (g x b)) (xs : List α) (b : β) : Scripted (forIn xs b g) := by
  induction xs generalizing b with
  | nil => exact scripted_pure b
  | cons x xs ih =>
    rw [List.forIn_cons]
    refine scripted_bind (hg x b) fun step => ?_
    cases step with
    | done b' => exact scripted_pure b'
    | yield b' => exact ih b'

theorem scripted_ite {p : Prop} [Decidable p] {x y : ClassM α} (hx : Scripted x)
    (hy : Scripted y) : Scripted (if p then x else y) := by
  split
  · exact hx
  · exact hy

@[simp] theorem scripted_intern (r : Ref) : Scripted r.intern := by
  cases r <;> simp [Ref.intern, typeLiteralField]

@[simp] theorem scripted_item (i : Item Ref) : Scripted (i.mapM Ref.intern) := by
  cases i <;> simp [Item.mapM]

end ClassM

namespace BodyM

variable {α β : Type}

-- A step of a body that is a script from whatever items and slots there are.
def Scripted (m : BodyM α) : Prop :=
  ∀ s, ClassM.Scripted (m s)

@[simp] theorem scripted_pure (a : α) : Scripted (pure a) :=
  fun _ => ClassM.scripted_pure _

@[simp] theorem scripted_throw (e : LoweringError) : Scripted (throw e : BodyM α) :=
  fun _ => ClassM.scripted_throw e

@[simp] theorem scripted_bind {m : BodyM α} {k : α → BodyM β} (hm : Scripted m)
    (hk : ∀ a, Scripted (k a)) : Scripted (m >>= k) :=
  fun s => ClassM.scripted_bind (hm s) fun x => hk x.1 x.2

@[simp] theorem scripted_map {m : BodyM α} (hm : Scripted m) (g : α → β) :
    Scripted (g <$> m) := by
  rw [map_eq_pure_bind]
  exact scripted_bind hm fun _ => scripted_pure _

@[simp] theorem scripted_lift {x : ClassM α} (hx : ClassM.Scripted x) :
    Scripted (liftM x : BodyM α) :=
  fun _ => ClassM.scripted_bind hx fun _ => ClassM.scripted_pure _

@[simp] theorem scripted_ofExcept (x : Except LoweringError α) :
    Scripted (ofExcept x : BodyM α) := by
  cases x with
  | ok a => exact scripted_pure a
  | error e => exact scripted_throw e

theorem scripted_read {k : ClassEnv → BodyM α} (hk : ∀ env, Scripted (k env))
    (hsame : ∀ env parallel, k (env.withParallel parallel) = k env) :
    Scripted ((read : BodyM ClassEnv) >>= k) := by
  intro s
  exact ClassM.scripted_read (k := fun env => k env s) (fun env => hk env s)
    fun env parallel => congrFun (hsame env parallel) s

@[simp] theorem scripted_get : Scripted (get : BodyM BodyState) :=
  fun _ => ClassM.scripted_pure _

@[simp] theorem scripted_modify (g : BodyState → BodyState) : Scripted (modify g) :=
  fun _ => ClassM.scripted_pure _

@[simp] theorem scripted_slots (m : FinallySlots → Except LoweringError (α × FinallySlots)) :
    Scripted (slots m) :=
  fun _ => ClassM.scripted_bind (ClassM.scripted_ofExcept _) fun _ => ClassM.scripted_pure _

theorem lift_bind (x : ClassM α) (k : α → BodyM β) (s : BodyState) :
    ((liftM x : BodyM α) >>= k) s = x >>= fun a => k a s := by
  change (x >>= fun a => pure (a, s)) >>= (fun p => k p.1 p.2) = _
  rw [bind_assoc]
  simp only [pure_bind]

-- What is asked first is answered by the resolver of the class.
theorem scripted_ask (q : Query) {k : q.Answer → BodyM α} (hk : ∀ a, Scripted (k a)) :
    Scripted ((liftM ClassM.symbols : BodyM Pod.Symbols) >>= fun s =>
      (liftM (ClassM.onResolver (q.ask s)) : BodyM q.Answer) >>= k) := by
  intro s
  have hask := ClassM.scripted_bind (ClassM.scripted_ask q) fun a => hk a s
  rw [bind_assoc] at hask
  simpa only [lift_bind] using hask

@[simp] theorem scripted_emit (items : List (Item Ref)) : Scripted (emit items) := by
  induction items with
  | nil => exact scripted_pure _
  | cons i rest ih =>
    unfold emit
    exact scripted_bind (scripted_lift (ClassM.scripted_item i)) fun _ =>
      scripted_bind (scripted_modify _) fun _ => ih

@[simp] theorem scripted_emitOk (items : Except LoweringError (List (Item Ref))) :
    Scripted (emitOk items) := by
  simp [emitOk]

end BodyM

section Instr

variable (f : Frame) (i : Instr)

@[simp] theorem scripted_plain (items : List (Item Ref)) : BodyM.Scripted (plain items) := by
  simp [plain]

@[simp] theorem scripted_emitCompared (c : Compared) : BodyM.Scripted (emitCompared c) := by
  simp [emitCompared]

@[simp] theorem scripted_emitLiteral (kind : Pod.LiteralKind) :
    BodyM.Scripted (emitLiteral kind i) :=
  BodyM.scripted_read (fun _ => by simp) fun _ _ => rfl

@[simp] theorem scripted_emitCall (kind : CallKind) : BodyM.Scripted (emitCall kind i) :=
  BodyM.scripted_ask (.call i.arg kind) fun _ => BodyM.scripted_emit _

@[simp] theorem scripted_emitField (op : UInt8) (mixin : Bool) :
    BodyM.Scripted (emitField op i mixin) :=
  BodyM.scripted_ask (.field i.arg mixin) fun _ => BodyM.scripted_emit _

@[simp] theorem scripted_typePair : ClassM.Scripted (typePair i) := by
  simp [typePair]

@[simp] theorem scripted_emitRelation (rel : Relation) (next : Following) :
    BodyM.Scripted (emitRelation rel i next) := by
  simp [emitRelation]

@[simp] theorem scripted_emitFinallyStart : BodyM.Scripted (emitFinallyStart f i) := by
  refine BodyM.scripted_read (fun env => ?_) fun _ _ => rfl
  split <;> simp

@[simp] theorem scripted_emitFinallyEnd : BodyM.Scripted (emitFinallyEnd f i) := by
  refine BodyM.scripted_read (fun env => ?_) fun _ _ => rfl
  split
  · simp
  · refine BodyM.scripted_bind BodyM.scripted_get fun s => ?_
    dsimp only
    split
    · simp
    · refine BodyM.scripted_bind (BodyM.scripted_modify _) fun _ => ?_
      split <;> simp

variable {copy : Instr → BodyM Unit}

theorem scripted_emitJumpFinally (hcopy : BodyM.Scripted (copy i)) :
    BodyM.Scripted (emitJumpFinally copy i) := by
  refine BodyM.scripted_read (fun env => ?_) fun _ _ => rfl
  split
  · simp
  · exact hcopy

theorem scripted_emitInstr (hcopy : ∀ i, BodyM.Scripted (copy i)) (next : Following) :
    BodyM.Scripted (emitInstr f copy i next) := by
  unfold emitInstr
  cases i.op with
  | jumpFinally =>
    exact BodyM.scripted_bind (scripted_emitJumpFinally i (hcopy i)) fun _ =>
      BodyM.scripted_pure _
  | catchErrStart =>
    refine BodyM.scripted_bind (BodyM.scripted_emit _) ?_
    simp
  | _ => simp

@[simp] theorem scripted_emitFault (fault : Option DecodeFault) :
    BodyM.Scripted (emitFault f fault) := by
  cases fault with
  | none => exact BodyM.scripted_pure _
  | some d => exact BodyM.scripted_throw _

theorem scripted_emitInstrs (hcopy : ∀ i, BodyM.Scripted (copy i)) (fault : Option DecodeFault)
    (instrs : List Instr) : BodyM.Scripted (emitInstrs f copy fault instrs) := by
  fun_induction emitInstrs f copy fault instrs with
  | case1 => exact scripted_emitFault f fault
  | case2 i =>
    exact BodyM.scripted_bind (BodyM.scripted_emit _) fun _ =>
      BodyM.scripted_bind (scripted_emitInstr f i hcopy _) fun _ => scripted_emitFault f fault
  | case3 i j rest ihrest ih =>
    refine BodyM.scripted_bind (BodyM.scripted_emit _) fun _ =>
      BodyM.scripted_bind (scripted_emitInstr f i hcopy _) fun fused => ?_
    split
    · exact ihrest
    · exact ih

theorem scripted_emitCopy {code : Bytes} {range : Nat → Nat → BodyM Unit}
    (hrange : ∀ start stop, BodyM.Scripted (range start stop)) :
    BodyM.Scripted (emitCopy f code range i) :=
  BodyM.scripted_bind (BodyM.scripted_ofExcept _) fun _ =>
    BodyM.scripted_bind (BodyM.scripted_emit _) fun _ =>
      BodyM.scripted_bind (hrange _ _) fun _ => BodyM.scripted_emit _

-- Copies in copies, as deep as they may be.
theorem scripted_emitRange (code : Bytes) (depth start stop : Nat) :
    BodyM.Scripted (emitRange f code depth start stop) := by
  induction depth generalizing start stop with
  | zero => exact scripted_emitInstrs f (fun _ => BodyM.scripted_throw _) _ _
  | succ depth ih => exact scripted_emitInstrs f (fun i => scripted_emitCopy f i ih) _ _

theorem scripted_emitBody (code : Bytes) : BodyM.Scripted (emitBody f code) :=
  BodyM.scripted_bind (scripted_emitRange f code _ _ _) fun _ => BodyM.scripted_emit _

end Instr

section Code

open ClassM (Scripted scripted_bind)

variable (f : Frame) (m : MethodDef)

@[simp] theorem scripted_placeCode (code : Bytes) (out : CodeBuffer) :
    Scripted (placeCode f code out) := by
  refine scripted_bind (scripted_emitBody f code {}) fun x => ?_
  dsimp only
  split <;> simp

@[simp] theorem scripted_lowerFragment (code : Bytes) (out : CodeBuffer) :
    Scripted (lowerFragment f code out) := by
  simp [lowerFragment]

@[simp] theorem scripted_catchTypes (t : TypeRef) : Scripted (Protection.catchTypes t) := by
  unfold Protection.catchTypes
  dsimp only
  split <;> split <;> simp

theorem scripted_ofEntry (r : Relocation) (method : String) (scope : Nat) (e : Pod.ErrEntry) :
    Scripted (Protection.ofEntry r method scope e) := by
  refine scripted_bind (ClassM.scripted_ofExcept _) fun start => ?_
  refine scripted_bind (ClassM.scripted_ofExcept _) fun stop => ?_
  refine scripted_bind (ClassM.scripted_ofExcept _) fun handler => ?_
  refine scripted_bind (ClassM.scripted_typeRef _) fun t => ?_
  exact scripted_bind (scripted_catchTypes t) fun _ => ClassM.scripted_pure _

@[simp] theorem scripted_table (r : Relocation) (method : String) (es : List Pod.ErrEntry) :
    Scripted (Protection.table r method es) := by
  refine scripted_bind (ClassM.scripted_mapM (fun scope => ?_) _) fun _ => ClassM.scripted_pure _
  exact ClassM.scripted_mapM (scripted_ofEntry r method scope) _

@[simp] theorem scripted_lowerCode (code : Bytes) (attrs : Pod.Attributes) (out : CodeBuffer) :
    Scripted (lowerCode f code attrs out) := by
  refine scripted_bind (scripted_placeCode f code out) fun p => ?_
  refine scripted_bind (ClassM.scripted_ofFormat _) fun errs => ?_
  refine scripted_bind (scripted_table _ _ _) fun exceptions => ?_
  refine ClassM.scripted_read (fun env => ?_) fun _ _ => rfl
  dsimp only
  split <;> simp

@[simp] theorem scripted_lowerBody (out : CodeBuffer) : Scripted (lowerBody f m out) :=
  scripted_lowerCode f m.code m.attrs out

@[simp] theorem scripted_assemble (out : CodeBuffer) (items : List (Item Ref)) :
    Scripted (ClassM.assemble out items) := by
  simp [ClassM.assemble]

@[simp] theorem scripted_addMethod (access : UInt16) (name desc : String)
    (code : Option CodeBuffer) : Scripted (ClassM.addMethod access name desc code) :=
  ClassM.scripted_onDraft _

@[simp] theorem scripted_desc (self : Option String) (n : Nat) (result : Result) :
    Scripted (ClassM.desc m self n result) := by
  simp [ClassM.desc]

@[simp] theorem scripted_frame (mode : SelfMode) : Scripted (ClassM.frame m mode) := by
  simp [ClassM.frame]

@[simp] theorem scripted_resultStack : Scripted (ClassM.resultStack m) := by
  simp [ClassM.resultStack]

-- The defaults, one parameter after the other.
@[simp] theorem scripted_lowerDefaults (out : CodeBuffer) (index : Nat) (ps : List Pod.VarDef) :
    Scripted (lowerDefaults m f out index ps) := by
  induction ps generalizing out index with
  | nil => exact ClassM.scripted_pure _
  | cons p rest ih =>
    unfold lowerDefaults
    split
    · simp
    · exact scripted_bind (scripted_lowerFragment f _ _) fun fragment => ih _ _

@[simp] theorem scripted_lowerWrapper (t : Target) (access : UInt16) (ref : UInt16) (n : Nat) :
    Scripted (lowerWrapper m t access f ref n) := by
  refine scripted_bind (scripted_desc _ _ _ _) fun desc => ?_
  refine scripted_bind (scripted_assemble _ _) fun out => ?_
  exact scripted_bind (scripted_lowerDefaults f m _ _ _) fun _ => scripted_addMethod _ _ _ _

@[simp] theorem scripted_lowerWrappers (t : Target) (access : UInt16) (mode : SelfMode) :
    Scripted (lowerWrappers m t access mode) := by
  unfold lowerWrappers
  split
  · exact ClassM.scripted_pure _
  · refine scripted_bind (scripted_frame m mode) fun f => ?_
    refine scripted_bind ClassM.scripted_className fun cls => ?_
    refine scripted_bind (ClassM.scripted_intern _) fun ref => ?_
    exact ClassM.scripted_forM (scripted_lowerWrapper f m t access ref) _

@[simp] theorem scripted_lowerPlainBody : Scripted (lowerPlainBody m f) := by
  simp [lowerPlainBody]

@[simp] theorem scripted_lowerStandard : Scripted (lowerStandard m) := by
  have hrest : ∀ desc access, Scripted (ClassM.resultStack m >>= fun stack => lowerWrappers m
      { name := m.name, desc, isStatic := m.isStatic, resultStack := stack } access .bound) :=
    fun desc access => scripted_bind (scripted_resultStack m) fun _ => scripted_lowerWrappers _ _ _ _
  unfold lowerStandard
  dsimp only
  refine scripted_bind (scripted_desc _ _ _ _) fun desc => ?_
  split
  · exact scripted_bind (scripted_addMethod _ _ _ _) fun _ => hrest _ _
  · refine scripted_bind (scripted_frame m _) fun f => ?_
    refine scripted_bind (scripted_lowerPlainBody f m) fun code => ?_
    exact scripted_bind (scripted_addMethod _ _ _ _) fun _ => hrest _ _

@[simp] theorem scripted_lowerCtorBody (access : UInt16) : Scripted (lowerCtorBody m access) := by
  refine ClassM.scripted_read (fun env => ?_) fun _ _ => rfl
  refine scripted_bind (scripted_desc _ _ _ _) fun desc => ?_
  refine scripted_bind (scripted_frame m _) fun f => ?_
  refine scripted_bind (scripted_lowerPlainBody _ m) fun code => ?_
  refine scripted_bind (scripted_addMethod _ _ _ _) fun _ => ?_
  exact scripted_bind (scripted_lowerWrappers m _ _ _) fun _ => ClassM.scripted_pure _

@[simp] theorem scripted_lowerCtor : Scripted (lowerCtor m) := by
  refine ClassM.scripted_read (fun env => ?_) fun _ _ => rfl
  refine scripted_bind (scripted_lowerCtorBody m _) fun body => ?_
  refine scripted_bind (scripted_desc _ _ _ _) fun desc => ?_
  refine scripted_bind (scripted_frame m _) fun f => ?_
  refine scripted_bind (scripted_assemble _ _) fun out => ?_
  exact scripted_bind (scripted_addMethod _ _ _ _) fun _ => scripted_lowerWrappers m _ _ _

@[simp] theorem scripted_lowerNative : Scripted (lowerNative m) := by
  refine ClassM.scripted_read (fun env => ?_) fun _ _ => rfl
  refine scripted_bind (scripted_desc _ _ _ _) fun desc => ?_
  refine scripted_bind (scripted_resultStack m) fun stack => ?_
  refine scripted_bind (scripted_frame m _) fun f => ?_
  have hrest : ∀ peerDesc, Scripted (ClassM.assemble
      (CodeBuffer.sized (f.paramSlots m.params.length + 2) f.maxLocals)
      (nativeItems env.selfName m peerDesc (f.params m.params.length) stack) >>= fun out =>
        ClassM.addMethod (withoutAbstract (accessOf m.flags)) m.name desc (some out) >>= fun _ =>
          lowerWrappers m { name := m.name, desc, isStatic := m.isStatic, resultStack := stack }
            (withoutAbstract (accessOf m.flags)) .bound) := fun peerDesc =>
    scripted_bind (scripted_assemble _ _) fun out =>
      scripted_bind (scripted_addMethod _ _ _ _) fun _ => scripted_lowerWrappers m _ _ _
  dsimp only
  split
  · exact hrest desc
  · exact scripted_bind (scripted_desc _ _ _ _) hrest

@[simp] theorem scripted_lowerMethod : Scripted (lowerMethod m) := by
  unfold lowerMethod
  split
  · simp
  · split <;> simp

@[simp] theorem scripted_lowerMixinInterface : Scripted (lowerMixinInterface m) := by
  unfold lowerMixinInterface
  dsimp only
  split
  · simp
  · refine scripted_bind (scripted_desc _ _ _ _) fun desc => ?_
    refine scripted_bind (scripted_addMethod _ _ _ _) fun _ => ?_
    refine scripted_bind (ClassM.scripted_forIn (fun x _ => ?_) _ _) fun _ =>
      ClassM.scripted_pure _
    split <;> simp

@[simp] theorem scripted_lowerMixinBody : Scripted (lowerMixinBody m) := by
  unfold lowerMixinBody
  split
  · simp
  · refine ClassM.scripted_read (fun env => ?_) fun _ _ => rfl
    refine scripted_bind (scripted_desc _ _ _ _) fun desc => ?_
    refine scripted_bind (scripted_frame m _) fun f => ?_
    refine scripted_bind (scripted_lowerPlainBody f m) fun code => ?_
    refine scripted_bind (scripted_addMethod _ _ _ _) fun _ => ?_
    exact scripted_bind (scripted_resultStack m) fun _ => scripted_lowerWrappers m _ _ _

-- It looks only which methods the class has.
@[simp] theorem scripted_lowerRouterFor (pod : Pod) (mixin : String) (access : UInt16)
    (result : StackType) (n : Nat) : Scripted (lowerRouterFor pod mixin m access result n) := by
  refine scripted_bind (ClassM.scripted_ofExcept _) fun desc => ?_
  refine ClassM.scripted_get (fun c => ?_) fun _ _ => rfl
  refine ClassM.scripted_ite (ClassM.scripted_pure _) ?_
  refine scripted_bind (ClassM.scripted_ofExcept _) fun bodyDesc => ?_
  refine scripted_bind (ClassM.scripted_ofExcept _) fun kinds => ?_
  exact scripted_bind (scripted_assemble _ _) fun _ => scripted_addMethod _ _ _ _

@[simp] theorem scripted_lowerRouter (pod : Pod) (mixin : TypeDef) :
    Scripted (lowerRouter pod mixin m) := by
  refine scripted_bind (ClassM.scripted_ofExcept _) fun r => ?_
  refine scripted_bind (ClassM.scripted_ofExcept _) fun ret => ?_
  exact ClassM.scripted_forM (scripted_lowerRouterFor m pod _ _ _) _

end Code

end PodCompiler.Lowering
