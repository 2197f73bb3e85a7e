import PodCompiler.Proofs.ClassFile.Pool
import PodCompiler.Proofs.Lowering.BodyLayout

namespace PodCompiler.Lowering

open ClassFile (Constants Pool)

namespace OpenClass

-- What always holds of a class: its pool was built by insertions, and a call that is kept is what
-- the reference is resolved to.
structure WellFormed (env : ClassEnv) (c : OpenClass) : Prop where
  pool : c.draft.pool.Built
  calls : ∀ index kind call, c.resolver.calls[(index, kind)]? = some call →
    Resolver.computeCall env.pod.symbols index kind = .ok call

-- The members of a class are as they were, and its pool has at least what it had.
structure Grows (c c' : OpenClass) : Prop where
  pool : c.draft.pool.Grows c'.draft.pool
  members : c'.draft = { c.draft with pool := c'.draft.pool }

-- A step from one state of a class to another.
def Advances (env : ClassEnv) (c c' : OpenClass) : Prop :=
  c.WellFormed env → c'.WellFormed env ∧ c.Grows c'

variable {env : ClassEnv} {c c₁ c' : OpenClass}

theorem Grows.refl (c : OpenClass) : c.Grows c :=
  ⟨.refl _, rfl⟩

theorem Grows.trans (h : c.Grows c₁) (h' : c₁.Grows c') : c.Grows c' := by
  refine ⟨h.pool.trans h'.pool, ?_⟩
  rw [h'.members, h.members]

theorem Grows.extends (h : c.Grows c') (hc' : c'.draft.pool.Built) :
    Constants.Extends c'.draft.pool.get? c.draft.pool.get? :=
  h.pool.extends hc'

theorem Advances.refl (c : OpenClass) : Advances env c c :=
  fun h => ⟨h, .refl _⟩

theorem Advances.trans (h : Advances env c c₁) (h' : Advances env c₁ c') : Advances env c c' := by
  intro hc
  obtain ⟨hc₁, hgrows⟩ := h hc
  obtain ⟨hc', hgrows'⟩ := h' hc₁
  exact ⟨hc', hgrows.trans hgrows'⟩

end OpenClass

namespace ClassM

variable {α β : Type}

-- A step that takes a class to a later state of it.
def Advancing (m : ClassM α) : Prop :=
  ∀ env c a c', m env c = .ok a c' → OpenClass.Advances env c c'

@[simp] theorem advancing_pure (a : α) : Advancing (pure a) := by
  intro env c b c' h
  obtain ⟨-, rfl⟩ := pure_eq_ok.mp h
  exact .refl _

@[simp] theorem advancing_bind {m : ClassM α} {k : α → ClassM β} (hm : Advancing m)
    (hk : ∀ a, Advancing (k a)) : Advancing (m >>= k) := by
  intro env c b c' h
  obtain ⟨a, c₁, ha, hb⟩ := bind_eq_ok.mp h
  exact (hm env c a c₁ ha).trans (hk a env c₁ b c' hb)

@[simp] theorem advancing_map {m : ClassM α} (hm : Advancing m) (g : α → β) :
    Advancing (g <$> m) := by
  rw [map_eq_pure_bind]
  exact advancing_bind hm fun _ => advancing_pure _

@[simp] theorem advancing_ofExcept (x : Except LoweringError α) :
    Advancing (ofExcept x : ClassM α) := by
  intro env c a c' h
  obtain ⟨-, rfl⟩ := ofExcept_eq_ok.mp h
  exact .refl _

@[simp] theorem advancing_read : Advancing (read : ClassM ClassEnv) := by
  intro env c a c' h
  cases h
  exact .refl _

@[simp] theorem advancing_symbols : Advancing symbols :=
  advancing_bind advancing_read fun _ => advancing_pure _

@[simp] theorem advancing_typeRef (i : UInt16) : Advancing (typeRef i) :=
  advancing_bind advancing_symbols fun _ => advancing_ofExcept _

@[simp] theorem advancing_className : Advancing className := by
  intro env c a c' h
  cases h
  exact .refl _

@[simp] theorem advancing_mapM {g : α → ClassM β} (hg : ∀ a, Advancing (g a)) (xs : List α) :
    Advancing (xs.mapM g) := by
  induction xs with
  | nil => exact advancing_pure _
  | cons x xs ih =>
    rw [List.mapM_cons]
    exact advancing_bind (hg x) fun _ => advancing_bind ih fun _ => advancing_pure _

-- Each of several steps is taken in a state between the first and the last.
theorem forall₂_of_advancing {g : α → ClassM β} (hg : ∀ a, Advancing (g a)) {env : ClassEnv}
    {c c' : OpenClass} {xs : List α} {ys : List β} (h : xs.mapM g env c = .ok ys c') :
    List.Forall₂ (fun x y => ∃ c₁ c₂, OpenClass.Advances env c c₁ ∧ g x env c₁ = .ok y c₂ ∧
      OpenClass.Advances env c₂ c') xs ys := by
  induction xs generalizing c ys with
  | nil =>
    rw [List.mapM_nil] at h
    obtain ⟨rfl, -⟩ := pure_eq_ok.mp h
    exact .nil
  | cons x xs ih =>
    rw [List.mapM_cons] at h
    obtain ⟨y, c₁, hy, h₁⟩ := bind_eq_ok.mp h
    obtain ⟨ys, c₂, hys, h₂⟩ := bind_eq_ok.mp h₁
    obtain ⟨rfl, rfl⟩ := pure_eq_ok.mp h₂
    have hfirst := hg x _ _ _ _ hy
    refine .cons ⟨c, c₁, .refl _, hy, advancing_mapM hg xs _ _ _ _ hys⟩ ((ih hys).imp ?_)
    rintro x' y' ⟨c₃, c₄, hbefore, hstep, hafter⟩
    exact ⟨c₃, c₄, hfirst.trans hbefore, hstep, hafter⟩

-- An insertion is made in the pool of the class.
theorem onPool_eq_ok {m : ClassFile.PoolM α} {env : ClassEnv} {c c' : OpenClass} {a : α} :
    onPool m env c = .ok a c' ↔
      ∃ p, m c.draft.pool = .ok a p ∧ c' = { c with draft := { c.draft with pool := p } } := by
  unfold onPool onDraft ClassFile.Draft.onPool
  obtain ⟨draft, resolver, literals⟩ := c
  dsimp only
  cases m draft.pool with
  | ok b p =>
    simp only [EStateM.Result.ok.injEq]
    constructor
    · rintro ⟨rfl, rfl⟩
      exact ⟨p, ⟨rfl, rfl⟩, rfl⟩
    · rintro ⟨p', ⟨rfl, rfl⟩, rfl⟩
      exact ⟨rfl, rfl⟩
  | error e p =>
    constructor
    · intro h
      cases h
    · rintro ⟨p', h, -⟩
      cases h

theorem advancing_onPool {m : ClassFile.PoolM α}
    (hm : ∀ p a p', p.Built → m p = .ok a p' → p'.Built ∧ p.Grows p') : Advancing (onPool m) := by
  intro env c a c' h hc
  obtain ⟨p, hp, rfl⟩ := onPool_eq_ok.mp h
  obtain ⟨hbuilt, hgrows⟩ := hm _ _ _ hc.pool hp
  exact ⟨⟨hbuilt, hc.calls⟩, hgrows, rfl⟩

theorem advancing_member {mk : UInt16 → UInt16 → ClassFile.Constant}
    {m : Except ClassFile.ClassError ClassFile.Member} :
    Advancing (onPool (Pool.member mk m)) := by
  refine advancing_onPool ?_
  intro p a p' hp h
  obtain ⟨hbuilt, hgrows, -⟩ := Pool.member_eq_ok hp h
  exact ⟨hbuilt, hgrows⟩

@[simp] theorem advancing_literalIndex (signature : String) :
    Advancing (literalIndex signature) := by
  intro env c a c' h hc
  obtain ⟨draft, resolver, literals⟩ := c
  unfold literalIndex at h
  dsimp only at h
  split at h <;> cases h <;> exact ⟨⟨hc.pool, hc.calls⟩, .refl _, rfl⟩

@[simp] theorem advancing_intern (r : Ref) : Advancing r.intern := by
  cases r with
  | class_ name =>
    refine advancing_onPool ?_
    intro p a p' hp h
    obtain ⟨hbuilt, hgrows, -⟩ := Pool.class_eq_ok hp h
    exact ⟨hbuilt, hgrows⟩
  | string text =>
    refine advancing_onPool ?_
    intro p a p' hp h
    obtain ⟨hbuilt, hgrows, -⟩ := Pool.string_eq_ok hp h
    exact ⟨hbuilt, hgrows⟩
  | field sig | method sig | interfaceMethod sig => exact advancing_member
  | typeLiteral signature =>
    refine advancing_bind (advancing_bind (advancing_literalIndex _) fun _ =>
      advancing_bind advancing_className fun _ => advancing_pure _) fun _ => ?_
    exact advancing_member

@[simp] theorem advancing_item (i : Item Ref) : Advancing (i.mapM Ref.intern) := by
  cases i <;> simp [Item.mapM]

-- What is kept of calls is what they are resolved to.
theorem onResolver_call_eq_ok {env : ClassEnv} {c c' : OpenClass} {index : UInt16}
    {kind : CallKind} {call : Call} (hc : c.WellFormed env)
    (h : onResolver (Resolver.call env.pod.symbols index kind) env c = .ok call c') :
    Resolver.computeCall env.pod.symbols index kind = .ok call ∧ c'.WellFormed env ∧
      c.Grows c' := by
  obtain ⟨draft, resolver, literals⟩ := c
  unfold onResolver Resolver.call at h
  dsimp only at h
  cases hkept : resolver.calls[(index, kind)]? with
  | some kept =>
    rw [hkept] at h
    cases h
    exact ⟨hc.calls index kind _ hkept, ⟨hc.pool, hc.calls⟩, .refl _, rfl⟩
  | none =>
    rw [hkept] at h
    cases hcall : Resolver.computeCall env.pod.symbols index kind with
    | error e =>
      rw [hcall] at h
      cases h
    | ok found =>
      rw [hcall] at h
      cases h
      refine ⟨rfl, ⟨hc.pool, ?_⟩, .refl _, rfl⟩
      intro index' kind' call' hcall'
      dsimp only at hcall'
      rw [Std.HashMap.getElem?_insert] at hcall'
      split at hcall'
      · rename_i heq
        have heq : (index, kind) = (index', kind') := by simpa using heq
        cases heq
        cases hcall'
        exact hcall
      · exact hc.calls index' kind' call' hcall'

theorem advancing_onResolver_field (s : Pod.Symbols) (index : UInt16) (mixin : Bool) :
    Advancing (onResolver (Resolver.field s index mixin)) := by
  intro env c a c' h hc
  obtain ⟨draft, resolver, literals⟩ := c
  unfold onResolver Resolver.field at h
  dsimp only at h
  cases hkept : resolver.fields[(index, mixin)]? with
  | some kept =>
    rw [hkept] at h
    cases h
    exact ⟨⟨hc.pool, hc.calls⟩, .refl _, rfl⟩
  | none =>
    rw [hkept] at h
    cases hfield : Resolver.computeField s index mixin with
    | error e =>
      rw [hfield] at h
      cases h
    | ok found =>
      rw [hfield] at h
      cases h
      exact ⟨⟨hc.pool, hc.calls⟩, .refl _, rfl⟩

end ClassM

namespace BodyM

variable {α β : Type}

-- A step of a body that takes its class to a later state.
def Advancing (m : BodyM α) : Prop :=
  ∀ s env c a s' c', m s env c = .ok (a, s') c' → OpenClass.Advances env c c'

@[simp] theorem advancing_pure (a : α) : Advancing (pure a) := by
  intro s env c b s' c' h
  obtain ⟨-, -, rfl⟩ := pure_eq_ok.mp h
  exact .refl _

@[simp] theorem advancing_throw (e : LoweringError) : Advancing (throw e : BodyM α) := by
  intro s env c b s' c' h
  cases h

@[simp] theorem advancing_bind {m : BodyM α} {k : α → BodyM β} (hm : Advancing m)
    (hk : ∀ a, Advancing (k a)) : Advancing (m >>= k) := by
  intro s env c b s' c' h
  obtain ⟨a, s₁, c₁, ha, hb⟩ := bind_eq_ok.mp h
  exact (hm s env c a s₁ c₁ ha).trans (hk a s₁ env c₁ b s' c' hb)

@[simp] theorem advancing_map {m : BodyM α} (hm : Advancing m) (g : α → β) :
    Advancing (g <$> m) := by
  rw [map_eq_pure_bind]
  exact advancing_bind hm fun _ => advancing_pure _

@[simp] theorem advancing_lift {x : ClassM α} (hx : ClassM.Advancing x) :
    Advancing (liftM x : BodyM α) := by
  intro s env c a s' c' h
  obtain ⟨hrun, rfl⟩ := lift_eq_ok.mp h
  exact hx env c a c' hrun

@[simp] theorem advancing_ofExcept (x : Except LoweringError α) :
    Advancing (ofExcept x : BodyM α) := by
  intro s env c a s' c' h
  obtain ⟨-, -, rfl⟩ := ofExcept_eq_ok.mp h
  exact .refl _

@[simp] theorem advancing_read : Advancing (read : BodyM ClassEnv) := by
  intro s env c a s' c' h
  obtain ⟨-, -, rfl⟩ := read_eq_ok.mp h
  exact .refl _

@[simp] theorem advancing_get : Advancing (get : BodyM BodyState) := by
  intro s env c a s' c' h
  cases h
  exact .refl _

@[simp] theorem advancing_modify (g : BodyState → BodyState) : Advancing (modify g) := by
  intro s env c a s' c' h
  cases h
  exact .refl _

@[simp] theorem advancing_slots (m : FinallySlots → Except LoweringError (α × FinallySlots)) :
    Advancing (slots m) := by
  intro s env c a s' c' h
  obtain ⟨items, fs⟩ := s
  simp only [slots] at h
  cases hm : m fs with
  | error e =>
    rw [hm] at h
    cases h
  | ok r =>
    rw [hm] at h
    cases h
    exact .refl _

@[simp] theorem advancing_emit (items : List (Item Ref)) : Advancing (emit items) := by
  induction items with
  | nil => exact advancing_pure _
  | cons i rest ih =>
    unfold emit
    refine advancing_bind (advancing_lift (ClassM.advancing_item i)) fun _ => ?_
    exact advancing_bind (advancing_modify _) fun _ => ih

@[simp] theorem advancing_emitOk (items : Except LoweringError (List (Item Ref))) :
    Advancing (emitOk items) := by
  unfold emitOk
  exact advancing_bind (advancing_ofExcept _) fun _ => advancing_emit _

end BodyM

-- A call is resolved, and then what it became is written.
theorem emitCall_eq_ok {kind : CallKind} {i : Instr} {s s' : BodyState} {env : ClassEnv}
    {c c' : OpenClass} {u : Unit} (h : emitCall kind i s env c = .ok (u, s') c') :
    ∃ call c₁, ClassM.onResolver (Resolver.call env.pod.symbols i.arg kind) env c = .ok call c₁ ∧
      BodyM.emit call.items s env c₁ = .ok (u, s') c' := by
  obtain ⟨symbols, s₁, c₁, h₁, hrest⟩ := BodyM.bind_eq_ok.mp h
  obtain ⟨hsymbols, rfl⟩ := BodyM.lift_eq_ok.mp h₁
  cases hsymbols
  obtain ⟨call, s₂, c₂, h₂, hemit⟩ := BodyM.bind_eq_ok.mp hrest
  obtain ⟨hcall, rfl⟩ := BodyM.lift_eq_ok.mp h₂
  exact ⟨call, c₂, hcall, hemit⟩

section Instr

open BodyM (Advancing)

variable (f : Frame) (i : Instr)

@[simp] theorem advancing_plain (items : List (Item Ref)) : Advancing (plain items) := by
  simp [plain]

@[simp] theorem advancing_emitCompared (cmp : Compared) : Advancing (emitCompared cmp) := by
  simp [emitCompared]

@[simp] theorem advancing_emitLiteral (kind : Pod.LiteralKind) :
    Advancing (emitLiteral kind i) := by
  simp [emitLiteral]

@[simp] theorem advancing_emitCall (kind : CallKind) : Advancing (emitCall kind i) := by
  intro s env c u s' c' h hc
  obtain ⟨call, c₁, hcall, hemit⟩ := emitCall_eq_ok h
  obtain ⟨-, hc₁, hgrows⟩ := ClassM.onResolver_call_eq_ok hc hcall
  obtain ⟨hc', hgrows'⟩ := BodyM.advancing_emit _ _ _ _ _ _ _ hemit hc₁
  exact ⟨hc', hgrows.trans hgrows'⟩

@[simp] theorem advancing_emitField (op : UInt8) (mixin : Bool) :
    Advancing (emitField op i mixin) := by
  unfold emitField
  refine BodyM.advancing_bind (BodyM.advancing_lift ClassM.advancing_symbols) fun _ => ?_
  refine BodyM.advancing_bind (BodyM.advancing_lift ?_) fun _ => BodyM.advancing_emit _
  exact ClassM.advancing_onResolver_field _ _ _

@[simp] theorem advancing_typePair : ClassM.Advancing (typePair i) := by
  simp [typePair]

@[simp] theorem advancing_emitRelation (rel : Relation) (next : Following) :
    Advancing (emitRelation rel i next) := by
  unfold emitRelation
  refine BodyM.advancing_bind (BodyM.advancing_lift (advancing_typePair i)) ?_
  simp

@[simp] theorem advancing_emitFinallyStart : Advancing (emitFinallyStart f i) := by
  unfold emitFinallyStart
  refine BodyM.advancing_bind BodyM.advancing_read ?_
  intro env
  split <;> simp

@[simp] theorem advancing_emitFinallyEnd : Advancing (emitFinallyEnd f i) := by
  unfold emitFinallyEnd
  refine BodyM.advancing_bind BodyM.advancing_read ?_
  intro env
  split
  · simp
  · refine BodyM.advancing_bind BodyM.advancing_get ?_
    intro s
    dsimp only
    split
    · simp
    · refine BodyM.advancing_bind (BodyM.advancing_modify _) ?_
      intro _
      split <;> simp

@[simp] theorem advancing_emitJumpFinally : Advancing (emitJumpFinally (noCopy f) i) := by
  unfold emitJumpFinally
  refine BodyM.advancing_bind BodyM.advancing_read ?_
  intro env
  split
  · simp
  · simp [noCopy]

theorem advancing_emitInstr (next : Following) : Advancing (emitInstr f (noCopy f) i next) := by
  unfold emitInstr
  cases i.op with
  | catchErrStart =>
    refine BodyM.advancing_bind (BodyM.advancing_emit _) ?_
    simp
  | coerce =>
    refine BodyM.advancing_bind (BodyM.advancing_lift (advancing_typePair i)) ?_
    simp
  | compare =>
    refine BodyM.advancing_bind (BodyM.advancing_lift (advancing_typePair i)) ?_
    simp
  | _ => simp

end Instr

section Body

open OpenClass (Advances)

variable {env : ClassEnv} {f : Frame} {c c₁ c' : OpenClass}

theorem Emits.advances {i : Instr} {next : Following} {e e' : EmitState} {fused : Bool}
    {its : List (Item UInt16)} (h : Emits env f i next e fused its e') :
    Advances env e.cls e'.cls :=
  advancing_emitInstr f i next _ _ _ _ _ _ h

theorem Later.advances (h : Later env f c c') : Advances env c c' := by
  induction h with
  | refl => exact .refl _
  | tail _ hstep ih =>
    obtain ⟨i, next, slots, fused, its, slots', hstep⟩ := hstep
    exact ih.trans hstep.advances

theorem Item.Interned.advances {is : List (Item Ref)} {js : List (Item UInt16)}
    (h : Item.Interned env c is js c') : Advances env c c' := by
  induction h with
  | nil => exact .refl _
  | cons hj _ ih => exact (ClassM.advancing_item _ _ _ _ _ hj).trans ih

theorem advancing_catchTypes (t : TypeRef) : ClassM.Advancing (Protection.catchTypes t) := by
  unfold Protection.catchTypes
  dsimp only
  split <;> split <;> simp

theorem advancing_ofEntry (r : Relocation) (method : String) (scope : Nat) (e : Pod.ErrEntry) :
    ClassM.Advancing (Protection.ofEntry r method scope e) := by
  unfold Protection.ofEntry
  refine ClassM.advancing_bind (ClassM.advancing_ofExcept _) fun _ => ?_
  refine ClassM.advancing_bind (ClassM.advancing_ofExcept _) fun _ => ?_
  refine ClassM.advancing_bind (ClassM.advancing_ofExcept _) fun _ => ?_
  refine ClassM.advancing_bind (ClassM.advancing_typeRef _) fun t => ?_
  exact ClassM.advancing_bind (advancing_catchTypes t) fun _ => ClassM.advancing_pure _

theorem advancing_table (r : Relocation) (method : String) (es : List Pod.ErrEntry) :
    ClassM.Advancing (Protection.table r method es) := by
  unfold Protection.table
  refine ClassM.advancing_bind (ClassM.advancing_mapM ?_ _) fun _ => ClassM.advancing_pure _
  intro scope
  exact ClassM.advancing_mapM (advancing_ofEntry r method scope) _

theorem advancing_ofFormat {α : Type} (x : Except Pod.FormatError α) :
    ClassM.Advancing (ClassM.ofFormat x) := by
  intro env c a c' h
  cases x with
  | ok b =>
    obtain ⟨-, rfl⟩ := ClassM.pure_eq_ok.mp h
    exact .refl _
  | error e => cases h

theorem emitBody_advances {code : Bytes} {body : BodyState}
    (h : emitBody f code {} env c = .ok ((), body) c') : Advances env c c' := by
  obtain ⟨instrs, its, -, hder, -⟩ := items_of_emitBody h
  exact hder.later.advances

theorem placeCode_advances {code : Bytes} {out : ClassFile.CodeBuffer} {p : PlacedCode}
    (h : placeCode f code out env c = .ok p c') : Advances env c c' := by
  obtain ⟨body, hbody, -⟩ := placeCode_eq_ok h
  exact emitBody_advances hbody

-- The tables of a method only add to its class.
theorem lowerCode_advances {code : Bytes} {attrs : Pod.Attributes} {out : ClassFile.CodeBuffer}
    {mc : MethodCode} {p : PlacedCode} (h : lowerCode f code attrs out env c = .ok mc c')
    (hp : placeCode f code out env c = .ok p c₁) : Advances env c₁ c' := by
  unfold lowerCode at h
  rw [ClassM.run_bind, hp] at h
  refine ClassM.advancing_bind (advancing_ofFormat _) ?_ _ _ _ _ h
  intro errs
  refine ClassM.advancing_bind (advancing_table _ _ _) ?_
  intro exceptions
  refine ClassM.advancing_bind ClassM.advancing_read ?_
  intro env'
  dsimp only
  split
  · exact ClassM.advancing_bind (advancing_ofFormat _) fun _ => ClassM.advancing_ofExcept _
  · exact ClassM.advancing_ofExcept _

end Body

end PodCompiler.Lowering
