import PodCompiler.Proofs.Lowering.LocalSlots
import PodCompiler.Proofs.Lowering.UncheckedFinally

namespace PodCompiler.Lowering

namespace ClassM

variable {α β : Type}

-- A step that never fails for want of slots.
def Calm (m : ClassM α) : Prop :=
  ∀ env c c', m env c ≠ .error .overflow c'

@[simp] theorem calm_pure (a : α) : Calm (pure a) := by
  intro env c c' h
  cases h

@[simp] theorem calm_bind {m : ClassM α} {k : α → ClassM β} (hm : Calm m) (hk : ∀ a, Calm (k a)) :
    Calm (m >>= k) := by
  intro env c c' h
  rw [run_bind] at h
  split at h
  · exact hk _ _ _ _ h
  · rename_i e c₁ hrun
    cases h
    exact hm _ _ _ hrun

-- What fails for want of slots behind such a step is the next one.
theorem bind_eq_overflow {m : ClassM α} {k : α → ClassM β} {env : ClassEnv}
    {c c' : OpenClass} (hm : Calm m) (h : (m >>= k) env c = .error .overflow c') :
    ∃ a c₁, k a env c₁ = .error .overflow c' := by
  rw [run_bind] at h
  split at h
  · exact ⟨_, _, h⟩
  · rename_i e c₁ hrun
    cases h
    exact absurd hrun (hm _ _ _)

@[simp] theorem calm_map {m : ClassM α} (hm : Calm m) (g : α → β) : Calm (g <$> m) := by
  rw [map_eq_pure_bind]
  exact calm_bind hm fun _ => calm_pure _

@[simp] theorem calm_ofExcept {x : Except LoweringError α} (hx : x ≠ .error .overflow) :
    Calm (ofExcept x) := by
  intro env c c' h
  cases x with
  | ok a => cases h
  | error e =>
    cases h
    exact hx rfl

theorem ofExcept_eq_error {x : Except LoweringError α} {e : LoweringError} {env : ClassEnv}
    {c c' : OpenClass} (h : (ofExcept x : ClassM α) env c = .error e c') : x = .error e := by
  cases x <;> cases h
  rfl

@[simp] theorem calm_ofFormat (x : Except Pod.FormatError α) : Calm (ofFormat x) := by
  intro env c c' h
  cases x <;> cases h

@[simp] theorem calm_read : Calm (read : ClassM ClassEnv) := by
  intro env c c' h
  cases h

@[simp] theorem calm_get : Calm (get : ClassM OpenClass) := by
  intro env c c' h
  cases h

@[simp] theorem calm_mapM {g : α → ClassM β} {xs : List α} (hg : ∀ x ∈ xs, Calm (g x)) :
    Calm (xs.mapM g) := by
  induction xs with
  | nil => exact calm_pure _
  | cons x xs ih =>
    rw [List.mapM_cons]
    rw [List.forall_mem_cons] at hg
    exact calm_bind hg.1 fun _ => calm_bind (ih hg.2) fun _ => calm_pure _

@[simp] theorem calm_onDraft (m : ClassFile.DraftM α) : Calm (onDraft m) := by
  rintro env ⟨draft, resolver, literals⟩ c' h
  unfold onDraft at h
  dsimp only at h
  split at h <;> cases h

@[simp] theorem calm_onPool (m : ClassFile.PoolM α) : Calm (onPool m) :=
  calm_onDraft _

@[simp] theorem calm_onResolver {m : ResolverM α} (hm : ∀ r r', m r ≠ .error .overflow r') :
    Calm (onResolver m) := by
  rintro env ⟨draft, resolver, literals⟩ c' h
  unfold onResolver at h
  dsimp only at h
  split at h
  · cases h
  · rename_i e r' hrun
    cases h
    exact hm _ _ hrun

@[simp] theorem calm_symbols : Calm symbols :=
  calm_bind calm_read fun _ => calm_pure _

@[simp] theorem calm_className : Calm className :=
  calm_bind calm_get fun _ => calm_pure _

end ClassM

-- What can go wrong with references, literals and conversions is not a want of slots.
@[simp] theorem typeRefAt_ne_overflow (s : Pod.Symbols) (i : UInt16) :
    typeRefAt s i ≠ .error .overflow := by
  unfold typeRefAt
  split <;> simp

@[simp] theorem fieldRefAt_ne_overflow (s : Pod.Symbols) (i : UInt16) :
    fieldRefAt s i ≠ .error .overflow := by
  unfold fieldRefAt
  split <;> simp

@[simp] theorem methodRefAt_ne_overflow (s : Pod.Symbols) (i : UInt16) :
    methodRefAt s i ≠ .error .overflow := by
  unfold methodRefAt
  split <;> simp

@[simp] theorem literalRef_ne_overflow (pod : Pod) (kind : Pod.LiteralKind) (i : UInt16) :
    literalRef pod kind i ≠ .error .overflow := by
  unfold literalRef
  dsimp only
  split <;> simp

@[simp] theorem variableOf_ne_overflow (f : Frame) (i : Instr) :
    variableOf f i ≠ .error .overflow := by
  unfold variableOf
  split <;> simp [badOperand]

@[simp] theorem finallyEnd_ne_overflow (method : String) (code : Bytes) (i : Instr) :
    finallyEnd method code i ≠ .error .overflow := by
  unfold finallyEnd
  dsimp only
  repeat' split
  all_goals simp

@[simp] theorem box_ne_overflow (t : StackType) : Conversion.box t ≠ .error .overflow := by
  unfold Conversion.box
  split <;> simp

@[simp] theorem unbox_ne_overflow (t : StackType) : Conversion.unbox t ≠ .error .overflow := by
  unfold Conversion.unbox
  split <;> simp

@[simp] theorem cast_ne_overflow (t : TypeRef) : Conversion.cast t ≠ .error .overflow := by
  unfold Conversion.cast
  split <;> simp

section Except

variable {α β : Type} {x : Except LoweringError α} {k : α → Except LoweringError β}
  {g : α → Except LoweringError β} {xs : List α}

@[simp] theorem except_pure_ne_overflow (a : α) :
    (pure a : Except LoweringError α) ≠ .error .overflow := by
  intro h
  cases h

theorem except_bind_ne_overflow (hx : x ≠ .error .overflow) (hk : ∀ a, k a ≠ .error .overflow) :
    (x >>= k) ≠ .error .overflow := by
  cases x with
  | ok a => exact hk a
  | error e =>
    intro h
    cases h
    exact hx rfl

theorem except_mapM_ne_overflow (hg : ∀ x, g x ≠ .error .overflow) :
    xs.mapM g ≠ .error .overflow := by
  induction xs with
  | nil => exact except_pure_ne_overflow _
  | cons x xs ih =>
    rw [List.mapM_cons]
    exact except_bind_ne_overflow (hg x) fun _ =>
      except_bind_ne_overflow ih fun _ => except_pure_ne_overflow _

end Except

@[simp] theorem coerce_ne_overflow (source target : TypeRef) :
    Conversion.coerce source target ≠ .error .overflow := by
  unfold Conversion.coerce
  dsimp only
  split
  · simp
  · simp
  · simp
  · exact box_ne_overflow _
  · exact except_bind_ne_overflow (unbox_ne_overflow _) fun _ => except_pure_ne_overflow _
  · split
    · simp
    · split <;> simp

namespace Resolver

variable (s : Pod.Symbols) (i : UInt16)

theorem invoke_ne_overflow (kind : CallKind) (parent : TypeRef) (name : String)
    (params : List TypeRef) (ret : TypeRef) :
    invoke kind parent name params ret ≠ .error .overflow := by
  unfold invoke
  cases kind with
  | ctor | virtual | mixinVirtual =>
    dsimp only
    split <;> (intro h; cases h)
  | _ =>
    intro h
    cases h

theorem computeCall_ne_overflow (kind : CallKind) : computeCall s i kind ≠ .error .overflow := by
  refine except_bind_ne_overflow (methodRefAt_ne_overflow s i) fun m => ?_
  refine except_bind_ne_overflow (typeRefAt_ne_overflow s _) fun parent => ?_
  split
  · exact except_pure_ne_overflow _
  · refine except_bind_ne_overflow (except_mapM_ne_overflow (typeRefAt_ne_overflow s))
      fun params => ?_
    refine except_bind_ne_overflow (typeRefAt_ne_overflow s _) fun ret => ?_
    rw [map_eq_pure_bind]
    exact except_bind_ne_overflow (invoke_ne_overflow _ _ _ _ _) fun _ => except_pure_ne_overflow _

theorem computeField_ne_overflow (mixin : Bool) : computeField s i mixin ≠ .error .overflow := by
  refine except_bind_ne_overflow (fieldRefAt_ne_overflow s i) fun f => ?_
  refine except_bind_ne_overflow (typeRefAt_ne_overflow s _) fun parent => ?_
  exact except_bind_ne_overflow (typeRefAt_ne_overflow s _) fun _ => except_pure_ne_overflow _

theorem call_ne_overflow (kind : CallKind) (r r' : Resolver) :
    call s i kind r ≠ .error .overflow r' := by
  unfold call
  split
  · simp
  · split
    · simp
    · rename_i e he
      intro h
      cases h
      exact computeCall_ne_overflow s i kind he

theorem field_ne_overflow (mixin : Bool) (r r' : Resolver) :
    field s i mixin r ≠ .error .overflow r' := by
  unfold field
  split
  · simp
  · split
    · simp
    · rename_i e he
      intro h
      cases h
      exact computeField_ne_overflow s i mixin he

end Resolver

@[simp] theorem ClassM.calm_typeRef (i : UInt16) : Calm (typeRef i) :=
  calm_bind calm_symbols fun _ => calm_ofExcept (typeRefAt_ne_overflow _ _)

@[simp] theorem calm_literalIndex (sig : String) : ClassM.Calm (literalIndex sig) := by
  intro env c c' h
  rw [ClassM.literalIndex_eq] at h
  split at h <;> cases h

@[simp] theorem calm_typePair (i : Instr) : ClassM.Calm (typePair i) :=
  ClassM.calm_bind (ClassM.calm_typeRef _) fun _ =>
    ClassM.calm_bind (ClassM.calm_typeRef _) fun _ => ClassM.calm_pure _

@[simp] theorem calm_intern (r : Ref) : ClassM.Calm r.intern := by
  cases r with
  | typeLiteral sig =>
    refine ClassM.calm_bind (ClassM.calm_bind (calm_literalIndex _) fun _ => ?_) fun _ =>
      ClassM.calm_onPool _
    exact ClassM.calm_bind ClassM.calm_className fun _ => ClassM.calm_pure _
  | _ => exact ClassM.calm_onPool _

theorem calm_item (x : Item Ref) : ClassM.Calm (x.mapM Ref.intern) := by
  cases x <;> simp [Item.mapM]

namespace Protection

@[simp] theorem position_ne_overflow (r : Relocation) (method : String) (scope : Nat)
    (pos : UInt16) : position r method scope pos ≠ .error .overflow := by
  unfold position
  split <;> simp

@[simp] theorem calm_catchTypes (t : TypeRef) : ClassM.Calm (catchTypes t) := by
  unfold catchTypes
  dsimp only
  split <;> split <;> simp

theorem calm_ofEntry (r : Relocation) (method : String) (scope : Nat) (e : Pod.ErrEntry) :
    ClassM.Calm (ofEntry r method scope e) := by
  have hposition := fun pos => ClassM.calm_ofExcept (position_ne_overflow r method scope pos)
  refine ClassM.calm_bind (hposition _) fun start => ClassM.calm_bind (hposition _) fun stop => ?_
  refine ClassM.calm_bind (hposition _) fun handler => ?_
  refine ClassM.calm_bind (ClassM.calm_typeRef _) fun t => ?_
  exact ClassM.calm_bind (calm_catchTypes t) fun _ => ClassM.calm_pure _

theorem calm_table (r : Relocation) (method : String) (es : List Pod.ErrEntry) :
    ClassM.Calm (table r method es) :=
  ClassM.calm_bind (ClassM.calm_mapM fun _ _ => ClassM.calm_mapM fun e _ => calm_ofEntry _ _ _ e)
    fun _ => ClassM.calm_pure _

end Protection

namespace BodyM

variable {α β : Type}

-- A step of a body that leaves the slots alone, and does not fail for want of them.
def Calm (m : BodyM α) : Prop :=
  ∀ s env c,
    match m s env c with
    | .ok (_, s') _ => s'.finallies = s.finallies
    | .error e _ => e ≠ .overflow

@[simp] theorem calm_pure (a : α) : Calm (pure a) := by
  intro s env c
  exact rfl

@[simp] theorem calm_throw {e : LoweringError} (he : e ≠ .overflow) :
    Calm (throw e : BodyM α) := by
  intro s env c
  exact he

@[simp] theorem calm_read : Calm (read : BodyM ClassEnv) := by
  intro s env c
  exact rfl

@[simp] theorem calm_bind {m : BodyM α} {k : α → BodyM β} (hm : Calm m) (hk : ∀ a, Calm (k a)) :
    Calm (m >>= k) := by
  intro s env c
  have hfirst := hm s env c
  rw [run_bind]
  cases hrun : m s env c with
  | error e c' =>
    rw [hrun] at hfirst
    exact hfirst
  | ok r c' =>
    rw [hrun] at hfirst
    have hlast := hk r.1 r.2 env c'
    dsimp only
    cases hrun' : k r.1 r.2 env c' with
    | error e c'' =>
      rw [hrun'] at hlast
      exact hlast
    | ok r' c'' =>
      rw [hrun'] at hlast
      exact hlast.trans hfirst

@[simp] theorem calm_map {m : BodyM α} (hm : Calm m) (g : α → β) : Calm (g <$> m) := by
  rw [map_eq_pure_bind]
  exact calm_bind hm fun _ => calm_pure _

@[simp] theorem calm_lift {x : ClassM α} (hx : ClassM.Calm x) : Calm (liftM x : BodyM α) := by
  intro s env c
  rw [run_lift]
  cases hrun : x env c with
  | ok a c' => rfl
  | error e c' =>
    rintro rfl
    exact hx _ _ _ hrun

@[simp] theorem calm_ofExcept {x : Except LoweringError α} (hx : x ≠ .error .overflow) :
    Calm (ofExcept x : BodyM α) := by
  cases x with
  | ok a => exact calm_pure a
  | error e => exact calm_throw fun he => hx (he ▸ rfl)

@[simp] theorem calm_emit (items : List (Item Ref)) : Calm (emit items) := by
  induction items with
  | nil => exact calm_pure ()
  | cons x rest ih =>
    unfold emit
    refine calm_bind (calm_lift (calm_item x)) fun _ => calm_bind ?_ fun _ => ih
    intro s env c
    exact rfl

@[simp] theorem calm_emitOk {x : Except LoweringError (List (Item Ref))}
    (hx : x ≠ .error .overflow) : Calm (emitOk x) := by
  unfold emitOk
  exact calm_bind (calm_ofExcept hx) fun _ => calm_emit _

end BodyM

section Instructions

variable (f : Frame) (i : Instr)

@[simp] theorem calm_plain (items : List (Item Ref)) : BodyM.Calm (plain items) := by
  simp [plain]

@[simp] theorem calm_emitCompared (c : Compared) : BodyM.Calm (emitCompared c) := by
  simp [emitCompared]

theorem calm_emitLiteral (kind : Pod.LiteralKind) : BodyM.Calm (emitLiteral kind i) := by
  refine BodyM.calm_bind BodyM.calm_read fun env => ?_
  exact BodyM.calm_bind (BodyM.calm_ofExcept (literalRef_ne_overflow _ _ _)) fun _ =>
    BodyM.calm_emit _

theorem calm_emitCall (kind : CallKind) : BodyM.Calm (emitCall kind i) := by
  refine BodyM.calm_bind (BodyM.calm_lift ClassM.calm_symbols) fun s => ?_
  have hcall := ClassM.calm_onResolver (Resolver.call_ne_overflow s i.arg kind)
  exact BodyM.calm_bind (BodyM.calm_lift hcall) fun _ => BodyM.calm_emit _

theorem calm_emitField (op : UInt8) (mixin : Bool) : BodyM.Calm (emitField op i mixin) := by
  refine BodyM.calm_bind (BodyM.calm_lift ClassM.calm_symbols) fun s => ?_
  have hfield := ClassM.calm_onResolver (Resolver.field_ne_overflow s i.arg mixin)
  exact BodyM.calm_bind (BodyM.calm_lift hfield) fun _ => BodyM.calm_emit _

@[simp] theorem calm_emitRelation (rel : Relation) (next : Following) :
    BodyM.Calm (emitRelation rel i next) := by
  simp [emitRelation]

-- So it is with all instructions but those of finally blocks.
theorem calm_emitInstr {copy : Instr → BodyM Unit} {next : Following} {i : Instr}
    (hop : isFinally i.op = false) : BodyM.Calm (emitInstr f copy i next) := by
  have hfalse : ∀ {m : BodyM Unit}, BodyM.Calm m → BodyM.Calm (m >>= fun _ => pure false) :=
    fun hm => BodyM.calm_bind hm fun _ => BodyM.calm_pure _
  have hcast : BodyM.Calm (do
      BodyM.emitOk (Conversion.cast (← liftM (ClassM.typeRef i.arg)))
      return false) :=
    BodyM.calm_bind (BodyM.calm_lift (ClassM.calm_typeRef _)) fun t =>
      hfalse (BodyM.calm_emitOk (cast_ne_overflow t))
  unfold emitInstr
  cases h : i.op <;> rw [h] at hop
  case jumpFinally | finallyStart | finallyEnd => cases hop
  case loadInt | loadFloat | loadDecimal | loadStr | loadDuration | loadUri =>
    exact hfalse (calm_emitLiteral i _)
  case loadInstance | storeInstance | loadStatic | storeStatic | loadMixinStatic |
      storeMixinStatic => exact hfalse (calm_emitField i _ _)
  case callNew | callCtor | callStatic | callVirtual | callNonVirtual | callMixinStatic |
      callMixinVirtual | callMixinNonVirtual => exact hfalse (calm_emitCall i _)
  case cast => exact hcast
  case catchErrStart => exact BodyM.calm_bind (BodyM.calm_emit _) fun _ => hcast
  case coerce =>
    exact BodyM.calm_bind (BodyM.calm_lift (calm_typePair i)) fun p =>
      hfalse (BodyM.calm_emitOk (coerce_ne_overflow p.1 p.2))
  all_goals simp

end Instructions

namespace BodyM

variable {α β : Type} {env : ClassEnv} {I : FinallySlots → Prop} {O : Prop} {m : BodyM α}

-- A step that keeps what holds of the slots, and that fails for want of them only if `O` holds.
def Keeps (env : ClassEnv) (I : FinallySlots → Prop) (O : Prop) (m : BodyM α) : Prop :=
  ∀ s c, I s.finallies →
    match m s env c with
    | .ok (_, s') _ => I s'.finallies
    | .error e _ => e = .overflow → O

theorem Calm.keeps (h : Calm m) : Keeps env I O m := by
  intro s c hs
  have hrun := h s env c
  cases hm : m s env c with
  | error e c' =>
    rw [hm] at hrun
    exact fun he => absurd he hrun
  | ok r c' =>
    rw [hm] at hrun
    dsimp only at hrun ⊢
    rwa [hrun]

theorem keeps_bind {k : α → BodyM β} (hm : Keeps env I O m) (hk : ∀ a, Keeps env I O (k a)) :
    Keeps env I O (m >>= k) := by
  intro s c hs
  have hfirst := hm s c hs
  rw [run_bind]
  cases hrun : m s env c with
  | error e c' =>
    rw [hrun] at hfirst
    exact hfirst
  | ok r c' =>
    rw [hrun] at hfirst
    exact hk r.1 r.2 c' hfirst

theorem keeps_ofExcept {x : Except LoweringError α} {k : α → BodyM β} (hx : x ≠ .error .overflow)
    (hk : ∀ a, x = .ok a → Keeps env I O (k a)) : Keeps env I O (ofExcept x >>= k) := by
  cases x with
  | ok a => exact hk a rfl
  | error e => exact (calm_throw fun he => hx (he ▸ rfl)).keeps

theorem keeps_read {k : ClassEnv → BodyM β} (hk : Keeps env I O (k env)) :
    Keeps env I O (read >>= k) := by
  intro s c hs
  rw [run_bind]
  exact hk s c hs

theorem keeps_get {k : BodyState → BodyM β} (hk : ∀ s, Keeps env I O (k s)) :
    Keeps env I O (get >>= k) := by
  intro s c hs
  rw [run_bind]
  exact hk s s c hs

theorem keeps_modify {g : BodyState → BodyState} (hg : ∀ s, I s.finallies → I (g s).finallies) :
    Keeps env I O (modify g) :=
  fun s _ hs => hg s hs

theorem keeps_slots {m : FinallySlots → Except LoweringError (α × FinallySlots)}
    (hok : ∀ fs a fs', I fs → m fs = .ok (a, fs') → I fs')
    (hover : ∀ fs, I fs → m fs = .error .overflow → O) : Keeps env I O (slots m) := by
  intro s c hs
  rw [run_slots]
  cases hm : m s.finallies with
  | error e =>
    intro he
    exact hover _ hs (he ▸ hm)
  | ok r => exact hok _ r.1 r.2 hs hm

end BodyM

section Keeps

variable {env : ClassEnv} {I : FinallySlots → Prop} {O : Prop} {f : Frame} {i : Instr}
  {copy : Instr → BodyM Unit} {code : Bytes}

-- Where blocks are copied, the start of one asks for the slot of the block, and the end for none.
theorem keeps_emitFinallyStart (hinline : env.config.finallyStrategy = .inline)
    (hpending : ∀ fs pending, I fs → I { fs with pending })
    (hok : ∀ fs slot fs', I fs → fs.forBlock f i.pos = .ok (slot, fs') → I fs')
    (hover : ∀ fs, I fs → fs.forBlock f i.pos = .error .overflow → O) :
    BodyM.Keeps env I O (emitFinallyStart f i) := by
  refine BodyM.keeps_read ?_
  rw [hinline]
  refine BodyM.keeps_bind (BodyM.keeps_slots hok hover) fun slot => ?_
  refine BodyM.keeps_bind (BodyM.keeps_modify fun s hs => hpending _ _ hs) fun _ => ?_
  exact (BodyM.calm_emit _).keeps

theorem keeps_emitFinallyEnd (hinline : env.config.finallyStrategy = .inline)
    (hpending : ∀ fs pending, I fs → I { fs with pending }) :
    BodyM.Keeps env I O (emitFinallyEnd f i) := by
  refine BodyM.keeps_read ?_
  rw [hinline]
  refine BodyM.keeps_get fun s => ?_
  dsimp only
  split
  · exact (BodyM.calm_throw (by simp [badOperand])).keeps
  · refine BodyM.keeps_bind (BodyM.keeps_modify fun s hs => hpending _ _ hs) fun _ => ?_
    split
    · exact (BodyM.calm_throw (by simp)).keeps
    · exact (BodyM.calm_emit _).keeps

-- Where they are called, both ask for the two slots of the subroutines.
theorem keeps_subroutine (copy : Instr → BodyM Unit)
    (hcalls : env.config.finallyStrategy = .subroutine)
    (hok : ∀ fs slots fs', I fs → fs.forSubroutine f = .ok (slots, fs') → I fs')
    (hover : ∀ fs, I fs → fs.forSubroutine f = .error .overflow → O) :
    BodyM.Keeps env I O (emitFinallyStart f i) ∧ BodyM.Keeps env I O (emitFinallyEnd f i) ∧
      BodyM.Keeps env I O (emitJumpFinally copy i) := by
  refine ⟨BodyM.keeps_read ?_, BodyM.keeps_read ?_, BodyM.keeps_read ?_⟩
  all_goals rw [hcalls]
  · exact BodyM.keeps_bind (BodyM.keeps_slots hok hover) fun _ => (BodyM.calm_emit _).keeps
  · exact BodyM.keeps_bind (BodyM.keeps_slots hok hover) fun _ => (BodyM.calm_emit _).keeps
  · exact (BodyM.calm_emit _).keeps

-- An instruction keeps what those of finally blocks keep.
theorem keeps_emitInstr {next : Following}
    (hstart : i.op = .finallyStart → BodyM.Keeps env I O (emitFinallyStart f i))
    (hend : i.op = .finallyEnd → BodyM.Keeps env I O (emitFinallyEnd f i))
    (hjump : i.op = .jumpFinally → BodyM.Keeps env I O (emitJumpFinally copy i)) :
    BodyM.Keeps env I O (emitInstr f copy i next) := by
  have hfalse : ∀ {m : BodyM Unit}, BodyM.Keeps env I O m →
      BodyM.Keeps env I O (m >>= fun _ => pure false) :=
    fun hm => BodyM.keeps_bind hm fun _ => (BodyM.calm_pure _).keeps
  by_cases hfinally : isFinally i.op = true
  · simp only [isFinally, Bool.or_eq_true, decide_eq_true_eq] at hfinally
    unfold emitInstr
    obtain (hop | hop) | hop := hfinally <;> rw [hop]
    · exact hfalse (hjump hop)
    · exact hfalse (hstart hop)
    · exact hfalse (hend hop)
  · exact (calm_emitInstr f (Bool.eq_false_iff.mpr hfinally)).keeps

theorem keeps_emitFault (fault : Option DecodeFault) :
    BodyM.Keeps env I O (emitFault f fault) := by
  cases fault with
  | none => exact (BodyM.calm_pure ()).keeps
  | some fault =>
    refine (BodyM.calm_throw ?_).keeps
    unfold faultError
    split <;> simp

theorem keeps_emitInstrs {fault : Option DecodeFault} {instrs : List Instr}
    (h : ∀ i ∈ instrs, ∀ next, BodyM.Keeps env I O (emitInstr f copy i next)) :
    BodyM.Keeps env I O (emitInstrs f copy fault instrs) := by
  induction instrs using emitInstrs.induct with
  | case1 => exact keeps_emitFault fault
  | case2 i =>
    rw [emitInstrs]
    refine BodyM.keeps_bind (BodyM.calm_emit _).keeps fun _ => ?_
    exact BodyM.keeps_bind (h i List.mem_cons_self _) fun _ => keeps_emitFault fault
  | case3 i j rest ih ih' =>
    obtain ⟨hi, hrest⟩ := List.forall_mem_cons.mp h
    rw [emitInstrs]
    refine BodyM.keeps_bind (BodyM.calm_emit _).keeps fun _ => ?_
    refine BodyM.keeps_bind (hi _) fun fused => ?_
    cases fused with
    | false => exact ih' hrest
    | true => exact ih (List.forall_mem_cons.mp hrest).2

end Keeps

end PodCompiler.Lowering
