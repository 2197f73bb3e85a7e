import PodCompiler.Proofs.Lowering.ClassSteps

namespace PodCompiler

-- A key that is new does not change what is there.
theorem getElem?_insert_of_new {κ ν : Type} [BEq κ] [LawfulBEq κ] [Hashable κ]
    {m : Std.HashMap κ ν} {key k : κ} {value v : ν} (hnew : m[key]? = none) (h : m[k]? = some v) :
    (m.insert key value)[k]? = some v := by
  rw [Std.HashMap.getElem?_insert]
  split
  · rename_i heq
    have heq : key = k := by simpa using heq
    rw [← heq, hnew] at h
    cases h
  · exact h

namespace ClassFile.Pool

variable {α β : Type}

-- A step that gives the same in each pool that has at least what there was behind it.
def Repeats (m : PoolM α) : Prop :=
  ∀ p a p', m p = .ok a p' → p.Grows p' ∧ ∀ q, p'.Grows q → ∃ q', m q = .ok a q'

theorem repeats_bind {m : PoolM α} {k : α → PoolM β} (hm : Repeats m) (hk : ∀ a, Repeats (k a)) :
    Repeats (m >>= k) := by
  intro p b p' h
  obtain ⟨a, p₁, ha, hb⟩ := bind_eq_ok.mp h
  obtain ⟨hgrows₁, hagain₁⟩ := hm p a p₁ ha
  obtain ⟨hgrows₂, hagain₂⟩ := hk a p₁ b p' hb
  refine ⟨hgrows₁.trans hgrows₂, ?_⟩
  intro q hq
  obtain ⟨q₁, hq₁⟩ := hagain₁ q (hgrows₂.trans hq)
  obtain ⟨q', hq'⟩ := hagain₂ q₁ (hq.trans (hm q a q₁ hq₁).1)
  exact ⟨q', bind_eq_ok.mpr ⟨a, q₁, hq₁, hq'⟩⟩

theorem repeats_throw (e : ClassError) : Repeats (throw e : PoolM α) := by
  intro p a p' h
  cases h

-- A constant keeps its index.
theorem repeats_add (c : Constant) : Repeats (add c) := by
  intro p i p' h
  unfold add at h
  have hfound : ∀ {q : Pool} {j : UInt16}, q.index[c]? = some j → add c q = .ok j q := by
    intro q j hj
    unfold add
    rw [hj]
  split at h
  · rename_i j hj
    cases h
    exact ⟨.refl p, fun q hq => ⟨q, hfound (hq c i hj)⟩⟩
  · rename_i hnew
    split at h
    · cases h
      refine ⟨fun d j hd => getElem?_insert_of_new hnew hd, ?_⟩
      intro q hq
      exact ⟨q, hfound (hq c _ (by simp))⟩
    · cases h

theorem repeats_class (name : String) : Repeats (class_ name) :=
  repeats_bind (repeats_add _) fun _ => repeats_add _

theorem repeats_string (text : String) : Repeats (string text) :=
  repeats_bind (repeats_add _) fun _ => repeats_add _

theorem repeats_member (mk : UInt16 → UInt16 → Constant) (m : Except ClassError Member) :
    Repeats (member mk m) := by
  unfold member
  split
  · exact repeats_throw _
  · exact repeats_bind (repeats_class _) fun _ =>
      repeats_bind (repeats_bind (repeats_add _) fun _ =>
        repeats_bind (repeats_add _) fun _ => repeats_add _) fun _ => repeats_add _

end ClassFile.Pool

namespace Lowering

open ClassFile (Pool)

-- A class that holds at least what another one does, which has the same name.
structure OpenClass.Below (c c' : OpenClass) : Prop where
  pool : c.draft.pool.Grows c'.draft.pool
  name : c'.draft.name = c.draft.name
  literals : c.literals.toList <+: c'.literals.toList
  calls : ∀ (key : UInt16 × CallKind) call,
    c.resolver.calls[key]? = some call → c'.resolver.calls[key]? = some call
  fields : ∀ (key : UInt16 × Bool) sig,
    c.resolver.fields[key]? = some sig → c'.resolver.fields[key]? = some sig

namespace OpenClass.Below

variable {c c₁ c' : OpenClass}

theorem refl (c : OpenClass) : c.Below c :=
  ⟨.refl _, rfl, List.prefix_rfl, fun _ _ h => h, fun _ _ h => h⟩

theorem trans (h : c.Below c₁) (h' : c₁.Below c') : c.Below c' where
  pool := h.pool.trans h'.pool
  name := h'.name.trans h.name
  literals := h.literals.trans h'.literals
  calls key call hcall := h'.calls key call (h.calls key call hcall)
  fields key sig hsig := h'.fields key sig (h.fields key sig hsig)

end OpenClass.Below

namespace ClassM

variable {α β : Type}

-- A step that gives the same in each class that holds at least what there was behind it.
def Repeats (m : ClassM α) : Prop :=
  ∀ env c a c', m env c = .ok a c' → c.Below c' ∧ ∀ d, c'.Below d → ∃ d', m env d = .ok a d'

@[simp] theorem repeats_pure (a : α) : Repeats (pure a) := by
  intro env c b c' h
  obtain ⟨rfl, rfl⟩ := pure_eq_ok.mp h
  exact ⟨.refl _, fun d _ => ⟨d, rfl⟩⟩

@[simp] theorem repeats_bind {m : ClassM α} {k : α → ClassM β} (hm : Repeats m)
    (hk : ∀ a, Repeats (k a)) : Repeats (m >>= k) := by
  intro env c b c' h
  obtain ⟨a, c₁, ha, hb⟩ := bind_eq_ok.mp h
  obtain ⟨hbelow₁, hagain₁⟩ := hm env c a c₁ ha
  obtain ⟨hbelow₂, hagain₂⟩ := hk a env c₁ b c' hb
  refine ⟨hbelow₁.trans hbelow₂, ?_⟩
  intro d hd
  obtain ⟨d₁, hd₁⟩ := hagain₁ d (hbelow₂.trans hd)
  obtain ⟨d', hd'⟩ := hagain₂ d₁ (hd.trans (hm env d a d₁ hd₁).1)
  exact ⟨d', bind_eq_ok.mpr ⟨a, d₁, hd₁, hd'⟩⟩

@[simp] theorem repeats_map {m : ClassM α} (hm : Repeats m) (g : α → β) : Repeats (g <$> m) := by
  rw [map_eq_pure_bind]
  exact repeats_bind hm fun _ => repeats_pure _

@[simp] theorem repeats_ofExcept (x : Except LoweringError α) :
    Repeats (ofExcept x : ClassM α) := by
  intro env c a c' h
  obtain ⟨rfl, rfl⟩ := ofExcept_eq_ok.mp h
  exact ⟨.refl _, fun d _ => ⟨d, rfl⟩⟩

@[simp] theorem repeats_read : Repeats (read : ClassM ClassEnv) := by
  intro env c a c' h
  cases h
  exact ⟨.refl _, fun d _ => ⟨d, rfl⟩⟩

@[simp] theorem repeats_symbols : Repeats symbols :=
  repeats_bind repeats_read fun _ => repeats_pure _

@[simp] theorem repeats_typeRef (i : UInt16) : Repeats (typeRef i) :=
  repeats_bind repeats_symbols fun _ => repeats_ofExcept _

-- A class has one name.
@[simp] theorem repeats_className : Repeats className := by
  intro env c name c' h
  cases h
  refine ⟨.refl _, fun d hd => ⟨d, ?_⟩⟩
  change EStateM.Result.ok d.draft.name d = .ok c.draft.name d
  rw [hd.name]

theorem repeats_onPool {m : ClassFile.PoolM α} (hm : Pool.Repeats m) : Repeats (onPool m) := by
  intro env c a c' h
  obtain ⟨p, hp, rfl⟩ := onPool_eq_ok.mp h
  obtain ⟨hgrows, hagain⟩ := hm _ _ _ hp
  refine ⟨⟨hgrows, rfl, List.prefix_rfl, fun _ _ h => h, fun _ _ h => h⟩, ?_⟩
  intro d hd
  obtain ⟨q, hq⟩ := hagain _ hd.pool
  exact ⟨_, onPool_eq_ok.mpr ⟨q, hq, rfl⟩⟩

theorem literalIndex_eq (signature : String) (env : ClassEnv) (c : OpenClass) :
    literalIndex signature env c =
      match c.literals.toList.findIdx? (· = signature) with
      | some n => .ok n c
      | none => .ok c.literals.size { c with literals := c.literals.push signature } := by
  obtain ⟨draft, resolver, ⟨literals⟩⟩ := c
  unfold literalIndex
  dsimp only
  cases hfound : literals.findIdx? (· = signature) <;>
    simp only [List.findIdx?_toArray, hfound]

-- A type keeps its field: types are only added behind those that are there.
@[simp] theorem repeats_literalIndex (signature : String) : Repeats (literalIndex signature) := by
  have hfound : ∀ {env : ClassEnv} {c d : OpenClass} {n : Nat}, c.Below d →
      c.literals.toList.findIdx? (· = signature) = some n →
        literalIndex signature env d = .ok n d := by
    intro env c d n hd hn
    obtain ⟨more, hmore⟩ := hd.literals
    rw [literalIndex_eq, ← hmore, List.findIdx?_append, hn]
    rfl
  intro env c n c' h
  rw [literalIndex_eq] at h
  split at h
  · rename_i m hm
    cases h
    exact ⟨.refl _, fun d hd => ⟨d, hfound hd hm⟩⟩
  · rename_i hnew
    cases h
    refine ⟨⟨.refl _, rfl, by simp, fun _ _ h => h, fun _ _ h => h⟩, ?_⟩
    intro d hd
    refine ⟨d, hfound hd ?_⟩
    rw [Array.toList_push, List.findIdx?_append, hnew]
    simp

@[simp] theorem repeats_intern (r : Ref) : Repeats r.intern := by
  cases r with
  | class_ name => exact repeats_onPool (Pool.repeats_class name)
  | string text => exact repeats_onPool (Pool.repeats_string text)
  | field sig | method sig | interfaceMethod sig => exact repeats_onPool (Pool.repeats_member _ _)
  | typeLiteral signature =>
    refine repeats_bind (repeats_bind (repeats_literalIndex _) fun _ =>
      repeats_bind repeats_className fun _ => repeats_pure _) fun _ => ?_
    exact repeats_onPool (Pool.repeats_member _ _)

@[simp] theorem repeats_item (i : Item Ref) : Repeats (i.mapM Ref.intern) := by
  cases i <;> simp [Item.mapM]

-- A call that was resolved is kept.
@[simp] theorem repeats_onResolver_call (s : Pod.Symbols) (index : UInt16) (kind : CallKind) :
    Repeats (onResolver (Resolver.call s index kind)) := by
  have hfound : ∀ {env : ClassEnv} {d : OpenClass} {call : Call},
      d.resolver.calls[(index, kind)]? = some call →
        ∃ d', onResolver (Resolver.call s index kind) env d = .ok call d' := by
    intro env d call hcall
    unfold onResolver Resolver.call
    dsimp only
    rw [hcall]
    exact ⟨_, rfl⟩
  intro env c call c' h
  unfold onResolver Resolver.call at h
  dsimp only at h
  cases hkept : c.resolver.calls[(index, kind)]? with
  | some kept =>
    rw [hkept] at h
    cases h
    exact ⟨⟨.refl _, rfl, List.prefix_rfl, fun _ _ h => h, fun _ _ h => h⟩,
      fun d hd => hfound (hd.calls _ _ hkept)⟩
  | none =>
    rw [hkept] at h
    cases hcall : Resolver.computeCall s index kind with
    | error e =>
      rw [hcall] at h
      cases h
    | ok found =>
      rw [hcall] at h
      cases h
      refine ⟨⟨.refl _, rfl, List.prefix_rfl, ?_, fun _ _ h => h⟩,
        fun d hd => hfound (hd.calls _ _ (by simp))⟩
      exact fun key call' hcall' => getElem?_insert_of_new hkept hcall'

@[simp] theorem repeats_onResolver_field (s : Pod.Symbols) (index : UInt16) (mixin : Bool) :
    Repeats (onResolver (Resolver.field s index mixin)) := by
  have hfound : ∀ {env : ClassEnv} {d : OpenClass} {sig : String},
      d.resolver.fields[(index, mixin)]? = some sig →
        ∃ d', onResolver (Resolver.field s index mixin) env d = .ok sig d' := by
    intro env d sig hsig
    unfold onResolver Resolver.field
    dsimp only
    rw [hsig]
    exact ⟨_, rfl⟩
  intro env c sig c' h
  unfold onResolver Resolver.field at h
  dsimp only at h
  cases hkept : c.resolver.fields[(index, mixin)]? with
  | some kept =>
    rw [hkept] at h
    cases h
    exact ⟨.refl _, fun d hd => hfound (hd.fields _ _ hkept)⟩
  | none =>
    rw [hkept] at h
    cases hfield : Resolver.computeField s index mixin with
    | error e =>
      rw [hfield] at h
      cases h
    | ok found =>
      rw [hfield] at h
      cases h
      refine ⟨⟨.refl _, rfl, List.prefix_rfl, fun _ _ h => h, ?_⟩,
        fun d hd => hfound (hd.fields _ _ (by simp))⟩
      exact fun key sig' hsig' => getElem?_insert_of_new hkept hsig'

end ClassM

namespace BodyM

variable {α β : Type}

-- A step that leaves the slots of finally blocks alone and puts certain items, and puts them again
-- in each class that holds at least what there was behind it.
def Steady (m : BodyM α) : Prop :=
  ∀ s env c a s' c', m s env c = .ok (a, s') c' →
    ∃ its : List (Item UInt16), s' = { s with items := s.items ++ its.toArray } ∧ c.Below c' ∧
      ∀ t d, c'.Below d →
        ∃ d', m t env d = .ok (a, { t with items := t.items ++ its.toArray }) d'

@[simp] theorem steady_pure (a : α) : Steady (pure a) := by
  intro s env c b s' c' h
  obtain ⟨rfl, rfl, rfl⟩ := pure_eq_ok.mp h
  exact ⟨[], by simp, .refl _, fun t d _ => ⟨d, by simp [pure_eq_ok]⟩⟩

@[simp] theorem steady_throw (e : LoweringError) : Steady (throw e : BodyM α) := by
  intro s env c a s' c' h
  cases h

@[simp] theorem steady_bind {m : BodyM α} {k : α → BodyM β} (hm : Steady m)
    (hk : ∀ a, Steady (k a)) : Steady (m >>= k) := by
  intro s env c b s' c' h
  obtain ⟨a, s₁, c₁, ha, hb⟩ := bind_eq_ok.mp h
  obtain ⟨its₁, rfl, hbelow₁, hagain₁⟩ := hm s env c a s₁ c₁ ha
  obtain ⟨its₂, rfl, hbelow₂, hagain₂⟩ := hk a _ env c₁ b s' c' hb
  refine ⟨its₁ ++ its₂, by simp, hbelow₁.trans hbelow₂, ?_⟩
  intro t d hd
  obtain ⟨d₁, hd₁⟩ := hagain₁ t d (hbelow₂.trans hd)
  obtain ⟨-, -, hlater, -⟩ := hm _ _ _ _ _ _ hd₁
  obtain ⟨d', hd'⟩ := hagain₂ { t with items := t.items ++ its₁.toArray } d₁ (hd.trans hlater)
  exact ⟨d', bind_eq_ok.mpr ⟨a, _, d₁, hd₁, by simpa using hd'⟩⟩

@[simp] theorem steady_map {m : BodyM α} (hm : Steady m) (g : α → β) : Steady (g <$> m) := by
  rw [map_eq_pure_bind]
  exact steady_bind hm fun _ => steady_pure _

@[simp] theorem steady_lift {x : ClassM α} (hx : ClassM.Repeats x) :
    Steady (liftM x : BodyM α) := by
  intro s env c a s' c' h
  obtain ⟨ha, rfl⟩ := lift_eq_ok.mp h
  obtain ⟨hbelow, hagain⟩ := hx env c a c' ha
  refine ⟨[], by simp, hbelow, ?_⟩
  intro t d hd
  obtain ⟨d', hd'⟩ := hagain d hd
  exact ⟨d', lift_eq_ok.mpr ⟨hd', by simp⟩⟩

@[simp] theorem steady_ofExcept (x : Except LoweringError α) : Steady (ofExcept x : BodyM α) := by
  cases x with
  | ok a => exact steady_pure a
  | error e => exact steady_throw e

@[simp] theorem steady_read : Steady (read : BodyM ClassEnv) := by
  intro s env c a s' c' h
  obtain ⟨rfl, rfl, rfl⟩ := read_eq_ok.mp h
  exact ⟨[], by simp, .refl _, fun t d _ => ⟨d, by simp [read_eq_ok]⟩⟩

@[simp] theorem steady_emit (items : List (Item Ref)) : Steady (emit items) := by
  induction items with
  | nil => exact steady_pure ()
  | cons i rest ih =>
    unfold emit
    refine steady_bind (steady_lift (ClassM.repeats_item i)) fun j => steady_bind ?_ fun _ => ih
    intro s env c a s' c' h
    cases h
    exact ⟨[j], by simp, .refl _, fun t d _ => ⟨d, by simp; rfl⟩⟩

@[simp] theorem steady_emitOk (items : Except LoweringError (List (Item Ref))) :
    Steady (emitOk items) := by
  simp [emitOk]

end BodyM

section Instr

variable (f : Frame) (i : Instr)

@[simp] theorem steady_plain (items : List (Item Ref)) : BodyM.Steady (plain items) := by
  simp [plain]

@[simp] theorem steady_emitCompared (c : Compared) : BodyM.Steady (emitCompared c) := by
  simp [emitCompared]

@[simp] theorem steady_emitLiteral (kind : Pod.LiteralKind) :
    BodyM.Steady (emitLiteral kind i) := by
  simp [emitLiteral]

@[simp] theorem steady_emitCall (kind : CallKind) : BodyM.Steady (emitCall kind i) := by
  unfold emitCall
  refine BodyM.steady_bind (BodyM.steady_lift ClassM.repeats_symbols) ?_
  simp

@[simp] theorem steady_emitField (op : UInt8) (mixin : Bool) :
    BodyM.Steady (emitField op i mixin) := by
  unfold emitField
  refine BodyM.steady_bind (BodyM.steady_lift ClassM.repeats_symbols) ?_
  simp

@[simp] theorem repeats_typePair : ClassM.Repeats (typePair i) := by
  simp [typePair]

@[simp] theorem steady_emitRelation (rel : Relation) (next : Following) :
    BodyM.Steady (emitRelation rel i next) := by
  simp [emitRelation]

-- Only finally blocks have to do with slots.
theorem steady_emitInstr (copy : Instr → BodyM Unit) (next : Following)
    (hjump : i.op ≠ .jumpFinally) (hstart : i.op ≠ .finallyStart) (hend : i.op ≠ .finallyEnd) :
    BodyM.Steady (emitInstr f copy i next) := by
  unfold emitInstr
  cases hop : i.op with
  | jumpFinally => exact absurd hop hjump
  | finallyStart => exact absurd hop hstart
  | finallyEnd => exact absurd hop hend
  | catchErrStart =>
    refine BodyM.steady_bind (BodyM.steady_emit _) ?_
    simp
  | _ => simp

end Instr

-- A state of lowering with at least what another one holds. Which blocks are begun may differ.
structure EmitState.Below (e e' : EmitState) : Prop where
  cls : e.cls.Below e'.cls
  exceptions : ∀ (pos : Nat) slot,
    e.slots.exceptions[pos]? = some slot → e'.slots.exceptions[pos]? = some slot

theorem EmitState.Below.refl (e : EmitState) : e.Below e :=
  ⟨.refl _, fun _ _ h => h⟩

theorem EmitState.Below.trans {e e₁ e' : EmitState} (h : e.Below e₁) (h' : e₁.Below e') :
    e.Below e' :=
  ⟨h.cls.trans h'.cls, fun pos slot hslot => h'.exceptions pos slot (h.exceptions pos slot hslot)⟩

section Emits

variable {env : ClassEnv} {f : Frame} {i : Instr} {next : Following} {e e' d d' : EmitState}
  {fused fused' : Bool} {its its' : List (Item UInt16)}

-- A block keeps its slot.
theorem forBlock_eq_ok {pos : Nat} {slot : UInt16} {s s' : FinallySlots}
    (h : FinallySlots.forBlock f pos s = .ok (slot, s')) :
    s'.pending = s.pending ∧ s'.exceptions[pos]? = some slot ∧
      ∀ (p : Nat) slot', s.exceptions[p]? = some slot' → s'.exceptions[p]? = some slot' := by
  unfold FinallySlots.forBlock at h
  split at h
  · rename_i known hknown
    cases h
    exact ⟨rfl, hknown, fun _ _ h => h⟩
  · rename_i hnew
    obtain ⟨⟨slot', s₁⟩, halloc, h⟩ := except_bind_eq_ok.mp h
    cases h
    unfold FinallySlots.alloc at halloc
    dsimp only at halloc
    split at halloc
    · cases halloc
      exact ⟨rfl, by simp, fun p slot' hp => getElem?_insert_of_new hnew hp⟩
    · cases halloc

-- A slot is asked for without anything else.
theorem slots_eq_ok {m : FinallySlots → Except LoweringError (α × FinallySlots)} {a : α}
    {s s' : BodyState} {c c' : OpenClass} :
    BodyM.slots m s env c = .ok (a, s') c' ↔
      ∃ fs, m s.finallies = .ok (a, fs) ∧ s' = { s with finallies := fs } ∧ c' = c := by
  obtain ⟨items, finallies⟩ := s
  unfold BodyM.slots
  rw [ClassM.bind_eq_ok]
  constructor
  · rintro ⟨⟨b, fs⟩, c₁, hrun, h⟩
    obtain ⟨hm, rfl⟩ := ClassM.ofExcept_eq_ok.mp hrun
    cases h
    exact ⟨fs, hm, rfl, rfl⟩
  · rintro ⟨fs, hm, rfl, rfl⟩
    exact ⟨(a, fs), c', ClassM.ofExcept_eq_ok.mpr ⟨hm, rfl⟩, rfl⟩

-- What a step that takes no jump along comes to.
theorem Emits.run {m : BodyM Unit} (h : Emits env f i next e fused its e')
    (hm : emitInstr f (noCopy f) i next = m >>= fun _ => pure false) :
    fused = false ∧ ∃ s c, m ⟨#[], e.slots⟩ env e.cls = .ok ((), s) c ∧
      its = s.items.toList ∧ e'.slots = s.finallies ∧ e'.cls = c := by
  unfold Emits at h
  rw [hm] at h
  obtain ⟨_, s₁, c₁, hrun, hpure⟩ := BodyM.bind_eq_ok.mp h
  obtain ⟨rfl, rfl, rfl⟩ := BodyM.pure_eq_ok.mp hpure
  exact ⟨rfl, _, _, hrun, rfl, rfl, rfl⟩

-- The start of a block asks for the slot of the block.
theorem Emits.finallyStart_slot (h : Emits env f i next e fused its e')
    (hop : i.op = .finallyStart) (hinline : env.config.finallyStrategy = .inline) :
    fused = false ∧ e'.cls = e.cls ∧ ∃ slot fs, e.slots.forBlock f i.pos = .ok (slot, fs) ∧
      e'.slots = { fs with pending := i.pos :: fs.pending } ∧ its = [.store .obj slot] := by
  obtain ⟨rfl, s₁, c₁, h₁, rfl, hslots, hc⟩ := h.run (by unfold emitInstr; rw [hop])
  obtain ⟨env', s₂, c₂, h₂, hrun⟩ := BodyM.bind_eq_ok.mp h₁
  obtain ⟨rfl, rfl, rfl⟩ := BodyM.read_eq_ok.mp h₂
  rw [hinline] at hrun
  obtain ⟨slot, s₃, c₃, h₃, hrun⟩ := BodyM.bind_eq_ok.mp hrun
  obtain ⟨fs, hblock, rfl, rfl⟩ := slots_eq_ok.mp h₃
  obtain ⟨_, s₄, c₄, h₄, hemit⟩ := BodyM.bind_eq_ok.mp hrun
  cases h₄
  obtain ⟨js, hjs, rfl⟩ := BodyM.emit_eq_ok.mp hemit
  cases hjs with
  | cons hj hnil =>
    cases hj
    cases hnil
    exact ⟨rfl, hc, slot, fs, hblock, hslots, by simp⟩

-- It stores the exception there.
theorem Emits.finallyStart (h : Emits env f i next e fused its e') (hop : i.op = .finallyStart)
    (hinline : env.config.finallyStrategy = .inline) :
    fused = false ∧ e'.slots.pending = i.pos :: e.slots.pending ∧ e.Below e' ∧
      ∃ slot, e'.slots.exceptions[i.pos]? = some slot ∧ its = [.store .obj slot] := by
  obtain ⟨hfused, hc, slot, fs, hblock, hslots, hits⟩ := h.finallyStart_slot hop hinline
  obtain ⟨hpending, hown, hkept⟩ := forBlock_eq_ok hblock
  rw [hslots]
  refine ⟨hfused, congrArg _ hpending, ⟨hc ▸ .refl _, ?_⟩, slot, hown, hits⟩
  intro p slot' hp
  rw [hslots]
  exact hkept p slot' hp

-- The end of a block asks for the slot of the block that was begun last.
theorem Emits.finallyEnd_slot (h : Emits env f i next e fused its e') (hop : i.op = .finallyEnd)
    (hinline : env.config.finallyStrategy = .inline) :
    fused = false ∧ e'.cls = e.cls ∧ ∃ pos pending slot, e.slots.pending = pos :: pending ∧
      e.slots.exceptions[pos]? = some slot ∧ e'.slots = { e.slots with pending } ∧
      its = [.load .obj slot, .op ClassFile.Op.athrow] := by
  obtain ⟨rfl, s₁, c₁, h₁, rfl, hslots, hc⟩ := h.run (by unfold emitInstr; rw [hop])
  obtain ⟨env', s₂, c₂, h₂, hrun⟩ := BodyM.bind_eq_ok.mp h₁
  obtain ⟨rfl, rfl, rfl⟩ := BodyM.read_eq_ok.mp h₂
  rw [hinline] at hrun
  obtain ⟨s₃, s₄, c₃, h₃, hrun⟩ := BodyM.bind_eq_ok.mp hrun
  cases h₃
  cases hpending : e.slots.pending with
  | nil =>
    simp only [hpending] at hrun
    cases hrun
  | cons pos pending =>
    simp only [hpending] at hrun
    obtain ⟨_, s₅, c₄, h₄, hrun⟩ := BodyM.bind_eq_ok.mp hrun
    cases h₄
    cases hslot : e.slots.exceptions[pos]? with
    | none =>
      simp only [hslot] at hrun
      cases hrun
    | some slot =>
      simp only [hslot] at hrun
      obtain ⟨js, hjs, rfl⟩ := BodyM.emit_eq_ok.mp hrun
      cases hjs with
      | cons hload hrest =>
        cases hload
        cases hrest with
        | cons hthrow hnil =>
          cases hthrow
          cases hnil
          exact ⟨rfl, hc, pos, pending, slot, rfl, hslot, hslots, by simp⟩

-- It throws the exception that is there.
theorem Emits.finallyEnd (h : Emits env f i next e fused its e') (hop : i.op = .finallyEnd)
    (hinline : env.config.finallyStrategy = .inline) :
    fused = false ∧ e.Below e' ∧ ∃ pos slot, e.slots.pending = pos :: e'.slots.pending ∧
      e'.slots.exceptions[pos]? = some slot ∧ its = [.load .obj slot, .op ClassFile.Op.athrow] := by
  obtain ⟨hfused, hc, pos, pending, slot, hpending, hslot, hslots, hits⟩ :=
    h.finallyEnd_slot hop hinline
  rw [hslots]
  refine ⟨hfused, ⟨hc ▸ .refl _, ?_⟩, pos, slot, hpending, hslot, hits⟩
  intro p slot' hp
  rw [hslots]
  exact hp

theorem Emits.op_ne (h : Emits env f i next e fused its e')
    (hinline : env.config.finallyStrategy = .inline) : i.op ≠ .jumpFinally := by
  intro hop
  obtain ⟨-, s₁, c₁, h₁, -⟩ := h.run (by unfold emitInstr; rw [hop])
  obtain ⟨env', s₂, c₂, h₂, h₃⟩ := BodyM.bind_eq_ok.mp h₁
  obtain ⟨rfl, rfl, rfl⟩ := BodyM.read_eq_ok.mp h₂
  rw [hinline] at h₃
  cases h₃

theorem Emits.steady (h : Emits env f i next e fused its e') (hjump : i.op ≠ .jumpFinally)
    (hstart : i.op ≠ .finallyStart) (hend : i.op ≠ .finallyEnd) :
    e'.slots = e.slots ∧ e.cls.Below e'.cls ∧ ∀ d : EmitState, e'.cls.Below d.cls →
      ∃ cls, Emits env f i next d fused its ⟨d.slots, cls⟩ := by
  obtain ⟨js, hs, hbelow, hagain⟩ := steady_emitInstr f i _ next hjump hstart hend _ _ _ _ _ _ h
  simp only [BodyState.mk.injEq, Array.empty_append] at hs
  obtain ⟨hits, hslots⟩ := hs
  have hits : its = js := by simpa using congrArg Array.toList hits
  subst hits
  refine ⟨hslots, hbelow, ?_⟩
  intro d hd
  obtain ⟨cls, hcls⟩ := hagain ⟨#[], d.slots⟩ d.cls hd
  exact ⟨cls, by simpa [Emits] using hcls⟩

theorem Emits.below (h : Emits env f i next e fused its e')
    (hinline : env.config.finallyStrategy = .inline) : e.Below e' := by
  by_cases hstart : i.op = .finallyStart
  · exact (h.finallyStart hstart hinline).2.2.1
  by_cases hend : i.op = .finallyEnd
  · exact (h.finallyEnd hend hinline).2.1
  · obtain ⟨hslots, hbelow, -⟩ := h.steady (h.op_ne hinline) hstart hend
    exact ⟨hbelow, fun pos slot hslot => by rw [hslots]; exact hslot⟩

theorem Onward.below (h : Onward env f e e') (hinline : env.config.finallyStrategy = .inline) :
    e.Below e' := by
  induction h with
  | refl => exact .refl _
  | tail _ hstep ih =>
    obtain ⟨i, next, fused, its, hi⟩ := hstep
    exact ih.trans (hi.below hinline)

end Emits

end Lowering

end PodCompiler
