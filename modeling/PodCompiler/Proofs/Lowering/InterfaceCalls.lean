import PodCompiler.Proofs.ClassFile.Fields
import PodCompiler.Proofs.Lowering.CodeStream
import PodCompiler.Proofs.Lowering.PassedArguments

namespace PodCompiler

namespace ClassFile

-- The method of an interface under an index.
def Constants.interfaceMember? (k : Constants) (i : UInt16) : Option Member :=
  match k i with
  | some (.interfaceMethodref c m) => k.member? c m
  | _ => none

theorem Constants.Extends.interfaceMember? {k k' : Constants} (h : Extends k' k) {i : UInt16}
    {m : Member} (hm : k.interfaceMember? i = some m) : k'.interfaceMember? i = some m := by
  unfold Constants.interfaceMember? at hm ⊢
  split at hm
  · rename_i c n hi
    rw [h _ _ hi]
    exact h.member? hm
  · cases hm

-- A signature is cut at its first bracket.
theorem Member.desc_of_append {left desc : List Char} {m : Member}
    (h : ofMethod (String.ofList (left ++ '(' :: desc)) = .ok m) (hleft : '(' ∉ left) :
    m.desc = String.ofList ('(' :: desc) := by
  have hall : ∀ c ∈ left, decide (c ≠ '(') = true := by
    intro c hc
    refine decide_eq_true ?_
    rintro rfl
    exact hleft hc
  have hdesc := desc_of_ofMethod h
  rw [String.toList_ofList, List.dropWhile_append_of_pos hall,
    List.dropWhile_cons_of_neg (by simp)] at hdesc
  rw [← hdesc, String.ofList_toList]

end ClassFile

namespace Lowering

open ClassFile (CodeBuffer Constants Member)
open ClassFile.Op
open ClassFile.Descriptor (arguments? method?)
open Pod (MethodRef)

-- A reference to a method with all that it names.
structure ResolvedRef (s : Pod.Symbols) where
  index : UInt16
  ref : MethodRef
  parent : TypeRef
  params : List TypeRef
  ret : TypeRef
  ref_eq : methodRefAt s index = .ok ref
  parent_eq : typeRefAt s ref.parent = .ok parent
  params_eq : ref.params.toList.mapM (typeRefAt s) = .ok params
  ret_eq : typeRefAt s ref.ret = .ok ret

namespace ResolvedRef

variable {s : Pod.Symbols} (r : ResolvedRef s)

def desc : String :=
  "(" ++ Resolver.jsigs r.params ++ ")" ++ r.ret.jsig

-- What stands before the descriptor.
def path : String :=
  r.parent.jname ++ "." ++ r.ref.name

-- The slots that values take as arguments.
def slotsOf (kinds : List StackType) : Nat :=
  (kinds.map fun t => if t.isWide then 2 else 1).sum

-- The constant under an index is the method of an interface that the reference names, and the count
-- is that of the receiver and the arguments.
structure Counted (k : Constants) (i : UInt16) (count : UInt8) : Prop where
  names : ∃ m, k.interfaceMember? i = some m ∧
    m.owner ++ "." ++ m.name ++ m.desc = r.path ++ r.desc ∧
    ('(' ∉ r.path.toList → m.desc = r.desc)
  counts : (∀ t ∈ r.params, t.IsField) →
    ∃ kinds, arguments? r.desc = some kinds ∧ count.toNat = 1 + slotsOf kinds

variable {r}

theorem Counted.extends {k k' : Constants} {i : UInt16} {count : UInt8}
    (h : r.Counted k i count) (hk : Constants.Extends k' k) : r.Counted k' i count := by
  obtain ⟨m, hm, hsig, hdesc⟩ := h.names
  exact ⟨⟨m, hk.interfaceMember? hm, hsig, hdesc⟩, h.counts⟩

theorem toList_desc (r : ResolvedRef s) :
    r.desc.toList = '(' :: (r.params.flatMap (·.jsig.toList) ++ ')' :: r.ret.jsig.toList) := by
  simp [desc, Resolver.jsigs, String.toList_append, String.toList_join, List.flatMap_map]

-- The descriptor of a reference is read as the types that it names.
theorem arguments?_desc (h : ∀ t ∈ r.params, t.IsField) :
    arguments? r.desc = some (r.params.map TypeRef.stack) := by
  unfold arguments? method?
  rw [r.toList_desc]
  change (ClassFile.Descriptor.params? _).map _ = _
  rw [ClassFile.Descriptor.params?_jsigs h]
  rfl

theorem interfaceSlots_eq (r : ResolvedRef s) :
    Resolver.interfaceSlots r.params = 1 + slotsOf (r.params.map TypeRef.stack) := by
  unfold Resolver.interfaceSlots slotsOf
  rw [sum_width_eq]

-- What enters the pool for a call through an interface.
theorem counted_of_intern {env : ClassEnv} {c c' : OpenClass} {i : UInt16}
    {r : ResolvedRef env.pod.symbols} (hc : c.WellFormed env)
    (hslots : Resolver.interfaceSlots r.params ≤ 255)
    (h : (Ref.interfaceMethod (r.path ++ r.desc)).intern env c = .ok i c') :
    r.Counted c'.draft.pool.get? i (Resolver.interfaceSlots r.params).toUInt8 where
  names := by
    obtain ⟨p, hp, rfl⟩ := ClassM.onPool_eq_ok.mp h
    obtain ⟨hbuilt, hgrows, m, o, n, hm, hi, hmember⟩ := ClassFile.Pool.member_eq_ok hc.pool hp
    refine ⟨m, ?_, Member.ofMethod_eq_ok hm, ?_⟩
    · unfold Constants.interfaceMember?
      dsimp only
      rw [hi]
      exact hmember
    · intro hpath
      have hsig : r.path ++ r.desc = String.ofList (r.path.toList ++ '(' ::
          (r.params.flatMap (·.jsig.toList) ++ ')' :: r.ret.jsig.toList)) := by
        rw [← r.toList_desc, ← String.toList_append, String.ofList_toList]
      rw [hsig] at hm
      rw [Member.desc_of_append hm hpath, ← r.toList_desc, String.ofList_toList]
  counts := by
    intro hparams
    refine ⟨_, arguments?_desc hparams, ?_⟩
    rw [← interfaceSlots_eq r, Nat.toUInt8_eq, UInt8.toNat_ofNat']
    exact Nat.mod_eq_of_lt (by omega)

end ResolvedRef

namespace Item

variable {ρ : Type}

-- Whether an item is no call through an interface.
def isDirect : Item ρ → Bool
  | .interface _ _ => false
  | _ => true

def Direct (items : List (Item ρ)) : Prop :=
  items.all isDirect = true

theorem direct_nil : Direct ([] : List (Item ρ)) := rfl

theorem direct_cons {x : Item ρ} {xs : List (Item ρ)} :
    Direct (x :: xs) ↔ x.isDirect = true ∧ Direct xs := by
  simp [Direct]

theorem direct_append {xs ys : List (Item ρ)} :
    Direct (xs ++ ys) ↔ Direct xs ∧ Direct ys := by
  simp [Direct]

theorem direct_ops (codes : List UInt8) : Direct (codes.map (op : UInt8 → Item ρ)) := by
  simp [Direct, isDirect]

theorem Interned.direct {env : ClassEnv} {c c' : OpenClass} {is : List (Item Ref)}
    {js : List (Item UInt16)} (h : Interned env c is js c') (hi : Direct is) : Direct js := by
  induction h with
  | nil => exact direct_nil
  | @cons _ _ _ i j _ _ hj _ ih =>
    rw [direct_cons] at hi ⊢
    refine ⟨?_, ih hi.2⟩
    cases i with
    | interface r slots => cases hi.1
    | reserve r | const o r =>
      obtain ⟨x, -, rfl⟩ := ClassM.map_eq_ok.mp hj
      rfl
    | _ =>
      cases hj
      rfl

end Item

section Direct

open BodyM (Appends Concatenative)
open Item (Direct direct_append direct_cons direct_nil direct_ops)

instance : Concatenative (Direct (ρ := UInt16)) where
  nil := direct_nil
  append hx hy := direct_append.mpr ⟨hx, hy⟩

theorem direct_emit {items : List (Item Ref)} (h : Direct items) :
    Appends Direct (BodyM.emit items) :=
  BodyM.appends_emit fun _ _ _ _ hits => hits.direct h

theorem direct_plain {items : List (Item Ref)} (h : Direct items) :
    Appends Direct (plain items) :=
  BodyM.appends_bind (direct_emit h) fun _ => BodyM.appends_pure _

theorem direct_emitOk {x : Except LoweringError (List (Item Ref))}
    (hx : ∀ items, x = .ok items → Direct items) : Appends Direct (BodyM.emitOk x) :=
  BodyM.appends_emitOk fun items hok => direct_emit (hx items hok)

variable (t u : TypeRef)

theorem direct_pushType : Direct (Conversion.pushType t) := by
  unfold Conversion.pushType
  split
  · split <;> rfl
  · rfl

theorem direct_isInstance : Direct (Conversion.isInstance t) := by
  unfold Conversion.isInstance
  split
  · exact direct_append.mpr ⟨direct_pushType t, rfl⟩
  · rfl

theorem direct_asInstance : Direct (Conversion.asInstance t) := by
  unfold Conversion.asInstance
  dsimp only
  split
  · rw [List.cons_append]
    exact direct_cons.mpr ⟨rfl, direct_append.mpr ⟨direct_pushType t, rfl⟩⟩
  · rfl

theorem direct_box {stack : StackType} {items : List (Item Ref)}
    (h : Conversion.box stack = .ok items) : Direct items := by
  unfold Conversion.box at h
  split at h <;> cases h
  rfl

theorem direct_unbox {stack : StackType} {items : List (Item Ref)}
    (h : Conversion.unbox stack = .ok items) : Direct items := by
  unfold Conversion.unbox at h
  split at h <;> cases h
  rfl

theorem direct_cast {items : List (Item Ref)} (h : Conversion.cast t = .ok items) :
    Direct items := by
  unfold Conversion.cast at h
  split at h
  · exact direct_unbox h
  · cases h
    rfl

theorem direct_coerce {items : List (Item Ref)} (h : Conversion.coerce t u = .ok items) :
    Direct items := by
  unfold Conversion.coerce at h
  dsimp only at h
  split at h
  · cases h
  · cases h
  · cases h
    refine direct_append.mpr ⟨?_, ?_⟩
    · split <;> rfl
    · split <;> rfl
  · exact direct_box h
  · obtain ⟨unboxed, hu, h⟩ := except_bind_eq_ok.mp h
    cases h
    refine direct_append.mpr ⟨?_, direct_unbox hu⟩
    split <;> rfl
  · split at h
    · cases h
      exact direct_nil
    · split at h
      · cases h
        exact direct_ops _
      · cases h

theorem direct_popItems : Direct (popItems t) := by
  unfold popItems
  split <;> rfl

theorem direct_fusedJump {pos : Nat} {before : List (Item Ref)} {o : UInt8} {sense : Bool}
    {target : UInt16} (hbefore : Direct before) :
    Direct (Comparison.fusedJump pos before o sense target).items := by
  unfold Comparison.fusedJump
  dsimp only
  rw [List.cons_append]
  exact direct_cons.mpr ⟨rfl, direct_append.mpr ⟨hbefore, rfl⟩⟩

theorem direct_jumpOr {next : Following} {before : List (Item Ref)} {o : UInt8}
    {unfused : Compared} (hbefore : Direct before) (hunfused : Direct unfused.items) :
    Direct (Comparison.jumpOr next before o unfused).items := by
  unfold Comparison.jumpOr
  split
  · exact direct_fusedJump hbefore
  · exact direct_nil
  · exact hunfused

theorem direct_byRuntime (rel : Relation) (next : Following) :
    Direct (Comparison.byRuntime rel t u next).items := by
  unfold Comparison.byRuntime
  dsimp only
  split
  · exact direct_cons.mpr ⟨rfl, direct_fusedJump direct_nil⟩
  · rfl
  · rfl

theorem Compares.direct {env : ClassEnv} {i : Instr} {next : Following} {cmp : Compared}
    (h : Compares env i next cmp) : Direct cmp.items := by
  have hrelation : ∀ (rel : Relation) (t u : TypeRef),
      Direct (Comparison.relation rel t u next).items := by
    intro rel t u
    unfold Comparison.relation
    split
    · rename_i before o hdirect
      refine direct_jumpOr ?_ (direct_byRuntime _ _ _ _)
      unfold Comparison.direct? at hdirect
      split at hdirect
      · split at hdirect <;> cases hdirect <;> rfl
      · cases hdirect
    · exact direct_byRuntime _ _ _ _
  have hsame : ∀ want, Direct (Comparison.same want next).items := by
    intro want
    exact direct_jumpOr direct_nil rfl
  have hnull : ∀ want (t : TypeRef), Direct (Comparison.null want t next).items := by
    intro want t
    unfold Comparison.null
    split
    · cases t.isWide <;> cases want <;> rfl
    · exact direct_jumpOr direct_nil rfl
  cases h with
  | relation _ _ _ => exact hrelation _ _ _
  | same want _ => exact hsame want
  | null want _ _ => exact hnull want _

variable (f : Frame) (i : Instr)

theorem direct_emitLiteral (kind : Pod.LiteralKind) : Appends Direct (emitLiteral kind i) := by
  unfold emitLiteral
  refine BodyM.appends_bind BodyM.appends_read fun env => ?_
  refine BodyM.appends_bind (BodyM.appends_ofExcept _) fun r => direct_emit ?_
  cases kind <;> rfl

theorem direct_emitField (o : UInt8) (mixin : Bool) : Appends Direct (emitField o i mixin) := by
  unfold emitField
  refine BodyM.appends_bind (BodyM.appends_lift _) fun symbols => ?_
  refine BodyM.appends_bind (BodyM.appends_lift _) fun sig => direct_emit ?_
  rfl

theorem direct_emitFinallyStart : Appends Direct (emitFinallyStart f i) := by
  unfold emitFinallyStart
  refine BodyM.appends_bind BodyM.appends_read fun env => ?_
  split
  · refine BodyM.appends_bind (BodyM.appends_slots _) fun slots => direct_emit ?_
    rfl
  · refine BodyM.appends_bind (BodyM.appends_slots _) fun slot => ?_
    refine BodyM.appends_bind (BodyM.appends_modify fun _ => rfl) fun _ => direct_emit ?_
    rfl

theorem direct_emitFinallyEnd : Appends Direct (emitFinallyEnd f i) := by
  unfold emitFinallyEnd
  refine BodyM.appends_bind BodyM.appends_read fun env => ?_
  split
  · refine BodyM.appends_bind (BodyM.appends_slots _) fun slots => direct_emit ?_
    rfl
  · refine BodyM.appends_bind BodyM.appends_get fun s => ?_
    dsimp only
    split
    · exact BodyM.appends_throw _
    · refine BodyM.appends_bind (BodyM.appends_modify fun _ => rfl) fun _ => ?_
      split
      · exact BodyM.appends_throw _
      · exact direct_emit rfl

theorem direct_emitJumpFinally : Appends Direct (emitJumpFinally (noCopy f) i) := by
  unfold emitJumpFinally
  refine BodyM.appends_bind BodyM.appends_read fun env => ?_
  split
  · exact direct_emit rfl
  · exact BodyM.appends_throw _

-- An instruction that calls nothing and compares nothing.
theorem direct_emitInstr (next : Following) (hcall : CallKind.ofOpcode? i.op = none)
    (hcompare : isComparison i.op = false) :
    Appends Direct (emitInstr f (noCopy f) i next) := by
  have hfalse : ∀ {m : BodyM Unit}, Appends Direct m →
      Appends Direct (m >>= fun _ => pure false) :=
    fun hm => BodyM.appends_bind hm fun _ => BodyM.appends_pure _
  have htype : ∀ {k : TypeRef → BodyM Bool}, (∀ t, Appends Direct (k t)) →
      Appends Direct (liftM (ClassM.typeRef i.arg) >>= k) :=
    fun hk => BodyM.appends_bind (BodyM.appends_lift _) hk
  unfold emitInstr
  cases hop : i.op <;> rw [hop] at hcall hcompare
  case callNew | callCtor | callStatic | callVirtual | callNonVirtual | callMixinStatic |
      callMixinVirtual | callMixinNonVirtual => cases hcall
  case compareEQ | compareNE | compareLT | compareLE | compareGT | compareGE | compareSame |
      compareNotSame | compareNull | compareNotNull => cases hcompare
  case nop | catchEnd => exact BodyM.appends_pure _
  case loadInt | loadFloat | loadDecimal | loadStr | loadDuration | loadUri =>
    exact hfalse (direct_emitLiteral i _)
  case loadVar | storeVar =>
    exact BodyM.appends_bind (BodyM.appends_ofExcept _) fun l =>
      direct_plain rfl
  case loadInstance | storeInstance | loadStatic | storeStatic | loadMixinStatic |
      storeMixinStatic => exact hfalse (direct_emitField i _ _)
  case loadType => exact htype fun t => direct_plain (direct_pushType t)
  case pop => exact htype fun t => direct_plain (direct_popItems t)
  case is => exact htype fun t => direct_plain (direct_isInstance t)
  case as => exact htype fun t => direct_plain (direct_asInstance t)
  case dup => exact htype fun t => direct_plain rfl
  case cast => exact htype fun t => hfalse (direct_emitOk fun _ h => direct_cast t h)
  case catchErrStart =>
    refine BodyM.appends_bind (direct_emit rfl) fun _ => ?_
    exact htype fun t => hfalse (direct_emitOk fun _ h => direct_cast t h)
  case coerce =>
    refine BodyM.appends_bind (BodyM.appends_lift _) fun pair => ?_
    exact hfalse (direct_emitOk fun _ h => direct_coerce _ _ h)
  case compare =>
    exact BodyM.appends_bind (BodyM.appends_lift _) fun pair =>
      direct_plain rfl
  case jumpFinally => exact hfalse (direct_emitJumpFinally f i)
  case finallyStart => exact hfalse (direct_emitFinallyStart f i)
  case finallyEnd => exact hfalse (direct_emitFinallyEnd f i)
  all_goals exact direct_plain rfl

end Direct

section Calls

open Item (Direct)

-- Whatever items a call through an interface is among, it counts the arguments of a reference.
def AllCounted (env : ClassEnv) (k : Constants) (its : List (Item UInt16)) : Prop :=
  ∀ i count, .interface i count ∈ its → ∃ r : ResolvedRef env.pod.symbols, r.Counted k i count

theorem Item.Direct.allCounted {env : ClassEnv} {its : List (Item UInt16)} (h : Direct its)
    (k : Constants) : AllCounted env k its := by
  intro i count hmem
  have hdirect := List.all_eq_true.mp h _ hmem
  cases hdirect

theorem allCounted_append {env : ClassEnv} {k : Constants} {xs ys : List (Item UInt16)}
    (hx : AllCounted env k xs) (hy : AllCounted env k ys) : AllCounted env k (xs ++ ys) := by
  intro i count hmem
  obtain hmem | hmem := List.mem_append.mp hmem
  · exact hx i count hmem
  · exact hy i count hmem

theorem AllCounted.extends {env : ClassEnv} {k k' : Constants} {its : List (Item UInt16)}
    (h : AllCounted env k its) (hk : Constants.Extends k' k) : AllCounted env k' its := by
  intro i count hmem
  obtain ⟨r, hr⟩ := h i count hmem
  exact ⟨r, hr.extends hk⟩

theorem direct_intrinsic (i : Intrinsic) : Direct (Call.intrinsic i).items := by
  cases i with
  | ops codes => exact Item.direct_ops codes
  | newObject cls | classLiteral cls | newArray element => rfl

-- Of the kinds of calls one goes through an interface.
theorem invoke_cases {s : Pod.Symbols} {kind : CallKind} (r : ResolvedRef s) {inv : Invoke}
    (h : Resolver.invoke kind r.parent r.ref.name r.params r.ret = .ok inv) :
    Direct (Call.invoke inv).items ∨
    Resolver.interfaceSlots r.params ≤ 255 ∧ (Call.invoke inv).items =
      [.interface (.interfaceMethod (r.path ++ r.desc))
        (Resolver.interfaceSlots r.params).toUInt8] := by
  unfold Resolver.invoke at h
  cases kind with
  | mixinVirtual =>
    dsimp only at h
    split at h
    · rename_i hslots
      cases h
      refine .inr ⟨hslots, ?_⟩
      simp [Call.items, ResolvedRef.path, ResolvedRef.desc, toString, String.append_assoc]
    · cases h
  | ctor | virtual =>
    dsimp only at h
    split at h <;> cases h <;> exact .inl rfl
  | _ =>
    cases h
    exact .inl rfl

theorem allCounted_call {env : ClassEnv} {c c' : OpenClass} {index : UInt16} {kind : CallKind}
    {call : Call} {its : List (Item UInt16)} (hc : c.WellFormed env)
    (h : Resolver.computeCall env.pod.symbols index kind = .ok call)
    (hits : Item.Interned env c call.items its c') : AllCounted env c'.draft.pool.get? its := by
  obtain ⟨ref, href, h⟩ := except_bind_eq_ok.mp h
  obtain ⟨parent, hparent, h⟩ := except_bind_eq_ok.mp h
  split at h
  · cases h
    exact (hits.direct (direct_intrinsic _)).allCounted _
  · obtain ⟨params, hparams, h⟩ := except_bind_eq_ok.mp h
    obtain ⟨ret, hret, h⟩ := except_bind_eq_ok.mp h
    obtain ⟨inv, hinv, rfl⟩ := except_map_eq_ok.mp h
    let r : ResolvedRef env.pod.symbols :=
      ⟨index, ref, parent, params, ret, href, hparent, hparams, hret⟩
    obtain hdirect | ⟨hslots, hitems⟩ := invoke_cases r hinv
    · exact (hits.direct hdirect).allCounted _
    · rw [hitems] at hits
      cases hits with
      | cons hitem hnil =>
        cases hnil
        obtain ⟨i, hi, rfl⟩ := ClassM.map_eq_ok.mp hitem
        intro i' count hmem
        obtain ⟨rfl, rfl⟩ : i' = i ∧ count = (Resolver.interfaceSlots r.params).toUInt8 := by
          simpa using hmem
        exact ⟨r, ResolvedRef.counted_of_intern hc hslots hi⟩

variable {env : ClassEnv} {f : Frame} {code : Bytes}

-- One instruction, in a class that keeps calls as they are resolved.
theorem Emits.allCounted {i : Instr} {next : Following} {e e' : EmitState} {fused : Bool}
    {its : List (Item UInt16)} (h : Emits env f i next e fused its e')
    (hc : e.cls.WellFormed env) : AllCounted env e'.cls.draft.pool.get? its := by
  cases hcall : CallKind.ofOpcode? i.op with
  | some kind =>
    have hrun : (emitCall kind i >>= fun _ => pure false) ⟨#[], e.slots⟩ env e.cls =
        .ok (fused, ⟨its.toArray, e'.slots⟩) e'.cls := by
      unfold Emits emitInstr at h
      unfold CallKind.ofOpcode? at hcall
      split at hcall <;> cases hcall <;> simpa [*] using h
    obtain ⟨u, s₁, c₁, h₁, h₂⟩ := BodyM.bind_eq_ok.mp hrun
    obtain ⟨call, c₂, hresolve, hemit⟩ := emitCall_eq_ok h₁
    obtain ⟨hcompute, hc₂, -⟩ := ClassM.onResolver_call_eq_ok hc hresolve
    obtain ⟨js, hjs, rfl⟩ := BodyM.emit_eq_ok.mp hemit
    obtain ⟨-, hs, rfl⟩ := BodyM.pure_eq_ok.mp h₂
    have hits : its = js := by simpa using congrArg (fun s => s.items.toList) hs
    rw [hits]
    exact allCounted_call hc₂ hcompute hjs
  | none =>
    cases hcompare : Lowering.isComparison i.op with
    | true =>
      obtain ⟨cmp, hcmp, hits, -, -⟩ := h.comparison hcompare
      exact (hits.direct hcmp.direct).allCounted _
    | false =>
      obtain ⟨js, hjs, hdirect⟩ := direct_emitInstr f i next hcall hcompare _ _ _ _ _ _ h
      have hits : its = js := by simpa using congrArg Array.toList hjs
      rw [hits]
      exact hdirect.allCounted _

-- A run of instructions: what was put into the pool before stays.
theorem Emission.allCounted {e e' : EmitState} {instrs : List Instr} {its : List (Item UInt16)}
    (h : Emission env f code e instrs its e') (hc : e.cls.WellFormed env) :
    AllCounted env e'.cls.draft.pool.get? its := by
  have hskip : ∀ {x : Item UInt16} {xs : List (Item UInt16)} {k : Constants},
      x.isDirect = true → AllCounted env k xs → AllCounted env k (x :: xs) := by
    intro x xs k hx hxs
    exact allCounted_append
      (Item.Direct.allCounted (Item.direct_cons.mpr ⟨hx, Item.direct_nil⟩) k) hxs
  induction h with
  | nil => exact Item.direct_nil.allCounted _
  | one hi hrest ih | fused hi hrest ih =>
    obtain ⟨hc₁, -⟩ := hi.advances hc
    obtain ⟨hc₂, hgrows⟩ := hrest.later.advances hc₁
    refine hskip rfl (allCounted_append ?_ (ih hc₁))
    exact (hi.allCounted hc).extends (hgrows.extends hc₂.pool)
  | copy _ _ _ _ hbody hrest ihbody ihrest =>
    obtain ⟨hc₁, -⟩ := hbody.later.advances hc
    obtain ⟨hc₂, hgrows⟩ := hrest.later.advances hc₁
    refine hskip rfl (hskip rfl (allCounted_append ?_ (hskip rfl (ihrest hc₁))))
    exact (ihbody hc).extends (hgrows.extends hc₂.pool)

theorem allCounted_of_emitBody {c c₁ : OpenClass} {body : BodyState}
    (h : emitBody f code {} env c = .ok ((), body) c₁) (hc : c.WellFormed env) :
    AllCounted env c₁.draft.pool.get? body.items.toList := by
  obtain ⟨instrs, its, -, hder, hitems⟩ := items_of_emitBody h
  rw [hitems]
  have hend : Item.Direct [(.mark code.size : Item UInt16)] := rfl
  exact allCounted_append (hder.allCounted hc) (hend.allCounted _)

end Calls

section Code

variable {env : ClassEnv} {f : Frame} {code : Bytes} {out : CodeBuffer} {c c₁ : OpenClass}
  {body : BodyState} {mc : MethodCode}

-- A place in code at which a method of an interface is called, with the count of its arguments.
def CallsCounted (env : ClassEnv) (k : Constants) (code : Bytes) (pc : Nat) : Prop :=
  ∃ i count, ∃ r : ResolvedRef env.pod.symbols,
    code.Spells pc (invokeInterface :: ((Bytes.be2 i).toList ++ [count, 0])) ∧ r.Counted k i count

-- Only a call through an interface takes five bytes.
theorem Item.eq_interface_of_size {x : Item UInt16} (h : x.size = 5) :
    ∃ i count, x = .interface i count := by
  cases x with
  | interface i count => exact ⟨i, count, rfl⟩
  | load t slot | store t slot =>
    simp only [Item.size] at h
    split at h
    · cases h
    · split at h <;> cases h
  | onSlot o slot =>
    simp only [Item.size] at h
    split at h <;> cases h
  | _ => cases h

-- The only instruction from a position to another, if it is a call through an interface.
theorem length_of_walk {code : Bytes} {pos n : Nat} (h : Walk code pos [pos] (pos + n))
    (hop : code[pos]? = some invokeInterface) : n = 5 := by
  generalize hstop : pos + n = stop at h
  cases h with
  | step _ hm hdone =>
    cases hdone
    rw [length?_of_fixed hop (n := 5) rfl] at hm
    cases hm
    omega

-- Of the items only a call through an interface has an instruction with its opcode.
theorem Lowered.interface_of_start (hl : Lowered env f code out c c₁ body mc) {s pos pc : Nat}
    {x : Item UInt16} {rest : List (Item UInt16)}
    (hx : body.Stands code out s pos (x :: rest)) (hwhole : x.isWhole = true)
    (hlands : Item.hopLands rest x = true) (hsize : mc.code.code.size ≤ CodeBuffer.maxSize)
    (hstart : pc ∈ x.starts pos) (hop : mc.code.code[pc]? = some invokeInterface) :
    pc = pos ∧ ∃ i count, x = .interface i count := by
  have hwalk := (hl.segment_item hx hwhole hlands (hl.targets_lt hx hsize)).walk
  have hlength : x.starts pos = [pos] → pc = pos ∧ (x.raw pos).length = 5 := by
    intro hstarts
    rw [hstarts] at hstart hwalk
    obtain rfl := List.mem_singleton.mp hstart
    exact ⟨rfl, length_of_walk hwalk hop⟩
  by_cases hinert : x.isInert = true
  · have hstarts : x.starts pos = [pos] := by
      cases x with
      | reserve r => cases hstart
      | mark | jump | switch | enter | leave => cases hinert
      | _ => rfl
    obtain ⟨rfl, hfive⟩ := hlength hstarts
    rw [Item.length_raw hinert] at hfive
    exact ⟨rfl, Item.eq_interface_of_size hfive⟩
  · cases x with
    | mark | enter | leave => cases hstart
    | jump kind o target =>
      obtain ⟨-, hfive⟩ := hlength rfl
      cases hfive
    | switch targets =>
      by_cases hne : targets = []
      · subst hne
        obtain ⟨-, hfive⟩ := hlength rfl
        cases hfive
      · obtain ⟨hconvert, htable, -⟩ := hl.spells_switch hx hne
        have hstarts : (Item.switch targets).starts pos = [pos, pos + 1] :=
          if_neg (by simpa using hne)
        rw [hstarts] at hstart
        obtain rfl | hstart := List.mem_cons.mp hstart
        · rw [hconvert] at hop
          cases hop
        · obtain rfl := List.mem_singleton.mp hstart
          rw [htable] at hop
          cases hop
    | _ => exact absurd rfl hinert

-- Every call through an interface in the code of some items counts its arguments.
theorem Lowered.callsCounted (hl : Lowered env f code out c c₁ body mc)
    (hsize : mc.code.code.size ≤ CodeBuffer.maxSize) {k : Constants}
    {s pos pc : Nat} {rest : List (Item UInt16)} (hx : body.Stands code out s pos rest)
    (htidy : Item.isTidy rest = true) (hcounted : AllCounted env k rest)
    (hstart : pc ∈ Item.allStarts pos rest)
    (hop : mc.code.code[pc]? = some invokeInterface) : CallsCounted env k mc.code.code pc := by
  induction rest generalizing s pos with
  | nil => cases hstart
  | cons x rest ih =>
    simp only [Item.isTidy, Bool.and_eq_true] at htidy
    obtain hstart | hstart := List.mem_append.mp hstart
    · obtain ⟨rfl, i, count, rfl⟩ :=
        hl.interface_of_start hx htidy.1 htidy.2.1 hsize hstart hop
      obtain ⟨r, hr⟩ := hcounted i count List.mem_cons_self
      exact ⟨i, count, r, hl.spells hx rfl, hr⟩
    · obtain ⟨s', hnext⟩ := hx.next
      refine ih hnext htidy.2.2 ?_ hstart
      intro i count hmem
      exact hcounted i count (List.mem_cons_of_mem _ hmem)

-- A walk over the code of a method, or of the default of a parameter, behind other code.
theorem Lowered.exists_walk (hl : Lowered env f code out c c₁ body mc) (hc : c.WellFormed env)
    (hsize : mc.code.code.size ≤ CodeBuffer.maxSize) :
    ∃ starts, Walk mc.code.code out.pos starts mc.code.code.size ∧
      ∀ pc ∈ starts, mc.code.code[pc]? = some invokeInterface →
        CallsCounted env c₁.draft.pool.get? mc.code.code pc := by
  have htidy := tidy_of_emitBody hl.emits hc
  have hstands : body.Stands code out (Layout.start out code.size).scope out.pos
      body.items.toList := ⟨[], rfl, rfl, rfl⟩
  refine ⟨_, (hl.segment hsize hstands htidy).walk, ?_⟩
  intro pc hpc hop
  exact hl.callsCounted hsize hstands htidy (allCounted_of_emitBody hl.emits hc) hpc hop

end Code

end Lowering

end PodCompiler
