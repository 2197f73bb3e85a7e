import PodCompiler.Proofs.Lowering.CodeStream
import PodCompiler.Proofs.Lowering.Linkage

namespace PodCompiler

namespace ClassFile.Draft

variable {d d' : Draft} {access : UInt16} {name desc : String}

-- A method changes the pool and the methods of a class, and nothing else.
theorem addMethod_frame {code : Option CodeBuffer} {u : Unit}
    (h : addMethod access name desc code d = .ok u d') :
    d' = { d with pool := d'.pool, methods := d'.methods } := by
  obtain ⟨-, hpush⟩ := addMethod_run_eq_ok.mp h
  obtain ⟨i, d₁, hname, hrest⟩ := bind_eq_ok.mp hpush
  obtain ⟨j, d₂, hdesc, hlast⟩ := bind_eq_ok.mp hrest
  obtain ⟨p₁, -, rfl⟩ := onPool_eq_ok hname
  obtain ⟨p₂, -, rfl⟩ := onPool_eq_ok hdesc
  cases hlast
  rfl

theorem exists_addField (access : UInt16) (name desc : String)
    (hd : d.pool.next + 4 ≤ Pool.limit) :
    ∃ d', addField access name desc d = .ok () d' ∧ d'.pool.next ≤ d.pool.next + 4 ∧
      d'.sourceFile = d.sourceFile ∧ d'.name = d.name := by
  obtain ⟨i, p₁, hname, hp₁⟩ := exists_onPool (Pool.fits_add (.utf8 name)) (d := d) (by omega)
  obtain ⟨j, p₂, hdesc, hp₂⟩ := exists_onPool (Pool.fits_add (.utf8 desc))
    (d := { d with pool := p₁ }) (by dsimp only; omega)
  dsimp only at hdesc hp₂
  refine ⟨_, bind_eq_ok.mpr ⟨i, _, hname, bind_eq_ok.mpr ⟨j, _, hdesc, rfl⟩⟩, ?_, rfl, rfl⟩
  dsimp only
  omega

end ClassFile.Draft

namespace ClassFile.Pool

-- A member whose signature can be cut.
theorem fits_member (mk : UInt16 → UInt16 → Constant) {sig : Except ClassError Member}
    (h : ∃ m, sig = .ok m) : Fits 12 (member mk sig) := by
  obtain ⟨m, rfl⟩ := h
  have hmember : Fits 6 (nameAndType m.name m.desc) :=
    fits_bind (n := 2) (k := 4) (fits_add _) fun _ =>
      fits_bind (n := 2) (k := 2) (fits_add _) fun _ => fits_add _
  exact fits_bind (n := 4) (k := 8) (fits_class _) fun _ =>
    fits_bind (n := 6) (k := 2) hmember fun _ => fits_add _

end ClassFile.Pool

namespace Lowering

open ClassFile (CodeBuffer Draft Member Pool)

-- A class of a name that keeps no types and names no source file.
structure OpenClass.Plain (name : String) (c : OpenClass) : Prop where
  name : c.draft.name = name
  source : c.draft.sourceFile = none
  literals : c.literals = #[]

namespace ClassM

variable {α β : Type} {env : ClassEnv} {name : String} {n k : Nat} {P : α → Prop} {Q : β → Prop}

-- A step on such a class that succeeds if the pool has room for `n` indices, and gives what is
-- said.
def Fits (env : ClassEnv) (name : String) (n : Nat) (x : ClassM α) (P : α → Prop) : Prop :=
  ∀ c : OpenClass, c.Plain name → c.draft.pool.next + n ≤ Pool.limit →
    ∃ a c', x env c = .ok a c' ∧ P a ∧ c'.Plain name ∧
      c'.draft.pool.next ≤ c.draft.pool.next + n

theorem fits_bind {m : ClassM α} {f : α → ClassM β} (hm : Fits env name n m P)
    (hf : ∀ a, P a → Fits env name k (f a) Q) : Fits env name (n + k) (m >>= f) Q := by
  intro c hc hroom
  obtain ⟨a, c₁, ha, hPa, hc₁, hnext⟩ := hm c hc (by omega)
  obtain ⟨b, c', hb, hQb, hc', hnext'⟩ := hf a hPa c₁ hc₁ (by omega)
  exact ⟨b, c', bind_eq_ok.mpr ⟨a, c₁, ha, hb⟩, hQb, hc', by omega⟩

-- What a step looks at first is known.
theorem fits_look_bind {x : ClassM α} {a : α} {f : α → ClassM β}
    (h : ∀ c : OpenClass, c.Plain name → x env c = .ok a c) (hf : Fits env name n (f a) Q) :
    Fits env name n (x >>= f) Q := by
  intro c hc hroom
  obtain ⟨b, c', hb, hall⟩ := hf c hc hroom
  exact ⟨b, c', bind_eq_ok.mpr ⟨a, c, h c hc, hb⟩, hall⟩

theorem fits_pure {a : α} (h : P a) : Fits env name n (pure a) P :=
  fun c hc _ => ⟨a, c, rfl, h, hc, Nat.le_add_right _ _⟩

theorem Fits.mono {x : ClassM α} {P' : α → Prop} (h : Fits env name n x P) (hle : n ≤ k)
    (hP : ∀ a, P a → P' a) : Fits env name k x P' := by
  intro c hc hroom
  obtain ⟨a, c', ha, hPa, hc', hnext⟩ := h c hc (by omega)
  exact ⟨a, c', ha, hP a hPa, hc', by omega⟩

theorem className_run {c : OpenClass} (hc : c.Plain name) : className env c = .ok name c := by
  rw [← hc.name]
  rfl

theorem typeRef_run {i : UInt16} {t : TypeRef} (h : typeRefAt env.pod.symbols i = .ok t)
    (c : OpenClass) : typeRef i env c = .ok t c :=
  typeRef_eq_ok.mpr ⟨h, rfl⟩

theorem desc_run {m : Pod.MethodDef} {self : Option String} {n : Nat} {result : Result}
    {desc : String} (h : methodDesc env.pod.symbols m self (m.params.take n) result = .ok desc)
    (c : OpenClass) : ClassM.desc m self n result env c = .ok desc c :=
  bind_eq_ok.mpr ⟨_, c, rfl, ofExcept_eq_ok.mpr ⟨h, rfl⟩⟩

theorem frame_run {m : Pod.MethodDef} {mode : SelfMode} {f : Frame} {c : OpenClass}
    (h : Frame.forMethod env.pod.symbols name m mode = .ok f) (hc : c.Plain name) :
    frame m mode env c = .ok f c :=
  bind_eq_ok.mpr ⟨_, c, rfl, bind_eq_ok.mpr ⟨name, c, className_run hc,
    ofExcept_eq_ok.mpr ⟨h, rfl⟩⟩⟩

theorem fits_onPool {m : ClassFile.PoolM α} (hm : Pool.Fits n m) :
    Fits env name n (onPool m) fun _ => True := by
  intro c hc hroom
  obtain ⟨a, p, hp, hnext⟩ := hm c.draft.pool hroom
  refine ⟨a, _, onPool_eq_ok.mpr ⟨p, hp, rfl⟩, trivial, ?_, hnext⟩
  exact ⟨hc.name, hc.source, hc.literals⟩

theorem fits_addMethod (access : UInt16) (method desc : String) {code : Option CodeBuffer}
    (hcode : ∀ b ∈ code, b.code.size ≤ CodeBuffer.maxSize) :
    Fits env name 4 (addMethod access method desc code) fun _ => True := by
  intro c hc hroom
  obtain ⟨d, hd, hnext, hsource⟩ := Draft.exists_addMethod access method desc code hcode hroom
  have hname : d.name = name := by
    rw [Draft.addMethod_frame hd]
    exact hc.name
  exact ⟨(), _, addMethod_run hd, trivial, ⟨hname, hsource.trans hc.source, hc.literals⟩, hnext⟩

theorem onDraft_run {m : ClassFile.DraftM α} {c : OpenClass} {a : α} {d : Draft}
    (h : m c.draft = .ok a d) : onDraft m env c = .ok a { c with draft := d } := by
  cases c
  unfold onDraft
  dsimp only at h ⊢
  rw [h]

theorem fits_addField (access : UInt16) (field desc : String) :
    Fits env name 4 (onDraft (Draft.addField access field desc)) fun _ => True := by
  intro c hc hroom
  obtain ⟨d, hd, hnext, hsource, hname⟩ := Draft.exists_addField access field desc hroom
  exact ⟨(), _, onDraft_run hd, trivial,
    ⟨hname.trans hc.name, hsource.trans hc.source, hc.literals⟩, hnext⟩

theorem fits_addInterface (interface : String) :
    Fits env name 4 (onDraft (Draft.addInterface interface)) fun _ => True := by
  intro c hc hroom
  by_cases hthere : c.draft.interfaces.any (·.1 = interface) = true
  · have hrun : Draft.addInterface interface c.draft = .ok () c.draft := by
      refine Draft.bind_eq_ok.mpr ⟨c.draft, c.draft, rfl, ?_⟩
      rw [if_pos hthere]
      rfl
    exact ⟨(), _, onDraft_run hrun, trivial, hc, Nat.le_add_right _ _⟩
  · obtain ⟨i, p, hp, hnext⟩ := Draft.exists_onPool (Pool.fits_class interface) hroom
    have hrun : Draft.addInterface interface c.draft = .ok ()
        { c.draft with pool := p, interfaces := c.draft.interfaces.push (interface, i) } := by
      refine Draft.bind_eq_ok.mpr ⟨c.draft, c.draft, rfl, ?_⟩
      rw [if_neg hthere]
      exact Draft.bind_eq_ok.mpr ⟨i, _, hp, rfl⟩
    exact ⟨(), _, onDraft_run hrun, trivial, ⟨hc.name, hc.source, hc.literals⟩, hnext⟩

theorem fits_forM {l : List α} {f : α → ClassM Unit}
    (hf : ∀ a ∈ l, Fits env name n (f a) fun _ => True) :
    Fits env name (n * l.length) (l.forM f) fun _ => True := by
  induction l with
  | nil => exact fits_pure trivial
  | cons a l ih =>
    have hrest := ih fun b hb => hf b (List.mem_cons_of_mem _ hb)
    have hall := fits_bind (hf a List.mem_cons_self) fun _ _ => hrest
    exact hall.mono (by rw [List.length_cons, Nat.mul_succ]; omega) fun _ h => h

end ClassM

-- A constant whose signature can be cut into its parts.
def Ref.IsCut : Ref → Prop
  | .class_ _ | .string _ => True
  | .field sig => ∃ m, Member.ofField sig = .ok m
  | .method sig | .interfaceMethod sig => ∃ m, Member.ofMethod sig = .ok m
  | .typeLiteral _ => False

-- An item with such a constant, or none, that is one instruction at most.
def Item.IsCut : Item Ref → Prop
  | .reserve r | .const _ r | .interface r _ => r.IsCut
  | .switch _ => False
  | _ => True

theorem Item.size_le {ρ : Type} (x : Item ρ) : x.size ≤ 5 := by
  cases x with
  | load t slot | store t slot | onSlot o slot =>
    dsimp only [size]
    grind
  | _ => simp [size]

namespace ClassM

variable {env : ClassEnv} {name : String}

theorem fits_intern {r : Ref} (h : r.IsCut) : Fits env name 12 r.intern fun _ => True := by
  cases r with
  | class_ cls => exact (fits_onPool (Pool.fits_class cls)).mono (by decide) fun _ h => h
  | string text =>
    exact (fits_onPool (Pool.fits_bind (n := 2) (k := 2) (Pool.fits_add _) fun _ =>
      Pool.fits_add _)).mono (by decide) fun _ h => h
  | field sig | method sig | interfaceMethod sig => exact fits_onPool (Pool.fits_member _ h)
  | typeLiteral signature => exact h.elim

-- The instruction of an item has five bytes at most.
def IsShort (i : Item UInt16) : Prop :=
  ∀ pos, (i.raw pos).length ≤ 5

theorem fits_item {i : Item Ref} (h : i.IsCut) :
    Fits env name 12 (i.mapM Ref.intern) IsShort := by
  have hmap {g : UInt16 → Item UInt16} {r : Ref} (hr : r.IsCut) (hg : ∀ j, IsShort (g j)) :
      Fits env name 12 (g <$> r.intern) IsShort := by
    rw [map_eq_pure_bind]
    exact fits_bind (k := 0) (fits_intern hr) fun j _ => fits_pure (hg j)
  cases i with
  | reserve r | const o r | interface r slots => exact hmap h fun j pos => by simp [Item.raw]
  | switch targets => exact h.elim
  | load t slot | store t slot | onSlot o slot =>
    refine fits_pure fun pos => ?_
    rw [Item.length_raw rfl]
    exact Item.size_le _
  | _ => exact fits_pure fun pos => by simp [Item.raw]

theorem fits_items {items : List (Item Ref)} (h : ∀ i ∈ items, i.IsCut) :
    Fits env name (12 * items.length) (items.mapM fun i => i.mapM Ref.intern)
      fun its => its.length = items.length ∧ ∀ i ∈ its, IsShort i := by
  induction items with
  | nil => exact fits_pure ⟨rfl, by simp⟩
  | cons i rest ih =>
    rw [List.mapM_cons]
    have hrest := ih fun j hj => h j (List.mem_cons_of_mem _ hj)
    have hall := fits_bind (fits_item (h i List.mem_cons_self)) fun j hj =>
      fits_bind hrest fun js hjs =>
        fits_pure (n := 0) (P := fun its : List (Item UInt16) =>
          its.length = (i :: rest).length ∧ ∀ i ∈ its, IsShort i) (a := j :: js)
          ⟨by simp [hjs.1], List.forall_mem_cons.mpr ⟨hj, hjs.2⟩⟩
    exact hall.mono (by rw [List.length_cons, Nat.mul_succ]; omega) fun _ h => h

theorem pos_puts_le {l : Layout} {its : List (Item UInt16)} (h : ∀ i ∈ its, IsShort i) :
    (l.puts its).out.pos ≤ l.out.pos + 5 * its.length := by
  induction its generalizing l with
  | nil => exact Nat.le_refl _
  | cons i rest ih =>
    have hrest := ih (l := l.put i) fun j hj => h j (List.mem_cons_of_mem _ hj)
    have hfirst := h i List.mem_cons_self l.out.pos
    rw [l.pos_put] at hrest
    rw [Layout.puts_cons, List.length_cons]
    omega

-- Code of short instructions is not long.
theorem fits_assemble {out : CodeBuffer} {items : List (Item Ref)} (h : ∀ i ∈ items, i.IsCut) :
    Fits env name (12 * items.length) (assemble out items)
      fun out' => out'.code.size ≤ out.code.size + 5 * items.length := by
  refine (fits_bind (k := 0) (fits_items h) fun its hits => fits_pure ?_).mono (Nat.le_refl _)
    fun _ h => h
  rw [Layout.putAll_eq, ← hits.1]
  exact pos_puts_le hits.2

end ClassM

-- A type without members and without a source file.
structure IsBare (t : Pod.TypeDef) : Prop where
  fields : t.fields = #[]
  methods : t.methods = #[]
  native : t.hasNativePeer = false
  source : t.attrs.sourceFile = .ok none

section Bare

open ClassM

variable {env : ClassEnv} {name : String} {t : Pod.TypeDef}

theorem fits_addInterfaces (h : ∀ m ∈ t.mixins.toList, ∃ r, typeRefAt env.pod.symbols m = .ok r) :
    Fits env name (4 * t.mixins.toList.length) (addInterfaces t) fun _ => True := by
  have hloop : Fits env name (4 * t.mixins.toList.length)
      (t.mixins.toList.forM fun m => typeRef m >>= fun r =>
        onDraft (Draft.addInterface r.jname)) fun _ => True := by
    refine fits_forM fun m hm => ?_
    obtain ⟨r, hr⟩ := h m hm
    exact fits_look_bind (fun c _ => typeRef_run hr c) (fits_addInterface r.jname)
  unfold addInterfaces
  rw [forIn_eq_forM (g := fun m => typeRef m >>= fun r =>
    onDraft (Draft.addInterface r.jname)) (by intro m; simp)]
  exact (fits_bind (k := 0) hloop fun _ _ => fits_pure trivial).mono (Nat.le_refl _) fun _ h => h

theorem fits_addFields {keep : Pod.FieldDef → Bool} {access : Pod.FieldDef → UInt16}
    (h : ∀ f ∈ t.fields.toList, ∃ r, typeRefAt env.pod.symbols f.type = .ok r) :
    Fits env name (4 * t.fields.toList.length) (addFields t keep access) fun _ => True := by
  have hloop : Fits env name (4 * t.fields.toList.length)
      (t.fields.toList.forM fun f => if (f.isStorage && keep f) = true then
        typeRef f.type >>= fun r => onDraft (Draft.addField (access f) f.name r.jsig)
        else pure ()) fun _ => True := by
    refine fits_forM fun f hf => ?_
    obtain ⟨r, hr⟩ := h f hf
    split
    · exact fits_look_bind (fun c _ => typeRef_run hr c) (fits_addField _ _ _)
    · exact fits_pure trivial
  unfold addFields
  rw [forIn_eq_forM (g := fun f => if (f.isStorage && keep f) = true then
    typeRef f.type >>= fun r => onDraft (Draft.addField (access f) f.name r.jsig) else pure ()) (by
      intro f
      split <;> simp)]
  exact (fits_bind (k := 0) hloop fun _ _ => fits_pure trivial).mono (Nat.le_refl _) fun _ h => h

theorem fits_addSource (h : t.attrs.sourceFile = .ok none) :
    Fits env name 0 (addSource t) fun _ => True := by
  unfold addSource
  refine fits_look_bind (a := env) (fun c _ => rfl) ?_
  split
  · rw [h]
    intro c hc _
    exact ⟨(), _, rfl, trivial, ⟨hc.name, rfl, hc.literals⟩, Nat.le_refl _⟩
  · exact fits_pure trivial

-- Code of a few instructions is not too long for a method.
theorem fits_code {β : Type} {Q : β → Prop} {items : List (Item Ref)} {maxStack maxLocals k n : Nat}
    {f : CodeBuffer → ClassM β} (hitems : ∀ i ∈ items, i.IsCut) (hfew : items.length ≤ 1000)
    (hn : 12 * items.length + k ≤ n)
    (hf : ∀ out, out.code.size ≤ 5000 → Fits env name k (f out) Q) :
    Fits env name n (assemble (CodeBuffer.sized maxStack maxLocals) items >>= f) Q := by
  refine (fits_bind (fits_assemble hitems) fun out hout => hf out ?_).mono hn fun _ h => h
  have hsized : (CodeBuffer.sized maxStack maxLocals).code.size = 0 := rfl
  omega

theorem fits_addCode {out : CodeBuffer} (access : UInt16) (method desc : String)
    (h : out.code.size ≤ 5001) :
    Fits env name 4 (addMethod access method desc (some out)) fun _ => True := by
  refine fits_addMethod _ _ _ fun b hb => ?_
  cases hb
  unfold CodeBuffer.maxSize
  omega

theorem size_op (out : CodeBuffer) (o : UInt8) : (out.op o).code.size = out.code.size + 1 := by
  simp [CodeBuffer.op, CodeBuffer.u1, Bytes.put1]

-- Code that ends here, without a body behind it.
theorem fits_returnVoid {out : CodeBuffer} (access : UInt16) (method desc : String)
    (h : out.code.size ≤ 5000) :
    Fits env name 4 (lowerInit out none >>= fun out => addMethod access method desc (some out))
      fun _ => True := by
  refine fits_look_bind (a := out.op ClassFile.Op.returnVoid) (fun c _ => rfl) ?_
  exact fits_addCode access method desc (by rw [size_op]; omega)

theorem fits_addTypeOf (h : ∃ m, Member.ofField s!"{name}.$Type:{typeDesc}" = .ok m) :
    Fits env name 32 addTypeOf fun _ => True := by
  unfold addTypeOf
  refine fits_look_bind (fun c hc => className_run hc) ?_
  refine fits_bind (n := 4) (k := 28) (fits_addField _ _ _) fun _ _ => ?_
  refine fits_code (k := 4) ?_ (by simp) (by simp) fun out hout =>
    fits_addCode _ _ _ (Nat.le_succ_of_le hout)
  simp only [List.forall_mem_cons]
  exact ⟨h, trivial, by simp⟩

-- The initializer of a class without one of its own.
theorem fits_lowerClassInit {self : TypeRef}
    (h : ∃ m, Member.ofField s!"{name}.$Type:{typeDesc}" = .ok m) :
    Fits env name 40 (lowerClassInit (some self) none) fun _ => True := by
  unfold lowerClassInit
  refine fits_look_bind (fun c hc => className_run hc) ?_
  refine fits_code (k := 4) ?_ (by simp) (by simp) fun out hout => fits_returnVoid _ _ _ hout
  have hfind : ∃ m, Member.ofMethod "fan/sys/Type.find(Ljava/lang/String;)Lfan/sys/Type;" =
      .ok m := ⟨⟨"fan/sys/Type", "find", "(Ljava/lang/String;)Lfan/sys/Type;"⟩, by cbv⟩
  simp only [List.forall_mem_cons]
  exact ⟨trivial, hfind, h, by simp⟩

theorem fits_lowerObjectInit {superName : String}
    (h : ∃ m, Member.ofMethod (superName ++ ".<init>" ++ "()V") = .ok m) :
    Fits env name 40 (lowerObjectInit superName "()V" [] 1 false none) fun _ => True := by
  unfold lowerObjectInit
  refine fits_look_bind (a := env) (fun c _ => rfl) ?_
  refine fits_code (k := 4) ?_ (by simp) (by simp) fun out hout => fits_returnVoid _ _ _ hout
  simp only [List.cons_append, List.nil_append, Bool.false_eq_true, if_false, List.forall_mem_cons]
  exact ⟨trivial, h, by simp⟩

-- All of a class that is no error and has no peers and no initializers of its own.
theorem fits_lowerMembers {self : TypeRef} {superName : String} {n k : Nat}
    (hsource : t.attrs.sourceFile = .ok none) (hnative : t.hasNativePeer = false)
    (hstatic : lastNamed? t staticInit = none) (hinstance : lastNamed? t instanceInit = none)
    (hmixins : ∀ m ∈ t.mixins.toList, ∃ r, typeRefAt env.pod.symbols m = .ok r)
    (hfields : Fits env name n (addFields t (fun _ => true) fun f =>
      withoutAbstract (accessOf f.flags)) fun _ => True)
    (hloop : Fits env name k (forPicked t.methods.toList isListed lowerMethod) fun _ => True)
    (htype : ∃ m, Member.ofField s!"{name}.$Type:{typeDesc}" = .ok m)
    (hinit : ∃ m, Member.ofMethod (superName ++ ".<init>" ++ "()V") = .ok m) :
    Fits env name (4 * t.mixins.toList.length + (112 + n + k)) (lowerMembers self t superName false)
      fun _ => True := by
  unfold lowerMembers
  refine fits_bind (n := 4 * t.mixins.toList.length) (k := 112 + n + k) (fits_addInterfaces hmixins)
    fun _ _ => ?_
  refine (fits_bind (n := 0) (k := 112 + n + k) (fits_addSource hsource) fun _ _ => ?_).mono
    (by omega) fun _ h => h
  refine (fits_bind (n := 32) (k := 80 + n + k) (fits_addTypeOf htype) fun _ _ => ?_).mono
    (by omega) fun _ h => h
  refine fits_look_bind (fun c hc => className_run hc) ?_
  rw [hnative, hstatic, hinstance]
  refine (fits_bind (n := n) (k := 80 + k) hfields fun _ _ => ?_).mono (by omega) fun _ h => h
  refine (fits_bind (n := k) (k := 80) hloop fun _ _ => ?_).mono (by omega) fun _ h => h
  refine fits_bind (n := 40) (k := 40) (fits_lowerClassInit htype) fun _ _ => ?_
  exact fits_lowerObjectInit hinit

-- All of a class without members.
theorem fits_lowerMembers_bare {self : TypeRef} {superName : String} (ht : IsBare t)
    (hmixins : ∀ m ∈ t.mixins.toList, ∃ r, typeRefAt env.pod.symbols m = .ok r)
    (htype : ∃ m, Member.ofField s!"{name}.$Type:{typeDesc}" = .ok m)
    (hinit : ∃ m, Member.ofMethod (superName ++ ".<init>" ++ "()V") = .ok m) :
    Fits env name (4 * t.mixins.toList.length + 112) (lowerMembers self t superName false)
      fun _ => True := by
  have hfields : Fits env name 0 (addFields t (fun _ => true) fun f =>
      withoutAbstract (accessOf f.flags)) fun _ => True := by
    unfold addFields
    rw [ht.fields]
    exact fits_pure trivial
  have hloop : Fits env name 0 (forPicked t.methods.toList isListed lowerMethod)
      fun _ => True := by
    rw [ht.methods]
    exact fits_pure trivial
  have hnamed (method : String) : lastNamed? t method = none := by
    unfold lastNamed?
    rw [ht.methods]
    rfl
  exact fits_lowerMembers ht.source ht.native (hnamed _) (hnamed _) hmixins hfields hloop htype hinit

-- A method without defaults has no wrappers.
theorem fits_lowerWrappers_none {m : Pod.MethodDef} (h : m.firstDefault? = none) (t : Target)
    (access : UInt16) (mode : SelfMode) :
    Fits env name 0 (lowerWrappers m t access mode) fun _ => True := by
  unfold lowerWrappers
  rw [h]
  exact fits_pure trivial

-- The items that load variables name no constants.
theorem isCut_loadLocals {ls : List Local} : ∀ i ∈ loadLocals ls, i.IsCut := by
  intro i hi
  obtain ⟨l, -, rfl⟩ := List.mem_map.mp hi
  exact trivial

theorem length_routerLocals (slot : Nat) (kinds : List StackType) :
    (routerLocals slot kinds).length = kinds.length := by
  induction kinds generalizing slot with
  | nil => rfl
  | cons t rest ih => rw [routerLocals, List.length_cons, List.length_cons, ih]

-- A router whose method can be named.
theorem fits_lowerRouterFor {pod : Pod} {mixin : String} {m : Pod.MethodDef} {access : UInt16}
    {result : StackType} {desc bodyDesc : String} {n : Nat} (kinds : List StackType)
    (hdesc : methodDesc pod.symbols m none (m.params.take n) .inherited = .ok desc)
    (hbody : methodDesc pod.symbols m (some mixin) (m.params.take n) .inherited = .ok bodyDesc)
    (hkinds : (m.params.take n).mapM (fun p => TypeRef.stack <$> typeRefAt pod.symbols p.type) =
      .ok kinds) (hfew : kinds.length ≤ 900)
    (hcut : ∃ member, Member.ofMethod s!"{mixin}$.{m.name}{bodyDesc}" = .ok member) :
    Fits env name (12 * kinds.length + 40) (lowerRouterFor pod mixin m access result n)
      fun _ => True := by
  unfold lowerRouterFor
  refine fits_look_bind (a := desc) (fun c _ => by rw [hdesc]; rfl) ?_
  intro c hc hroom
  by_cases hthere : c.draft.hasMethod m.name desc = true
  · refine ⟨(), c, bind_eq_ok.mpr ⟨c, c, rfl, ?_⟩, trivial, hc, Nat.le_add_right _ _⟩
    rw [if_pos hthere]
    rfl
  · have hlength : (loadLocals (routerLocals 1 kinds)).length = kinds.length := by
      rw [loadLocals, List.length_map, length_routerLocals]
    have hrest : Fits env name (12 * kinds.length + 40) (ofExcept (methodDesc pod.symbols m
        (some mixin) (m.params.take n) .inherited) >>= fun bodyDesc =>
          ofExcept ((m.params.take n).mapM fun p =>
            TypeRef.stack <$> typeRefAt pod.symbols p.type) >>= fun kinds =>
        assemble (CodeBuffer.sized (1 + StackType.totalSlots kinds)
          (1 + StackType.totalSlots kinds)) (routerItems mixin m.name bodyDesc kinds result) >>=
            fun out =>
        addMethod access m.name desc (some out)) fun _ => True := by
      refine fits_look_bind (a := bodyDesc) (fun c _ => by rw [hbody]; rfl) ?_
      refine fits_look_bind (a := kinds) (fun c _ => by rw [hkinds]; rfl) ?_
      refine fits_code (k := 4) ?_ (by simp [routerItems, hlength]; omega)
        (by simp [routerItems, hlength]; omega)
        fun out hout => fits_addCode _ _ _ (Nat.le_succ_of_le hout)
      rw [routerItems, List.forall_mem_append, List.forall_mem_cons]
      refine ⟨⟨trivial, isCut_loadLocals⟩, ?_⟩
      simp only [List.forall_mem_cons]
      exact ⟨hcut, trivial, by simp⟩
    obtain ⟨u, c', hrun, hafter⟩ := hrest c hc hroom
    refine ⟨u, c', bind_eq_ok.mpr ⟨c, c, rfl, ?_⟩, hafter⟩
    rw [if_neg hthere]
    exact hrun

end Bare

section Single

open ClassM

variable {env : ClassEnv} {name : String} {f : Frame} {code : Bytes} {i : Instr}
  {x : Item UInt16}

-- Code of one instruction that becomes one item.
theorem emitBody_single {c : OpenClass}
    (hrange : Instr.decodeRange code 0 code.size = ⟨[i], none⟩)
    (hinstr : ∀ copy next, emitInstr f copy i next ⟨#[.mark i.pos], {}⟩ env c =
      .ok (false, ⟨#[.mark i.pos, x], {}⟩) c) :
    emitBody f code {} env c = .ok ((), ⟨#[.mark i.pos, x, .mark code.size], {}⟩) c := by
  refine BodyM.bind_eq_ok.mpr ⟨(), ⟨#[.mark i.pos, x], {}⟩, c, ?_, rfl⟩
  unfold maxInlineDepth emitRange
  dsimp only
  rw [hrange]
  exact BodyM.bind_eq_ok.mpr ⟨(), _, c, rfl,
    BodyM.bind_eq_ok.mpr ⟨false, _, c, hinstr _ _, rfl⟩⟩

-- The item stands behind what was there.
theorem exists_placeCode_single {c : OpenClass} {p q : Nat}
    (hbody : emitBody f code {} env c = .ok ((), ⟨#[.mark p, x, .mark q], {}⟩) c)
    (hx : x.isInert = true) (out : CodeBuffer) :
    ∃ placed : PlacedCode, placeCode f code out env c = .ok placed c ∧ placed.finallies = {} ∧
      placed.out.code.toList = out.code.toList ++ x.raw out.pos := by
  have hlayout : (BodyState.mk #[.mark p, x, .mark q] {}).layout code out =
      (Layout.start out code.size).puts [.mark p, x, .mark q] := BodyState.layout_eq _ code out
  have hnone : x.nodes ((Layout.start out code.size).put (.mark p)).scope
      ((Layout.start out code.size).put (.mark p)).out.pos = [] := by
    cases x <;> first | rfl | cases hx
  have hjumps : ((BodyState.mk #[.mark p, x, .mark q] {}).layout code out).jumps.toList = [] := by
    rw [hlayout]
    simp only [Layout.puts_cons, Layout.puts_nil, Layout.jumps_put, hnone]
    rfl
  have hplace : placeCode f code out env c = _ := placeCode_eq hbody
  rw [BodyState.fault?, hjumps] at hplace
  refine ⟨_, hplace, rfl, ?_⟩
  rw [BodyState.filled, hjumps]
  change ((BodyState.mk #[.mark p, x, .mark q] {}).layout code out).out.code.toList = _
  rw [hlayout, Layout.puts_cons, Layout.puts_cons, Layout.puts_cons, Layout.puts_nil]
  simp only [Layout.code_put]
  simp [Item.raw]
  rfl

-- Code without finally blocks needs no locals but those of its frame.
theorem exists_finish_single {placed : PlacedCode} (h : placed.finallies = {})
    (hf : f.maxLocals ≤ 0xFFFF) :
    ∃ mc, placed.finish f = .ok mc ∧ mc.code.code = placed.out.code := by
  have hlocals : placed.finallies.maxLocals f = .ok f.maxLocals.toUInt16 := by
    rw [h]
    exact if_pos hf
  exact ⟨_, except_bind_eq_ok.mpr ⟨_, hlocals, rfl⟩, rfl⟩

-- An expression of one instruction that becomes one item.
theorem fits_lowerFragment_single
    (hrange : Instr.decodeRange code 0 code.size = ⟨[i], none⟩)
    (hinstr : ∀ c copy next, emitInstr f copy i next ⟨#[.mark i.pos], {}⟩ env c =
      .ok (false, ⟨#[.mark i.pos, x], {}⟩) c)
    (hx : x.isInert = true) (hshort : IsShort x) (hf : f.maxLocals ≤ 0xFFFF) (out : CodeBuffer) :
    Fits env name 0 (lowerFragment f code out) fun mc =>
      mc.code.code.size ≤ out.code.size + 5 := by
  intro c hc _
  obtain ⟨placed, hplaced, hnone, hcode⟩ :=
    exists_placeCode_single (emitBody_single hrange (hinstr c)) hx out
  obtain ⟨mc, hfinish, hsame⟩ := exists_finish_single hnone hf
  refine ⟨mc, c, ClassM.bind_eq_ok.mpr ⟨placed, c, hplaced,
    ClassM.ofExcept_eq_ok.mpr ⟨hfinish, rfl⟩⟩, ?_, hc, Nat.le_refl _⟩
  have hlength := hshort out.pos
  have hsize := congrArg List.length hcode
  rw [List.length_append, Array.length_toList, Array.length_toList] at hsize
  dsimp only
  rw [hsame]
  omega

end Single

-- A method without entries has no table.
theorem table_nil {env : ClassEnv} {c : OpenClass} (r : Relocation) (method : String) :
    Protection.table r method [] env c = .ok [] c := by
  have hscope : ∀ scope, (Protection.inScope r scope []).mapM (Protection.ofEntry r method scope) =
      pure [] := by
    intro scope
    have hnone : Protection.inScope r scope [] = [] := by
      unfold Protection.inScope
      split
      · rfl
      · split <;> rfl
    rw [hnone]
    rfl
  unfold Protection.table
  simp only [hscope, List.mapM_pure, pure_bind]
  refine ClassM.pure_eq_ok.mpr ⟨?_, rfl⟩
  simp

-- Code that only returns.
theorem emitBody_return (f : Frame) (env : ClassEnv) (c : OpenClass) :
    emitBody f #[42] {} env c =
      .ok ((), ⟨#[.mark 0, .op ClassFile.Op.returnVoid, .mark 1], {}⟩) c :=
  emitBody_single (i := ⟨0, .returnVoid, []⟩) (by decide +kernel) fun _ _ => rfl

theorem exists_lowerCode_return {f : Frame} (hf : f.maxLocals ≤ 0xFFFF) (maxStack maxLocals : Nat)
    {env : ClassEnv} (henv : env.config.lineNumbers = false) (c : OpenClass) :
    ∃ mc, lowerCode f #[42] {} (CodeBuffer.sized maxStack maxLocals) env c = .ok mc c ∧
      mc.code.code.size = 1 := by
  obtain ⟨p, hp, hsize, hnone⟩ : ∃ p : PlacedCode,
      placeCode f #[42] (CodeBuffer.sized maxStack maxLocals) env c = .ok p c ∧
      p.out.code.size = 1 ∧ p.finallies = {} :=
    ⟨_, placeCode_eq (emitBody_return f env c), rfl, rfl⟩
  obtain ⟨mc, hfinish, hcode⟩ := exists_finish_single hnone hf
  refine ⟨mc, ClassM.bind_eq_ok.mpr ⟨p, c, hp, ClassM.bind_eq_ok.mpr ⟨#[], c, rfl,
    ClassM.bind_eq_ok.mpr ⟨[], c, table_nil _ _, ClassM.bind_eq_ok.mpr ⟨env, c, rfl, ?_⟩⟩⟩⟩,
    by rw [hcode, hsize]⟩
  rw [henv]
  exact ClassM.ofExcept_eq_ok.mpr ⟨hfinish, rfl⟩

-- A method that only returns.
theorem fits_lowerPlainBody_return {env : ClassEnv} {name : String} {m : Pod.MethodDef} {f : Frame}
    (hcode : m.code = #[42]) (hattrs : m.attrs = {}) (hf : f.maxLocals ≤ 0xFFFF)
    (hlines : env.config.lineNumbers = false) :
    ClassM.Fits env name 0 (lowerPlainBody m f) fun out => out.code.size = 1 := by
  intro c hc _
  obtain ⟨mc, hmc, hsize⟩ := exists_lowerCode_return hf f.maxStack f.maxLocals hlines c
  rw [← hcode, ← hattrs] at hmc
  exact ⟨mc.code, c, ClassM.bind_eq_ok.mpr ⟨mc, c, hmc, rfl⟩, hsize, hc, Nat.le_refl _⟩

-- A constructor without defaults whose body only returns.
theorem fits_lowerCtor_return {env : ClassEnv} {name : String} {m : Pod.MethodDef} {f g : Frame}
    {bodyDesc desc : String} (hcode : m.code = #[42]) (hattrs : m.attrs = {})
    (hfirst : m.firstDefault? = none) (hlines : env.config.lineNumbers = false)
    (hbodyDesc : methodDesc env.pod.symbols m (some env.selfName) m.params .void = .ok bodyDesc)
    (hdesc : methodDesc env.pod.symbols m none m.params (.object env.selfName) = .ok desc)
    (hf : Frame.forMethod env.pod.symbols name m .bound = .ok f)
    (hlocals : (f.withRet .void).maxLocals ≤ 0xFFFF)
    (hg : Frame.forMethod env.pod.symbols name m .unbound = .ok g)
    (hfew : (g.params m.params.length).length ≤ 900)
    (hinit : ∃ member, Member.ofMethod s!"{env.selfName}.<init>()V" = .ok member)
    (hbody : ∃ member, Member.ofMethod
      s!"{env.selfName}.{(ctorBodyTarget env.selfName m bodyDesc).name}{bodyDesc}" = .ok member) :
    ClassM.Fits env name (12 * (g.params m.params.length).length + 80) (lowerCtor m)
      fun _ => True := by
  have hbodies (access : UInt16) : ClassM.Fits env name 4 (lowerCtorBody m access)
      fun t => t = ctorBodyTarget env.selfName m bodyDesc := by
    refine ClassM.fits_look_bind (a := env) (fun c _ => rfl) ?_
    refine ClassM.fits_look_bind
      (fun c _ => ClassM.desc_run (by rwa [List.take_length]) c) ?_
    refine ClassM.fits_look_bind (fun c hc => ClassM.frame_run hf hc) ?_
    refine ClassM.fits_bind (n := 0) (k := 4)
      (fits_lowerPlainBody_return hcode hattrs hlocals hlines) fun out hout => ?_
    refine ClassM.fits_bind (n := 4) (k := 0) (fits_addCode _ _ _ (by omega)) fun _ _ => ?_
    exact ClassM.fits_bind (n := 0) (k := 0) (fits_lowerWrappers_none hfirst _ _ _) fun _ _ =>
      ClassM.fits_pure rfl
  have hloads : (loadLocals (g.params m.params.length)).length =
      (g.params m.params.length).length := by rw [loadLocals, List.length_map]
  have hitems : (factoryItems env.selfName (ctorBodyTarget env.selfName m bodyDesc)
      (g.params m.params.length)).length = (g.params m.params.length).length + 6 := by
    simp only [factoryItems, List.length_append, List.length_cons, List.length_nil, hloads]
    omega
  refine ClassM.fits_look_bind (a := env) (fun c _ => rfl) ?_
  refine (ClassM.fits_bind (n := 4) (k := 12 * (g.params m.params.length).length + 76)
    (hbodies _) ?_).mono (by omega) fun _ h => h
  rintro t rfl
  refine ClassM.fits_look_bind (fun c _ => ClassM.desc_run (by rwa [List.take_length]) c) ?_
  refine ClassM.fits_look_bind (fun c hc => ClassM.frame_run hg hc) ?_
  refine fits_code (k := 4) ?_ (by omega) (by omega) fun out hout => ?_
  · simp only [factoryItems, List.forall_mem_append, List.forall_mem_cons]
    exact ⟨⟨⟨trivial, trivial, hinit, trivial, by simp⟩, isCut_loadLocals⟩, hbody, trivial, by simp⟩
  · exact ClassM.fits_bind (n := 4) (k := 0) (fits_addCode _ _ _ (by omega)) fun _ _ =>
      fits_lowerWrappers_none hfirst _ _ _

section Wrappers

open ClassM

variable {env : ClassEnv} {name : String} {m : Pod.MethodDef} {t : Target} {access : UInt16}
  {mode : SelfMode} {f : Frame} {first : Nat}

-- A parameter with a default that becomes one instruction.
def HasShortDefault (env : ClassEnv) (name : String) (f : Frame) (p : Pod.VarDef) : Prop :=
  ∃ code, p.default? = some code ∧ ∀ out, Fits env name 0 (lowerFragment f code out) fun mc =>
    mc.code.code.size ≤ out.code.size + 5

theorem fits_lowerDefaults {params : List Pod.VarDef} {index : Nat} {out : CodeBuffer}
    (h : ∀ p ∈ params, HasShortDefault env name f p) :
    Fits env name 0 (lowerDefaults m f out index params) fun all =>
      all.code.size ≤ out.code.size + 5 * params.length := by
  induction params generalizing out index with
  | nil => exact fits_pure (Nat.le_refl _)
  | cons p rest ih =>
    obtain ⟨⟨code, hcode, hfragment⟩, hrest⟩ := List.forall_mem_cons.mp h
    unfold lowerDefaults
    rw [hcode]
    refine fits_bind (n := 0) (k := 0) (hfragment out) fun mc hmc => ?_
    refine (ih hrest).mono (Nat.le_refl _) fun all hall => ?_
    rw [List.length_cons]
    omega

-- A wrapper whose parameters have such defaults.
theorem fits_lowerWrapper {ref : UInt16} {n : Nat} {desc : String} (hn : n ≤ m.params.length)
    (hdesc : methodDesc env.pod.symbols m t.self (m.params.take n) t.result = .ok desc)
    (hdefaults : ∀ p ∈ m.params.drop n, HasShortDefault env name f p) :
    Fits env name 4000 (lowerWrapper m t access f ref n) fun _ => True := by
  have hfew := length_params_le m
  have hparams : (f.params n).length ≤ n := by
    unfold Frame.params
    refine (List.length_filterMap_le _ _).trans ?_
    rw [List.length_take]
    omega
  unfold lowerWrapper
  refine fits_look_bind (a := desc) (fun c _ => desc_run hdesc c) ?_
  have hcut : ∀ i ∈ t.receiver ++ loadLocals (f.params n), i.IsCut := by
    refine List.forall_mem_append.mpr ⟨?_, isCut_loadLocals⟩
    unfold Target.receiver
    split
    · simp [Item.IsCut]
    · exact nofun
  have hlength : (t.receiver ++ loadLocals (f.params n)).length ≤ 256 := by
    have hreceiver : t.receiver.length ≤ 1 := by
      unfold Target.receiver
      split <;> simp
    rw [List.length_append, loadLocals, List.length_map]
    omega
  refine (fits_bind (k := 4) (fits_assemble hcut) fun out hout =>
    fits_bind (n := 0) (fits_lowerDefaults hdefaults) fun all hall =>
      fits_addCode _ _ _ ?_).mono (by omega) fun _ h => h
  have hsized : ∀ maxStack maxLocals, (CodeBuffer.sized maxStack maxLocals).code.size = 0 :=
    fun _ _ => rfl
  rw [List.length_drop] at hall
  rw [hsized] at hout
  have hsize : ∀ o, ((all.op2 o ref).returnOp t.resultStack).code.size = all.code.size + 4 := by
    intro o
    rw [← Array.length_toList, ← Array.length_toList]
    simp [CodeBuffer.returnOp]
  rw [hsize]
  omega

-- So do all wrappers of a method.
theorem fits_lowerWrappers (hfirst : m.firstDefault? = some first)
    (hframe : Frame.forMethod env.pod.symbols name m mode = .ok f)
    (hcut : ∃ member, Member.ofMethod s!"{name}.{t.name}{t.desc}" = .ok member)
    (hdesc : ∀ n < m.params.length, ∃ desc,
      methodDesc env.pod.symbols m t.self (m.params.take n) t.result = .ok desc)
    (hdefaults : ∀ p ∈ m.params.drop first, HasShortDefault env name f p) :
    Fits env name (4000 * (m.params.length - first) + 12) (lowerWrappers m t access mode)
      fun _ => True := by
  unfold lowerWrappers
  rw [hfirst]
  refine fits_look_bind (fun c hc => frame_run hframe hc) ?_
  refine fits_look_bind (fun c hc => className_run hc) ?_
  refine (fits_bind (n := 12) (fits_intern (r := .method _) hcut) fun ref _ =>
    fits_forM (n := 4000) fun n hn => ?_).mono ?_ fun _ h => h
  · have hlt : n < m.params.length := List.mem_range.mp (List.mem_of_mem_drop hn)
    obtain ⟨desc, hdesc⟩ := hdesc n hlt
    -- No parameter before the first one with a default is left out.
    have hle : first ≤ n := by
      obtain ⟨i, hi, hget⟩ := List.getElem_of_mem hn
      rw [List.getElem_drop, List.getElem_range] at hget
      omega
    refine fits_lowerWrapper hlt.le hdesc fun p hp => hdefaults p ?_
    rw [← Nat.add_sub_cancel' hle, ← List.drop_drop] at hp
    exact List.mem_of_mem_drop hp
  · rw [List.length_drop, List.length_range]
    omega

end Wrappers
-- What fits into a new class can be written.
theorem exists_finish {env : ClassEnv} {name superName : String} {access : UInt16} {n : Nat}
    {r : Resolver} {x : ClassM Unit} (hx : ClassM.Fits env name n x fun _ => True)
    (hn : n ≤ 60000) :
    ∃ d c o, OpenClass.create name superName access env.config = .ok d ∧
      x env { draft := d, resolver := r } = .ok () c ∧
      OpenClass.finish { draft := c.draft, literals := c.literals } = .ok o ∧ o.name = name := by
  have hlimit : Pool.limit = 65535 := rfl
  obtain ⟨d, hd, hroom, hsource⟩ := OpenClass.exists_create name superName access env.config
  obtain ⟨hbuilt, hname, -⟩ := OpenClass.create_eq_ok hd
  obtain ⟨u, c, hrun, -, hc, hnext⟩ := hx { draft := d, resolver := r } ⟨hname, hsource, rfl⟩
    (by dsimp only; omega)
  dsimp only at hnext
  obtain ⟨o, ho⟩ := OpenClass.exists_output (d := c.draft) (by omega) hc.source
  have hfields : OpenClass.run c.draft
      (OpenClass.addLiteralFields { draft := c.draft, literals := c.literals }) =
        .ok ((), c.draft) := by
    rw [hc.literals]
    rfl
  have houtput : o.name = name := by
    unfold OpenClass.output at ho
    split at ho
    · cases ho
      exact hc.name
    · cases ho
  exact ⟨d, c, o, hd, hrun, except_bind_eq_ok.mpr ⟨_, hfields, ho⟩, houtput⟩

-- The class of the literals of a pod without any.
theorem exists_lowerLiterals {pod : Pod} (config : EmitConfig) (h : pod.literals = {}) :
    ∃ o, lowerLiterals pod config = .ok o ∧ o.name = literalClass pod.name := by
  have hlimit : Pool.limit = 65535 := rfl
  obtain ⟨d, hd, hnext, hsource⟩ := OpenClass.exists_create (literalClass pod.name)
    "java/lang/Object"
    (ClassFile.Access.public_ ||| ClassFile.Access.super_ ||| ClassFile.Access.final_) config
  obtain ⟨o, ho⟩ := OpenClass.exists_output (d := d) (by omega) hsource
  have hnone : addLiteralFields pod.literals d = .ok () d := by
    rw [h]
    rfl
  have hrun : OpenClass.run d (addLiteralFields pod.literals) = .ok ((), d) := by
    unfold OpenClass.run EStateM.run
    rw [hnone]
  obtain ⟨attrs, p, -, hname, -⟩ := OpenClass.output_eq_ok ho
  exact ⟨o, except_bind_eq_ok.mpr ⟨d, hd, except_bind_eq_ok.mpr ⟨((), d), hrun, ho⟩⟩,
    hname.trans (OpenClass.create_eq_ok hd).2.1⟩

-- A type that is a class is lowered as one.
theorem lowerType_run {e : PodEnv} {r r' : Resolver} {index : Nat} {t : Pod.TypeDef}
    {self : TypeRef} {classes : List ClassOutput} (ht : e.pod.types[index]? = some t)
    (hself : typeRefAt e.pod.symbols t.self = .ok self) (hhollow : t.isHollow = false)
    (hclass : t.isMixin = false) (h : lowerClass self ⟨e.pod, t⟩ e r = .ok classes r') :
    lowerType index e r = .ok classes r' := by
  refine PodM.bind_eq_ok.mpr ⟨e, r, rfl, ?_⟩
  rw [ht]
  refine PodM.bind_eq_ok.mpr ⟨self, r, PodM.ofExcept_run hself, ?_⟩
  dsimp only
  rw [hhollow, hclass]
  exact h

-- A class that is no error, with its routers.
theorem exists_lowerClass {e : PodEnv} {r : Resolver} {t : Pod.TypeDef} {self : TypeRef}
    {bases : List Ancestor} {routes : List (LoadedType × Pod.MethodDef)} {n k : Nat}
    (hchain : Hierarchy.ancestors e self ⟨e.pod, t⟩ = .ok bases)
    (herr : bases.any (·.ref.isErr) = false)
    (hmembers : ClassM.Fits (classEnv e self) self.jname n
      (lowerMembers self t (superclass bases) false) fun _ => True)
    (hroutes : Hierarchy.routes e ⟨e.pod, t⟩ bases = .ok routes)
    (hrouters : ClassM.Fits (classEnv e self) self.jname k
      (routes.forM fun p => lowerRouter p.1.pod p.1.type p.2) fun _ => True)
    (hroom : n + k ≤ 60000) (hdynamic : e.config.emitDynamicSubclasses = false) :
    ∃ o r', lowerClass self ⟨e.pod, t⟩ e r = .ok [o] r' ∧ o.name = self.jname := by
  have hfits : ClassM.Fits (classEnv e self) self.jname (n + k)
      (lowerMembers self t (superclass bases) (bases.any (·.ref.isErr)) >>= fun _ =>
        ofExcept (Hierarchy.routes e ⟨e.pod, t⟩ bases) >>= fun routes =>
          routes.forM fun p => lowerRouter p.1.pod p.1.type p.2) fun _ => True := by
    rw [herr, hroutes]
    exact ClassM.fits_bind hmembers fun _ _ =>
      ClassM.fits_look_bind (a := routes) (fun c _ => rfl) hrouters
  obtain ⟨d, c, o, hcreate, hrun, hfinish, honame⟩ := exists_finish (r := r) hfits hroom
  refine ⟨o, c.resolver, ?_, honame⟩
  refine PodM.bind_eq_ok.mpr ⟨e, r, rfl, ?_⟩
  refine PodM.bind_eq_ok.mpr ⟨bases, r, PodM.ofExcept_run hchain, ?_⟩
  refine PodM.bind_eq_ok.mpr ⟨d, r, PodM.ofExcept_run hcreate, ?_⟩
  refine PodM.bind_eq_ok.mpr ⟨_, c.resolver, inClass_run hrun, ?_⟩
  refine PodM.bind_eq_ok.mpr ⟨o, c.resolver, PodM.ofExcept_run hfinish, ?_⟩
  rw [herr, hdynamic]
  rfl

-- A class without members, with its routers.
theorem exists_lowerClass_bare {e : PodEnv} {r : Resolver} {t : Pod.TypeDef} {self : TypeRef}
    {bases : List Ancestor} {routes : List (LoadedType × Pod.MethodDef)} {n : Nat}
    (hbare : IsBare t)
    (hmixins : ∀ m ∈ t.mixins.toList, ∃ r, typeRefAt e.pod.symbols m = .ok r)
    (hchain : Hierarchy.ancestors e self ⟨e.pod, t⟩ = .ok bases)
    (herr : bases.any (·.ref.isErr) = false)
    (hroutes : Hierarchy.routes e ⟨e.pod, t⟩ bases = .ok routes)
    (hrouters : ClassM.Fits (classEnv e self) self.jname n
      (routes.forM fun p => lowerRouter p.1.pod p.1.type p.2) fun _ => True)
    (hroom : 4 * t.mixins.toList.length + 112 + n ≤ 60000)
    (hdynamic : e.config.emitDynamicSubclasses = false)
    (htype : ∃ m, Member.ofField s!"{self.jname}.$Type:{typeDesc}" = .ok m)
    (hinit : ∃ m, Member.ofMethod (superclass bases ++ ".<init>" ++ "()V") = .ok m) :
    ∃ o r', lowerClass self ⟨e.pod, t⟩ e r = .ok [o] r' ∧ o.name = self.jname :=
  exists_lowerClass hchain herr (fits_lowerMembers_bare hbare hmixins htype hinit) hroutes hrouters
    hroom hdynamic

-- A pod with one class without members, which is no error and routes to no mixin.
theorem exists_lowerPod_bare {e : PodEnv} {t : Pod.TypeDef} {self : TypeRef} {bases : List Ancestor}
    (htypes : e.pod.types = #[t]) (hliterals : e.pod.literals = {})
    (hself : typeRefAt e.pod.symbols t.self = .ok self) (hhollow : t.isHollow = false)
    (hclass : t.isMixin = false) (hbare : IsBare t)
    (hmixins : ∀ m ∈ t.mixins.toList, ∃ r, typeRefAt e.pod.symbols m = .ok r)
    (hfew : t.mixins.toList.length ≤ 1000)
    (hchain : Hierarchy.ancestors e self ⟨e.pod, t⟩ = .ok bases)
    (herr : bases.any (·.ref.isErr) = false)
    (hroutes : Hierarchy.routes e ⟨e.pod, t⟩ bases = .ok [])
    (hdynamic : e.config.emitDynamicSubclasses = false)
    (htype : ∃ m, Member.ofField s!"{self.jname}.$Type:{typeDesc}" = .ok m)
    (hinit : ∃ m, Member.ofMethod (superclass bases ++ ".<init>" ++ "()V") = .ok m) :
    ∃ literals o, lowerPod e.pod e.others e.config = .ok [literals, o] ∧
      literals.name = literalClass e.pod.name ∧ o.name = self.jname := by
  obtain ⟨literals, hlit, hname⟩ := exists_lowerLiterals e.config hliterals
  obtain ⟨o, r', hlower, honame⟩ := exists_lowerClass_bare (r := {}) (n := 0) hbare hmixins hchain
    herr hroutes (ClassM.fits_pure trivial) (by omega) hdynamic htype hinit
  have hall : lowerTypes (List.range e.pod.types.size) e {} = .ok ([o] ++ []) r' := by
    have hrange : List.range e.pod.types.size = [0] := by
      rw [htypes]
      rfl
    rw [hrange]
    exact PodM.bind_eq_ok.mpr ⟨[o], _,
      lowerType_run (by rw [htypes]; rfl) hself hhollow hclass hlower, rfl⟩
  refine ⟨literals, o, except_bind_eq_ok.mpr ⟨literals, hlit, ?_⟩, hname, honame⟩
  have hrun : ((lowerTypes (List.range e.pod.types.size)).run
      ⟨e.pod, e.others, e.config⟩).run {} = .ok ([o] ++ []) r' := hall
  rw [hrun]
  rfl

end Lowering

end PodCompiler
