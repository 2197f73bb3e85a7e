import PodCompiler.Lowering.Pod
import PodCompiler.Proofs.Lowering.Declarations

namespace PodCompiler.Lowering

open ClassFile (CodeBuffer Constants Draft MethodInfo)
open Pod (MethodDef Symbols TypeDef)

namespace ClassM

variable {α β : Type} {g : ClassM Unit}

-- A step that takes another one on its way.
def Includes (x : ClassM α) (g : ClassM Unit) : Prop :=
  ∀ env c a c', x env c = .ok a c' → c.WellFormed env → ∃ c₁ c₂ before after,
    c.Declares env before c₁ ∧ g env c₁ = .ok () c₂ ∧ c₂.Declares env after c'

theorem Includes.bind_left {x : ClassM α} {k : α → ClassM β} (hx : Includes x g)
    (hk : ∀ a, Declaring (k a)) : Includes (x >>= k) g := by
  intro env c b c' h hc
  obtain ⟨a, c₁, ha, hb⟩ := bind_eq_ok.mp h
  obtain ⟨c₂, c₃, before, after, hbefore, hg, hafter⟩ := hx env c a c₁ ha hc
  obtain ⟨ms, hms⟩ := hk a env c₁ b c' hb hafter.formed
  exact ⟨c₂, c₃, before, after ++ ms, hbefore, hg, hafter.trans hms⟩

theorem Includes.bind_right {x : ClassM α} {k : α → ClassM β} (hx : Declaring x)
    (hk : ∀ a, Includes (k a) g) : Includes (x >>= k) g := by
  intro env c b c' h hc
  obtain ⟨a, c₁, ha, hb⟩ := bind_eq_ok.mp h
  obtain ⟨ms, hms⟩ := hx env c a c₁ ha hc
  obtain ⟨c₂, c₃, before, after, hbefore, hg, hafter⟩ := hk a env c₁ b c' hb hms.formed
  exact ⟨c₂, c₃, ms ++ before, after, hms.trans hbefore, hg, hafter⟩

-- Every step takes the one that does nothing.
theorem declaring_iff_includes {x : ClassM α} : Declaring x ↔ Includes x (pure ()) := by
  constructor
  · intro hx env c a c' h hc
    obtain ⟨ms, hms⟩ := hx env c a c' h hc
    exact ⟨c, c, [], ms, .refl hc, rfl, hms⟩
  · intro hx env c a c' h hc
    obtain ⟨c₁, c₂, before, after, hbefore, hg, hafter⟩ := hx env c a c' h hc
    obtain ⟨-, rfl⟩ := pure_eq_ok.mp hg
    exact ⟨before ++ after, hbefore.trans hafter⟩

theorem includes_forM {l : List α} {k : α → ClassM Unit} (hk : ∀ x, Declaring (k x)) {x : α}
    (hx : x ∈ l) : Includes (l.forM k) (k x) :=
  fun _ _ _ _ h hc => exists_step_of_forM hk hx h hc

theorem declaring_if {p : Prop} [Decidable p] {x : ClassM Unit} (hx : Declaring x) :
    Declaring (if p then x else pure ()) := by
  split
  · exact hx
  · exact declaring_pure _

-- A loop over the items that a test picks.
def forPicked (l : List α) (p : α → Bool) (k : α → ClassM Unit) : ClassM PUnit :=
  forIn l PUnit.unit fun x _ => if p x = true then do
    k x
    pure (ForInStep.yield PUnit.unit)
    else pure (ForInStep.yield PUnit.unit)

section Picked

variable {l : List α} {p : α → Bool} {k : α → ClassM Unit}

theorem forPicked_eq_forM : forPicked l p k = l.forM fun x => if p x = true then k x else pure () := by
  refine forIn_eq_forM fun x => ?_
  split <;> simp

theorem declaring_forPicked (hk : ∀ x, Declaring (k x)) : Declaring (forPicked l p k) := by
  rw [forPicked_eq_forM]
  exact declaring_forM fun x => declaring_if (hk x)

theorem includes_forPicked (hk : ∀ x, Declaring (k x)) {x : α} (hx : x ∈ l) (hp : p x = true) :
    Includes (forPicked l p k) (k x) := by
  rw [forPicked_eq_forM]
  have hall := includes_forM (l := l) (fun x => declaring_if (p := p x = true) (hk x)) hx
  rwa [if_pos hp] at hall

end Picked

theorem adds_forPicked {P : String → Prop} {l : List α} {p : α → Bool} {k : α → ClassM Unit}
    (hk : ∀ x ∈ l, Adds P (k x)) : Adds P (forPicked l p k) := by
  rw [forPicked_eq_forM]
  exact adds_forM fun x hx => adds_if fun _ => hk x hx

theorem adds_onDraft {m : ClassFile.DraftM α}
    (hm : ∀ d a d', d.pool.Built → m d = .ok a d' → d.Declares [] d') :
    Adds (fun _ => False) (onDraft m) := by
  intro env c a c' h hc
  obtain ⟨d, hd, rfl⟩ := onDraft_eq_ok h
  exact ⟨[], declares_onDraft hc (hm _ _ _ hc.pool hd), by simp⟩

theorem adds_addField (access : UInt16) (name desc : String) :
    Adds (fun _ => False) (onDraft (Draft.addField access name desc)) :=
  adds_onDraft fun _ _ _ => Draft.addField_declares

end ClassM

section Members

open ClassM (Adds Declaring Includes)

theorem adds_addInterfaces (t : TypeDef) : Adds (fun _ => False) (addInterfaces t) := by
  unfold addInterfaces
  refine ClassM.adds_bind ?_ fun _ => (ClassM.advancing_pure _).adds
  rw [ClassM.forIn_eq_forM (g := fun m => ClassM.typeRef m >>= fun r =>
    ClassM.onDraft (Draft.addInterface r.jname)) (by intro m; simp)]
  refine ClassM.adds_forM fun m _ => ?_
  refine ClassM.adds_bind (ClassM.advancing_typeRef m).adds fun r => ?_
  exact ClassM.adds_onDraft fun _ _ _ => Draft.addInterface_declares

theorem adds_addSource (t : TypeDef) : Adds (fun _ => False) (addSource t) := by
  unfold addSource
  refine ClassM.adds_bind ClassM.advancing_read.adds fun env => ?_
  split
  · refine ClassM.adds_bind (advancing_ofFormat _).adds fun file => ?_
    intro env c u c' h hc
    cases h
    have hd := Draft.Declares.refl hc.pool
    exact ⟨[], ⟨⟨hc.pool, hc.calls⟩, hd.built, hd.grows, rfl, rfl, hd.methods, hd.named⟩, by simp⟩
  · exact (ClassM.advancing_pure _).adds

theorem adds_addFields (t : TypeDef) (keep : Pod.FieldDef → Bool)
    (access : Pod.FieldDef → UInt16) : Adds (fun _ => False) (addFields t keep access) := by
  unfold addFields
  refine ClassM.adds_bind ?_ fun _ => (ClassM.advancing_pure _).adds
  rw [ClassM.forIn_eq_forM (g := fun f => if (f.isStorage && keep f) = true then
    ClassM.typeRef f.type >>= fun r =>
      ClassM.onDraft (Draft.addField (access f) f.name r.jsig) else pure ()) (by
        intro f
        split <;> simp)]
  refine ClassM.adds_forM fun f _ => ClassM.adds_if fun _ => ?_
  exact ClassM.adds_bind (ClassM.advancing_typeRef _).adds fun r => ClassM.adds_addField _ _ _

theorem adds_addTypeOf : Adds (· = "typeof") addTypeOf := by
  unfold addTypeOf
  refine ClassM.adds_bind ClassM.advancing_className.adds fun cls => ?_
  refine ClassM.adds_bind (ClassM.adds_addField _ _ _).of_none fun _ => ?_
  exact ClassM.adds_bind (advancing_assemble _ _).adds fun _ => ClassM.adds_addMethod rfl

theorem advancing_lowerInit (out : CodeBuffer) (body : Option MethodDef) :
    ClassM.Advancing (lowerInit out body) := by
  cases body with
  | none => exact ClassM.advancing_pure _
  | some m =>
    dsimp only [lowerInit]
    split
    · refine ClassM.advancing_bind ?_ fun f => ClassM.advancing_bind (advancing_lowerCode _ _ _ _)
        fun _ => ClassM.advancing_pure _
      refine ClassM.advancing_bind ClassM.advancing_symbols fun _ => ?_
      exact ClassM.advancing_bind ClassM.advancing_className fun _ => ClassM.advancing_ofExcept _
    · exact ClassM.advancing_pure _

theorem adds_lowerClassInit (self : Option TypeRef) (body : Option MethodDef) :
    Adds (· = "<clinit>") (lowerClassInit self body) := by
  unfold lowerClassInit
  refine ClassM.adds_bind ClassM.advancing_className.adds fun cls => ?_
  refine ClassM.adds_bind (advancing_assemble _ _).adds fun out => ?_
  exact ClassM.adds_bind (advancing_lowerInit _ _).adds fun _ => ClassM.adds_addMethod rfl

theorem adds_lowerObjectInit (superName desc : String) (args : List (Item Ref))
    (maxLocals : Nat) (native : Bool) (body : Option MethodDef) :
    Adds (· = "<init>") (lowerObjectInit superName desc args maxLocals native body) := by
  unfold lowerObjectInit
  refine ClassM.adds_bind ClassM.advancing_read.adds fun env => ?_
  refine ClassM.adds_bind (advancing_assemble _ _).adds fun out => ?_
  exact ClassM.adds_bind (advancing_lowerInit _ _).adds fun _ => ClassM.adds_addMethod rfl

theorem adds_lowerErrInit (superName : String) (native : Bool) (body : Option MethodDef) :
    Adds (· = "<init>") (lowerErrInit superName native body) := by
  unfold lowerErrInit
  refine ClassM.adds_bind ClassM.advancing_className.adds fun cls => ?_
  refine ClassM.adds_bind (advancing_assemble _ _).adds fun out => ?_
  exact ClassM.adds_bind (ClassM.adds_addMethod rfl) fun _ => adds_lowerObjectInit _ _ _ _ _ _

theorem adds_lowerSomeInit (superName : String) (isErr native : Bool) (body : Option MethodDef) :
    Adds (· = "<init>") (if isErr = true then lowerErrInit superName native body
      else lowerObjectInit superName "()V" [] 1 native body) := by
  split
  · exact adds_lowerErrInit _ _ _
  · exact adds_lowerObjectInit _ _ _ _ _ _

-- The methods that are lowered for themselves; the others are initializers.
def isListed (m : MethodDef) : Bool :=
  m.name ≠ staticInit && m.name ≠ instanceInit

-- What the loop over the methods of a class takes, the class does.
theorem includes_lowerMembers (self : TypeRef) {t : TypeDef} (superName : String) (isErr : Bool)
    {g : ClassM Unit}
    (hloop : Includes (ClassM.forPicked t.methods.toList isListed lowerMethod) g) :
    Includes (lowerMembers self t superName isErr) g := by
  have hrest : ∀ body, Declaring (if isErr = true then
      lowerErrInit superName t.hasNativePeer body
      else lowerObjectInit superName "()V" [] 1 t.hasNativePeer body) :=
    fun body => (adds_lowerSomeInit superName isErr t.hasNativePeer body).declaring
  have hinit : Declaring (lowerClassInit (some self) (lastNamed? t staticInit)) :=
    (adds_lowerClassInit _ _).declaring
  unfold lowerMembers
  refine .bind_right (adds_addInterfaces t).declaring fun _ => ?_
  refine .bind_right (adds_addSource t).declaring fun _ => ?_
  refine .bind_right adds_addTypeOf.declaring fun _ => ?_
  refine .bind_right ClassM.advancing_className.declaring fun cls => ?_
  dsimp only
  split
  · refine .bind_right (ClassM.adds_addField _ _ _).declaring fun _ => ?_
    refine .bind_right (adds_addFields _ _ _).declaring fun _ => ?_
    exact .bind_left hloop fun _ => ClassM.declaring_bind hinit fun _ => hrest _
  · refine .bind_right (adds_addFields _ _ _).declaring fun _ => ?_
    exact .bind_left hloop fun _ => ClassM.declaring_bind hinit fun _ => hrest _

-- The names of the methods that a class has before its routers.
def IsMemberName (t : TypeDef) (name : String) : Prop :=
  name = "typeof" ∨ name = "<clinit>" ∨ name = "<init>" ∨
    ∃ m ∈ t.methods.toList, name = m.name ∨ name = m.name ++ "$"

theorem adds_lowerMembers (self : TypeRef) (t : TypeDef) (superName : String) (isErr : Bool) :
    Adds (IsMemberName t) (lowerMembers self t superName isErr) := by
  have hloop : Adds (IsMemberName t)
      (ClassM.forPicked t.methods.toList isListed lowerMethod) :=
    ClassM.adds_forPicked fun m hm => (adds_lowerMethod m).mono fun name hname =>
      .inr (.inr (.inr ⟨m, hm, hname⟩))
  have hinit : Adds (IsMemberName t) (lowerClassInit (some self) (lastNamed? t staticInit)) :=
    (adds_lowerClassInit _ _).mono fun name hname => .inr (.inl hname)
  have hrest := fun body => (adds_lowerSomeInit superName isErr t.hasNativePeer body).mono
    (Q := IsMemberName t) fun name hname => .inr (.inr (.inl hname))
  unfold lowerMembers
  refine ClassM.adds_bind (adds_addInterfaces t).of_none fun _ => ?_
  refine ClassM.adds_bind (adds_addSource t).of_none fun _ => ?_
  refine ClassM.adds_bind (adds_addTypeOf.mono fun name hname => .inl hname) fun _ => ?_
  refine ClassM.adds_bind ClassM.advancing_className.adds fun cls => ?_
  dsimp only
  split
  · refine ClassM.adds_bind (ClassM.adds_addField _ _ _).of_none fun _ => ?_
    refine ClassM.adds_bind (adds_addFields _ _ _).of_none fun _ => ?_
    exact ClassM.adds_bind hloop fun _ => ClassM.adds_bind hinit fun _ => hrest _
  · refine ClassM.adds_bind (adds_addFields _ _ _).of_none fun _ => ?_
    exact ClassM.adds_bind hloop fun _ => ClassM.adds_bind hinit fun _ => hrest _

-- So does the class with its routers.
theorem includes_lowerRouted (self : TypeRef) {t : TypeDef} (superName : String) (isErr : Bool)
    (routes : Except LoweringError (List (LoadedType × MethodDef))) {g : ClassM Unit}
    (hloop : Includes (ClassM.forPicked t.methods.toList isListed lowerMethod) g) :
    Includes (lowerMembers self t superName isErr >>= fun _ => ofExcept routes >>= fun routes =>
      routes.forM fun p => lowerRouter p.1.pod p.1.type p.2) g := by
  refine .bind_left (includes_lowerMembers _ _ _ hloop) fun _ => ?_
  refine ClassM.declaring_bind (ClassM.advancing_ofExcept _).declaring fun routes => ?_
  exact ClassM.declaring_forM fun p => declaring_lowerRouter _ _ _

-- The interface of a mixin takes all of its methods.
theorem includes_lowerInterface {t : TypeDef} {g : ClassM Unit}
    (hloop : Includes (t.methods.toList.forM lowerMixinInterface) g) :
    Includes (addInterfaces t >>= fun _ => addSource t >>= fun _ =>
      t.methods.toList.forM lowerMixinInterface) g := by
  refine .bind_right (adds_addInterfaces t).declaring fun _ => ?_
  exact .bind_right (adds_addSource t).declaring fun _ => hloop

-- The methods whose bodies a mixin has.
def isMixinListed (m : MethodDef) : Bool :=
  m.name ≠ staticInit && m.name ≠ instanceInit && !m.isCtor

-- What the loop over these takes, the class of the bodies does.
theorem includes_lowerBodies {t : TypeDef} {access : Pod.FieldDef → UInt16} {last g : ClassM Unit}
    (hloop : Includes (ClassM.forPicked t.methods.toList isMixinListed lowerMixinBody) g)
    (hlast : Declaring last) :
    Includes (addSource t >>= fun _ => addFields t (·.isStatic) access >>= fun _ =>
      ClassM.forPicked t.methods.toList isMixinListed lowerMixinBody >>= fun _ => last) g := by
  refine .bind_right (adds_addSource t).declaring fun _ => ?_
  refine .bind_right (adds_addFields _ _ _).declaring fun _ => ?_
  exact .bind_left hloop fun _ => hlast

end Members

-- The file of a class has a method of the signature.
def ClassOutput.Declares (o : ClassOutput) (sig : String) : Prop :=
  ∃ d attrs pool m, Draft.attrNames d d.pool = .ok attrs pool ∧ o.name = d.name ∧
    o.bytes = d.serialize pool attrs ∧
    Constants.className? pool.get? d.thisIndex = some d.name ∧
    m ∈ d.methods ∧ m.Named pool.get? ∧ sig = d.name ++ "." ++ m.name ++ m.desc

-- The file of a class with its constants and its methods.
def ClassOutput.HasMethods (o : ClassOutput) (k : Constants) (ms : List MethodInfo) : Prop :=
  ∃ d attrs pool, Draft.attrNames d d.pool = .ok attrs pool ∧ o.name = d.name ∧
    o.bytes = d.serialize pool attrs ∧ pool.get? = k ∧
    k.className? d.thisIndex = some d.name ∧ d.methods.toList = ms ∧ ∀ m ∈ ms, m.Named k

theorem ClassOutput.HasMethods.declares {o : ClassOutput} {k : Constants} {ms : List MethodInfo}
    (h : o.HasMethods k ms) {m : MethodInfo} (hm : m ∈ ms) :
    o.Declares (o.name ++ "." ++ m.name ++ m.desc) := by
  obtain ⟨d, attrs, pool, hattrs, hname, hbytes, rfl, hthis, rfl, hnamed⟩ := h
  exact ⟨d, attrs, pool, m, hattrs, hname, hbytes, hthis, Array.mem_toList_iff.mp hm, hnamed m hm,
    by rw [hname]⟩

namespace OpenClass

theorem create_eq_ok {name superName : String} {access : UInt16} {config : EmitConfig} {d : Draft}
    (h : create name superName access config = .ok d) :
    d.pool.Built ∧ d.name = name ∧
      Constants.className? d.pool.get? d.thisIndex = some name := by
  unfold create at h
  cases hdraft : Draft.create name superName access config.classMajor with
  | error err =>
    rw [hdraft] at h
    cases h
  | ok d' =>
    rw [hdraft] at h
    cases h
    obtain ⟨hbuilt, hname, -, hthis⟩ := Draft.create_eq_ok hdraft
    exact ⟨hbuilt, hname, hthis⟩

-- A class that was just created has no methods.
theorem methods_create {name superName : String} {access : UInt16} {config : EmitConfig} {d : Draft}
    (h : create name superName access config = .ok d) : d.methods = #[] := by
  unfold create Draft.create at h
  dsimp only at h
  split at h
  · cases h
    rfl
  · cases h

theorem run_eq_ok {α : Type} {d d' : Draft} {m : ClassFile.DraftM α} {a : α}
    (h : run d m = .ok (a, d')) : m d = .ok a d' := by
  unfold run at h
  split at h
  · rename_i b d₁ hm
    cases h
    exact hm
  · cases h

-- The fields that are added at the end.
theorem declares_addLiteralFields {d : Draft} {l : List Nat} {access : UInt16} {u : PUnit}
    {c : Draft} (hc : c.pool.Built)
    (h : l.forM (fun index => Draft.addField access (literalField index) typeDesc) c = .ok u d) :
    c.Declares [] d := by
  induction l generalizing c with
  | nil =>
    cases h
    exact .refl hc
  | cons x rest ih =>
    obtain ⟨v, d₁, hfirst, hrest⟩ := Draft.bind_eq_ok.mp h
    have hfirst := Draft.addField_declares hc hfirst
    exact hfirst.trans (ih hfirst.built hrest)

theorem output_eq_ok {d : Draft} {o : ClassOutput} (h : output d = .ok o) :
    ∃ attrs p, Draft.attrNames d d.pool = .ok attrs p ∧ o.name = d.name ∧
      o.bytes = d.serialize p attrs := by
  unfold output Draft.finish at h
  cases hattrs : Draft.attrNames d d.pool with
  | error e p =>
    have hrun : (Draft.attrNames d).run d.pool = .error e p := hattrs
    rw [hrun] at h
    cases h
  | ok attrs p =>
    have hrun : (Draft.attrNames d).run d.pool = .ok attrs p := hattrs
    rw [hrun] at h
    cases h
    exact ⟨attrs, p, rfl, rfl, rfl⟩

-- The pool that a class is written over has all that its own has.
theorem extends_attrNames {d : Draft} {attrs : Draft.AttrIndices} {p : ClassFile.Pool}
    (hd : d.pool.Built) (h : Draft.attrNames d d.pool = .ok attrs p) :
    Constants.Extends p.get? d.pool.get? := by
  obtain ⟨hpool, hgrows⟩ := Draft.growing_attrNames d _ _ _ hd h
  exact hgrows.extends hpool

-- A class is written with all methods that it has.
theorem hasMethods_of_finish {c : OpenClass} {o : ClassOutput} (hc : c.draft.pool.Built)
    (hthis : Constants.className? c.draft.pool.get? c.draft.thisIndex = some c.draft.name)
    (hnamed : ∀ m ∈ c.draft.methods, m.Named c.draft.pool.get?) (h : c.finish = .ok o) :
    o.name = c.draft.name ∧ ∃ k, o.HasMethods k c.draft.methods.toList ∧
      Constants.Extends k c.draft.pool.get? := by
  obtain ⟨⟨u, d⟩, hrun, hout⟩ := except_bind_eq_ok.mp h
  have hfields := declares_addLiteralFields hc (run_eq_ok hrun)
  obtain ⟨attrs, pool, hattrs, hname, hbytes⟩ := output_eq_ok hout
  have hext := extends_attrNames hfields.built hattrs
  have hall := hext.trans (hfields.grows.extends hfields.built)
  refine ⟨hname.trans hfields.name, pool.get?, ⟨d, attrs, pool, hattrs, hname, hbytes, rfl,
    hext.className? (hfields.className? hthis), ?_, ?_⟩, hall⟩
  · rw [hfields.methods, List.append_nil]
  · exact fun m hm => (hnamed m (Array.mem_toList_iff.mp hm)).extends hall

end OpenClass

-- The calls that are kept are what the references are resolved to.
def Resolver.Sound (s : Symbols) (r : Resolver) : Prop :=
  ∀ index kind call, r.calls[(index, kind)]? = some call → computeCall s index kind = .ok call

theorem Resolver.sound_empty (s : Pod.Symbols) : ({} : Resolver).Sound s := by
  intro index kind call hcall
  simp at hcall

namespace PodM

variable {α β : Type} {e : PodEnv} {r r' : Resolver}

theorem bind_eq_ok {x : PodM α} {k : α → PodM β} {b : β} :
    (x >>= k) e r = .ok b r' ↔ ∃ a r₁, x e r = .ok a r₁ ∧ k a e r₁ = .ok b r' := by
  change EStateM.bind (x e) (fun a => k a e) r = _ ↔ _
  unfold EStateM.bind
  constructor
  · intro h
    split at h
    · rename_i a r₁ hx
      exact ⟨a, r₁, hx, h⟩
    · cases h
  · rintro ⟨a, r₁, hx, hk⟩
    rw [hx]
    exact hk

theorem ofExcept_eq_ok {x : Except LoweringError α} {a : α}
    (h : (ofExcept x : PodM α) e r = .ok a r') : x = .ok a ∧ r' = r := by
  cases x with
  | ok b =>
    cases h
    exact ⟨rfl, rfl⟩
  | error e => cases h

theorem ofExcept_run {x : Except LoweringError α} {a : α} (h : x = .ok a) :
    (ofExcept x : PodM α) e r = .ok a r := by
  subst h
  rfl

end PodM

section Types

variable {e : PodEnv} {r r' : Resolver} {self : TypeRef} {t : TypeDef} {m : MethodDef}

-- What is the same for the class of a type.
def classEnv (e : PodEnv) (self : TypeRef) : ClassEnv where
  pod := e.pod
  config := e.config
  selfName := self.jname

theorem inClass_run {draft : Draft} {c : OpenClass} {x : ClassM Unit} {u : Unit}
    (h : x (classEnv e self) { draft, resolver := r } = .ok u c) :
    inClass draft self.jname x e r = .ok { draft := c.draft, literals := c.literals } c.resolver := by
  change x ⟨e.pod, e.config, self.jname⟩ { draft, resolver := r } = _ at h
  unfold inClass ReaderT.run EStateM.run
  rw [h]

-- A class is lowered from a new one, and what it is lowered to is written.
theorem inClass_written {name superName : String} {access : UInt16} {draft : Draft} {cls : OpenClass}
    {x : ClassM Unit} (hdraft : OpenClass.create name superName access e.config = .ok draft)
    (hr : r.Sound e.pod.symbols) (hx : ClassM.Declaring x)
    (h : inClass draft self.jname x e r = .ok cls r') :
    ∃ c, OpenClass.WellFormed (classEnv e self) { draft, resolver := r } ∧
      x (classEnv e self) { draft, resolver := r } = .ok () c ∧ r' = c.resolver ∧
      c.WellFormed (classEnv e self) ∧ ∀ o, cls.finish = .ok o → o.name = name ∧
        ∃ k, o.HasMethods k c.draft.methods.toList ∧ Constants.Extends k c.draft.pool.get? := by
  obtain ⟨hbuilt, hname, hthis⟩ := OpenClass.create_eq_ok hdraft
  have hc : OpenClass.WellFormed (classEnv e self) { draft, resolver := r } := ⟨hbuilt, hr⟩
  unfold inClass at h
  split at h
  · rename_i u draft' resolver' literals' hrun
    cases h
    obtain ⟨ms, hall⟩ := hx _ _ _ _ hrun hc
    refine ⟨_, hc, hrun, rfl, hall.formed, fun o ho => ?_⟩
    have hmethods : draft'.methods.toList = ms := by
      rw [hall.draft.methods, OpenClass.methods_create hdraft]
      rfl
    have hthis' := hall.draft.className? (by rw [hthis, hname])
    obtain ⟨honame, hwritten⟩ := OpenClass.hasMethods_of_finish hall.formed.pool hthis'
      (fun m hm => hall.draft.named m (by rw [← hmethods]; exact Array.mem_toList_iff.mpr hm)) ho
    exact ⟨honame.trans (hall.draft.name.trans hname), hwritten⟩
  · cases h

-- So is what a step leaves behind that is taken on the way.
theorem inClass_eq_ok {name superName : String} {access : UInt16} {draft : Draft} {cls : OpenClass}
    {x g : ClassM Unit} (hdraft : OpenClass.create name superName access e.config = .ok draft)
    (hr : r.Sound e.pod.symbols) (hx : ClassM.Includes x g) (hg : ClassM.Declaring g)
    (h : inClass draft self.jname x e r = .ok cls r') :
    r'.Sound e.pod.symbols ∧ ∃ c₁ c₂, c₁.WellFormed (classEnv e self) ∧ c₁.draft.name = name ∧
      g (classEnv e self) c₁ = .ok () c₂ ∧ ∀ o, cls.finish = .ok o → o.name = name ∧
        ∃ k after, o.HasMethods k (c₂.draft.methods.toList ++ after) ∧
          Constants.Extends k c₂.draft.pool.get? := by
  have hdeclaring : ClassM.Declaring x := by
    intro env c u c' hrun hc
    obtain ⟨c₁, c₂, before, after, hbefore, hstep, hafter⟩ := hx env c u c' hrun hc
    obtain ⟨ms, hms⟩ := hg env c₁ () c₂ hstep hbefore.formed
    exact ⟨_, (hbefore.trans hms).trans hafter⟩
  obtain ⟨c, hc, hrun, rfl, hformed, hwritten⟩ := inClass_written hdraft hr hdeclaring h
  obtain ⟨c₁, c₂, before, after, hbefore, hstep, hafter⟩ := hx _ _ _ _ hrun hc
  refine ⟨hformed.calls, c₁, c₂, hbefore.formed,
    hbefore.draft.name.trans (OpenClass.create_eq_ok hdraft).2.1, hstep, fun o ho => ?_⟩
  obtain ⟨hname, k, hmethods, hext⟩ := hwritten o ho
  rw [hafter.draft.methods] at hmethods
  exact ⟨hname, k, after, hmethods,
    hext.trans (hafter.draft.grows.extends hafter.draft.built)⟩

-- A step is taken in a class of the name, and all methods that are there then are written.
def Takes (e : PodEnv) (self : TypeRef) (name : String) (g : ClassM Unit)
    (classes : List ClassOutput) : Prop :=
  ∃ o ∈ classes, o.name = name ∧ ∃ c₁ c₂, c₁.WellFormed (classEnv e self) ∧ c₁.draft.name = name ∧
    g (classEnv e self) c₁ = .ok () c₂ ∧ ∃ k after,
      o.HasMethods k (c₂.draft.methods.toList ++ after) ∧ Constants.Extends k c₂.draft.pool.get?

theorem Takes.mono {name : String} {g : ClassM Unit} {classes classes' : List ClassOutput}
    (h : Takes e self name g classes) (hsub : classes ⊆ classes') :
    Takes e self name g classes' := by
  obtain ⟨o, ho, hstep⟩ := h
  exact ⟨o, hsub ho, hstep⟩

theorem takes_of_inClass {name superName : String} {access : UInt16} {draft : Draft}
    {cls : OpenClass} {x g : ClassM Unit} {o : ClassOutput} {classes : List ClassOutput}
    (hdraft : OpenClass.create name superName access e.config = .ok draft)
    (hr : r.Sound e.pod.symbols) (hx : ClassM.Includes x g) (hg : ClassM.Declaring g)
    (h : inClass draft self.jname x e r = .ok cls r') (ho : cls.finish = .ok o)
    (hmem : o ∈ classes) : Takes e self name g classes := by
  obtain ⟨-, c₁, c₂, hc₁, hname, hstep, hwritten⟩ := inClass_eq_ok hdraft hr hx hg h
  obtain ⟨honame, hmethods⟩ := hwritten o ho
  exact ⟨o, hmem, honame, c₁, c₂, hc₁, hname, hstep, hmethods⟩

-- A class that stands beside another one if it is asked for, and what is done then.
theorem beside_eq_ok {α : Type} {p : Prop} [Decidable p] {x : Except LoweringError ClassOutput}
    {k : List ClassOutput → PodM α} {a : α}
    (h : (if p then (List.singleton <$> ofExcept x : PodM _) >>= k else pure [] >>= k) e r =
      .ok a r') : ∃ os, k os e r = .ok a r' ∧ ((p ∧ ∃ o, x = .ok o ∧ os = [o]) ∨ ¬p ∧ os = []) := by
  split at h
  · rename_i hp
    rw [map_eq_pure_bind] at h
    obtain ⟨os, r₁, hos, hk⟩ := PodM.bind_eq_ok.mp h
    obtain ⟨o, r₂, ho, hpure⟩ := PodM.bind_eq_ok.mp hos
    obtain ⟨hx, rfl⟩ := PodM.ofExcept_eq_ok ho
    cases hpure
    exact ⟨_, hk, .inl ⟨hp, o, hx, rfl⟩⟩
  · rename_i hp
    obtain ⟨os, r₁, hos, hk⟩ := PodM.bind_eq_ok.mp h
    cases hos
    exact ⟨_, hk, .inr ⟨hp, rfl⟩⟩

-- The class that a type extends, as the machine knows it.
def superclass (bases : List Ancestor) : String :=
  ((bases.head?.map (·.ref)).map TypeRef.jimpl).getD "fan/sys/FanObj"

-- What is thrown for the base type of an error.
def superCarrier (bases : List Ancestor) : String :=
  ((bases.head?.map (·.ref)).map fun r => r.jname ++ "$Val").getD rootCarrier

-- The class of a type, with those that stand beside it.
structure ClassParts (e : PodEnv) (ref : TypeRef) (l : LoadedType) (r r' : Resolver)
    (bases : List Ancestor) (main : ClassOutput) (carriers dynamics : List ClassOutput) : Prop where
  chain : Hierarchy.ancestors e ref l = .ok bases
  lowered : ∃ draft cls, OpenClass.create ref.jname (superclass bases) (classAccess l.type.flags)
      e.config = .ok draft ∧
    inClass draft ref.jname (lowerMembers ref l.type (superclass bases)
      (bases.any (·.ref.isErr)) >>= fun _ => ofExcept (Hierarchy.routes e l bases) >>= fun routes =>
        routes.forM fun p => lowerRouter p.1.pod p.1.type p.2) e r = .ok cls r' ∧
    cls.finish = .ok main
  carrier : (bases.any (·.ref.isErr) = true ∧ ∃ o, lowerCarrier (ref.jname ++ "$Val")
      (superCarrier bases) e.config = .ok o ∧ carriers = [o]) ∨
    ¬bases.any (·.ref.isErr) = true ∧ carriers = []
  dynamic : (∃ o, lowerDynamic ref.jname e.config = .ok o ∧ dynamics = [o]) ∨ dynamics = []

theorem lowerClass_eq_ok {l : LoadedType} {classes : List ClassOutput}
    (h : lowerClass self l e r = .ok classes r') :
    ∃ bases main carriers dynamics, ClassParts e self l r r' bases main carriers dynamics ∧
      classes = main :: carriers ++ dynamics := by
  obtain ⟨e', r₁, hread, h₁⟩ := PodM.bind_eq_ok.mp h
  cases hread
  obtain ⟨bases, r₂, hbases, h₂⟩ := PodM.bind_eq_ok.mp h₁
  obtain ⟨hchain, rfl⟩ := PodM.ofExcept_eq_ok hbases
  obtain ⟨draft, r₃, hcreate, h₃⟩ := PodM.bind_eq_ok.mp h₂
  obtain ⟨hdraft, rfl⟩ := PodM.ofExcept_eq_ok hcreate
  obtain ⟨cls, r₄, hcls, h₄⟩ := PodM.bind_eq_ok.mp h₃
  obtain ⟨main, r₅, hmain, h₅⟩ := PodM.bind_eq_ok.mp h₄
  obtain ⟨hfinish, rfl⟩ := PodM.ofExcept_eq_ok hmain
  obtain ⟨carriers, h₆, hcarriers⟩ := beside_eq_ok h₅
  obtain ⟨dynamics, hpure, hdynamics⟩ := beside_eq_ok h₆
  cases hpure
  refine ⟨bases, main, carriers, dynamics, ⟨hchain, ⟨draft, cls, hdraft, hcls, hfinish⟩,
    hcarriers, ?_⟩, rfl⟩
  obtain ⟨-, o, ho, hos⟩ | ⟨-, hos⟩ := hdynamics
  · exact .inl ⟨o, ho, hos⟩
  · exact .inr hos

theorem lowerClass_takes {pod : Pod} {classes : List ClassOutput} (hr : r.Sound e.pod.symbols)
    (h : lowerClass self ⟨pod, t⟩ e r = .ok classes r') :
    r'.Sound e.pod.symbols ∧ ∀ m ∈ t.methods, isListed m = true →
      Takes e self self.jname (lowerMethod m) classes := by
  obtain ⟨bases, main, carriers, dynamics, hparts, rfl⟩ := lowerClass_eq_ok h
  obtain ⟨draft, cls, hdraft, hcls, hfinish⟩ := hparts.lowered
  constructor
  · have hnone := ClassM.declaring_iff_includes.mp (ClassM.declaring_forPicked (l := t.methods.toList)
      (p := isListed) declaring_lowerMethod)
    exact (inClass_eq_ok hdraft hr (includes_lowerRouted _ _ _ _ hnone) (ClassM.declaring_pure _)
      hcls).1
  · intro m hm hlisted
    have hloop := ClassM.includes_forPicked (p := isListed) declaring_lowerMethod
      (Array.mem_toList_iff.mpr hm) hlisted
    exact takes_of_inClass hdraft hr (includes_lowerRouted _ _ _ _ hloop) (declaring_lowerMethod m)
      hcls hfinish List.mem_cons_self

theorem lowerMixin_takes {classes : List ClassOutput} (hr : r.Sound e.pod.symbols)
    (h : lowerMixin self t e r = .ok classes r') :
    r'.Sound e.pod.symbols ∧ ∀ m ∈ t.methods,
      Takes e self self.jname (lowerMixinInterface m) classes ∧
      (isMixinListed m = true → Takes e self (self.jname ++ "$") (lowerMixinBody m) classes) := by
  obtain ⟨e', r₁, hread, h₁⟩ := PodM.bind_eq_ok.mp h
  cases hread
  obtain ⟨draft, r₂, hcreate, h₂⟩ := PodM.bind_eq_ok.mp h₁
  obtain ⟨hdraft, rfl⟩ := PodM.ofExcept_eq_ok hcreate
  obtain ⟨interface, r₃, hinterface, h₃⟩ := PodM.bind_eq_ok.mp h₂
  obtain ⟨draft', r₄, hcreate, h₄⟩ := PodM.bind_eq_ok.mp h₃
  obtain ⟨hdraft', rfl⟩ := PodM.ofExcept_eq_ok hcreate
  obtain ⟨bodies, r₅, hbodies, h₅⟩ := PodM.bind_eq_ok.mp h₄
  obtain ⟨o, r₆, hrun, h₆⟩ := PodM.bind_eq_ok.mp h₅
  obtain ⟨ho, rfl⟩ := PodM.ofExcept_eq_ok hrun
  obtain ⟨o', r₇, hrun, hpure⟩ := PodM.bind_eq_ok.mp h₆
  obtain ⟨ho', rfl⟩ := PodM.ofExcept_eq_ok hrun
  cases hpure
  have hdeclaring : ClassM.Declaring (t.methods.toList.forM lowerMixinInterface) :=
    ClassM.declaring_forM declaring_lowerMixinInterface
  have hr₃ := (inClass_eq_ok hdraft hr
    (includes_lowerInterface (ClassM.declaring_iff_includes.mp hdeclaring))
    (ClassM.declaring_pure _) hinterface).1
  have hnone := ClassM.declaring_iff_includes.mp (ClassM.declaring_forPicked (l := t.methods.toList)
    (p := isMixinListed) declaring_lowerMixinBody)
  obtain ⟨last, hlast, hbodies⟩ : ∃ last, ClassM.Declaring last ∧ inClass draft' self.jname
      (addSource t >>= fun _ => addFields t (·.isStatic)
        (fun _ => ClassFile.Access.public_ ||| ClassFile.Access.static_) >>= fun _ =>
          ClassM.forPicked t.methods.toList isMixinListed lowerMixinBody >>= fun _ => last) e r₄ =
        .ok bodies r' := by
    refine ⟨_, ?_, hbodies⟩
    split
    · exact (adds_lowerClassInit _ _).declaring
    · exact ClassM.declaring_pure _
  refine ⟨(inClass_eq_ok hdraft' hr₃ (includes_lowerBodies hnone hlast) (ClassM.declaring_pure _)
    hbodies).1, ?_⟩
  intro m hm
  have hm := Array.mem_toList_iff.mpr hm
  constructor
  · exact takes_of_inClass hdraft hr
      (includes_lowerInterface (ClassM.includes_forM declaring_lowerMixinInterface hm))
      (declaring_lowerMixinInterface m) hinterface ho (by simp)
  · intro hlisted
    exact takes_of_inClass hdraft' hr₃
      (includes_lowerBodies (ClassM.includes_forPicked declaring_lowerMixinBody hm hlisted) hlast)
      (declaring_lowerMixinBody m) hbodies ho' (by simp)

-- The steps that lowering takes for the methods of a type.
structure Lowers (e : PodEnv) (ref : TypeRef) (t : TypeDef) (classes : List ClassOutput) : Prop where
  plain : t.isMixin = false → ∀ m ∈ t.methods, isListed m = true →
    Takes e ref ref.jname (lowerMethod m) classes
  interface : t.isMixin = true → ∀ m ∈ t.methods,
    Takes e ref ref.jname (lowerMixinInterface m) classes
  body : t.isMixin = true → ∀ m ∈ t.methods, isMixinListed m = true →
    Takes e ref (ref.jname ++ "$") (lowerMixinBody m) classes

theorem Lowers.mono {classes classes' : List ClassOutput} (h : Lowers e self t classes)
    (hsub : classes ⊆ classes') : Lowers e self t classes' where
  plain hmixin m hm hlisted := (h.plain hmixin m hm hlisted).mono hsub
  interface hmixin m hm := (h.interface hmixin m hm).mono hsub
  body hmixin m hm hlisted := (h.body hmixin m hm hlisted).mono hsub

theorem lowerType_lowers {index : Nat} {classes : List ClassOutput} (hr : r.Sound e.pod.symbols)
    (h : lowerType index e r = .ok classes r') :
    r'.Sound e.pod.symbols ∧ ∀ t self, e.pod.types[index]? = some t →
      typeRefAt e.pod.symbols t.self = .ok self → Lowers e self t classes := by
  obtain ⟨e', r₁, hread, h₁⟩ := PodM.bind_eq_ok.mp h
  cases hread
  cases htype : e.pod.types[index]? with
  | none =>
    rw [htype] at h₁
    cases h₁
  | some t =>
    rw [htype] at h₁
    obtain ⟨self, r₂, hrun, h₂⟩ := PodM.bind_eq_ok.mp h₁
    obtain ⟨hself, rfl⟩ := PodM.ofExcept_eq_ok hrun
    dsimp only at h₂
    split at h₂
    · obtain ⟨u, r₃, hthrow, -⟩ := PodM.bind_eq_ok.mp h₂
      cases hthrow
    · have hall : r'.Sound e.pod.symbols ∧ Lowers e self t classes := by
        split at h₂
        · rename_i hmixin
          obtain ⟨hr', htakes⟩ := lowerMixin_takes hr h₂
          refine ⟨hr', ?_, fun _ m hm => (htakes m hm).1, fun _ m hm => (htakes m hm).2⟩
          intro hplain
          rw [hmixin] at hplain
          cases hplain
        · rename_i hmixin
          obtain ⟨hr', htakes⟩ := lowerClass_takes hr h₂
          exact ⟨hr', fun _ => htakes, fun hmixin' => absurd hmixin' hmixin,
            fun hmixin' => absurd hmixin' hmixin⟩
      refine ⟨hall.1, ?_⟩
      intro t' self' ht' hself'
      cases ht'
      rw [hself] at hself'
      cases hself'
      exact hall.2

-- One type after the other.
theorem lowerTypes_lowers {indices : List Nat} {classes : List ClassOutput}
    (hr : r.Sound e.pod.symbols) (h : lowerTypes indices e r = .ok classes r') :
    ∀ index ∈ indices, ∀ t self, e.pod.types[index]? = some t →
      typeRefAt e.pod.symbols t.self = .ok self → Lowers e self t classes := by
  induction indices generalizing r classes with
  | nil => simp
  | cons index rest ih =>
    obtain ⟨first, r₁, hfirst, h₁⟩ := PodM.bind_eq_ok.mp h
    obtain ⟨others, r₂, hothers, hpure⟩ := PodM.bind_eq_ok.mp h₁
    cases hpure
    obtain ⟨hr₁, hlowers⟩ := lowerType_lowers hr hfirst
    intro index' hindex t self ht hself
    obtain rfl | hindex := List.mem_cons.mp hindex
    · exact (hlowers t self ht hself).mono (List.subset_append_left _ _)
    · exact (ih hr₁ hothers index' hindex t self ht hself).mono (List.subset_append_right _ _)

end Types

-- Lowering a pod lowers each of its types.
theorem lowerPod_lowers {pod : Pod} {others : PodSet} {config : EmitConfig}
    {classes : List ClassOutput} (h : lowerPod pod others config = .ok classes) {t : TypeDef}
    {self : TypeRef} (ht : t ∈ pod.types) (hself : typeRefAt pod.symbols t.self = .ok self) :
    Lowers ⟨pod, others, config⟩ self t classes := by
  obtain ⟨literals, -, h₁⟩ := except_bind_eq_ok.mp h
  split at h₁
  · rename_i found r hrun
    cases h₁
    obtain ⟨index, hindex⟩ := Array.mem_iff_getElem?.mp ht
    have hlt := (Array.getElem?_eq_some_iff.mp hindex).1
    have hall := lowerTypes_lowers (e := ⟨pod, others, config⟩) (Resolver.sound_empty _) hrun
      index (List.mem_range.mpr hlt) t self hindex hself
    exact hall.mono (List.subset_cons_self _ _)
  · cases h₁

end PodCompiler.Lowering
