import PodCompiler.Proofs.Lowering.ErrCarriers
import PodCompiler.Proofs.Lowering.MadeClasses

namespace PodCompiler.Lowering

open ClassFile (CodeBuffer Constants Draft DraftM FieldInfo MethodInfo)
open ClassFile.Op
open Pod (MethodDef TypeDef)

-- The file of a class with its constants, its fields and its methods.
def ClassOutput.HasMembers (o : ClassOutput) (k : Constants)
    (fields : List (UInt16 × String × String)) (ms : List MethodInfo) : Prop :=
  ∃ d attrs pool, Draft.attrNames d d.pool = .ok attrs pool ∧ o.name = d.name ∧
    o.bytes = d.serialize pool attrs ∧ pool.get? = k ∧
    k.className? d.thisIndex = some d.name ∧ d.fields.toList.map FieldInfo.signature = fields ∧
    d.methods.toList = ms ∧ (∀ f ∈ d.fields, f.Named k) ∧ ∀ m ∈ ms, m.Named k

-- A draft whose members and whose own name are in its pool.
structure Complete (d : Draft) : Prop where
  built : d.pool.Built
  this : Constants.className? d.pool.get? d.thisIndex = some d.name
  fields : ∀ f ∈ d.fields, f.Named d.pool.get?
  methods : ∀ m ∈ d.methods, m.Named d.pool.get?

section Output

variable {d d' : Draft} {o : ClassOutput} {ms : List MethodInfo}

theorem complete_create {name superName : String} {access : UInt16} {config : EmitConfig}
    (h : OpenClass.create name superName access config = .ok d) :
    Complete d ∧ d.fields = #[] ∧ d.methods = #[] ∧ d.name = name := by
  obtain ⟨hbuilt, hname, hthis⟩ := OpenClass.create_eq_ok h
  have hmethods := OpenClass.methods_create h
  have hfields : d.fields = #[] := by
    unfold OpenClass.create Draft.create at h
    dsimp only at h
    split at h
    · cases h
      rfl
    · cases h
  refine ⟨⟨hbuilt, hthis.trans (by rw [hname]), ?_, ?_⟩, hfields, hmethods, hname⟩
  · simp [hfields]
  · simp [hmethods]

-- Methods and fields that are put behind those of a draft.
theorem Complete.declares (hd : Complete d) (h : d.Declares ms d') (fs : Array FieldInfo)
    (hfields : d'.fields = d.fields ++ fs) (hnamed : ∀ f ∈ fs, f.Named d'.pool.get?) :
    Complete d' where
  built := h.built
  this := h.className? hd.this
  fields f hf := by
    rw [hfields, Array.mem_append] at hf
    obtain hf | hf := hf
    · exact (hd.fields f hf).extends (h.grows.extends h.built)
    · exact hnamed f hf
  methods m hm := by
    rw [← Array.mem_toList_iff, h.methods, List.mem_append] at hm
    obtain hm | hm := hm
    · exact (hd.methods m (Array.mem_toList_iff.mp hm)).extends (h.grows.extends h.built)
    · exact h.named m hm

-- A class is written with all members that it has.
theorem Complete.hasMembers (hd : Complete d) (h : OpenClass.output d = .ok o) :
    o.name = d.name ∧ ∃ k, o.HasMembers k (d.fields.toList.map FieldInfo.signature)
      d.methods.toList ∧ Constants.Extends k d.pool.get? := by
  obtain ⟨attrs, pool, hattrs, hname, hbytes⟩ := OpenClass.output_eq_ok h
  have hext := OpenClass.extends_attrNames hd.built hattrs
  refine ⟨hname, pool.get?, ⟨d, attrs, pool, hattrs, hname, hbytes, rfl,
    hext.className? hd.this, rfl, rfl, ?_, ?_⟩, hext⟩
  · exact fun f hf => (hd.fields f hf).extends hext
  · exact fun m hm => (hd.methods m (Array.mem_toList_iff.mp hm)).extends hext

-- The field of a class for a type that it keeps.
def keptField (n : Nat) : UInt16 × String × String :=
  (ClassFile.Access.private_ ||| ClassFile.Access.static_, literalField n, typeDesc)

-- A class that keeps types is written with a field for each of them.
theorem Complete.members_of_finish {c : OpenClass} (hc : Complete c.draft)
    (h : c.finish = .ok o) : o.name = c.draft.name ∧
      ∃ k, o.HasMembers k (c.draft.fields.toList.map FieldInfo.signature ++
        (List.range c.literals.size).map keptField) c.draft.methods.toList ∧
          Constants.Extends k c.draft.pool.get? := by
  obtain ⟨⟨u, d⟩, hrun, hout⟩ := except_bind_eq_ok.mp h
  have hrun := OpenClass.run_eq_ok hrun
  unfold OpenClass.addLiteralFields at hrun
  have hloop : ((List.range c.literals.size).map fun n => (literalField n, typeDesc)).forM
      (fun p => Draft.addField (ClassFile.Access.private_ ||| ClassFile.Access.static_) p.1 p.2) =
        (List.range c.literals.size).forM fun n => Draft.addField
          (ClassFile.Access.private_ ||| ClassFile.Access.static_) (literalField n) typeDesc :=
    List.forM_map ..
  rw [← hloop] at hrun
  obtain ⟨hdeclares, hhas⟩ := Draft.hasFields_of_forM hc.built ⟨rfl, hc.fields⟩ hrun
  have hd : Complete d := by
    refine ⟨hdeclares.built, hdeclares.className? hc.this, hhas.named, ?_⟩
    intro m hm
    rw [← Array.mem_toList_iff, hdeclares.methods, List.append_nil] at hm
    exact (hc.methods m (Array.mem_toList_iff.mp hm)).extends
      (hdeclares.grows.extends hdeclares.built)
  obtain ⟨hname, k, hmembers, hext⟩ := hd.hasMembers hout
  refine ⟨hname.trans hdeclares.name, k, ?_, hext.trans (hdeclares.grows.extends hdeclares.built)⟩
  rw [hhas.eq, hdeclares.methods, List.append_nil, List.map_map] at hmembers
  exact hmembers

end Output

section Stubs

variable {d d' : Draft} {o : ClassOutput} {config : EmitConfig} {u : Unit}

-- A method of plain code.
theorem addStub_eq_ok {access : UInt16} {name desc : String} {maxStack maxLocals : Nat}
    {write : CodeBuffer → CodeBuffer} (its : List (Item UInt16)) (hd : Complete d)
    (hits : Item.Straight its)
    (hwrite : (write (CodeBuffer.sized maxStack maxLocals)).code.toList = itemBytes its)
    (h : addStub access name desc maxStack maxLocals write d = .ok u d') :
    Complete d' ∧ d'.fields = d.fields ∧ ∃ w, d'.methods.toList = d.methods.toList ++ [w] ∧
      w.name = name ∧ w.desc = desc ∧ ∀ env, MadeOf env w [] := by
  obtain ⟨w, hw, -, hname, hdesc, hcode⟩ := Draft.addMethod_eq_ok hd.built h
  have hfields : d'.fields = d.fields := by rw [Draft.addMethod_frame h]
  refine ⟨hd.declares hw #[] (by simpa using hfields) (by simp), hfields, w, hw.methods,
    hname, hdesc, fun env => ⟨fun _ => rfl, fun b hb => ?_⟩⟩
  rw [hcode] at hb
  cases hb
  exact Composed.empty.items hits hwrite

-- What is used of the pool.
theorem complete_onPool {α : Type} {m : ClassFile.PoolM α} {a : α} (hm : ClassFile.Pool.Growing m)
    (hd : Complete d) (h : Draft.onPool m d = .ok a d') :
    Complete d' ∧ d'.fields = d.fields ∧ d'.methods = d.methods := by
  obtain ⟨p, hp, rfl⟩ := Draft.onPool_eq_ok h
  obtain ⟨hbuilt, hgrows⟩ := hm _ _ _ hd.built hp
  exact ⟨hd.declares (Draft.declares_pool hbuilt hgrows) #[] (by simp) (by simp), rfl, rfl⟩

theorem growing_member (mk : UInt16 → UInt16 → ClassFile.Constant)
    (m : Except ClassFile.ClassError ClassFile.Member) :
    ClassFile.Pool.Growing (ClassFile.Pool.member mk m) := by
  intro p i p' hp h
  obtain ⟨hbuilt, hgrows, -⟩ := ClassFile.Pool.member_eq_ok hp h
  exact ⟨hbuilt, hgrows⟩

theorem complete_addField {access : UInt16} {name desc : String} (hd : Complete d)
    (h : Draft.addField access name desc d = .ok u d') :
    Complete d' ∧ d'.methods = d.methods ∧ d'.fields.toList.map FieldInfo.signature =
      d.fields.toList.map FieldInfo.signature ++ [(access, name, desc)] := by
  have hdeclares := Draft.addField_declares hd.built h
  obtain ⟨f, hfields, hsig, hnamed⟩ := Draft.addField_eq_ok hd.built h
  have hmethods := hdeclares.methods
  rw [List.append_nil] at hmethods
  refine ⟨hd.declares hdeclares #[f] (by simpa using hfields) (by simpa using hnamed),
    Array.toList_inj.mp hmethods, ?_⟩
  rw [hfields, Array.toList_push, List.map_append, List.map_singleton, hsig]

-- A class that needs nothing but its own members.
theorem members_of_build {name superName : String} {access : UInt16} {members : DraftM Unit}
    (h : OpenClass.build name superName access config members = .ok o) :
    ∃ d d', Complete d ∧ d.fields = #[] ∧ d.methods = #[] ∧ d.name = name ∧
      members d = .ok () d' ∧ OpenClass.output d' = .ok o := by
  obtain ⟨d, hcreate, h₁⟩ := except_bind_eq_ok.mp h
  obtain ⟨⟨u, d'⟩, hrun, hout⟩ := except_bind_eq_ok.mp h₁
  obtain ⟨hd, hfields, hmethods, hname⟩ := complete_create hcreate
  exact ⟨d, d', hd, hfields, hmethods, hname, OpenClass.run_eq_ok hrun, hout⟩

-- The class that is thrown for an error has no fields and one method.
theorem lowerCarrier_members {name superName : String}
    (h : lowerCarrier name superName config = .ok o) :
    ∃ k w, o.HasMembers k [] [w] ∧ ∀ env, MadeOf env w [] := by
  obtain ⟨d, d', hd, hfields, hmethods, -, hrun, hout⟩ := members_of_build h
  obtain ⟨init, d₁, hinit, hstub⟩ := Draft.bind_eq_ok.mp hrun
  obtain ⟨hd₁, hfields₁, hmethods₁⟩ := complete_onPool (growing_member _ _) hd hinit
  obtain ⟨hd', hfields', w, hw, -, -, hmade⟩ := addStub_eq_ok
    [.op aload0, .const invokeSpecial init, .op returnVoid] hd₁ rfl
    (by simp [itemBytes, Item.raw, CodeBuffer.sized]) hstub
  obtain ⟨-, k, hmembers, -⟩ := hd'.hasMembers hout
  rw [hfields', hfields₁, hfields, hw, hmethods₁, hmethods] at hmembers
  exact ⟨k, w, hmembers, hmade⟩

-- The subclass whose objects hold their type has a field for it and two methods.
theorem lowerDynamic_members {base : String} (h : lowerDynamic base config = .ok o) :
    ∃ k w w', o.HasMembers k
      [(ClassFile.Access.private_ ||| ClassFile.Access.final_, "$type", typeDesc)] [w, w'] ∧
      w.name = "<init>" ∧ w'.name = "typeof" ∧
      ∀ env, MadeOf env w [] ∧ MadeOf env w' [] := by
  obtain ⟨d, d', hd, hfields, hmethods, -, hrun, hout⟩ := members_of_build h
  obtain ⟨v, d₁, hfield, hrun₁⟩ := Draft.bind_eq_ok.mp hrun
  obtain ⟨hd₁, hmethods₁, hfields₁⟩ := complete_addField hd hfield
  obtain ⟨field, d₂, href, hrun₂⟩ := Draft.bind_eq_ok.mp hrun₁
  obtain ⟨hd₂, hfields₂, hmethods₂⟩ := complete_onPool (growing_member _ _) hd₁ href
  obtain ⟨init, d₃, hinit, hrun₃⟩ := Draft.bind_eq_ok.mp hrun₂
  obtain ⟨hd₃, hfields₃, hmethods₃⟩ := complete_onPool (growing_member _ _) hd₂ hinit
  obtain ⟨v', d₄, hfirst, hlast⟩ := Draft.bind_eq_ok.mp hrun₃
  obtain ⟨hd₄, hfields₄, w, hw, hname, -, hmade⟩ := addStub_eq_ok
    [.op aload0, .const invokeSpecial init, .op aload0, .op aload1, .const putField field,
      .op returnVoid] hd₃ rfl (by simp [itemBytes, Item.raw, CodeBuffer.sized]) hfirst
  obtain ⟨hd', hfields', w', hw', hname', -, hmade'⟩ := addStub_eq_ok
    [.op aload0, .const getField field, .op areturn] hd₄ rfl
    (by simp [itemBytes, Item.raw, CodeBuffer.sized]) hlast
  obtain ⟨-, k, hmembers, -⟩ := hd'.hasMembers hout
  rw [hfields', hfields₄, hfields₃, hfields₂, hfields₁, hfields, hw', hw, hmethods₃, hmethods₂,
    hmethods₁, hmethods] at hmembers
  exact ⟨k, w, w', hmembers, hname, hname', fun env => ⟨hmade env, hmade' env⟩⟩

end Stubs

-- A class that a step made of a new one: it has the fields and methods that were made, and a field
-- for each type that it keeps.
structure Made (env : ClassEnv) (x : ClassM Unit) (fields : List String) (codes : List Bytes)
    (o : ClassOutput) (c₀ c : OpenClass) (own : List (UInt16 × String × String))
    (ms : List (MethodInfo × List Piece)) (k : Constants) : Prop where
  ready : c₀.WellFormed env
  fresh : c₀.Keeps []
  empty : c₀.draft.methods = #[]
  run : x env c₀ = .ok () c
  makes : c₀.Makes env fields codes ms c
  name : o.name = c.draft.name
  names : own.map (·.2.1) = fields
  members : o.HasMembers k (own ++ (List.range c.literals.size).map keptField) (ms.map Prod.fst)
  constants : Constants.Extends k c.draft.pool.get?

-- A class without pieces beside the one of a type; its members have names of their own.
def Stub (o : ClassOutput) (fields : List String) : Prop :=
  ∃ k own ws, o.HasMembers k own ws ∧ own.map (·.2.1) = fields ∧ (ws.map MethodInfo.name).Nodup ∧
    ∀ env, ∀ w ∈ ws, MadeOf env w []

section Classes

variable {e : PodEnv} {r r' : Resolver} {self : TypeRef} {t : TypeDef}

theorem made_of_inClass {name superName : String} {access : UInt16} {draft : Draft}
    {cls : OpenClass} {x : ClassM Unit} {fields : List String} {codes : List Bytes}
    {o : ClassOutput} (hx : ClassM.Making fields codes x)
    (hdraft : OpenClass.create name superName access e.config = .ok draft)
    (hr : r.Sound e.pod.symbols) (h : inClass draft self.jname x e r = .ok cls r')
    (ho : cls.finish = .ok o) :
    o.name = name ∧ ∃ c₀ c own ms k, Made (classEnv e self) x fields codes o c₀ c own ms k := by
  obtain ⟨hcomplete, hfields, hmethods, hname⟩ := complete_create hdraft
  have hready : OpenClass.Ready (classEnv e self) { draft, resolver := r } :=
    ⟨⟨hcomplete.built, hr⟩, [], rfl⟩
  unfold inClass at h
  split at h
  · rename_i u draft' resolver' literals' hrun
    cases h
    obtain ⟨ms, hms⟩ := hx _ _ _ _ hready hrun
    obtain ⟨fs, hfs, hnames, hnamed⟩ := hms.fields
    have hdraft' := hms.declares.draft
    have hcomplete' : Complete draft' := hcomplete.declares hdraft' fs hfs hnamed
    obtain ⟨honame, k, hmembers, hext⟩ :=
      Complete.members_of_finish (c := { draft := draft', literals := literals' }) hcomplete' ho
    dsimp only at hfs hmembers honame hext
    rw [hfs, hfields, Array.empty_append, hdraft'.methods, hmethods] at hmembers
    refine ⟨honame.trans (hdraft'.name.trans hname), _, _, _, ms, k, hready.1, rfl, hmethods, hrun,
      hms, honame, ?_, hmembers, hext⟩
    rw [List.map_map, ← hnames]
    rfl
  · cases h

-- The class of a type is made, and beside it there may be two that are not.
theorem lowerClass_made {pod : Pod} {classes : List ClassOutput} (hr : r.Sound e.pod.symbols)
    (h : lowerClass self ⟨pod, t⟩ e r = .ok classes r') :
    ∃ bases main beside, classes = main :: beside ∧ main.name = self.jname ∧
      (∃ c₀ c own ms k, Made (classEnv e self)
        (lowerMembers self t (superclass bases) (bases.any (·.ref.isErr)) >>= fun _ =>
          ofExcept (Hierarchy.routes e ⟨pod, t⟩ bases) >>= fun routes =>
            routes.forM fun p => lowerRouter p.1.pod p.1.type p.2)
        (classFields t) (classCode t) main c₀ c own ms k) ∧
      ∀ o ∈ beside, o.name = self.jname ++ "$Val" ∧ Stub o [] ∨
        o.name = self.jname ++ "$Dynamic" ∧ Stub o ["$type"] := by
  obtain ⟨bases, main, carriers, dynamics, hparts, rfl⟩ := lowerClass_eq_ok h
  obtain ⟨draft, cls, hdraft, hcls, hfinish⟩ := hparts.lowered
  obtain ⟨hname, hmade⟩ := made_of_inClass (making_lowerRouted _ _ _ _ _) hdraft hr hcls hfinish
  refine ⟨bases, main, carriers ++ dynamics, rfl, hname, hmade, ?_⟩
  intro o ho
  obtain ho | ho := List.mem_append.mp ho
  · obtain ⟨-, o', hcarrier, rfl⟩ | ⟨-, rfl⟩ := hparts.carrier
    · obtain rfl := List.mem_singleton.mp ho
      obtain ⟨k, w, hmembers, hw⟩ := lowerCarrier_members hcarrier
      exact .inl ⟨(lowerCarrier_eq_ok hcarrier).1, k, [], [w], hmembers, rfl, by simp,
        fun env => by simpa using hw env⟩
    · cases ho
  · obtain ⟨o', hdynamic, rfl⟩ | rfl := hparts.dynamic
    · obtain rfl := List.mem_singleton.mp ho
      obtain ⟨k, w, w', hmembers, hname, hname', hw⟩ := lowerDynamic_members hdynamic
      exact .inr ⟨name_of_lowerDynamic hdynamic, k, _, [w, w'], hmembers, rfl,
        by simp [hname, hname'], fun env => by simpa using hw env⟩
    · cases ho

-- The interface of a mixin and the class of its bodies are both made.
theorem lowerMixin_made {classes : List ClassOutput} (hr : r.Sound e.pod.symbols)
    (h : lowerMixin self t e r = .ok classes r') :
    ∃ interface bodies x y, classes = [interface, bodies] ∧ interface.name = self.jname ∧
      bodies.name = self.jname ++ "$" ∧
      (∃ c₀ c own ms k, Made (classEnv e self) x [] [] interface c₀ c own ms k) ∧
      ∃ c₀ c own ms k, Made (classEnv e self) y (storedFields t (·.isStatic)) (mixinCode t) bodies
        c₀ c own ms k := by
  obtain ⟨e', r₁, hread, h₁⟩ := PodM.bind_eq_ok.mp h
  cases hread
  obtain ⟨draft, r₂, hcreate, h₂⟩ := PodM.bind_eq_ok.mp h₁
  obtain ⟨hdraft, rfl⟩ := PodM.ofExcept_eq_ok hcreate
  obtain ⟨interface, r₃, hinterface, h₃⟩ := PodM.bind_eq_ok.mp h₂
  obtain ⟨draft', r₄, hcreate, h₄⟩ := PodM.bind_eq_ok.mp h₃
  obtain ⟨hdraft', rfl⟩ := PodM.ofExcept_eq_ok hcreate
  obtain ⟨bodies, r₅, hbodies, h₅⟩ := PodM.bind_eq_ok.mp h₄
  obtain ⟨o, r₆, hrun, h₆⟩ := PodM.bind_eq_ok.mp h₅
  obtain ⟨ho, rfl⟩ := PodM.ofExcept_eq_ok hrun
  obtain ⟨o', r₇, hrun, hpure⟩ := PodM.bind_eq_ok.mp h₆
  obtain ⟨ho', rfl⟩ := PodM.ofExcept_eq_ok hrun
  cases hpure
  have hr₃ : r₄.Sound e.pod.symbols := by
    have hdeclaring : ClassM.Declaring (t.methods.toList.forM lowerMixinInterface) :=
      ClassM.declaring_forM declaring_lowerMixinInterface
    exact (inClass_eq_ok hdraft hr
      (includes_lowerInterface (ClassM.declaring_iff_includes.mp hdeclaring))
      (ClassM.declaring_pure _) hinterface).1
  obtain ⟨hname, hmade⟩ := made_of_inClass (making_lowerInterface t) hdraft hr hinterface ho
  obtain ⟨last, hlast, hbodies⟩ : ∃ last, ClassM.Making [] (initCode (lastNamed? t staticInit)) last ∧
      inClass draft' self.jname (addSource t >>= fun _ => addFields t (·.isStatic)
        (fun _ => ClassFile.Access.public_ ||| ClassFile.Access.static_) >>= fun _ =>
          ClassM.forPicked t.methods.toList isMixinListed lowerMixinBody >>= fun _ => last) e r₄ =
        .ok bodies r' := by
    refine ⟨_, ?_, hbodies⟩
    cases hinit : lastNamed? t staticInit with
    | none => exact (ClassM.quiet_pure _).making
    | some m => exact making_lowerClassInit none (some m)
  obtain ⟨hname', hmade'⟩ := made_of_inClass (making_lowerBodies t _ hlast) hdraft' hr₃ hbodies ho'
  exact ⟨o, o', _, _, rfl, hname, hname', hmade, hmade'⟩

-- A type is lowered as a mixin or as a class.
theorem lowerType_cases {index : Nat} {classes : List ClassOutput}
    (h : lowerType index e r = .ok classes r') :
    ∃ t self, e.pod.types[index]? = some t ∧ typeRefAt e.pod.symbols t.self = .ok self ∧
      (t.isMixin = true ∧ lowerMixin self t e r = .ok classes r' ∨
        t.isMixin = false ∧ lowerClass self ⟨e.pod, t⟩ e r = .ok classes r') := by
  obtain ⟨e', r₁, hread, h₁⟩ := PodM.bind_eq_ok.mp h
  cases hread
  cases htype : e.pod.types[index]? with
  | none =>
    rw [htype] at h₁
    cases h₁
  | some t =>
    rw [htype] at h₁
    obtain ⟨self, r₂, hrun, h₂⟩ := PodM.bind_eq_ok.mp h₁
    obtain ⟨hself, rfl⟩ := PodM.ofExcept_eq_ok hrun
    refine ⟨t, self, rfl, hself, ?_⟩
    dsimp only at h₂
    split at h₂
    · obtain ⟨u, r₃, hthrow, -⟩ := PodM.bind_eq_ok.mp h₂
      cases hthrow
    · split at h₂
      · rename_i hmixin
        exact .inl ⟨hmixin, h₂⟩
      · rename_i hmixin
        exact .inr ⟨eq_false_of_ne_true hmixin, h₂⟩

end Classes

end PodCompiler.Lowering
