import PodCompiler.Proofs.ClassFile.Counts
import PodCompiler.Proofs.Lowering.Linkage
import PodCompiler.Proofs.Pod.RoundTrip

namespace PodCompiler

namespace ClassFile

namespace Pool

theorem growing_method (sig : String) : Growing (method sig) := by
  intro p i p' hp h
  obtain ⟨hbuilt, hgrows, -⟩ := method_eq_ok hp h
  exact ⟨hbuilt, hgrows⟩

theorem growing_field (sig : String) : Growing (field sig) := by
  intro p i p' hp h
  obtain ⟨hbuilt, hgrows, -⟩ := field_eq_ok hp h
  exact ⟨hbuilt, hgrows⟩

-- Insertions put constants behind those that are there.
def Pushing {α : Type} (m : PoolM α) : Prop :=
  ∀ p a p', m p = .ok a p' → p.entries.toList <+: p'.entries.toList

theorem pushing_add (c : Constant) : Pushing (add c) := by
  intro p i p' h
  unfold add at h
  split at h
  · cases h
    exact List.prefix_refl _
  · split at h
    · cases h
      simp
    · cases h

theorem pushing_pure {α : Type} (a : α) : Pushing (pure a) := by
  intro p b p' h
  cases h
  exact List.prefix_refl _

theorem pushing_bind {α β : Type} {m : PoolM α} {k : α → PoolM β} (hm : Pushing m)
    (hk : ∀ a, Pushing (k a)) : Pushing (m >>= k) := by
  intro p b p' h
  obtain ⟨a, p₁, ha, hb⟩ := bind_eq_ok.mp h
  exact (hm p a p₁ ha).trans (hk a p₁ b p' hb)

end Pool

namespace Draft

variable {α β : Type}

-- Steps that leave a class with a pool that was built by insertions.
def Building (m : DraftM α) : Prop :=
  ∀ d a d', d.pool.Built → m d = .ok a d' → d'.pool.Built

theorem building_pure (a : α) : Building (pure a) := by
  intro d b d' hd h
  cases h
  exact hd

theorem building_bind {m : DraftM α} {k : α → DraftM β} (hm : Building m)
    (hk : ∀ a, Building (k a)) : Building (m >>= k) := by
  intro d b d' hd h
  obtain ⟨a, d₁, ha, hb⟩ := bind_eq_ok.mp h
  exact hk a d₁ b d' (hm d a d₁ hd ha) hb

theorem building_onPool {m : PoolM α} (hm : Pool.Growing m) : Building (onPool m) := by
  intro d a d' hd h
  obtain ⟨p, hp, rfl⟩ := onPool_eq_ok h
  exact (hm _ _ _ hd hp).1

theorem building_addField (access : UInt16) (name desc : String) :
    Building (addField access name desc) :=
  fun _ _ _ hd h => (addField_declares hd h).built

theorem building_addMethod (access : UInt16) (name desc : String) (code : Option CodeBuffer) :
    Building (addMethod access name desc code) := by
  intro d u d' hd h
  obtain ⟨m, hm, -⟩ := addMethod_eq_ok hd h
  exact hm.built

theorem building_forM {l : List α} {k : α → DraftM PUnit} (hk : ∀ x, Building (k x)) :
    Building (l.forM k) := by
  induction l with
  | nil => exact building_pure _
  | cons x l ih => exact building_bind (hk x) fun _ => ih

variable {d : Draft}

theorem pushing_attrNames (d : Draft) : Pool.Pushing (attrNames d) := by
  unfold attrNames
  refine Pool.pushing_bind (Pool.pushing_add _) fun code => ?_
  dsimp only
  split
  all_goals
    refine Pool.pushing_bind ?_ fun lines => ?_
    · first
        | exact Pool.pushing_add _
        | exact Pool.pushing_pure _
    · split
      · exact Pool.pushing_pure _
      · exact Pool.pushing_bind (Pool.pushing_add _) fun _ =>
          Pool.pushing_bind (Pool.pushing_add _) fun _ => Pool.pushing_pure _

-- The constants of a class start with its name.
theorem name_first_of_create {name superName : String} {access major : UInt16}
    (h : create name superName access major = .ok d) :
    [Constant.utf8 name] <+: d.pool.entries.toList := by
  unfold create at h
  dsimp only at h
  split at h
  · rename_i i j pool hrun
    cases h
    obtain ⟨n, p₁, hn, hrest⟩ := Pool.bind_eq_ok.mp hrun
    obtain ⟨m, p₂, hm, hclass⟩ := Pool.bind_eq_ok.mp hn
    have hfirst : [Constant.utf8 name] <+: p₂.entries.toList := by
      unfold Pool.utf8 Pool.add at hm
      rw [Std.HashMap.getElem?_empty] at hm
      dsimp only at hm
      split at hm
      · cases hm
        simp
      · cases hm
    have hsuper : Pool.Pushing (do
        let j ← Pool.class_ superName
        pure (n, j)) :=
      Pool.pushing_bind (Pool.pushing_bind (Pool.pushing_add _) fun _ => Pool.pushing_add _)
        fun _ => Pool.pushing_pure _
    exact (hfirst.trans (Pool.pushing_add _ _ _ _ hclass)).trans (hsuper _ _ _ hrest)
  · cases h

-- The first constant stands behind ten bytes.
theorem spells_serialize_first {p : Pool} {attrs : AttrIndices} {c : Constant}
    (h : [c] <+: p.entries.toList) :
    (d.serialize p attrs).Spells 10 (Bytes.written (Constant.put · c)) := by
  obtain ⟨rest, hrest⟩ := h
  have hwhole : (d.serialize p attrs).Spells 0 (d.serialize p attrs).toList := by
    intro i _
    rw [Nat.zero_add, Array.getElem?_toList]
  rw [toList_serialize, beforeMethods, ← hrest] at hwhole
  simp only [List.append_assoc, List.flatMap_cons, List.cons_append, Bytes.spells_append] at hwhole
  exact hwhole.2.2.2.2.1

end Draft

end ClassFile

namespace Lowering

open ClassFile (Draft DraftM Says)
open ClassFile.Draft (Building CountsFit classParts)
open Pod (TypeDef)

-- A class was written from what was put into it.
def ClassOutput.Written (o : ClassOutput) : Prop :=
  ∃ d attrs p, o.name = d.name ∧ Draft.attrNames d d.pool = .ok attrs p ∧ p.Built ∧
    o.bytes = d.serialize p attrs

namespace OpenClass

theorem written_of_output {d : Draft} {o : ClassOutput} (hd : d.pool.Built)
    (h : output d = .ok o) : o.Written := by
  obtain ⟨attrs, p, hattrs, hname, hbytes⟩ := output_eq_ok h
  exact ⟨d, attrs, p, hname, hattrs, (Draft.growing_attrNames d _ _ _ hd hattrs).1, hbytes⟩

theorem written_of_finish {c : OpenClass} {o : ClassOutput} (hc : c.draft.pool.Built)
    (h : c.finish = .ok o) : o.Written := by
  obtain ⟨⟨u, d⟩, hrun, hout⟩ := except_bind_eq_ok.mp h
  exact written_of_output (declares_addLiteralFields hc (run_eq_ok hrun)).built hout

theorem written_of_build {name superName : String} {access : UInt16} {config : EmitConfig}
    {members : DraftM Unit} {o : ClassOutput} (hmembers : Building members)
    (h : build name superName access config members = .ok o) : o.Written := by
  obtain ⟨d, hcreate, h₁⟩ := except_bind_eq_ok.mp h
  obtain ⟨⟨u, d'⟩, hrun, hout⟩ := except_bind_eq_ok.mp h₁
  exact written_of_output (hmembers d u d' (create_eq_ok hcreate).1 (run_eq_ok hrun)) hout

end OpenClass

theorem written_of_lowerLiterals {pod : Pod} {config : EmitConfig} {o : ClassOutput}
    (h : lowerLiterals pod config = .ok o) : o.Written := by
  unfold lowerLiterals at h
  refine OpenClass.written_of_build ?_ h
  unfold addLiteralFields
  exact Draft.building_forM fun x => Draft.building_addField _ x.1 x.2

theorem written_of_lowerCarrier {name superName : String} {config : EmitConfig} {o : ClassOutput}
    (h : lowerCarrier name superName config = .ok o) : o.Written :=
  OpenClass.written_of_build (Draft.building_bind
    (Draft.building_onPool (ClassFile.Pool.growing_method _)) fun _ =>
      Draft.building_addMethod _ _ _ _) h

theorem written_of_lowerDynamic {base : String} {config : EmitConfig} {o : ClassOutput}
    (h : lowerDynamic base config = .ok o) : o.Written :=
  OpenClass.written_of_build (Draft.building_bind (Draft.building_addField _ _ _) fun _ =>
    Draft.building_bind (Draft.building_onPool (ClassFile.Pool.growing_field _)) fun _ =>
      Draft.building_bind (Draft.building_onPool (ClassFile.Pool.growing_method _)) fun _ =>
        Draft.building_bind (Draft.building_addMethod _ _ _ _) fun _ =>
          Draft.building_addMethod _ _ _ _) h

section Types

variable {e : PodEnv} {r r' : Resolver} {self : TypeRef} {t : TypeDef}

theorem built_of_inClass {name superName : String} {access : UInt16} {draft : Draft}
    {cls : OpenClass} {x : ClassM Unit}
    (hdraft : OpenClass.create name superName access e.config = .ok draft)
    (hr : r.Sound e.pod.symbols) (hx : ClassM.Declaring x)
    (h : inClass draft self.jname x e r = .ok cls r') : cls.draft.pool.Built := by
  have hc : OpenClass.WellFormed (classEnv e self) { draft, resolver := r } :=
    ⟨(OpenClass.create_eq_ok hdraft).1, hr⟩
  unfold inClass at h
  split at h
  · rename_i u draft' resolver' literals' hrun
    cases h
    obtain ⟨ms, hms⟩ := hx _ _ _ _ hrun hc
    exact hms.formed.pool
  · cases h

theorem written_of_lowerClass {pod : Pod} {classes : List ClassOutput}
    (hr : r.Sound e.pod.symbols) (h : lowerClass self ⟨pod, t⟩ e r = .ok classes r') :
    ∀ o ∈ classes, o.Written := by
  obtain ⟨bases, main, carriers, dynamics, hparts, rfl⟩ := lowerClass_eq_ok h
  obtain ⟨draft, cls, hdraft, hcls, hfinish⟩ := hparts.lowered
  have hnone := ClassM.declaring_iff_includes.mp (ClassM.declaring_forPicked
    (l := t.methods.toList) (p := isListed) declaring_lowerMethod)
  have hbuilt := built_of_inClass hdraft hr (ClassM.declaring_iff_includes.mpr
    (includes_lowerRouted _ _ _ _ hnone)) hcls
  intro o ho
  rw [List.cons_append, List.mem_cons, List.mem_append] at ho
  obtain rfl | ho | ho := ho
  · exact OpenClass.written_of_finish hbuilt hfinish
  · obtain ⟨-, c, hc, rfl⟩ | ⟨-, rfl⟩ := hparts.carrier
    · obtain rfl := List.mem_singleton.mp ho
      exact written_of_lowerCarrier hc
    · cases ho
  · obtain ⟨c, hc, rfl⟩ | rfl := hparts.dynamic
    · obtain rfl := List.mem_singleton.mp ho
      exact written_of_lowerDynamic hc
    · cases ho

theorem written_of_lowerMixin {classes : List ClassOutput} (hr : r.Sound e.pod.symbols)
    (h : lowerMixin self t e r = .ok classes r') : ∀ o ∈ classes, o.Written := by
  obtain ⟨e', r₁, hread, h₁⟩ := PodM.bind_eq_ok.mp h
  cases hread
  obtain ⟨draft, r₂, hcreate, h₂⟩ := PodM.bind_eq_ok.mp h₁
  obtain ⟨hdraft, rfl⟩ := PodM.ofExcept_eq_ok hcreate
  obtain ⟨interface, r₃, hinterface, h₃⟩ := PodM.bind_eq_ok.mp h₂
  obtain ⟨draft', r₄, hcreate, h₄⟩ := PodM.bind_eq_ok.mp h₃
  obtain ⟨hdraft', rfl⟩ := PodM.ofExcept_eq_ok hcreate
  obtain ⟨bodies, r₅, hbodies, h₅⟩ := PodM.bind_eq_ok.mp h₄
  obtain ⟨o, r₆, hrun, h₆⟩ := PodM.bind_eq_ok.mp h₅
  obtain ⟨ho, rfl⟩ := PodM.ofExcept_eq_ok hrun
  obtain ⟨o', r₇, hrun, hpure⟩ := PodM.bind_eq_ok.mp h₆
  obtain ⟨ho', rfl⟩ := PodM.ofExcept_eq_ok hrun
  cases hpure
  have hinterfaces : ClassM.Includes (t.methods.toList.forM lowerMixinInterface) (pure ()) :=
    ClassM.declaring_iff_includes.mp (ClassM.declaring_forM declaring_lowerMixinInterface)
  have hbuilt := built_of_inClass hdraft hr (ClassM.declaring_iff_includes.mpr
    (includes_lowerInterface hinterfaces)) hinterface
  have hr' := (inClass_eq_ok hdraft hr (includes_lowerInterface hinterfaces)
    (ClassM.declaring_pure _) hinterface).1
  have hnone := ClassM.declaring_iff_includes.mp (ClassM.declaring_forPicked
    (l := t.methods.toList) (p := isMixinListed) declaring_lowerMixinBody)
  have hbuilt' : bodies.draft.pool.Built := by
    refine built_of_inClass hdraft' hr' (ClassM.declaring_iff_includes.mpr
      (includes_lowerBodies hnone ?_)) hbodies
    split
    · exact (adds_lowerClassInit _ _).declaring
    · exact ClassM.declaring_pure _
  intro c hc
  simp only [List.mem_cons, List.not_mem_nil, or_false] at hc
  obtain rfl | rfl := hc
  · exact OpenClass.written_of_finish hbuilt ho
  · exact OpenClass.written_of_finish hbuilt' ho'

theorem written_of_lowerType {index : Nat} {classes : List ClassOutput}
    (hr : r.Sound e.pod.symbols) (h : lowerType index e r = .ok classes r') :
    ∀ o ∈ classes, o.Written := by
  obtain ⟨e', r₁, hread, h₁⟩ := PodM.bind_eq_ok.mp h
  cases hread
  cases htype : e.pod.types[index]? with
  | none =>
    rw [htype] at h₁
    cases h₁
  | some t =>
    rw [htype] at h₁
    obtain ⟨self, r₂, hrun, h₂⟩ := PodM.bind_eq_ok.mp h₁
    obtain ⟨-, rfl⟩ := PodM.ofExcept_eq_ok hrun
    dsimp only at h₂
    split at h₂
    · obtain ⟨u, r₃, hthrow, -⟩ := PodM.bind_eq_ok.mp h₂
      cases hthrow
    · split at h₂
      · exact written_of_lowerMixin hr h₂
      · exact written_of_lowerClass hr h₂

theorem written_of_lowerTypes {indices : List Nat} {classes : List ClassOutput}
    (hr : r.Sound e.pod.symbols) (h : lowerTypes indices e r = .ok classes r') :
    ∀ o ∈ classes, o.Written := by
  induction indices generalizing r classes with
  | nil =>
    cases h
    simp
  | cons index rest ih =>
    obtain ⟨first, r₁, hfirst, h₁⟩ := PodM.bind_eq_ok.mp h
    obtain ⟨others, r₂, hothers, hpure⟩ := PodM.bind_eq_ok.mp h₁
    cases hpure
    rw [List.forall_mem_append]
    exact ⟨written_of_lowerType hr hfirst, ih (lowerType_lowers hr hfirst).1 hothers⟩

end Types

-- Every class of a pod says the numbers of what stands in it just if these fit two bytes.
theorem counts_said_iff {pod : Pod} {others : PodSet} {config : EmitConfig}
    {classes : List ClassOutput} (h : lowerPod pod others config = .ok classes) :
    ∀ o ∈ classes, ∃ d attrs p, o.name = d.name ∧ Draft.attrNames d d.pool = .ok attrs p ∧
      o.bytes = d.serialize p attrs ∧
      (Says o.bytes 0 (classParts d p attrs) ↔ d.CountsFit p) := by
  have hall : ∀ o ∈ classes, o.Written := by
    obtain ⟨literals, hliterals, h₁⟩ := except_bind_eq_ok.mp h
    split at h₁
    · rename_i found r hrun
      cases h₁
      rw [List.forall_mem_cons]
      refine ⟨written_of_lowerLiterals hliterals, written_of_lowerTypes ?_ hrun⟩
      intro index kind call hcall
      simp at hcall
    · cases h₁
  intro o ho
  obtain ⟨d, attrs, p, hname, hattrs, hp, hbytes⟩ := hall o ho
  refine ⟨d, attrs, p, hname, hattrs, hbytes, ?_⟩
  rw [hbytes]
  exact ClassFile.Draft.says_serialize_iff hp

theorem counts_said_iff_runs : ∃ classes,
    lowerPod runsEnv.pod runsEnv.others runsEnv.config = .ok classes ∧
    ∀ o ∈ classes, ∃ d attrs p, o.name = d.name ∧ Draft.attrNames d d.pool = .ok attrs p ∧
      o.bytes = d.serialize p attrs ∧
      (Says o.bytes 0 (classParts d p attrs) ↔ d.CountsFit p) := by
  obtain ⟨classes, h⟩ := exists_lowerPod_runs
  exact ⟨classes, h, counts_said_iff h⟩

-- A pod without types and literals has one class, which starts with its name.
theorem exists_lowerAlone_of_bare {pod : Pod} (config : EmitConfig) (htypes : pod.types = #[])
    (hliterals : pod.literals = {}) : ∃ o, lowerAlone pod config = .ok [o] ∧
      o.name = literalClass pod.name ∧
      o.bytes.Spells 10
        (Bytes.written (ClassFile.Constant.put · (.utf8 (literalClass pod.name)))) := by
  have hlimit : ClassFile.Pool.limit = 65535 := rfl
  obtain ⟨d, hdraft, hnext, hsource⟩ := Draft.exists_create (literalClass pod.name)
    "java/lang/Object"
    (ClassFile.Access.public_ ||| ClassFile.Access.super_ ||| ClassFile.Access.final_)
    config.classMajor
  have hcreate : OpenClass.create (literalClass pod.name) "java/lang/Object"
      (ClassFile.Access.public_ ||| ClassFile.Access.super_ ||| ClassFile.Access.final_) config =
        .ok d := by
    unfold OpenClass.create
    rw [hdraft]
    rfl
  obtain ⟨o, ho⟩ := OpenClass.exists_output (d := d) (by omega) hsource
  have hbuild : lowerLiterals pod config = .ok o := by
    unfold lowerLiterals
    rw [hliterals]
    exact except_bind_eq_ok.mpr ⟨d, hcreate, except_bind_eq_ok.mpr ⟨((), d), rfl, ho⟩⟩
  obtain ⟨attrs, p, hattrs, hname, hbytes⟩ := OpenClass.output_eq_ok ho
  refine ⟨o, ?_, hname.trans (OpenClass.create_eq_ok hcreate).2.1, ?_⟩
  · have hnone : List.range pod.types.size = [] := by
      rw [htypes]
      rfl
    unfold lowerAlone lowerPod
    rw [hbuild, hnone]
    rfl
  · rw [hbytes]
    exact Draft.spells_serialize_first ((Draft.name_first_of_create hdraft).trans
      (Draft.pushing_attrNames d _ _ _ hattrs))

-- A name that fills the field of its length, and with what stands around it in the name of a class
-- is too long for it.
def longName : String :=
  String.ofList (List.replicate 65535 'a')

-- Each of its letters is one byte.
theorem length_replicate_encodeChar (n : Nat) :
    ((List.replicate n 'a').flatMap Text.ModifiedUtf8.encodeChar).length = n := by
  induction n with
  | zero => rfl
  | succ n ih =>
    have hletter : (Text.ModifiedUtf8.encodeChar 'a').length = 1 := by decide
    rw [List.replicate_succ, List.flatMap_cons, List.length_append, ih, hletter, Nat.add_comm]

theorem size_encode_longName : (Text.ModifiedUtf8.encode longName).size = 65535 := by
  unfold Text.ModifiedUtf8.encode longName
  rw [String.toList_ofList, List.size_toArray, length_replicate_encodeChar]

theorem size_encode_literalClass (name : String) :
    (Text.ModifiedUtf8.encode (literalClass name)).size =
      (Text.ModifiedUtf8.encode name).size + 9 := by
  have hchars : (literalClass name).toList = "fan/".toList ++ (name.toList ++ "/$Pod".toList) := by
    simp [literalClass, toString]
  have hfront : ("fan/".toList.flatMap Text.ModifiedUtf8.encodeChar).length = 4 := by decide
  have hback : ("/$Pod".toList.flatMap Text.ModifiedUtf8.encodeChar).length = 5 := by decide
  unfold Text.ModifiedUtf8.encode
  rw [hchars, List.flatMap_append, List.flatMap_append, List.size_toArray, List.size_toArray,
    List.length_append, List.length_append, hfront, hback]
  omega

-- A pod that has nothing but its name fits.
theorem fits_assemble_bare {name : String} (h : Pod.ShortText name) :
    (Pod.Builder.assemble name {} []).Fits [] := by
  have hnames : ((Pod.Builder.assemble name {} []).finished []).names = #[] := rfl
  constructor
  case name => exact h
  case names =>
    rw [hnames]
    decide
  case nameTexts =>
    rw [hnames]
    simp
  all_goals simp [Pod.Builder.assemble]

-- The name of its class has 65544 bytes; in front of them stands that there are eight.
theorem counts_not_said_longName : ∃ pod o,
    Pod.loadFull ((Pod.Builder.assemble longName {} []).store []) = .ok pod ∧
    lowerAlone pod {} = .ok [o] ∧ (Text.ModifiedUtf8.encode o.name).size = 65544 ∧
    o.bytes.Spells 10
      ([1] ++ (Bytes.be2 8).toList ++ (Text.ModifiedUtf8.encode o.name).toList) := by
  have hshort : Pod.ShortText longName := by
    unfold Pod.ShortText
    rw [size_encode_longName]
  have hfits := fits_assemble_bare hshort
  have hload := Pod.Builder.loadFull_store
    (Pod.Builder.holds_assemble (by simp [Pod.Builder.assemble])) hfits
    (Pod.Builder.standard_assemble longName {} []) (by simp)
  let pod := (Pod.Builder.assemble longName {} []).content {} [] []
  have htypes : pod.types = #[] := rfl
  obtain ⟨o, hlower, hname, hbytes⟩ := exists_lowerAlone_of_bare {} htypes rfl
  have hname : o.name = literalClass longName := hname
  have hsize : (Text.ModifiedUtf8.encode o.name).size = 65544 := by
    rw [hname, size_encode_literalClass, size_encode_longName]
  refine ⟨_, o, hload, hlower, hsize, ?_⟩
  have hwritten : Bytes.written (ClassFile.Constant.put · (.utf8 o.name)) =
      [1] ++ (Bytes.be2 8).toList ++ (Text.ModifiedUtf8.encode o.name).toList := by
    rw [ClassFile.Constant.written_utf8, hsize]
    rfl
  rw [← hwritten, hname]
  exact hbytes

end Lowering

end PodCompiler
