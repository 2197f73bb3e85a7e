import PodCompiler.Proofs.Lowering.ProtectedRanges
import PodCompiler.Proofs.Lowering.Room
import PodCompiler.Proofs.Lowering.Schedules
import PodCompiler.Proofs.TypeRef.Bits

namespace PodCompiler

namespace Lowering

open ClassFile (Constants Draft Member Pool)
open Pod (TypeDef)

-- What a pod sees without others around it.
def PodEnv.alone (pod : Pod) (config : EmitConfig) : PodEnv :=
  ⟨pod, PodSet.add {} pod, config⟩

namespace Hierarchy

variable {pod : Pod} {config : EmitConfig}

-- Only its own types.
theorem pod_of_find_alone {t : TypeRef} {l : LoadedType}
    (h : (PodEnv.alone pod config).find t = .ok (some l)) : t.pod = pod.name := by
  by_contra hne
  have hother : ¬pod.name = t.pod := fun heq => hne heq.symm
  unfold PodEnv.find PodEnv.alone at h
  dsimp only at h
  rw [if_neg hne] at h
  have hpods : (PodSet.add {} pod).pods = #[pod] := by simp [PodSet.add]
  unfold PodSet.lookup PodSet.pod? at h
  rw [hpods] at h
  simp [hother] at h

-- One step along the base types: there is none, or one that is not known, or one whose own base
-- types follow.
theorem ancestorsWithin_eq_ok {e : PodEnv} {tooDeep : LoweringError} {depth : Nat} {l : LoadedType}
    {bases : List Ancestor} (h : ancestorsWithin e tooDeep depth l = .ok bases) :
    l.type.base = none ∧ bases = [] ∨
    ∃ base ref depth', l.type.base = some base ∧ typeRefAt l.pod.symbols base = .ok ref ∧
      depth = depth' + 1 ∧ (e.find ref = .ok none ∧ bases = [⟨ref, none⟩] ∨
        ∃ next more, e.find ref = .ok (some next) ∧
          ancestorsWithin e tooDeep depth' next = .ok more ∧ bases = ⟨ref, some next⟩ :: more) := by
  cases hbase : l.type.base with
  | none =>
    unfold ancestorsWithin at h
    rw [hbase] at h
    cases h
    exact .inl ⟨rfl, rfl⟩
  | some base =>
    cases depth with
    | zero =>
      unfold ancestorsWithin at h
      rw [hbase] at h
      cases h
    | succ depth =>
      unfold ancestorsWithin at h
      rw [hbase] at h
      obtain ⟨ref, href, h₁⟩ := except_bind_eq_ok.mp h
      obtain ⟨loaded, hfind, h₂⟩ := except_bind_eq_ok.mp h₁
      refine .inr ⟨base, ref, depth, rfl, href, rfl, ?_⟩
      cases loaded with
      | none =>
        cases h₂
        exact .inl ⟨hfind, rfl⟩
      | some next =>
        obtain ⟨more, hmore, hpure⟩ := except_bind_eq_ok.mp h₂
        cases hpure
        exact .inr ⟨next, more, hfind, hmore, rfl⟩

-- A base type that has one behind it is a type of the pod.
theorem pod_of_mem_dropLast {tooDeep : LoweringError} {depth : Nat} {l : LoadedType}
    {bases : List Ancestor}
    (h : ancestorsWithin (PodEnv.alone pod config) tooDeep depth l = .ok bases) :
    ∀ b ∈ bases.dropLast, b.ref.pod = pod.name := by
  induction depth generalizing l bases with
  | zero =>
    obtain ⟨-, rfl⟩ | ⟨base, ref, depth', -, -, hdepth, -⟩ := ancestorsWithin_eq_ok h
    · simp
    · cases hdepth
  | succ depth ih =>
    obtain ⟨-, rfl⟩ | ⟨base, ref, depth', -, -, hdepth, hfound⟩ := ancestorsWithin_eq_ok h
    · simp
    cases hdepth
    obtain ⟨-, rfl⟩ | ⟨next, more, hfind, hmore, rfl⟩ := hfound
    · simp
    cases more with
    | nil => simp
    | cons b more =>
      rw [List.dropLast_cons_cons]
      exact List.forall_mem_cons.mpr ⟨pod_of_find_alone hfind, ih hmore⟩

-- The root of all errors is seen where the types of another pod begin.
theorem exists_isErr_iff_getLast {self : TypeRef} {l : LoadedType} {bases : List Ancestor}
    (h : ancestors (PodEnv.alone pod config) self l = .ok bases) (hpod : pod.name ≠ "sys") :
    (∃ b ∈ bases, b.ref.isErr = true) ↔ ∃ b, bases.getLast? = some b ∧ b.ref.isErr = true := by
  constructor
  · rintro ⟨b, hb, herr⟩
    obtain rfl | ⟨front, last, rfl⟩ := List.eq_nil_or_concat bases
    · cases hb
    · rw [List.concat_eq_append] at hb h ⊢
      obtain hb | hb := List.mem_append.mp hb
      · have hfront := pod_of_mem_dropLast h b (by simpa using hb)
        rw [(TypeRef.isErr_iff.mp herr).1] at hfront
        exact absurd hfront.symm hpod
      · obtain rfl := List.mem_singleton.mp hb
        exact ⟨b, by simp, herr⟩
  · rintro ⟨b, hlast, herr⟩
    exact ⟨b, List.mem_of_getLast? hlast, herr⟩

end Hierarchy

-- The file of a class says that it extends another one.
def ClassOutput.Extends (o : ClassOutput) (superName : String) : Prop :=
  ∃ d attrs pool, Draft.attrNames d d.pool = .ok attrs pool ∧ o.name = d.name ∧
    o.bytes = d.serialize pool attrs ∧
    Constants.className? pool.get? d.thisIndex = some d.name ∧
    Constants.className? pool.get? d.superIndex = some superName

-- A new class names itself and the one that it extends.
theorem create_super {name superName : String} {access : UInt16} {config : EmitConfig} {d : Draft}
    (h : OpenClass.create name superName access config = .ok d) :
    Constants.className? d.pool.get? d.superIndex = some superName := by
  unfold OpenClass.create Draft.create at h
  dsimp only at h
  split at h
  · rename_i i j pool hrun
    cases h
    obtain ⟨n, p₁, hn, hrest⟩ := Pool.bind_eq_ok.mp hrun
    obtain ⟨m, p₂, hm, hpure⟩ := Pool.bind_eq_ok.mp hrest
    cases hpure
    obtain ⟨hbuilt₁, -, -⟩ := Pool.class_eq_ok Pool.built_empty hn
    exact (Pool.class_eq_ok hbuilt₁ hm).2.2
  · cases h

-- What is thrown for an error extends what is thrown for its base type.
theorem lowerCarrier_eq_ok {name superName : String} {config : EmitConfig} {o : ClassOutput}
    (h : lowerCarrier name superName config = .ok o) : o.name = name ∧ o.Extends superName := by
  obtain ⟨d, hcreate, h₁⟩ := except_bind_eq_ok.mp h
  obtain ⟨⟨u, d'⟩, hrun, h₂⟩ := except_bind_eq_ok.mp h₁
  have hout : OpenClass.output d' = .ok o := h₂
  obtain ⟨hbuilt, hname, hthis⟩ := OpenClass.create_eq_ok hcreate
  have hsuper := create_super hcreate
  obtain ⟨init, d₁, hinit, hstub⟩ := Draft.bind_eq_ok.mp (OpenClass.run_eq_ok hrun)
  obtain ⟨p, hp, rfl⟩ := Draft.onPool_eq_ok hinit
  obtain ⟨hbuilt₁, hgrows₁, -⟩ := Pool.method_eq_ok hbuilt hp
  obtain ⟨m, hdeclares, -⟩ := Draft.addMethod_eq_ok hbuilt₁ hstub
  have hall := (Draft.declares_pool hbuilt₁ hgrows₁).trans hdeclares
  obtain ⟨attrs, pool, hattrs, houtput, hbytes⟩ := OpenClass.output_eq_ok h₂
  have hext := OpenClass.extends_attrNames hall.built hattrs
  have hindex : d'.superIndex = d.superIndex := by rw [Draft.addMethod_frame hstub]
  refine ⟨houtput.trans (hall.name.trans hname), d', attrs, pool, hattrs, houtput, hbytes,
    hext.className? (hall.className? (by rw [hthis, hname])), ?_⟩
  rw [hindex]
  exact hext.className? ((hall.grows.extends hall.built).className? hsuper)

-- Classes are written under the names that they were made with.
theorem name_of_lowerDynamic {base : String} {config : EmitConfig} {o : ClassOutput}
    (h : lowerDynamic base config = .ok o) : o.name = base ++ "$Dynamic" := by
  obtain ⟨d, hcreate, h₁⟩ := except_bind_eq_ok.mp h
  obtain ⟨⟨u, d'⟩, hrun, h₂⟩ := except_bind_eq_ok.mp h₁
  obtain ⟨hbuilt, hname, -⟩ := OpenClass.create_eq_ok hcreate
  obtain ⟨u₁, d₁, hfield, h₃⟩ := Draft.bind_eq_ok.mp (OpenClass.run_eq_ok hrun)
  obtain ⟨i, d₂, hget, h₄⟩ := Draft.bind_eq_ok.mp h₃
  obtain ⟨j, d₃, hinit, h₅⟩ := Draft.bind_eq_ok.mp h₄
  obtain ⟨u₂, d₄, hfirst, hsecond⟩ := Draft.bind_eq_ok.mp h₅
  obtain ⟨p, -, rfl⟩ := Draft.onPool_eq_ok hget
  obtain ⟨p', -, rfl⟩ := Draft.onPool_eq_ok hinit
  obtain ⟨attrs, pool, -, houtput, -⟩ := OpenClass.output_eq_ok h₂
  rw [houtput, Draft.addMethod_frame hsecond]
  dsimp only
  rw [Draft.addMethod_frame hfirst]
  dsimp only
  exact (Draft.addField_declares hbuilt hfield).name.trans hname

section Types

variable {e : PodEnv} {r r' : Resolver} {self : TypeRef}

theorem name_of_inClass {name superName : String} {access : UInt16} {draft : Draft}
    {cls : OpenClass} {x : ClassM Unit} {o : ClassOutput}
    (hdraft : OpenClass.create name superName access e.config = .ok draft)
    (hr : r.Sound e.pod.symbols) (hx : ClassM.Declaring x)
    (h : inClass draft self.jname x e r = .ok cls r') (ho : cls.finish = .ok o) :
    o.name = name := by
  obtain ⟨hbuilt, hname, -⟩ := OpenClass.create_eq_ok hdraft
  unfold inClass at h
  split at h
  · rename_i u draft' resolver' literals' hrun
    cases h
    have hc : OpenClass.WellFormed (classEnv e self) { draft, resolver := r } := ⟨hbuilt, hr⟩
    obtain ⟨ms, hms⟩ := hx _ _ _ _ hrun hc
    obtain ⟨⟨u', d⟩, hfields, hout⟩ := except_bind_eq_ok.mp ho
    have hdeclares := OpenClass.declares_addLiteralFields hms.formed.pool
      (OpenClass.run_eq_ok hfields)
    obtain ⟨attrs, pool, -, houtput, -⟩ := OpenClass.output_eq_ok hout
    exact houtput.trans (hdeclares.name.trans (hms.draft.name.trans hname))
  · cases h

-- Of the classes of a type one is what is thrown for it, just if the root of all errors is among
-- its base types; and that one extends what is thrown for the nearest of them.
theorem ClassParts.carrier_iff {l : LoadedType} {bases : List Ancestor} {main : ClassOutput}
    {carriers dynamics : List ClassOutput} (hr : r.Sound e.pod.symbols)
    (h : ClassParts e self l r r' bases main carriers dynamics) :
    ((∃ o ∈ main :: carriers ++ dynamics, o.name = self.jname ++ "$Val") ↔
      bases.any (·.ref.isErr) = true) ∧
    ∀ o ∈ main :: carriers ++ dynamics, o.name = self.jname ++ "$Val" →
      o.Extends (superCarrier bases) := by
  obtain ⟨draft, cls, hdraft, hcls, hfinish⟩ := h.lowered
  have hnone := ClassM.declaring_iff_includes.mp (ClassM.declaring_forPicked
    (l := l.type.methods.toList) (p := isListed) declaring_lowerMethod)
  have hmain : main.name = self.jname := name_of_inClass hdraft hr
    (ClassM.declaring_iff_includes.mpr (includes_lowerRouted _ _ _ _ hnone)) hcls hfinish
  -- The other classes have names of their own.
  have hother : ∀ o ∈ main :: dynamics, o.name ≠ self.jname ++ "$Val" := by
    intro o ho hname
    obtain rfl | ho := List.mem_cons.mp ho
    · have hlength := congrArg (·.toList.length) (hmain.symm.trans hname)
      simp at hlength
    · obtain ⟨c, hc, rfl⟩ | rfl := h.dynamic
      · obtain rfl := List.mem_singleton.mp ho
        have hsame := (String.append_right_inj _).mp ((name_of_lowerDynamic hc).symm.trans hname)
        exact absurd hsame (by decide)
      · cases ho
  have hcarrier : ∀ o ∈ main :: carriers ++ dynamics, o.name = self.jname ++ "$Val" →
      o ∈ carriers := by
    intro o ho hname
    rw [List.cons_append, List.mem_cons, List.mem_append] at ho
    obtain rfl | ho | ho := ho
    · exact absurd hname (hother _ List.mem_cons_self)
    · exact ho
    · exact absurd hname (hother o (List.mem_cons_of_mem _ ho))
  obtain ⟨herr, c, hc, rfl⟩ | ⟨hnoErr, rfl⟩ := h.carrier
  · obtain ⟨hname, hextends⟩ := lowerCarrier_eq_ok hc
    refine ⟨⟨fun _ => herr, fun _ => ⟨c, by simp, hname⟩⟩, ?_⟩
    intro o ho hsame
    obtain rfl := List.mem_singleton.mp (hcarrier o ho hsame)
    exact hextends
  · have hnone : ∀ o ∈ main :: [] ++ dynamics, o.name ≠ self.jname ++ "$Val" := by
      intro o ho hname
      cases hcarrier o ho hname
    refine ⟨⟨?_, fun herr => absurd herr hnoErr⟩, fun o ho hname => absurd hname (hnone o ho)⟩
    rintro ⟨o, ho, hname⟩
    exact absurd hname (hnone o ho)

-- A type that is no mixin becomes a class.
theorem lowerClass_of_lowerType {index : Nat} {t : TypeDef} {classes : List ClassOutput}
    (h : lowerType index e r = .ok classes r') (ht : e.pod.types[index]? = some t)
    (hself : typeRefAt e.pod.symbols t.self = .ok self) (hclass : t.isMixin = false) :
    lowerClass self ⟨e.pod, t⟩ e r = .ok classes r' := by
  obtain ⟨e', r₁, hread, h₁⟩ := PodM.bind_eq_ok.mp h
  cases hread
  rw [ht] at h₁
  obtain ⟨ref, r₂, href, h₂⟩ := PodM.bind_eq_ok.mp h₁
  obtain ⟨href, rfl⟩ := PodM.ofExcept_eq_ok href
  rw [hself] at href
  cases href
  dsimp only at h₂
  split at h₂
  · obtain ⟨u, r₃, hthrow, -⟩ := PodM.bind_eq_ok.mp h₂
    cases hthrow
  · rw [hclass] at h₂
    exact h₂

end Types

namespace Protection

-- Where only one class is caught for a type, all entries name it.
theorem Guard.className_of_catches {k : Constants} {t : TypeRef} {g : Guard} {cls : String}
    (h : Catches k t g.types) (hcarrier : carrier? t = some cls) (hhost : hostException? t = none) :
    ∀ x ∈ g.entries, k.className? x.catchType = some cls := by
  intro x hx
  obtain ⟨p, -, hx⟩ := List.mem_flatMap.mp hx
  obtain ⟨type, htype, rfl⟩ := List.mem_map.mp hx
  generalize g.types = types at h htype
  cases h with
  | one hcarries _ =>
    obtain rfl := List.mem_singleton.mp htype
    obtain ⟨hnone, -⟩ | ⟨cls', hcls', hname⟩ := hcarries
    · rw [hcarrier] at hnone
      cases hnone
    · rw [hcarrier] at hcls'
      cases hcls'
      exact hname
  | two _ hsome _ =>
    rw [hhost] at hsome
    cases hsome

end Protection

-- The handlers of a method are those of the entries of its table.
theorem guards_of_lowerCode {env : ClassEnv} {f : Frame} {code : Bytes} {attrs : Pod.Attributes}
    {out : ClassFile.CodeBuffer} {c c' : OpenClass} {mc : MethodCode} (hc : c.WellFormed env)
    (h : lowerCode f code attrs out env c = .ok mc c') :
    ∃ errs, ∃ guards : List Protection.Guard, attrs.errTable = .ok errs ∧
      mc.code.exceptions.toList =
        out.exceptions.toList ++ guards.flatMap Protection.Guard.entries ∧
      ∀ g ∈ guards, ∃ entry t, errs.toList[g.index]? = some entry ∧
        typeRefAt env.pod.symbols entry.type = .ok t ∧
        Protection.Catches c'.draft.pool.get? t g.types := by
  obtain ⟨body, c₁, errs, exceptions, lines, hl, herrs, htable, hexceptions, -⟩ := lowered_tables h
  obtain ⟨hc₁, -⟩ := emitBody_advances hl.emits hc
  obtain ⟨found, c₂, hfound, hpure⟩ := ClassM.bind_eq_ok.mp htable
  obtain ⟨rfl, rfl⟩ := ClassM.pure_eq_ok.mp hpure
  obtain ⟨guards, hguards, -, hderives, -⟩ :=
    Protection.exists_all_guards hc₁ List.pairwise_lt_range hfound
  refine ⟨errs, guards, herrs, by rw [hexceptions, hguards], ?_⟩
  intro g hg
  obtain ⟨-, entry, start, stop, t, hentry, -, -, -, -, ht, hcatches, -⟩ := hderives g hg
  exact ⟨entry, t, hentry, ht, hcatches⟩

-- A type of a pod on its own has what is thrown for it among its classes just if the root of all
-- errors is among the base types that are seen, which end with the first one of another pod. Every
-- handler for the type names that class, whether it is there or not.
theorem carrier_lowered_iff {pod : Pod} {config : EmitConfig} {classes : List ClassOutput}
    {index : Nat} {t : TypeDef} {self : TypeRef} (h : lowerAlone pod config = .ok classes)
    (ht : pod.types[index]? = some t) (hclass : t.isMixin = false)
    (hself : typeRefAt pod.symbols t.self = .ok self) :
    ∃ bases own, Hierarchy.ancestors (PodEnv.alone pod config) self ⟨pod, t⟩ = .ok bases ∧
      (PodEnv.alone pod config).classesOf index = .ok own ∧ own ⊆ classes ∧
      ((∃ o ∈ own, o.name = self.jname ++ "$Val") ↔
        ∃ b ∈ bases, b.ref.pod = "sys" ∧ b.ref.name = "Err") ∧
      (∀ o ∈ own, o.name = self.jname ++ "$Val" →
        ∃ base, bases.head? = some base ∧ o.Extends (base.ref.jname ++ "$Val")) ∧
      (pod.name ≠ "sys" → ∀ last, bases.getLast? = some last →
        ((∃ b ∈ bases, b.ref.pod = "sys" ∧ b.ref.name = "Err") ↔
          last.ref.pod = "sys" ∧ last.ref.name = "Err")) ∧
      ∀ (selfName : String) (f : Frame) (code : Bytes) (attrs : Pod.Attributes)
        (out : ClassFile.CodeBuffer) (c : OpenClass) (mc : MethodCode) (c' : OpenClass),
        c.WellFormed ⟨pod, config, selfName⟩ →
        lowerCode f code attrs out ⟨pod, config, selfName⟩ c = .ok mc c' →
        ∃ errs, ∃ guards : List Protection.Guard, attrs.errTable = .ok errs ∧
          mc.code.exceptions.toList =
            out.exceptions.toList ++ guards.flatMap Protection.Guard.entries ∧
          ∀ g ∈ guards, ∃ entry t', errs.toList[g.index]? = some entry ∧
            typeRefAt pod.symbols entry.type = .ok t' ∧
            (t'.jname = self.jname → Protection.carrier? t' = some (t'.jname ++ "$Val") →
              Protection.hostException? t' = none → ∀ x ∈ g.entries,
                Constants.className? c'.draft.pool.get? x.catchType =
                  some (self.jname ++ "$Val")) := by
  have hpod : lowerPod pod (PodSet.add {} pod) { config with parallel := config.parallel } =
    .ok classes := h
  obtain ⟨literals, results, -, hall, rfl⟩ := (lowerPod_eq_ok_iff config.parallel).mp hpod
  have hlt := (Array.getElem?_eq_some_iff.mp ht).1
  have hown := hall ⟨index, hlt⟩
  obtain ⟨r', hrun⟩ := given_eq_ok.mp hown
  obtain ⟨bases, main, carriers, dynamics, hparts, howns⟩ :=
    lowerClass_eq_ok (lowerClass_of_lowerType hrun ht hself hclass)
  obtain ⟨hiff, hextends⟩ := hparts.carrier_iff (Resolver.sound_empty _)
  rw [← howns] at hiff hextends
  have herr : bases.any (·.ref.isErr) = true ↔
      ∃ b ∈ bases, b.ref.pod = "sys" ∧ b.ref.name = "Err" := by
    simp only [List.any_eq_true, TypeRef.isErr_iff]
  refine ⟨bases, _, hparts.chain, hown, ?_, hiff.trans herr, ?_, ?_, ?_⟩
  · intro o ho
    refine List.mem_cons_of_mem _ (List.mem_flatten.mpr ⟨_, ?_, ho⟩)
    exact List.mem_ofFn.mpr ⟨⟨index, hlt⟩, rfl⟩
  · intro o ho hname
    obtain ⟨b, hb, -⟩ := herr.mp (hiff.mp ⟨o, ho, hname⟩)
    cases bases with
    | nil => cases hb
    | cons base more => exact ⟨base, rfl, hextends o ho hname⟩
  · intro hpod last hlast
    have hseen := Hierarchy.exists_isErr_iff_getLast hparts.chain hpod
    simp only [TypeRef.isErr_iff, hlast, Option.some.injEq, exists_eq_left'] at hseen
    exact hseen
  · intro selfName f code attrs out c mc c' hc hcode
    obtain ⟨errs, guards, herrs, hexceptions, hguards⟩ := guards_of_lowerCode hc hcode
    refine ⟨errs, guards, herrs, hexceptions, fun g hg => ?_⟩
    obtain ⟨entry, t', hentry, ht', hcatches⟩ := hguards g hg
    refine ⟨entry, t', hentry, ht', ?_⟩
    intro hname hcarrier hhost
    rw [← hname]
    exact Protection.Guard.className_of_catches hcatches hcarrier hhost

-- A type that has an error of the system as its base type, and the pod of it alone.
def myErrType : TypeDef where
  self := 0
  base := some 1
  mixins := #[]
  flags := Pod.Flag.public_
  body? := some {}

def myErrRef : TypeRef := ⟨"p", "MyErr", ""⟩

def myErrPod : Pod :=
  { bareEnv.pod with
    symbols := { typeRefs := #[myErrRef, ⟨"sys", "ArgErr", ""⟩] }
    types := #[myErrType] }

theorem ancestors_myErr :
    Hierarchy.ancestors (PodEnv.alone myErrPod {}) myErrRef ⟨myErrPod, myErrType⟩ =
      .ok [⟨⟨"sys", "ArgErr", ""⟩, none⟩] := by
  have hfind : (PodEnv.alone myErrPod {}).find ⟨"sys", "ArgErr", ""⟩ = .ok none := by
    simp [PodEnv.find, PodEnv.alone, PodSet.lookup, PodSet.pod?, PodSet.add, myErrPod, bareEnv]
  have hbase : typeRefAt myErrPod.symbols 1 = .ok ⟨"sys", "ArgErr", ""⟩ := rfl
  unfold Hierarchy.ancestors maxBaseDepth Hierarchy.ancestorsWithin
  dsimp only [myErrType]
  exact except_bind_eq_ok.mpr ⟨_, hbase, except_bind_eq_ok.mpr ⟨none, hfind, rfl⟩⟩

theorem superclass_argErr : superclass [⟨⟨"sys", "ArgErr", ""⟩, none⟩] = "fan/sys/ArgErr" := by
  have hsys : JavaName.ofSys? "ArgErr" false = none := by
    simp [JavaName.ofSys?]
    decide
  have hname : TypeRef.jname ⟨"sys", "ArgErr", ""⟩ = "fan/sys/ArgErr" := by
    simp [TypeRef.jname, JavaName.ofType, TypeRef.isNullable, hsys]
    decide
  simp [superclass, TypeRef.jimpl, hname]
  decide

theorem exists_lowerAlone_myErr :
    ∃ literals o, lowerAlone myErrPod {} = .ok [literals, o] ∧
      literals.name = "fan/p/$Pod" ∧ o.name = "fan/p/MyErr" := by
  have hself : typeRefAt myErrPod.symbols myErrType.self = .ok myErrRef := rfl
  have hbare : IsBare myErrType := ⟨rfl, rfl, by cbv, rfl⟩
  have hroutes : Hierarchy.routes (PodEnv.alone myErrPod {}) ⟨myErrPod, myErrType⟩
      [⟨⟨"sys", "ArgErr", ""⟩, none⟩] = .ok [] := by
    have hserve (unmet : List String) : Hierarchy.serve (PodEnv.alone myErrPod {}) unmet
        (LoadedType.mixins ⟨myErrPod, myErrType⟩) = .ok [] := by
      unfold LoadedType.mixins Hierarchy.serve
      rfl
    exact except_bind_eq_ok.mpr ⟨[], except_bind_eq_ok.mpr ⟨_, rfl, hserve _⟩, rfl⟩
  have htype : ∃ m, Member.ofField s!"{myErrRef.jname}.$Type:{typeDesc}" = .ok m :=
    ⟨⟨"fan/p/MyErr", "$Type", typeDesc⟩, by cbv⟩
  have hinit : ∃ m, Member.ofMethod
      (superclass [⟨⟨"sys", "ArgErr", ""⟩, none⟩] ++ ".<init>" ++ "()V") = .ok m := by
    rw [superclass_argErr]
    exact ⟨⟨"fan/sys/ArgErr", "<init>", "()V"⟩, by cbv⟩
  have herr : ([⟨⟨"sys", "ArgErr", ""⟩, none⟩] : List Ancestor).any (·.ref.isErr) = false := by
    decide
  obtain ⟨literals, o, h, hliterals, ho⟩ := exists_lowerPod_bare (e := PodEnv.alone myErrPod {})
    (t := myErrType) rfl rfl hself rfl rfl hbare (by simp [myErrType]) (by simp [myErrType])
    ancestors_myErr herr hroutes rfl htype hinit
  exact ⟨literals, o, h, hliterals.trans (by cbv), ho.trans (by cbv)⟩

-- Its class is written, and nothing that is thrown for it.
theorem carrier_lowered_iff_myErr :
    ∃ classes own, lowerAlone myErrPod {} = .ok classes ∧
      (PodEnv.alone myErrPod {}).classesOf 0 = .ok own ∧ own ⊆ classes ∧
      ¬ ∃ o ∈ own, o.name = "fan/p/MyErr$Val" := by
  obtain ⟨literals, o, h, -⟩ := exists_lowerAlone_myErr
  have htype : myErrPod.types[0]? = some myErrType := rfl
  have hself : typeRefAt myErrPod.symbols myErrType.self = .ok myErrRef := rfl
  obtain ⟨bases, own, hchain, hown, hsub, hiff, -⟩ := carrier_lowered_iff h htype rfl hself
  refine ⟨_, own, h, hown, hsub, ?_⟩
  rw [ancestors_myErr] at hchain
  cases hchain
  have hname : myErrRef.jname ++ "$Val" = "fan/p/MyErr$Val" := by cbv
  rw [← hname, hiff]
  simp

-- The pod has no class of the name that the handlers for the type have, though its base type is an
-- error of the system with an exception of the host.
theorem carrier_missing_myErr :
    Hierarchy.ancestors (PodEnv.alone myErrPod {}) myErrRef ⟨myErrPod, myErrType⟩ =
        .ok [⟨⟨"sys", "ArgErr", ""⟩, none⟩] ∧
      (Protection.hostException? ⟨"sys", "ArgErr", ""⟩).isSome ∧
      Protection.carrier? myErrRef = some "fan/p/MyErr$Val" ∧
      ∃ classes, lowerAlone myErrPod {} = .ok classes ∧
        ¬ ∃ o ∈ classes, o.name = "fan/p/MyErr$Val" := by
  obtain ⟨literals, o, h, hliterals, ho⟩ := exists_lowerAlone_myErr
  refine ⟨ancestors_myErr, by decide, by cbv, _, h, ?_⟩
  simp [hliterals, ho]

end Lowering

end PodCompiler
