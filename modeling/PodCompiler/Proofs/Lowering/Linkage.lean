import PodCompiler.Proofs.Lowering.ClassMembers

namespace PodCompiler

namespace TypeRef

variable {t : TypeRef}

-- A type of a pod that is neither `sys` nor stands for a package of the machine.
structure IsPlain (t : TypeRef) : Prop where
  notSys : t.pod ≠ "sys"
  notFfi : t.pod.startsWith "[" = false

theorem IsPlain.jname_eq (h : t.IsPlain) : t.jname = "fan/" ++ t.pod ++ "/" ++ t.name := by
  unfold jname JavaName.ofType
  rw [if_neg h.notSys]
  dsimp only
  rw [if_neg (by simp [h.notFfi])]
  rfl

-- It is known to the machine by its pod and its name.
theorem IsPlain.jname_congr {u : TypeRef} (h : t.IsPlain) (hpod : u.pod = t.pod)
    (hname : u.name = t.name) : u.IsPlain ∧ u.jname = t.jname := by
  have hu : u.IsPlain := ⟨hpod ▸ h.notSys, hpod ▸ h.notFfi⟩
  rw [h.jname_eq, hu.jname_eq, hpod, hname]
  exact ⟨hu, rfl⟩

theorem IsPlain.pod_ne (h : t.IsPlain) {pod : String} (hpod : pod.startsWith "[" = true) :
    t.pod ≠ pod := by
  intro heq
  have hffi := h.notFfi
  rw [heq, hpod] at hffi
  cases hffi

theorem IsPlain.stack_eq (h : t.IsPlain) : t.stack = .obj := by
  have hmark : t.pod ≠ JavaName.ffiMark := h.pod_ne (by simp [JavaName.ffiMark])
  unfold stack isSys
  rw [if_neg hmark, if_neg (by simpa using h.notSys)]

theorem IsPlain.jimpl_eq (h : t.IsPlain) : t.jimpl = t.jname := by
  unfold jimpl
  rw [h.jname_eq]
  unfold JavaName.implementation
  split
  all_goals first
    | rfl
    | rename_i heq
      have hchars := congrArg String.toList heq
      simp at hchars

theorem IsPlain.jsig_eq (h : t.IsPlain) : t.jsig = "L" ++ t.jname ++ ";" := by
  have hstart : t.jname.startsWith "[" = false := by
    rw [h.jname_eq]
    simp
  unfold jsig
  rw [h.stack_eq]
  dsimp only
  rw [hstart, if_neg (by simp)]
  rfl

theorem IsPlain.hasSysBit_eq_false (h : t.IsPlain) {name : String}
    (hname : name = "Bool" ∨ name = "Int" ∨ name = "Float") : t.hasSysBit name = false := by
  have hsys : t.isSys = false := by simpa [isSys] using h.notSys
  have harray : t.arrayElement? = none := if_neg (h.pod_ne (by simp))
  unfold hasSysBit mask
  rw [h.stack_eq, hsys, harray, if_neg Bool.false_ne_true]
  obtain rfl | rfl | rfl := hname <;> cases t.isNullable <;> cases t.isGenericInstance <;> decide

-- None of its methods is built in, but the two that every type has.
theorem IsPlain.lookup?_eq_none (h : t.IsPlain) {name : String} (hnew : name ≠ "<new>")
    (hclass : name ≠ "<class>") : Lowering.Intrinsic.lookup? t name = none := by
  have harray : t.arrayElement? = none := if_neg (h.pod_ne (by simp))
  have hbool : t.isBool = false := h.hasSysBit_eq_false (.inl rfl)
  have hint : t.isInt = false := h.hasSysBit_eq_false (.inr (.inl rfl))
  have hfloat : t.isFloat = false := h.hasSysBit_eq_false (.inr (.inr rfl))
  unfold Lowering.Intrinsic.lookup?
  rw [if_neg hnew, if_neg hclass, harray]
  simp [hbool, hint, hfloat]

end TypeRef

namespace Lowering

open ClassFile (CodeBuffer Draft MethodInfo)
open Pod (MethodDef MethodRef Symbols TypeDef)

-- A number of arguments that a method can be called with: all of them, or without some at the end
-- that have defaults.
def Reachable (m : MethodDef) (n : Nat) : Prop :=
  n = m.params.length ∨ n < m.params.length ∧ ∀ p ∈ m.params.drop n, p.hasDefault = true

theorem Reachable.hasDefault {m : MethodDef} {n : Nat} (h : Reachable m n) :
    n = m.params.length ∨ ∃ p, m.params[n]? = some p ∧ p.hasDefault = true := by
  refine h.imp_right ?_
  rintro ⟨hlt, hall⟩
  refine ⟨m.params[n], List.getElem?_eq_getElem hlt, hall _ ?_⟩
  rw [List.drop_eq_getElem_cons hlt]
  exact List.mem_cons_self

-- A method is there for each such number.
theorem Family.exists_arity {env : ClassEnv} {owner : String} {m : MethodDef} {t : Target}
    {access : UInt16} {mode : SelfMode} {main : MethodInfo} {ws : List MethodInfo}
    (h : Family env owner m t access mode main ws) {n : Nat} (hn : Reachable m n) :
    ∃ w ∈ main :: ws, w.name = t.name ∧
      methodDesc env.pod.symbols m t.self (m.params.take n) t.result = .ok w.desc := by
  obtain rfl | ⟨p, hp, hdefault⟩ := hn.hasDefault
  · refine ⟨main, List.mem_cons_self, h.name, ?_⟩
    rw [List.take_length, h.desc]
    exact h.full
  · have hlt := (List.getElem?_eq_some_iff.mp hp).1
    cases h.wrappers with
    | none hfirst =>
      have hno := List.findIdx?_eq_none_iff.mp hfirst p (List.mem_of_getElem? hp)
      rw [hdefault] at hno
      cases hno
    | @some first f ref ws hfirst hframe hws =>
      have hle : first ≤ n := by
        by_contra hgt
        obtain ⟨hfirstlt, -, hbefore⟩ := List.findIdx?_eq_some_iff_getElem.mp hfirst
        have hno := hbefore n (by omega)
        rw [(List.getElem?_eq_some_iff.mp hp).2, hdefault] at hno
        exact hno rfl
      have hmem : n ∈ (List.range m.params.length).drop first := by
        rw [List.mem_iff_getElem?]
        refine ⟨n - first, ?_⟩
        rw [List.getElem?_drop, List.getElem?_range (by omega)]
        congr 1
        omega
      obtain ⟨w, hw, hwrapper⟩ := exists_of_forall₂ hws hmem
      exact ⟨w, List.mem_cons_of_mem _ hw, hwrapper.name, hwrapper.desc⟩

-- A reference to a method of a type, with as many arguments as the method can be called with.
structure MethodUse (s : Symbols) (owner : TypeRef) (m : MethodDef) where
  index : UInt16
  ref : MethodRef
  parent : TypeRef
  params : List TypeRef
  ret : TypeRef
  arity : Nat
  ref_eq : methodRefAt s index = .ok ref
  parent_eq : typeRefAt s ref.parent = .ok parent
  parent_pod : parent.pod = owner.pod
  parent_name : parent.name = owner.name
  name_eq : ref.name = m.name
  params_eq : ref.params.toList.mapM (typeRefAt s) = .ok params
  ret_eq : typeRefAt s ref.ret = .ok ret
  reachable : Reachable m arity
  param_sigs : (m.params.take arity).mapM (fun p => TypeRef.jsig <$> typeRefAt s p.type) =
    .ok (params.map TypeRef.jsig)
  ret_sig : TypeRef.jsig <$> typeRefAt s m.inheritedRet = .ok ret.jsig

-- The kinds of calls that a method is there for.
def Serves (t : TypeDef) (m : MethodDef) : CallKind → Prop
  | .new | .ctor => t.isMixin = false ∧ m.isCtor = true
  | .static => t.isMixin = false ∧ m.isCtor = false ∧ m.isStatic = true
  | .virtual | .nonVirtual => t.isMixin = false ∧ m.isCtor = false ∧ m.isStatic = false
  | .mixinStatic => t.isMixin = true ∧ m.isCtor = false ∧ m.isStatic = true ∧ m.hasCode = true
  | .mixinVirtual => t.isMixin = true ∧ m.isCtor = false ∧ m.isStatic = false
  | .mixinNonVirtual =>
    t.isMixin = true ∧ m.isCtor = false ∧ m.isStatic = false ∧ m.hasCode = true

-- The names that are not those of declared methods.
def isSpecial (name : String) : Bool :=
  name = "<new>" || name = "<class>" || name = "<init>"

section Resolve

variable {s : Symbols} {owner : TypeRef} {m : MethodDef}

-- A reference is resolved to a call of the method by its name.
theorem MethodUse.computeCall_eq (u : MethodUse s owner m) (howner : owner.IsPlain)
    (hname : isSpecial m.name = false) (kind : CallKind) :
    Resolver.computeCall s u.index kind =
      Call.invoke <$> Resolver.invoke kind u.parent m.name u.params u.ret := by
  have hplain := (howner.jname_congr u.parent_pod u.parent_name).1
  simp only [isSpecial, Bool.or_eq_false_iff, decide_eq_false_iff_not] at hname
  have hlookup : (if kind.allowsIntrinsic then Intrinsic.lookup? u.parent m.name else none) =
      none := by
    rw [hplain.lookup?_eq_none hname.1.1 hname.1.2]
    simp
  unfold Resolver.computeCall
  simp only [u.ref_eq, u.parent_eq, u.name_eq, u.params_eq, u.ret_eq, hlookup,
    Except.bind, bind]

-- The descriptor of the method for the arguments of the reference.
theorem MethodUse.desc_eq (u : MethodUse s owner m) {self : Option String} {result : Result}
    {desc ret : String} (hret : resultDesc s m result = .ok ret)
    (h : methodDesc s m self (m.params.take u.arity) result = .ok desc) :
    desc = "(" ++ receiverDesc self ++ Resolver.jsigs u.params ++ ")" ++ ret := by
  obtain ⟨args, ret', hargs, hret', rfl⟩ := methodDesc_eq_ok h
  rw [u.param_sigs] at hargs
  cases hargs
  rw [hret] at hret'
  cases hret'
  rfl

-- What is kept does not change what a call is resolved to.
theorem Resolver.Sound.call_eq_ok {r : Resolver} {index : UInt16} {kind : CallKind} {call : Call}
    (hr : r.Sound s) (h : computeCall s index kind = .ok call) :
    ∃ r', Resolver.call s index kind r = .ok call r' := by
  unfold Resolver.call
  cases hkept : r.calls[(index, kind)]? with
  | some kept =>
    have hsame := hr index kind kept hkept
    rw [h] at hsame
    cases hsame
    exact ⟨_, rfl⟩
  | none =>
    rw [h]
    exact ⟨_, rfl⟩

theorem Resolver.Sound.call_eq_error {r : Resolver} {index : UInt16} {kind : CallKind}
    {e : LoweringError} (hr : r.Sound s) (h : computeCall s index kind = .error e) :
    Resolver.call s index kind r = .error e r := by
  unfold Resolver.call
  cases hkept : r.calls[(index, kind)]? with
  | some kept =>
    have hsame := hr index kind kept hkept
    rw [h] at hsame
    cases hsame
  | none => rw [h]

end Resolve

section Declared

variable {env : ClassEnv} {c c' : OpenClass} {m : MethodDef} {n : Nat} {u : Unit}

theorem has_ctorBody (hctor : m.isCtor = true) (hn : Reachable m n) (hc : c.WellFormed env)
    (h : lowerMethod m env c = .ok u c') :
    ∃ w, c'.draft.Has w ∧ w.name = m.name ++ "$" ∧
      methodDesc env.pod.symbols m (some env.selfName) (m.params.take n) .void = .ok w.desc := by
  rw [lowerMethod, if_pos hctor] at h
  obtain ⟨c₁, body, factory, -, -, hbodies, -, -, -, hfactories, -⟩ := lowerCtor_eq_ok hc h
  obtain ⟨bs, hdeclares, hbody⟩ := hbodies.family
  obtain ⟨fs, hdeclares', -⟩ := hfactories.family
  obtain ⟨w, hw, hname, hdesc⟩ := hbody.exists_arity hn
  have hall := (hdeclares.trans hdeclares').draft
  exact ⟨w, hall.has_of_mem (List.mem_append_left _ hw), hname, hdesc⟩

theorem has_factory (hctor : m.isCtor = true) (hn : Reachable m n) (hc : c.WellFormed env)
    (h : lowerMethod m env c = .ok u c') :
    ∃ w, c'.draft.Has w ∧ w.name = m.name ∧
      methodDesc env.pod.symbols m none (m.params.take n) (.object env.selfName) = .ok w.desc := by
  rw [lowerMethod, if_pos hctor] at h
  obtain ⟨c₁, body, factory, -, -, -, -, -, -, hfactories, -⟩ := lowerCtor_eq_ok hc h
  obtain ⟨fs, hdeclares, hfactory⟩ := hfactories.family
  obtain ⟨w, hw, hname, hdesc⟩ := hfactory.exists_arity hn
  exact ⟨w, hdeclares.draft.has_of_mem hw, hname, hdesc⟩

theorem has_plain (hctor : m.isCtor = false) (hn : Reachable m n) (hc : c.WellFormed env)
    (h : lowerMethod m env c = .ok u c') :
    ∃ w, c'.draft.Has w ∧ w.name = m.name ∧
      methodDesc env.pod.symbols m none (m.params.take n) .inherited = .ok w.desc := by
  rw [lowerMethod, hctor, if_neg Bool.false_ne_true] at h
  split at h
  · obtain ⟨main, ret, f, peerDesc, -, hsteps, -⟩ := lowerNative_eq_ok hc h
    obtain ⟨ws, hdeclares, hfamily⟩ := hsteps.family
    obtain ⟨w, hw, hname, hdesc⟩ := hfamily.exists_arity hn
    exact ⟨w, hdeclares.draft.has_of_mem hw, hname, hdesc⟩
  · obtain ⟨main, ret, -, hsteps, -⟩ := lowerStandard_eq_ok hc h
    obtain ⟨ws, hdeclares, hfamily⟩ := hsteps.family
    obtain ⟨w, hw, hname, hdesc⟩ := hfamily.exists_arity hn
    exact ⟨w, hdeclares.draft.has_of_mem hw, hname, hdesc⟩

theorem has_mixinBody (hcode : m.hasCode = true) (hn : Reachable m n) (hc : c.WellFormed env)
    (h : lowerMixinBody m env c = .ok u c') :
    ∃ w, c'.draft.Has w ∧ w.name = m.name ∧
      methodDesc env.pod.symbols m (mixinSelf env.selfName m) (m.params.take n) .inherited =
        .ok w.desc := by
  obtain ⟨hnone, -⟩ | ⟨main, ret, f, -, hsteps, -⟩ := lowerMixinBody_eq_ok hc h
  · rw [hcode] at hnone
    cases hnone
  · obtain ⟨ws, hdeclares, hfamily⟩ := hsteps.family
    obtain ⟨w, hw, hname, hdesc⟩ := hfamily.exists_arity hn
    exact ⟨w, hdeclares.draft.has_of_mem hw, hname, hdesc⟩

theorem has_interface (hstatic : m.isStatic = false) (hctor : m.isCtor = false)
    (hn : Reachable m n) (hc : c.WellFormed env) (h : lowerMixinInterface m env c = .ok u c') :
    ∃ w, c'.draft.Has w ∧ w.name = m.name ∧
      methodDesc env.pod.symbols m none (m.params.take n) .inherited = .ok w.desc := by
  obtain ⟨hskip, -⟩ | ⟨ms, hms, hall⟩ := lowerMixinInterface_eq_ok hc h
  · simp [hstatic, hctor] at hskip
  · obtain ⟨w, hw, hdecl⟩ := exists_of_forall₂ hall (mem_declaredArities_iff.mpr hn.hasDefault)
    exact ⟨w, hms.draft.has_of_mem hw, hdecl.name, hdecl.desc⟩

end Declared

section Link

variable {e : PodEnv} {owner : TypeRef} {m : MethodDef} {classes : List ClassOutput}

-- What is declared for the arguments of a reference is written under its signature.
theorem Takes.declares {cls name ret : String} {g : ClassM Unit} {self : Option String}
    {result : Result} (h : Takes e owner cls g classes) (u : MethodUse e.pod.symbols owner m)
    (hg : ∀ c c' v, c.WellFormed (classEnv e owner) → g (classEnv e owner) c = .ok v c' →
      ∃ w, c'.draft.Has w ∧ w.name = name ∧
        methodDesc (classEnv e owner).pod.symbols m self (m.params.take u.arity) result =
          .ok w.desc)
    (hret : resultDesc e.pod.symbols m result = .ok ret) :
    ∃ o ∈ classes, o.Declares (cls ++ "." ++ name ++
      ("(" ++ receiverDesc self ++ Resolver.jsigs u.params ++ ")" ++ ret)) := by
  obtain ⟨o, ho, rfl, c₁, c₂, hc₁, -, hstep, k, after, hmethods, -⟩ := h
  obtain ⟨w, hw, rfl, hdesc⟩ := hg c₁ c₂ () hc₁ hstep
  have hsig := hmethods.declares (List.mem_append_left _ (Array.mem_toList_iff.mpr hw.mem))
  rw [u.desc_eq hret hdesc] at hsig
  exact ⟨o, ho, hsig⟩

theorem exists_declares_congr {sig sig' : String} (h : ∃ o ∈ classes, ClassOutput.Declares o sig)
    (hsig : sig'.toList = sig.toList) : ∃ o ∈ classes, ClassOutput.Declares o sig' := by
  rwa [String.toList_injective hsig]

-- A method is declared under the signature that a call of a kind that it serves names.
theorem exists_invoke {t : TypeDef} (h : Lowers e owner t classes) (howner : owner.IsPlain)
    (hm : m ∈ t.methods) (hlisted : isListed m = true) (hname : isSpecial m.name = false)
    (u : MethodUse e.pod.symbols owner m) {kind : CallKind} (hkind : Serves t m kind)
    (hslots : kind = .mixinVirtual → Resolver.interfaceSlots u.params ≤ 255) :
    ∃ inv, Resolver.invoke kind u.parent m.name u.params u.ret = .ok inv ∧
      ∃ o ∈ classes, o.Declares inv.sig := by
  obtain ⟨hparent, hjname⟩ := howner.jname_congr u.parent_pod u.parent_name
  have hjimpl := hparent.jimpl_eq
  have hjsig := hparent.jsig_eq
  rw [hjname] at hjimpl hjsig
  have hret : resultDesc e.pod.symbols m .inherited = .ok u.ret.jsig := u.ret_sig
  have hvoid : resultDesc e.pod.symbols m .void = .ok "V" := rfl
  have hobject : resultDesc e.pod.symbols m (.object (classEnv e owner).selfName) =
      .ok ("L" ++ owner.jname ++ ";") := rfl
  have hinit : m.name ≠ "<init>" := by
    simp only [isSpecial, Bool.or_eq_false_iff, decide_eq_false_iff_not] at hname
    exact hname.2
  unfold Resolver.invoke
  dsimp only
  rw [hjname, hjimpl, hjsig]
  cases kind with
  | new =>
    obtain ⟨hmixin, hctor⟩ := hkind
    have hdeclares := (h.plain hmixin m hm hlisted).declares u
      (fun _ _ _ hc hstep => has_factory hctor u.reachable hc hstep) hobject
    refine ⟨_, rfl, ?_⟩
    exact exists_declares_congr hdeclares (by simp [receiverDesc, toString])
  | ctor =>
    obtain ⟨hmixin, hctor⟩ := hkind
    have hdeclares := (h.plain hmixin m hm hlisted).declares u
      (fun _ _ _ hc hstep => has_ctorBody hctor u.reachable hc hstep) hvoid
    dsimp only
    rw [if_neg hinit]
    refine ⟨_, rfl, ?_⟩
    exact exists_declares_congr hdeclares (by simp [receiverDesc, classEnv, toString])
  | static | nonVirtual =>
    obtain ⟨hmixin, hctor, -⟩ := hkind
    have hdeclares := (h.plain hmixin m hm hlisted).declares u
      (fun _ _ _ hc hstep => has_plain hctor u.reachable hc hstep) hret
    refine ⟨_, rfl, ?_⟩
    exact exists_declares_congr hdeclares (by simp [receiverDesc, toString])
  | virtual =>
    obtain ⟨hmixin, hctor, -⟩ := hkind
    have hdeclares := (h.plain hmixin m hm hlisted).declares u
      (fun _ _ _ hc hstep => has_plain hctor u.reachable hc hstep) hret
    dsimp only
    rw [if_pos rfl]
    refine ⟨_, rfl, ?_⟩
    exact exists_declares_congr hdeclares (by simp [receiverDesc, toString])
  | mixinStatic =>
    obtain ⟨hmixin, hctor, hstatic, hcode⟩ := hkind
    have hlisted' : isMixinListed m = true := by
      simpa [isMixinListed, isListed, hctor] using hlisted
    have hdeclares := (h.body hmixin m hm hlisted').declares u
      (fun _ _ _ hc hstep => has_mixinBody hcode u.reachable hc hstep) hret
    rw [mixinSelf, if_pos hstatic] at hdeclares
    refine ⟨_, rfl, ?_⟩
    exact exists_declares_congr hdeclares (by simp [receiverDesc, toString])
  | mixinVirtual =>
    obtain ⟨hmixin, hctor, hstatic⟩ := hkind
    have hdeclares := (h.interface hmixin m hm).declares u
      (fun _ _ _ hc hstep => has_interface hstatic hctor u.reachable hc hstep) hret
    dsimp only
    rw [if_pos (hslots rfl)]
    refine ⟨_, rfl, ?_⟩
    exact exists_declares_congr hdeclares (by simp [receiverDesc, toString])
  | mixinNonVirtual =>
    obtain ⟨hmixin, hctor, hstatic, hcode⟩ := hkind
    have hlisted' : isMixinListed m = true := by
      simpa [isMixinListed, isListed, hctor] using hlisted
    have hdeclares := (h.body hmixin m hm hlisted').declares u
      (fun _ _ _ hc hstep => has_mixinBody hcode u.reachable hc hstep) hret
    rw [mixinSelf, if_neg (by simp [hstatic])] at hdeclares
    refine ⟨_, rfl, ?_⟩
    exact exists_declares_congr hdeclares (by simp [receiverDesc, classEnv, toString])

end Link

-- A call of a method of the pod names a method of a class that is written. Only a call through an
-- interface fails, if it has more arguments than it can count.
theorem call_names_declared {pod : Pod} {others : PodSet} {config : EmitConfig}
    {classes : List ClassOutput} (h : lowerPod pod others config = .ok classes) {t : TypeDef}
    (ht : t ∈ pod.types) {self : TypeRef} (hself : typeRefAt pod.symbols t.self = .ok self)
    (hplain : self.IsPlain) {m : MethodDef} (hm : m ∈ t.methods) (hlisted : isListed m = true)
    (hname : isSpecial m.name = false) (u : MethodUse pod.symbols self m) {kind : CallKind}
    (hkind : Serves t m kind) {r : Resolver} (hr : r.Sound pod.symbols) :
    (∃ inv r', Resolver.call pod.symbols u.index kind r = .ok (.invoke inv) r' ∧
      ∃ o ∈ classes, o.Declares inv.sig) ∨
    kind = .mixinVirtual ∧ 255 < Resolver.interfaceSlots u.params ∧
      Resolver.call pod.symbols u.index kind r = .error (.internal (.tooManyArgs m.name)) r := by
  have hlowers := lowerPod_lowers h ht hself
  have hcall := u.computeCall_eq hplain hname kind
  by_cases hslots : kind = .mixinVirtual ∧ 255 < Resolver.interfaceSlots u.params
  · obtain ⟨rfl, hmany⟩ := hslots
    refine .inr ⟨rfl, hmany, hr.call_eq_error ?_⟩
    rw [hcall]
    unfold Resolver.invoke
    dsimp only
    rw [if_neg (by omega)]
    rfl
  · obtain ⟨inv, hinv, hdeclares⟩ := exists_invoke hlowers hplain hm hlisted hname u hkind
      (fun hmixin => by
        by_contra hmany
        exact hslots ⟨hmixin, by omega⟩)
    rw [hinv] at hcall
    obtain ⟨r', hr'⟩ := hr.call_eq_ok hcall
    exact .inl ⟨inv, r', hr', hdeclares⟩

-- A mixin with a method that has no body, whose parameter has a default.
def runMethod : MethodDef where
  name := "run"
  flags := Pod.Flag.public_ ||| Pod.Flag.abstract_
  ret := 1
  inheritedRet := 1
  maxStack := 0
  paramCount := 1
  localCount := 0
  vars := #[⟨"times", 2, Pod.Flag.param, ⟨#[("ParamDefault", #[3])]⟩⟩]
  code := #[]
  attrs := {}

def runsType : TypeDef where
  self := 0
  base := none
  mixins := #[]
  flags := Pod.Flag.public_ ||| Pod.Flag.mixin_
  body? := some { methods := #[runMethod] }

def runsRef : TypeRef := ⟨"p", "Runs", ""⟩

def runsEnv : PodEnv where
  pod :=
    { bareEnv.pod with
      symbols :=
        { typeRefs := #[runsRef, ⟨"sys", "Void", ""⟩, ⟨"sys", "Int", ""⟩]
          methodRefs := #[⟨0, "run", 1, #[]⟩] }
      types := #[runsType] }
  others := {}
  config := { sourceFiles := false }

theorem OpenClass.exists_create (name superName : String) (access : UInt16) (config : EmitConfig) :
    ∃ d, OpenClass.create name superName access config = .ok d ∧ d.pool.next ≤ 9 ∧
      d.sourceFile = none := by
  obtain ⟨d, hd, hroom⟩ := Draft.exists_create name superName access config.classMajor
  refine ⟨d, ?_, hroom⟩
  unfold OpenClass.create
  rw [hd]
  rfl

theorem OpenClass.exists_output {d : Draft} (hd : d.pool.next + 4 ≤ ClassFile.Pool.limit)
    (hsource : d.sourceFile = none) : ∃ o, OpenClass.output d = .ok o := by
  obtain ⟨bytes, hbytes⟩ := Draft.exists_finish hd hsource
  refine ⟨⟨d.name, bytes⟩, ?_⟩
  unfold OpenClass.output
  rw [hbytes]

theorem exists_lowerPod_runs :
    ∃ classes, lowerPod runsEnv.pod runsEnv.others runsEnv.config = .ok classes := by
  have hlimit : ClassFile.Pool.limit = 65535 := rfl
  obtain ⟨d₀, hd₀, hnext₀, hsource₀⟩ := OpenClass.exists_create (literalClass "p")
    "java/lang/Object"
    (ClassFile.Access.public_ ||| ClassFile.Access.super_ ||| ClassFile.Access.final_) runsEnv.config
  obtain ⟨o₀, ho₀⟩ := OpenClass.exists_output (d := d₀) (by omega) hsource₀
  have hliterals : lowerLiterals runsEnv.pod runsEnv.config = .ok o₀ :=
    except_bind_eq_ok.mpr ⟨d₀, hd₀, except_bind_eq_ok.mpr ⟨((), d₀), rfl, ho₀⟩⟩
  -- The interface has the method with its parameter and without.
  obtain ⟨d₁, hd₁, hnext₁, hsource₁⟩ := OpenClass.exists_create runsRef.jname "java/lang/Object"
    (ClassFile.Access.public_ ||| ClassFile.Access.interface_ ||| ClassFile.Access.abstract_)
    runsEnv.config
  obtain ⟨d₂, hd₂, hnext₂, hsource₂⟩ := Draft.exists_addMethod
    (ClassFile.Access.public_ ||| ClassFile.Access.abstract_) "run" "(J)V" none (d := d₁) (by simp)
    (by omega)
  obtain ⟨d₃, hd₃, hnext₃, hsource₃⟩ := Draft.exists_addMethod
    (ClassFile.Access.public_ ||| ClassFile.Access.abstract_) "run" "()V" none (d := d₂) (by simp)
    (by omega)
  obtain ⟨o₁, ho₁⟩ := OpenClass.exists_output (d := d₃) (by omega)
    (hsource₃.trans (hsource₂.trans hsource₁))
  have hdeclare : lowerMixinInterface runMethod (classEnv runsEnv runsRef) { draft := d₁ } =
      .ok () { draft := d₃ } := by
    refine ClassM.bind_eq_ok.mpr ⟨"(J)V", { draft := d₁ }, rfl, ?_⟩
    refine ClassM.bind_eq_ok.mpr ⟨(), { draft := d₂ }, ClassM.addMethod_run hd₂, ?_⟩
    refine ClassM.bind_eq_ok.mpr ⟨(), { draft := d₃ }, ?_, rfl⟩
    refine ClassM.bind_eq_ok.mpr ⟨.yield (), { draft := d₃ }, ?_, rfl⟩
    refine ClassM.bind_eq_ok.mpr ⟨"()V", { draft := d₂ }, rfl, ?_⟩
    exact ClassM.bind_eq_ok.mpr ⟨(), { draft := d₃ }, ClassM.addMethod_run hd₃, rfl⟩
  have hinterface : (addInterfaces runsType >>= fun _ => addSource runsType >>= fun _ =>
      runsType.methods.toList.forM lowerMixinInterface) (classEnv runsEnv runsRef)
        { draft := d₁ } = .ok () { draft := d₃ } :=
    ClassM.bind_eq_ok.mpr ⟨(), { draft := d₁ }, rfl, ClassM.bind_eq_ok.mpr ⟨(), { draft := d₁ },
      rfl, ClassM.bind_eq_ok.mpr ⟨(), { draft := d₃ }, hdeclare, rfl⟩⟩⟩
  -- The class of the bodies has none.
  obtain ⟨d₄, hd₄, hnext₄, hsource₄⟩ := OpenClass.exists_create (runsRef.jname ++ "$")
    "java/lang/Object" (ClassFile.Access.public_ ||| ClassFile.Access.super_) runsEnv.config
  obtain ⟨o₂, ho₂⟩ := OpenClass.exists_output (d := d₄) (by omega) hsource₄
  have hmixin : lowerMixin runsRef runsType runsEnv {} = .ok [o₁, o₂] {} := by
    refine PodM.bind_eq_ok.mpr ⟨runsEnv, {}, rfl, ?_⟩
    refine PodM.bind_eq_ok.mpr ⟨d₁, {}, PodM.ofExcept_run hd₁, ?_⟩
    refine PodM.bind_eq_ok.mpr ⟨{ draft := d₃ }, {}, inClass_run hinterface, ?_⟩
    refine PodM.bind_eq_ok.mpr ⟨d₄, {}, PodM.ofExcept_run hd₄, ?_⟩
    refine PodM.bind_eq_ok.mpr ⟨{ draft := d₄ }, {}, rfl, ?_⟩
    refine PodM.bind_eq_ok.mpr ⟨o₁, {}, PodM.ofExcept_run ho₁, ?_⟩
    exact PodM.bind_eq_ok.mpr ⟨o₂, {}, PodM.ofExcept_run ho₂, rfl⟩
  have htypes : lowerTypes [0] runsEnv {} = .ok ([o₁, o₂] ++ []) {} := by
    refine PodM.bind_eq_ok.mpr ⟨[o₁, o₂], {}, ?_, rfl⟩
    exact PodM.bind_eq_ok.mpr ⟨runsEnv, {}, rfl, hmixin⟩
  refine ⟨o₀ :: ([o₁, o₂] ++ []), except_bind_eq_ok.mpr ⟨o₀, hliterals, ?_⟩⟩
  have hrun : ((lowerTypes (List.range runsEnv.pod.types.size)).run
      ⟨runsEnv.pod, runsEnv.others, runsEnv.config⟩).run {} = .ok ([o₁, o₂] ++ []) {} := htypes
  rw [hrun]
  rfl

-- A call of it without an argument.
def runUse : MethodUse runsEnv.pod.symbols runsRef runMethod where
  index := 0
  ref := ⟨0, "run", 1, #[]⟩
  parent := runsRef
  params := []
  ret := ⟨"sys", "Void", ""⟩
  arity := 0
  ref_eq := rfl
  parent_eq := rfl
  parent_pod := rfl
  parent_name := rfl
  name_eq := rfl
  params_eq := rfl
  ret_eq := rfl
  reachable := .inr (by decide)
  param_sigs := rfl
  ret_sig := rfl

-- The call without an argument names what the interface declares.
theorem call_names_declared_runs :
    ∃ classes, lowerPod runsEnv.pod runsEnv.others runsEnv.config = .ok classes ∧
      ∃ inv r', Resolver.call runsEnv.pod.symbols 0 .mixinVirtual {} = .ok (.invoke inv) r' ∧
        ∃ o ∈ classes, o.Declares inv.sig := by
  obtain ⟨classes, hclasses⟩ := exists_lowerPod_runs
  have hplain : runsRef.IsPlain := ⟨by decide, by simp [runsRef]⟩
  have ht : runsType ∈ runsEnv.pod.types := List.mem_toArray.mpr List.mem_cons_self
  have hself : typeRefAt runsEnv.pod.symbols runsType.self = .ok runsRef := rfl
  have hm : runMethod ∈ runsType.methods := List.mem_toArray.mpr List.mem_cons_self
  have hserves : Serves runsType runMethod .mixinVirtual := ⟨by decide, by decide, by decide⟩
  refine ⟨classes, hclasses, ?_⟩
  obtain hcall | ⟨-, hmany, -⟩ := call_names_declared hclasses ht hself hplain hm (by decide)
    (by decide) runUse hserves (Resolver.sound_empty _)
  · exact hcall
  · exact absurd hmany (by decide)

end Lowering

end PodCompiler
