import PodCompiler.Proofs.ClassFile.Fields
import PodCompiler.Proofs.Lowering.CallingConvention
import PodCompiler.Proofs.Lowering.ErrCarriers

namespace PodCompiler.Lowering

open ClassFile (CodeBuffer Constants Member MethodInfo)
open ClassFile.Op (aload0 invokeStatic returnOp)
open Pod (MethodDef Symbols TypeDef VarDef)

section Arities

variable {m : MethodDef}

-- The first number of arguments that a method can be called with.
def firstArity (m : MethodDef) : Nat :=
  m.firstDefault?.getD m.params.length

-- The numbers of arguments that the body of a method comes in: all, and those that wrappers take.
def bodyArities (m : MethodDef) : List Nat :=
  m.params.length :: (List.range m.params.length).drop (firstArity m)

-- The numbers of arguments that a class routes.
def routedArities (m : MethodDef) : List Nat :=
  (List.range (m.params.length + 1)).drop (firstArity m)

theorem firstArity_le : firstArity m ≤ m.params.length := by
  unfold firstArity MethodDef.firstDefault?
  cases hfirst : m.params.findIdx? VarDef.hasDefault with
  | none => exact Nat.le_refl _
  | some first =>
    obtain ⟨hlt, -⟩ := List.findIdx?_eq_some_iff_getElem.mp hfirst
    exact Nat.le_of_lt hlt

theorem mem_routedArities_iff {n : Nat} :
    n ∈ routedArities m ↔ firstArity m ≤ n ∧ n ≤ m.params.length := by
  unfold routedArities
  rw [List.range_eq_range', List.drop_range', List.mem_range'_1]
  have hle := firstArity_le (m := m)
  omega

-- A class routes what has a body.
theorem bodyArities_perm : (bodyArities m).Perm (routedArities m) := by
  unfold bodyArities routedArities
  rw [List.range_succ, List.drop_append_of_le_length (by simpa using firstArity_le)]
  exact List.perm_append_singleton _ _ |>.symm

-- No parameter before the first that has a default has one.
theorem not_hasDefault_of_mem_take {p : VarDef} (hp : p ∈ m.params.take (firstArity m)) :
    p.hasDefault = false := by
  obtain ⟨i, hi, rfl⟩ := List.mem_take_iff_getElem.mp hp
  unfold firstArity MethodDef.firstDefault? at hi
  cases hfirst : m.params.findIdx? VarDef.hasDefault with
  | none => exact List.findIdx?_eq_none_iff.mp hfirst _ (List.getElem_mem _)
  | some first =>
    obtain ⟨hlt, -, hbefore⟩ := List.findIdx?_eq_some_iff_getElem.mp hfirst
    rw [hfirst, Option.getD_some] at hi
    simpa using hbefore i (by omega)

-- If all parameters behind the first default have one as well, a mixin declares what has a body.
theorem declaredArities_eq (h : ∀ p ∈ m.params.drop (firstArity m), p.hasDefault = true) :
    declaredArities m = bodyArities m := by
  have hlength : (m.params.take (firstArity m)).length = firstArity m := by
    simpa using firstArity_le
  have hbefore : (m.params.take (firstArity m)).zipIdx.filter (·.1.hasDefault) = [] := by
    rw [List.filter_eq_nil_iff]
    intro p hp
    simp [not_hasDefault_of_mem_take (List.fst_mem_of_mem_zipIdx hp)]
  have hbehind : ((m.params.drop (firstArity m)).zipIdx (firstArity m)).filter (·.1.hasDefault) =
      (m.params.drop (firstArity m)).zipIdx (firstArity m) := by
    rw [List.filter_eq_self]
    intro p hp
    exact h p.1 (List.fst_mem_of_mem_zipIdx hp)
  have hsplit : m.params.zipIdx = (m.params.take (firstArity m)).zipIdx ++
      (m.params.drop (firstArity m)).zipIdx (firstArity m) := by
    conv_lhs => rw [← List.take_append_drop (firstArity m) m.params]
    rw [List.zipIdx_append, hlength, Nat.zero_add]
  unfold declaredArities bodyArities
  rw [hsplit, List.filter_append, hbefore, hbehind, List.nil_append, List.zipIdx_map_snd,
    List.length_drop, List.range_eq_range', List.drop_range']
  simp

end Arities

-- The parameters that are pushed by default all have one.
theorem hasDefault_of_lowerDefaults {env : ClassEnv} {c c' : OpenClass} {m : MethodDef} {f : Frame}
    {out all : CodeBuffer} {index : Nat} {ps : List VarDef}
    (h : lowerDefaults m f out index ps env c = .ok all c') : ∀ p ∈ ps, p.hasDefault = true := by
  induction ps generalizing out index c with
  | nil => simp
  | cons p rest ih =>
    unfold lowerDefaults at h
    cases hcode : p.default? with
    | none =>
      rw [hcode] at h
      obtain ⟨cls, c₁, -, hthrow⟩ := ClassM.bind_eq_ok.mp h
      cases hthrow
    | some code =>
      rw [hcode] at h
      obtain ⟨fragment, c₁, -, hrest⟩ := ClassM.bind_eq_ok.mp h
      exact List.forall_mem_cons.mpr ⟨by simp [VarDef.hasDefault, hcode], ih hrest⟩

-- The body of a method of a mixin for the first `n` parameters. It takes the receiver as well.
structure StaticBody (s : Symbols) (mixin : String) (m : MethodDef) (n : Nat)
    (w : MethodInfo) : Prop where
  static : w.access &&& ClassFile.Access.static_ ≠ 0
  name : w.name = m.name
  desc : methodDesc s m (some mixin) (m.params.take n) .inherited = .ok w.desc

theorem mixinBodyAccess_static (m : MethodDef) :
    mixinBodyAccess m &&& ClassFile.Access.static_ ≠ 0 := by
  have hbit : ∀ access : UInt16, (access ||| ClassFile.Access.static_) &&&
      ClassFile.Access.static_ = ClassFile.Access.static_ := by
    intro access
    apply UInt16.toBitVec_inj.mp
    ext i hi
    simp only [UInt16.toBitVec_and, UInt16.toBitVec_or, BitVec.getElem_and, BitVec.getElem_or]
    exact Bool.and_eq_right_iff_imp.mpr fun hbit => by simp [hbit]
  rw [mixinBodyAccess, hbit]
  decide

section Bodies

variable {env : ClassEnv} {owner : String} {m : MethodDef} {main : MethodInfo}
  {ws : List MethodInfo} {ret : TypeRef} {mode : SelfMode}

-- There is a body for each number of arguments, which takes that every parameter behind the first
-- default has one.
theorem Family.bodies (h : Family env owner m (mixinBodyTarget env.selfName m main.desc ret)
      (mixinBodyAccess m) mode main ws) (haccess : main.access = mixinBodyAccess m)
    (hstatic : m.isStatic = false) :
    List.Forall₂ (StaticBody env.pod.symbols env.selfName m) (bodyArities m) (main :: ws) ∧
      ∀ p ∈ m.params.drop (firstArity m), p.hasDefault = true := by
  have hself : mixinSelf env.selfName m = some env.selfName := by simp [mixinSelf, hstatic]
  have hmain : StaticBody env.pod.symbols env.selfName m m.params.length main := by
    refine ⟨by rw [haccess]; exact mixinBodyAccess_static m, h.name, ?_⟩
    rw [List.take_length, ← hself]
    exact h.full
  cases h.wrappers with
  | none hfirst =>
    have hnone : firstArity m = m.params.length := by simp [firstArity, hfirst]
    rw [bodyArities, hnone, List.drop_length, List.drop_of_length_le (by simp)]
    exact ⟨.cons hmain .nil, by simp⟩
  | @some first f ref ws hfirst hframe hws =>
    have hsome : firstArity m = first := by simp [firstArity, hfirst]
    rw [bodyArities, hsome]
    refine ⟨.cons hmain (hws.imp fun n w hw => ?_), ?_⟩
    · refine ⟨by rw [hw.access]; exact mixinBodyAccess_static m, hw.name, ?_⟩
      rw [← hself]
      exact hw.desc
    · obtain ⟨hlt, -⟩ := List.findIdx?_eq_some_iff_getElem.mp hfirst
      have hmem : first ∈ (List.range m.params.length).drop first := by
        rw [List.range_eq_range', List.drop_range', List.mem_range'_1]
        omega
      obtain ⟨w, -, hw⟩ := exists_of_forall₂ hws hmem
      obtain ⟨c₁, c₂, c₃, passed, all, -, hdefaults, -⟩ := hw.code
      exact hasDefault_of_lowerDefaults hdefaults

end Bodies

-- The code of a method passes its arguments on to a static method. The pool has the method in its
-- parts if it can be cut into them.
structure PassesTo (k : Constants) (w : MethodInfo) (kinds : List StackType) (result : StackType)
    (target : Member) (ref : UInt16) : Prop where
  code : ∃ out, w.code = some out ∧ out.code.toList = aload0 :: (loadBytes (routerLocals 1 kinds) ++
    (invokeStatic :: ((Bytes.be2 ref).toList ++ [returnOp result])))
  sig : k.method? ref = some (target.owner ++ "." ++ target.name ++ target.desc)
  parts : '(' ∉ target.owner.toList ++ target.name.toList → '.' ∉ target.name.toList →
    k.methodMember? ref = some target

theorem PassesTo.extends {k k' : Constants} {w : MethodInfo} {kinds : List StackType}
    {result : StackType} {target : Member} {ref : UInt16}
    (h : PassesTo k w kinds result target ref) (hk : Constants.Extends k' k) :
    PassesTo k' w kinds result target ref where
  code := h.code
  sig := hk.method? h.sig
  parts hbracket hdot := hk.methodMember? (h.parts hbracket hdot)

-- The access of a router.
def routedAccess (m : MethodDef) : UInt16 :=
  (accessOf m.flags &&& ~~~(ClassFile.Access.abstract_ ||| ClassFile.Access.static_)) |||
    ClassFile.Access.public_

-- The router for the first `n` parameters of a method of a mixin, in a class with its constants.
structure Routed (k : Constants) (s : Symbols) (mixin : String) (m : MethodDef) (n : Nat)
    (w : MethodInfo) : Prop where
  access : w.access = routedAccess m
  name : w.name = m.name
  desc : methodDesc s m none (m.params.take n) .inherited = .ok w.desc
  code : ∃ bodyDesc kinds ret ref,
    methodDesc s m (some mixin) (m.params.take n) .inherited = .ok bodyDesc ∧
    (m.params.take n).mapM (fun p => TypeRef.stack <$> typeRefAt s p.type) = .ok kinds ∧
    typeRefAt s m.inheritedRet = .ok ret ∧
    PassesTo k w kinds ret.stack ⟨mixin ++ "$", m.name, bodyDesc⟩ ref

theorem Routed.extends {k k' : Constants} {s : Symbols} {mixin : String} {m : MethodDef} {n : Nat}
    {w : MethodInfo} (h : Routed k s mixin m n w) (hk : Constants.Extends k' k) :
    Routed k' s mixin m n w := by
  obtain ⟨bodyDesc, kinds, ret, ref, hdesc, hkinds, hret, hpasses⟩ := h.code
  exact ⟨h.access, h.name, h.desc, bodyDesc, kinds, ret, ref, hdesc, hkinds, hret,
    hpasses.extends hk⟩

section Routers

variable {env : ClassEnv} {c c' : OpenClass} {pod : Pod} {mixin : String} {m : MethodDef}
  {u : Unit}

-- A method that was made of parts is in the pool, and in these parts if it can be cut into them.
theorem intern_method_parts {owner name desc : String} {i : UInt16} (hc : c.WellFormed env)
    (h : Ref.intern (.method (owner ++ "." ++ name ++ ("(" ++ desc))) env c = .ok i c') :
    Constants.method? c'.draft.pool.get? i = some (owner ++ "." ++ name ++ ("(" ++ desc)) ∧
      ('(' ∉ owner.toList ++ name.toList → '.' ∉ name.toList →
        Constants.methodMember? c'.draft.pool.get? i = some ⟨owner, name, "(" ++ desc⟩) := by
  refine ⟨intern_method_eq_ok hc h, fun hbracket hdot => ?_⟩
  obtain ⟨p, hp, rfl⟩ := ClassM.onPool_eq_ok.mp h
  obtain ⟨-, -, member, owner', name', hmember, hi, hparts⟩ := ClassFile.Pool.member_eq_ok hc.pool hp
  rw [Constants.methodMember?, hi]
  exact hparts.trans (congrArg some (Member.eq_of_ofMethod hmember hbracket hdot))

-- The code of a router, and the method that it calls in the pool.
theorem code_of_routerItems {name desc : String} {maxStack maxLocals : Nat}
    {kinds : List StackType} {result : StackType} {out : CodeBuffer} (hc : c.WellFormed env)
    (h : ClassM.assemble (CodeBuffer.sized maxStack maxLocals)
      (routerItems mixin name ("(" ++ desc) kinds result) env c = .ok out c') :
    ∃ ref, ∀ w : MethodInfo, w.code = some out →
      PassesTo c'.draft.pool.get? w kinds result ⟨mixin ++ "$", name, "(" ++ desc⟩ ref := by
  obtain ⟨c₁, c₂, pre, loads, ref, hpre, hloads, hintern, hbytes⟩ :=
    code_of_assemble (p := [.op aload0]) (by simp) h
  obtain ⟨pre₁, hnil, hbytes₁⟩ := interned_op hpre
  rw [hbytes₁, interned_nil hnil] at hbytes
  have hc₂ := (hloads.advances (hpre.advances hc).1).1
  have htext : ∀ text : String, s!"{mixin}$.{name}{text}" = mixin ++ "$" ++ "." ++ name ++ text :=
    fun text => String.toList_injective (by simp [toString])
  rw [htext] at hintern
  obtain ⟨hsig, hparts⟩ := intern_method_parts hc₂ hintern
  exact ⟨ref, fun w hw => ⟨⟨out, hw, hbytes⟩, hsig, hparts⟩⟩

-- Afterwards the class has a method for the arguments: its own, or the router.
theorem lowerRouterFor_routes {ret : TypeRef} {n : Nat} (hc : c.WellFormed env)
    (hret : typeRefAt pod.symbols m.inheritedRet = .ok ret)
    (h : lowerRouterFor pod mixin m (routedAccess m) ret.stack n env c = .ok u c') :
    ∃ ws, c.Declares env ws c' ∧
      (∀ w ∈ ws, Routed c'.draft.pool.get? pod.symbols mixin m n w) ∧
      ∃ w ∈ c'.draft.methods.toList, w.name = m.name ∧
        methodDesc pod.symbols m none (m.params.take n) .inherited = .ok w.desc := by
  obtain ⟨desc, hdesc, ⟨hhas, rfl⟩ |
    ⟨bodyDesc, kinds, out, c₁, -, hbodyDesc, hkinds, hitems, hadd⟩⟩ := lowerRouterFor_cases h
  · unfold ClassFile.Draft.hasMethod at hhas
    obtain ⟨w, hw, hsame⟩ := Array.any_eq_true'.mp hhas
    simp only [Bool.and_eq_true, decide_eq_true_eq] at hsame
    exact ⟨[], .refl hc, by simp, w, Array.mem_toList_iff.mpr hw, hsame.1, hsame.2 ▸ hdesc⟩
  · obtain ⟨args, result, -, -, hopen⟩ := methodDesc_eq_ok hbodyDesc
    rw [String.append_assoc, String.append_assoc, String.append_assoc] at hopen
    subst hopen
    obtain ⟨ref, hpasses⟩ := code_of_routerItems hc hitems
    have hc₁ := (advancing_assemble _ _ _ _ _ _ hitems).declares hc
    obtain ⟨w, hw, haccess, hname, rfl, hcode⟩ := ClassM.addMethod_eq_ok hc₁.formed hadd
    have hext := hw.draft.grows.extends hw.formed.pool
    refine ⟨[w], hc₁.trans hw, List.forall_mem_singleton.mpr ⟨haccess, hname, hdesc, _, kinds, ret,
      ref, hbodyDesc, hkinds, hret, (hpasses w hcode).extends hext⟩, w, ?_, hname, hdesc⟩
    exact Array.mem_toList_iff.mpr (hw.draft.has_of_mem List.mem_cons_self).mem

-- So for several numbers of arguments.
theorem forM_lowerRouterFor_routes {ret : TypeRef} {ns : List Nat} (hc : c.WellFormed env)
    (hret : typeRefAt pod.symbols m.inheritedRet = .ok ret)
    (h : ns.forM (lowerRouterFor pod mixin m (routedAccess m) ret.stack) env c = .ok u c') :
    ∃ ws, c.Declares env ws c' ∧
      (∀ w ∈ ws, ∃ n ∈ ns, Routed c'.draft.pool.get? pod.symbols mixin m n w) ∧
      ∀ n ∈ ns, ∃ w ∈ c'.draft.methods.toList, w.name = m.name ∧
        methodDesc pod.symbols m none (m.params.take n) .inherited = .ok w.desc := by
  induction ns generalizing c with
  | nil =>
    obtain ⟨-, rfl⟩ := ClassM.pure_eq_ok.mp h
    exact ⟨[], .refl hc, by simp, by simp⟩
  | cons n rest ih =>
    obtain ⟨v, c₁, hfirst, hrest⟩ := ClassM.bind_eq_ok.mp h
    obtain ⟨ws, hws, hrouted, hthere⟩ := lowerRouterFor_routes hc hret hfirst
    obtain ⟨ws', hws', hrouted', hthere'⟩ := ih hws.formed hrest
    refine ⟨ws ++ ws', hws.trans hws', ?_, List.forall_mem_cons.mpr ⟨?_, hthere'⟩⟩
    · intro w hw
      obtain hw | hw := List.mem_append.mp hw
      · have hext := hws'.draft.grows.extends hws'.formed.pool
        exact ⟨n, List.mem_cons_self, (hrouted w hw).extends hext⟩
      · obtain ⟨n', hn', hw⟩ := hrouted' w hw
        exact ⟨n', List.mem_cons_of_mem _ hn', hw⟩
    · obtain ⟨w, hw, hsame⟩ := hthere
      refine ⟨w, ?_, hsame⟩
      rw [hws'.draft.methods]
      exact List.mem_append_left _ hw

end Routers

section Routes

variable {env : ClassEnv} {c c' : OpenClass} {u : Unit}

-- What a class has of a method that it routes: every router is one for the method, and for each
-- number of arguments there is one or a method of the class itself.
structure Routes (k : Constants) (l : LoadedType) (m : MethodDef) (methods : List MethodInfo)
    (mixin : TypeRef) (routers : List MethodInfo) : Prop where
  self : typeRefAt l.pod.symbols l.type.self = .ok mixin
  routed : ∀ w ∈ routers, ∃ n ∈ routedArities m, Routed k l.pod.symbols mixin.jname m n w
  covered : ∀ n ∈ routedArities m, ∃ w ∈ methods, w.name = m.name ∧
    methodDesc l.pod.symbols m none (m.params.take n) .inherited = .ok w.desc

theorem Routes.mono {k k' : Constants} {l : LoadedType} {m : MethodDef} {mixin : TypeRef}
    {methods methods' routers : List MethodInfo} (h : Routes k l m methods mixin routers)
    (hk : Constants.Extends k' k) (hmethods : methods ⊆ methods') :
    Routes k' l m methods' mixin routers where
  self := h.self
  routed w hw := by
    obtain ⟨n, hn, hrouted⟩ := h.routed w hw
    exact ⟨n, hn, hrouted.extends hk⟩
  covered n hn := by
    obtain ⟨w, hw, hsame⟩ := h.covered n hn
    exact ⟨w, hmethods hw, hsame⟩

theorem lowerRouter_routes {l : LoadedType} {m : MethodDef} (hc : c.WellFormed env)
    (h : lowerRouter l.pod l.type m env c = .ok u c') :
    ∃ mixin routers, c.Declares env routers c' ∧
      Routes c'.draft.pool.get? l m c'.draft.methods.toList mixin routers := by
  obtain ⟨mixin, c₁, hrun, h₁⟩ := ClassM.bind_eq_ok.mp h
  obtain ⟨hself, rfl⟩ := ClassM.ofExcept_eq_ok.mp hrun
  obtain ⟨ret, c₂, hrun, hloop⟩ := ClassM.bind_eq_ok.mp h₁
  obtain ⟨hret, rfl⟩ := ClassM.ofExcept_eq_ok.mp hrun
  obtain ⟨ws, hws, hrouted, hthere⟩ := forM_lowerRouterFor_routes hc hret hloop
  exact ⟨mixin, ws, hws, hself, hrouted, hthere⟩

-- The routers of a class are those of its routes, in their order.
theorem forM_lowerRouter_routes {routes : List (LoadedType × MethodDef)} (hc : c.WellFormed env)
    (h : routes.forM (fun p => lowerRouter p.1.pod p.1.type p.2) env c = .ok u c') :
    ∃ groups, c.Declares env groups.flatten c' ∧ List.Forall₂ (fun p routers => ∃ mixin,
      Routes c'.draft.pool.get? p.1 p.2 c'.draft.methods.toList mixin routers) routes groups := by
  induction routes generalizing c with
  | nil =>
    obtain ⟨-, rfl⟩ := ClassM.pure_eq_ok.mp h
    exact ⟨[], .refl hc, .nil⟩
  | cons p rest ih =>
    obtain ⟨v, c₁, hfirst, hrest⟩ := ClassM.bind_eq_ok.mp h
    obtain ⟨mixin, routers, hrouters, hroutes⟩ := lowerRouter_routes hc hfirst
    obtain ⟨groups, hgroups, hall⟩ := ih hrouters.formed hrest
    refine ⟨routers :: groups, hrouters.trans hgroups, .cons ⟨mixin, hroutes.mono ?_ ?_⟩ hall⟩
    · exact hgroups.draft.grows.extends hgroups.formed.pool
    · rw [hgroups.draft.methods]
      exact List.subset_append_left _ _

variable {e : PodEnv} {self : TypeRef} {l : LoadedType} {r r' : Resolver} {bases : List Ancestor}
  {main : ClassOutput} {carriers dynamics : List ClassOutput}

-- The class of a type is written with its own methods and with the routers behind them.
theorem ClassParts.routers (h : ClassParts e self l r r' bases main carriers dynamics)
    (hr : r.Sound e.pod.symbols) :
    ∃ routes k plain groups, Hierarchy.routes e l bases = .ok routes ∧ main.name = self.jname ∧
      main.HasMethods k (plain ++ groups.flatten) ∧
      (∀ w ∈ plain, IsMemberName l.type w.name) ∧ List.Forall₂ (fun p routers => ∃ mixin,
        Routes k p.1 p.2 (plain ++ groups.flatten) mixin routers) routes groups := by
  obtain ⟨draft, cls, hdraft, hcls, hfinish⟩ := h.lowered
  have hnone := ClassM.declaring_iff_includes.mp (ClassM.declaring_forPicked
    (l := l.type.methods.toList) (p := isListed) declaring_lowerMethod)
  obtain ⟨c, hc, hrun, -, hformed, hwritten⟩ := inClass_written hdraft hr
    (ClassM.declaring_iff_includes.mpr (includes_lowerRouted _ _ _ _ hnone)) hcls
  obtain ⟨u, c₁, hplain, h₁⟩ := ClassM.bind_eq_ok.mp hrun
  obtain ⟨routes, c₂, hrun, hloop⟩ := ClassM.bind_eq_ok.mp h₁
  obtain ⟨hroutes, rfl⟩ := ClassM.ofExcept_eq_ok.mp hrun
  obtain ⟨plain, hplain, hnames⟩ := adds_lowerMembers _ _ _ _ _ _ _ _ hplain hc
  obtain ⟨groups, hgroups, hall⟩ := forM_lowerRouter_routes hplain.formed hloop
  obtain ⟨hname, k, hmethods, hext⟩ := hwritten main hfinish
  have hlist : c.draft.methods.toList = plain ++ groups.flatten := by
    rw [hgroups.draft.methods, hplain.draft.methods, OpenClass.methods_create hdraft]
    simp
  rw [hlist] at hmethods hall
  refine ⟨routes, k, plain, groups, hroutes, hname, hmethods, hnames, hall.imp ?_⟩
  rintro p routers ⟨mixin, hp⟩
  exact ⟨mixin, hp.mono hext (List.Subset.refl _)⟩

end Routes

-- What becomes of a method of a mixin: its interface declares it, and beside it stand the bodies.
structure MixinMembers (s : Symbols) (mixin : TypeRef) (m : MethodDef) (classes : List ClassOutput)
    (declarations bodies : List MethodInfo) : Prop where
  interface : ∃ o ∈ classes, o.name = mixin.jname ∧ ∃ k before after,
    o.HasMethods k (before ++ declarations ++ after)
  body : ∃ o ∈ classes, o.name = mixin.jname ++ "$" ∧ ∃ k before after,
    o.HasMethods k (before ++ bodies ++ after)
  declared : List.Forall₂ (Declaration s m
    (ClassFile.Access.public_ ||| ClassFile.Access.abstract_)) (declaredArities m) declarations
  implemented : List.Forall₂ (StaticBody s mixin.jname m) (bodyArities m) bodies

section Mixins

variable {e : PodEnv} {mixin : TypeRef} {t : TypeDef} {m : MethodDef} {classes : List ClassOutput}

-- The methods that a step puts into a class stand there one behind the other.
theorem Takes.hasMethods {name : String} {g : ClassM Unit} {P : List MethodInfo → Prop}
    (h : Takes e mixin name g classes)
    (hg : ∀ c c', c.WellFormed (classEnv e mixin) → g (classEnv e mixin) c = .ok () c' →
      ∃ ms, c.Declares (classEnv e mixin) ms c' ∧ P ms) :
    ∃ ms, P ms ∧ ∃ o ∈ classes, o.name = name ∧ ∃ k before after,
      o.HasMethods k (before ++ ms ++ after) := by
  obtain ⟨o, ho, hname, c₁, c₂, hc₁, -, hstep, k, after, hmethods, -⟩ := h
  obtain ⟨ms, hms, hP⟩ := hg c₁ c₂ hc₁ hstep
  rw [hms.draft.methods] at hmethods
  exact ⟨ms, hP, o, ho, hname, k, _, after, hmethods⟩

-- A mixin has the members of a method with code.
theorem Lowers.mixinMembers (h : Lowers e mixin t classes) (hmixin : t.isMixin = true)
    (hm : m ∈ t.methods) (hlisted : isListed m = true) (hstatic : m.isStatic = false)
    (hctor : m.isCtor = false) (hcode : m.hasCode = true) :
    ∃ declarations bodies, MixinMembers e.pod.symbols mixin m classes declarations bodies ∧
      ∀ p ∈ m.params.drop (firstArity m), p.hasDefault = true := by
  have hlisted' : isMixinListed m = true := by
    simpa [isMixinListed, isListed, hctor] using hlisted
  obtain ⟨declarations, hdeclared, hinterface⟩ := (h.interface hmixin m hm).hasMethods
    (P := List.Forall₂ (Declaration e.pod.symbols m
      (ClassFile.Access.public_ ||| ClassFile.Access.abstract_)) (declaredArities m)) (by
      intro c c' hc hstep
      obtain ⟨hskip, -⟩ | ⟨ms, hms, hall⟩ := lowerMixinInterface_eq_ok hc hstep
      · simp [hstatic, hctor] at hskip
      · exact ⟨ms, hms, hall⟩)
  obtain ⟨bodies, ⟨himplemented, hdefaults⟩, hbody⟩ := (h.body hmixin m hm hlisted').hasMethods
    (P := fun ms => List.Forall₂ (StaticBody e.pod.symbols mixin.jname m) (bodyArities m) ms ∧
      ∀ p ∈ m.params.drop (firstArity m), p.hasDefault = true) (by
      intro c c' hc hstep
      obtain ⟨hnone, -⟩ | ⟨main, ret, f, -, hsteps, haccess, -⟩ := lowerMixinBody_eq_ok hc hstep
      · rw [hcode] at hnone
        cases hnone
      · obtain ⟨ws, hms, hfamily⟩ := hsteps.family
        exact ⟨main :: ws, hms, hfamily.bodies haccess hstatic⟩)
  exact ⟨declarations, bodies, ⟨hinterface, hbody, hdeclared, himplemented⟩, hdefaults⟩

end Mixins

namespace Hierarchy

-- What is routed is a method of a mixin that can be routed to.
theorem mem_of_mem_routesFrom {all : List Mixin} {taken : List String}
    {candidates : List (Mixin × MethodDef)} {p : LoadedType × MethodDef}
    (hp : p ∈ routesFrom all taken candidates) :
    ∃ q ∈ candidates, p = (q.1.loaded, q.2) ∧ isRoutable q.2 = true := by
  induction candidates generalizing taken with
  | nil => cases hp
  | cons q rest ih =>
    unfold routesFrom at hp
    split at hp
    · rename_i hroutable
      obtain rfl | hp := List.mem_cons.mp hp
      · simp only [Bool.and_eq_true] at hroutable
        exact ⟨q, List.mem_cons_self, rfl, hroutable.1.1⟩
      · obtain ⟨q', hq', hsame⟩ := ih hp
        exact ⟨q', List.mem_cons_of_mem _ hq', hsame⟩
    · obtain ⟨q', hq', hsame⟩ := ih hp
      exact ⟨q', List.mem_cons_of_mem _ hq', hsame⟩

theorem mem_methods_of_routes {e : PodEnv} {l : LoadedType} {bases : List Ancestor}
    {routes : List (LoadedType × MethodDef)} (h : Hierarchy.routes e l bases = .ok routes)
    {p : LoadedType × MethodDef} (hp : p ∈ routes) :
    p.2 ∈ p.1.type.methods ∧ isRoutable p.2 = true := by
  obtain ⟨mixins, -, hpure⟩ := except_bind_eq_ok.mp h
  cases hpure
  obtain ⟨q, hq, rfl, hroutable⟩ := mem_of_mem_routesFrom hp
  obtain ⟨mixin, -, hpair⟩ := List.mem_flatMap.mp hq
  obtain ⟨m, hm, rfl⟩ := List.mem_map.mp hpair
  exact ⟨Array.mem_toList_iff.mp hm, hroutable⟩

end Hierarchy

-- A router calls a body for its arguments, and stands for the declaration for them.
theorem MixinMembers.serve {k : Constants} {s : Symbols} {mixin : TypeRef} {m : MethodDef} {n : Nat}
    {classes : List ClassOutput} {declarations bodies : List MethodInfo} {w : MethodInfo}
    (h : MixinMembers s mixin m classes declarations bodies)
    (hw : Routed k s mixin.jname m n w) (hbody : n ∈ bodyArities m)
    (hdeclared : n ∈ declaredArities m) :
    (∃ b ∈ bodies, ∃ kinds result ref,
      PassesTo k w kinds result ⟨mixin.jname ++ "$", b.name, b.desc⟩ ref) ∧
    ∃ d ∈ declarations, d.name = w.name ∧ d.desc = w.desc := by
  constructor
  · obtain ⟨bodyDesc, kinds, ret, ref, hdesc, -, -, hpasses⟩ := hw.code
    obtain ⟨b, hb, himplements⟩ := exists_of_forall₂ h.implemented hbody
    have hsame : b.desc = bodyDesc := Except.ok.inj (himplements.desc.symm.trans hdesc)
    rw [← hsame, ← himplements.name] at hpasses
    exact ⟨b, hb, kinds, ret.stack, ref, hpasses⟩
  · obtain ⟨d, hd, hdecl⟩ := exists_of_forall₂ h.declared hdeclared
    exact ⟨d, hd, hdecl.name.trans hw.name.symm,
      Except.ok.inj (hdecl.desc.symm.trans hw.desc)⟩

-- Wherever a class has a router for a method of a mixin, and the mixin is lowered as well, the
-- router calls a static method of the class of the bodies and stands for a method that the
-- interface declares. All three have the method for the same numbers of arguments.
theorem router_targets_exist {e : PodEnv} {index : Nat} {t : TypeDef} {self : TypeRef}
    {own : List ClassOutput} (h : e.classesOf index = .ok own) (ht : e.pod.types[index]? = some t)
    (hclass : t.isMixin = false) (hself : typeRefAt e.pod.symbols t.self = .ok self) :
    ∃ bases routes main k plain groups,
      Hierarchy.ancestors e self ⟨e.pod, t⟩ = .ok bases ∧
      Hierarchy.routes e ⟨e.pod, t⟩ bases = .ok routes ∧
      main ∈ own ∧ main.name = self.jname ∧ main.HasMethods k (plain ++ groups.flatten) ∧
      List.Forall₂ (fun p routers => ∃ mixin,
        Routes k p.1 p.2 (plain ++ groups.flatten) mixin routers ∧
        (isListed p.2 = true → p.1.type.isMixin = true →
          ∀ others config index' classes, p.1.pod.types[index']? = some p.1.type →
            (PodEnv.mk p.1.pod others config).classesOf index' = .ok classes →
            ∃ declarations bodies,
              MixinMembers p.1.pod.symbols mixin p.2 classes declarations bodies ∧
              declaredArities p.2 = bodyArities p.2 ∧
              (bodyArities p.2).Perm (routedArities p.2) ∧
              ∀ w ∈ routers,
                (∃ b ∈ bodies, ∃ kinds result ref,
                  PassesTo k w kinds result ⟨mixin.jname ++ "$", b.name, b.desc⟩ ref) ∧
                ∃ d ∈ declarations, d.name = w.name ∧ d.desc = w.desc)) routes groups := by
  obtain ⟨r', hrun⟩ := given_eq_ok.mp h
  obtain ⟨bases, main, carriers, dynamics, hparts, rfl⟩ :=
    lowerClass_eq_ok (lowerClass_of_lowerType hrun ht hself hclass)
  obtain ⟨routes, k, plain, groups, hroutes, hname, hmethods, -, hall⟩ :=
    hparts.routers (Resolver.sound_empty _)
  refine ⟨bases, routes, main, k, plain, groups, hparts.chain, hroutes, List.mem_cons_self, hname,
    hmethods, ?_⟩
  have hmembers := (List.forall₂_and_left _ _).mpr
    ⟨fun p hp => Hierarchy.mem_methods_of_routes hroutes hp, hall⟩
  refine hmembers.imp ?_
  rintro p routers ⟨⟨hm, hroutable⟩, mixin, hp⟩
  refine ⟨mixin, hp, ?_⟩
  intro hlisted hmixin others config index' classes htype hclasses
  simp only [Hierarchy.isRoutable, Bool.and_eq_true, Bool.not_eq_true'] at hroutable
  obtain ⟨⟨⟨hstatic, hctor⟩, -⟩, hcode⟩ := hroutable
  obtain ⟨r'', hrun'⟩ := given_eq_ok.mp hclasses
  have hlowers := (lowerType_lowers (e := ⟨p.1.pod, others, config⟩) (Resolver.sound_empty _)
    hrun').2 p.1.type mixin htype hp.self
  obtain ⟨declarations, bodies, hmixinMembers, hdefaults⟩ :=
    hlowers.mixinMembers hmixin hm hlisted hstatic hctor hcode
  have hsame := declaredArities_eq hdefaults
  refine ⟨declarations, bodies, hmixinMembers, hsame, bodyArities_perm, fun w hw => ?_⟩
  obtain ⟨n, hn, hrouted⟩ := hp.routed w hw
  have hbody := bodyArities_perm.mem_iff.mpr hn
  exact hmixinMembers.serve hrouted hbody (hsame ▸ hbody)

-- A mixin with one method, and a class that has it.
def walkMethod : MethodDef where
  name := "walk"
  flags := Pod.Flag.public_
  ret := 2
  inheritedRet := 2
  maxStack := 0
  paramCount := 0
  localCount := 0
  vars := #[]
  code := #[42]
  attrs := {}

def walksType : TypeDef where
  self := 1
  base := none
  mixins := #[]
  flags := Pod.Flag.public_ ||| Pod.Flag.mixin_
  body? := some { methods := #[walkMethod] }

def manType : TypeDef where
  self := 0
  base := none
  mixins := #[1]
  flags := Pod.Flag.public_
  body? := some {}

def manRef : TypeRef := ⟨"p", "Man", ""⟩

def walksRef : TypeRef := ⟨"p", "Walks", ""⟩

def manEnv : PodEnv where
  pod :=
    { bareEnv.pod with
      symbols := { typeRefs := #[manRef, walksRef, ⟨"sys", "Void", ""⟩] }
      types := #[manType, walksType] }
  others := {}
  config := { lineNumbers := false, sourceFiles := false }

-- A reference means the first type of the pod that has its name.
theorem LoadedType.ofPod_of_findType {pod : Pod} {r : TypeRef} {i : Nat} {t : TypeDef}
    (hfind : pod.findType? r.name = some i) (htype : pod.types[i]? = some t)
    (hread : t.isHollow = false) : LoadedType.ofPod pod r = .ok ⟨pod, t⟩ := by
  simp [LoadedType.ofPod, hfind, htype, hread]

theorem PodEnv.find_own {e : PodEnv} {r : TypeRef} {i : Nat} {t : TypeDef}
    (hpod : r.pod = e.pod.name) (hfind : e.pod.findType? r.name = some i)
    (htype : e.pod.types[i]? = some t) (hread : t.isHollow = false) :
    e.find r = .ok (some ⟨e.pod, t⟩) := by
  unfold PodEnv.find
  rw [if_pos hpod, LoadedType.ofPod_of_findType hfind htype hread]
  rfl

theorem find_walks : manEnv.find walksRef = .ok (some ⟨manEnv.pod, walksType⟩) :=
  PodEnv.find_own (i := 1) rfl (by cbv) rfl rfl

theorem routes_man : Hierarchy.routes manEnv ⟨manEnv.pod, manType⟩ [] =
    .ok [(⟨manEnv.pod, walksType⟩, walkMethod)] := by
  have hall : Hierarchy.allMixins manEnv = ["p::Walks"] := by cbv
  have hmeet : Hierarchy.meet manEnv ["p::Walks"] (LoadedType.mixins ⟨manEnv.pod, walksType⟩) =
      .ok ["p::Walks"] := by
    unfold LoadedType.mixins Hierarchy.meet
    rfl
  have hserve : Hierarchy.serve manEnv ["p::Walks"] (LoadedType.mixins ⟨manEnv.pod, manType⟩) =
      .ok [⟨"p::Walks", ⟨manEnv.pod, walksType⟩, []⟩] := by
    have href : typeRefAt manEnv.pod.symbols 1 = .ok walksRef := rfl
    have hname : walksRef.qname = "p::Walks" := by cbv
    have hstack : LoadedType.mixins ⟨manEnv.pod, manType⟩ = [(manEnv.pod, 1)] := rfl
    have hempty : LoadedType.mixins ⟨manEnv.pod, walksType⟩ = [] := rfl
    rw [hstack, Hierarchy.serve, href]
    dsimp only
    rw [hname, dif_pos List.mem_cons_self, find_walks]
    dsimp only
    have hrest : Hierarchy.serve manEnv (Hierarchy.without ["p::Walks"] "p::Walks")
        (LoadedType.mixins ⟨manEnv.pod, walksType⟩ ++ []) = .ok [] := by
      rw [hempty, List.nil_append, Hierarchy.serve]
    rw [hall]
    exact except_bind_eq_ok.mpr ⟨_, hmeet, except_bind_eq_ok.mpr ⟨[], hrest, rfl⟩⟩
  refine except_bind_eq_ok.mpr ⟨_, except_bind_eq_ok.mpr ⟨["p::Walks"], ?_, hserve⟩, ?_⟩
  · rw [hall]
    rfl
  · rfl

-- There is room for a router of the method.
theorem fits_router_walk {env : ClassEnv} {name bodyDesc : String} {l : LoadedType}
    {mixin : TypeRef} (hself : typeRefAt l.pod.symbols l.type.self = .ok mixin)
    (hret : typeRefAt l.pod.symbols walkMethod.inheritedRet = .ok ⟨"sys", "Void", ""⟩)
    (hdesc : methodDesc l.pod.symbols walkMethod none [] .inherited = .ok "()V")
    (hbody : methodDesc l.pod.symbols walkMethod (some mixin.jname) [] .inherited = .ok bodyDesc)
    (hcut : ∃ member,
      Member.ofMethod s!"{mixin.jname}$.{walkMethod.name}{bodyDesc}" = .ok member) :
    ClassM.Fits env name 40 (List.forM [(l, walkMethod)] fun p =>
      lowerRouter p.1.pod p.1.type p.2) fun _ => True := by
  refine ClassM.fits_bind (n := 40) (k := 0) (P := fun _ => True) ?_ fun _ _ =>
    ClassM.fits_pure trivial
  refine ClassM.fits_look_bind (a := mixin) (fun c _ => ClassM.ofExcept_eq_ok.mpr ⟨hself, rfl⟩) ?_
  refine ClassM.fits_look_bind (a := ⟨"sys", "Void", ""⟩)
    (fun c _ => ClassM.ofExcept_eq_ok.mpr ⟨hret, rfl⟩) ?_
  refine ClassM.fits_bind (n := 40) (k := 0) (P := fun _ => True) ?_ fun _ _ =>
    ClassM.fits_pure trivial
  exact fits_lowerRouterFor [] hdesc hbody rfl (Nat.zero_le _) hcut

-- The field that keeps the type of the class.
theorem exists_typeField_man : ∃ m, Member.ofField s!"{manRef.jname}.$Type:{typeDesc}" = .ok m :=
  ⟨⟨"fan/p/Man", "$Type", typeDesc⟩, by cbv⟩

-- The initializer of a class without a base type.
theorem exists_superInit :
    ∃ m, Member.ofMethod (superclass [] ++ ".<init>" ++ "()V") = .ok m :=
  ⟨⟨"fan/sys/FanObj", "<init>", "()V"⟩, by cbv⟩

-- The class has room for the router.
theorem exists_classes_man : ∃ classes, manEnv.classesOf 0 = .ok classes := by
  have hself : typeRefAt manEnv.pod.symbols manType.self = .ok manRef := rfl
  have hbody : methodDesc manEnv.pod.symbols walkMethod (some walksRef.jname) [] .inherited =
      .ok "(Lfan/p/Walks;)V" := by cbv
  have hrouters : ClassM.Fits (classEnv manEnv manRef) manRef.jname 40
      (List.forM [((⟨manEnv.pod, walksType⟩ : LoadedType), walkMethod)] fun p =>
        lowerRouter p.1.pod p.1.type p.2) fun _ => True :=
    fits_router_walk rfl rfl rfl hbody ⟨⟨"fan/p/Walks$", "walk", "(Lfan/p/Walks;)V"⟩, by cbv⟩
  have hmixins : ∀ m ∈ manType.mixins.toList, ∃ r, typeRefAt manEnv.pod.symbols m = .ok r := by
    simp only [manType, List.forall_mem_singleton]
    exact ⟨walksRef, rfl⟩
  have hchain : Hierarchy.ancestors manEnv manRef ⟨manEnv.pod, manType⟩ = .ok [] := rfl
  obtain ⟨o, r', hlower, -⟩ := exists_lowerClass_bare (e := manEnv) (t := manType) (r := {})
    ⟨rfl, rfl, by cbv, rfl⟩ hmixins hchain rfl routes_man hrouters
    (by simp [manType]) rfl exists_typeField_man exists_superInit
  exact ⟨[o], given_eq_ok.mpr ⟨r', lowerType_run rfl hself rfl rfl hlower⟩⟩

-- So has the interface for the declaration, and the class of the bodies for the body.
theorem exists_classes_walks : ∃ classes, manEnv.classesOf 1 = .ok classes := by
  have hdeclare : ClassM.Fits (classEnv manEnv walksRef) walksRef.jname 4 (addInterfaces walksType >>=
      fun _ => addSource walksType >>= fun _ =>
        walksType.methods.toList.forM lowerMixinInterface) fun _ => True := by
    refine ClassM.fits_look_bind (a := ()) (fun c _ => rfl) ?_
    refine ClassM.fits_look_bind (a := ()) (fun c _ => rfl) ?_
    refine ClassM.fits_bind (n := 4) (k := 0) (P := fun _ => True) ?_ fun _ _ =>
      ClassM.fits_pure trivial
    refine ClassM.fits_look_bind (a := "()V") (fun c _ => rfl) ?_
    exact ClassM.fits_bind (n := 4) (k := 0) (ClassM.fits_addMethod _ _ _ (by simp)) fun _ _ =>
      ClassM.fits_pure trivial
  have hbody : ClassM.Fits (classEnv manEnv walksRef) (walksRef.jname ++ "$") 4
      (lowerMixinBody walkMethod) fun _ => True := by
    obtain ⟨f, hframe, hlocals⟩ : ∃ f, Frame.forMethod manEnv.pod.symbols (walksRef.jname ++ "$")
        walkMethod .bound = .ok f ∧ f.maxLocals = 1 := ⟨_, rfl, rfl⟩
    refine ClassM.fits_look_bind (a := classEnv manEnv walksRef) (fun c _ => rfl) ?_
    refine ClassM.fits_look_bind (a := "(Lfan/p/Walks;)V") (fun c _ => ClassM.desc_run (by cbv) c) ?_
    refine ClassM.fits_look_bind (a := f) (fun c hc => ClassM.frame_run hframe hc) ?_
    refine ClassM.fits_bind (n := 0) (k := 4)
      (fits_lowerPlainBody_return rfl rfl (by omega) rfl) fun out hout => ?_
    refine ClassM.fits_bind (n := 4) (k := 0) (fits_addCode _ _ _ (by omega)) fun _ _ => ?_
    exact ClassM.fits_look_bind (a := StackType.void) (fun c _ => rfl) (ClassM.fits_pure trivial)
  have hbodies : ClassM.Fits (classEnv manEnv walksRef) (walksRef.jname ++ "$") 4
      (addSource walksType >>= fun _ => addFields walksType (·.isStatic)
        (fun _ => ClassFile.Access.public_ ||| ClassFile.Access.static_) >>= fun _ =>
          ClassM.forPicked walksType.methods.toList isMixinListed lowerMixinBody >>= fun _ =>
            pure ()) fun _ => True := by
    refine ClassM.fits_look_bind (a := ()) (fun c _ => rfl) ?_
    refine ClassM.fits_look_bind (a := ()) (fun c _ => rfl) ?_
    rw [ClassM.forPicked_eq_forM]
    refine ClassM.fits_bind (n := 4) (k := 0) (P := fun _ => True) ?_ fun _ _ =>
      ClassM.fits_pure trivial
    exact ClassM.fits_bind (n := 4) (k := 0) (P := fun _ => True) hbody fun _ _ =>
      ClassM.fits_pure trivial
  obtain ⟨d₁, c₁, o₁, hcreate₁, hrun₁, hfinish₁, -⟩ :
      ∃ d c o, OpenClass.create walksRef.jname "java/lang/Object" (ClassFile.Access.public_ |||
          ClassFile.Access.interface_ ||| ClassFile.Access.abstract_) manEnv.config = .ok d ∧ _ :=
    exists_finish (r := {}) hdeclare (by omega)
  obtain ⟨d₂, c₂, o₂, hcreate₂, hrun₂, hfinish₂, -⟩ :
      ∃ d c o, OpenClass.create (walksRef.jname ++ "$") "java/lang/Object"
          (ClassFile.Access.public_ ||| ClassFile.Access.super_) manEnv.config = .ok d ∧ _ :=
    exists_finish (r := c₁.resolver) hbodies (by omega)
  have hmixin : lowerMixin walksRef walksType manEnv {} = .ok [o₁, o₂] c₂.resolver := by
    refine PodM.bind_eq_ok.mpr ⟨manEnv, {}, rfl, ?_⟩
    refine PodM.bind_eq_ok.mpr ⟨d₁, {}, PodM.ofExcept_run hcreate₁, ?_⟩
    refine PodM.bind_eq_ok.mpr ⟨_, c₁.resolver, inClass_run hrun₁, ?_⟩
    refine PodM.bind_eq_ok.mpr ⟨d₂, c₁.resolver, PodM.ofExcept_run hcreate₂, ?_⟩
    refine PodM.bind_eq_ok.mpr ⟨_, c₂.resolver, inClass_run (u := ()) hrun₂, ?_⟩
    refine PodM.bind_eq_ok.mpr ⟨o₁, c₂.resolver, PodM.ofExcept_run hfinish₁, ?_⟩
    exact PodM.bind_eq_ok.mpr ⟨o₂, c₂.resolver, PodM.ofExcept_run hfinish₂, rfl⟩
  exact ⟨[o₁, o₂], given_eq_ok.mpr ⟨c₂.resolver, PodM.bind_eq_ok.mpr ⟨manEnv, {}, rfl, hmixin⟩⟩⟩

-- The class has a method for the one of the mixin, and the mixin has both its declaration and its
-- body, which a router calls.
theorem router_targets_exist_man : ∃ own classes, manEnv.classesOf 0 = .ok own ∧
    manEnv.classesOf 1 = .ok classes ∧ ∃ main ∈ own, main.name = manRef.jname ∧
      ∃ k plain routers, main.HasMethods k (plain ++ routers) ∧
        (∃ w ∈ plain ++ routers, w.name = "walk" ∧ w.desc = "()V") ∧
        ∃ declarations bodies,
          MixinMembers manEnv.pod.symbols walksRef walkMethod classes declarations bodies ∧
          ∀ w ∈ routers, ∃ b ∈ bodies, ∃ kinds result ref,
            PassesTo k w kinds result ⟨walksRef.jname ++ "$", b.name, b.desc⟩ ref := by
  obtain ⟨own, hown⟩ := exists_classes_man
  obtain ⟨classes, hclasses⟩ := exists_classes_walks
  have htype : manEnv.pod.types[0]? = some manType := rfl
  have hself : typeRefAt manEnv.pod.symbols manType.self = .ok manRef := rfl
  obtain ⟨bases, routes, main, k, plain, groups, hchain, hroutes, hmain, hname, hmethods, hall⟩ :=
    router_targets_exist hown htype rfl hself
  cases hchain
  rw [routes_man] at hroutes
  cases hroutes
  cases hall with
  | @cons _ routers _ _ hfirst hrest =>
    cases hrest
    obtain ⟨mixin, hrouted, htargets⟩ := hfirst
    have hmixin : mixin = walksRef := Except.ok.inj (hrouted.self.symm.trans rfl)
    subst hmixin
    obtain ⟨declarations, bodies, hmembers, -, -, hserve⟩ :=
      htargets (by decide) rfl manEnv.others manEnv.config 1 classes rfl hclasses
    rw [List.flatten_singleton] at hmethods hrouted
    refine ⟨own, classes, hown, hclasses, main, hmain, hname, k, plain, routers, hmethods, ?_,
      declarations, bodies, hmembers, fun w hw => (hserve w hw).1⟩
    obtain ⟨w, hw, hwname, hdesc⟩ := hrouted.covered 0 (by decide)
    exact ⟨w, hw, hwname, (Except.ok.inj hdesc).symm⟩

end PodCompiler.Lowering
