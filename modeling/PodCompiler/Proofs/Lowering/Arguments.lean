import PodCompiler.Proofs.Lowering.CountedCalls

namespace PodCompiler.Lowering

open ClassFile (MethodInfo)
open ClassFile.Op
open ClassFile.Descriptor (isClassName)
open Pod (MethodDef VarDef)

section Access

-- The access of a method is made of three flags, and only one of them says that it is static.
theorem static_accessOf (m : MethodDef) :
    (accessOf m.flags &&& ClassFile.Access.static_ = 0) = (m.isStatic = false) := by
  unfold accessOf MethodDef.isStatic
  dsimp only
  cases Pod.Flag.has m.flags Pod.Flag.static_ <;>
    cases Pod.Flag.has m.flags Pod.Flag.abstract_ <;>
      cases Pod.Flag.has m.flags
        (Pod.Flag.public_ ||| Pod.Flag.protected_ ||| Pod.Flag.internal_) <;> decide

theorem static_and {a b : UInt16}
    (h : b &&& ClassFile.Access.static_ = ClassFile.Access.static_) :
    (a &&& b &&& ClassFile.Access.static_ = 0) = (a &&& ClassFile.Access.static_ = 0) := by
  rw [UInt16.and_assoc, h]

theorem or_and_static (a b : UInt16) : (a ||| b) &&& ClassFile.Access.static_ =
    (a &&& ClassFile.Access.static_) ||| (b &&& ClassFile.Access.static_) := by
  rw [← UInt16.toBitVec_inj]
  ext i
  simp only [UInt16.toBitVec_and, UInt16.toBitVec_or, BitVec.getElem_and, BitVec.getElem_or]
  grind

theorem static_or {a b : UInt16} (h : b &&& ClassFile.Access.static_ = 0) :
    ((a ||| b) &&& ClassFile.Access.static_ = 0) = (a &&& ClassFile.Access.static_ = 0) := by
  rw [or_and_static, h, UInt16.or_zero]

theorem static_withoutAbstract (m : MethodDef) :
    (withoutAbstract (accessOf m.flags) &&& ClassFile.Access.static_ = 0) =
      (m.isStatic = false) := by
  rw [withoutAbstract, static_and (by decide), static_accessOf]

-- What is put to the flags stays.
theorem static_or_static (a : UInt16) :
    ((a ||| ClassFile.Access.static_) &&& ClassFile.Access.static_ = 0) = (true = false) := by
  have hzero : ∀ x : UInt16, x ||| ClassFile.Access.static_ = 0 → False := by
    intro x hx
    have hbit := congrArg (·.toBitVec[3]) hx
    simp [ClassFile.Access.static_] at hbit
  rw [or_and_static, UInt16.and_self, eq_iff_iff]
  exact ⟨fun h => (hzero _ h).elim, nofun⟩

end Access

section Kinds

variable {env : ClassEnv} {c c' : OpenClass} {m : MethodDef} {t : Target} {access : UInt16}
  {mode : SelfMode} {owner : String} {main : MethodInfo} {ws : List MethodInfo} {ret : TypeRef}
  {u : Unit}

theorem follows_of_wrappers (hm : Typed env.pod.symbols m)
    (ht : t.Fits env.pod.symbols m access mode ret) (h : Wrappers env owner m t access mode ws) :
    ∀ w ∈ ws, FollowsConvention env env.pod.symbols m w := by
  cases h with
  | none => exact nofun
  | some hfirst hframe hws =>
    intro w hw
    obtain ⟨n, hn, hwrapper⟩ := exists_of_forall₂ hws.flip hw
    have hle : n < m.params.length := List.mem_range.mp (List.mem_of_mem_drop hn)
    exact follows_of_wrapper hm hle.le ht hframe hwrapper

-- What the machine passes to a method with all its parameters.
theorem Family.enters (h : Family env owner m t access mode main ws)
    (hm : Typed env.pod.symbols m) {given : UInt16}
    (ht : t.Fits env.pod.symbols m given mode ret) (haccess : main.access = given) :
    ∃ ts, paramTypes env.pod.symbols (m.params.take m.params.length) = .ok ts ∧
      Enters env.pod.symbols m m.params.length main ((Frame.selfRegs m mode).filterMap id)
        (locate ((Frame.selfRegs m mode).filterMap id).length (ts.map TypeRef.stack))
        (t.result.stack ret) := by
  rw [ht.receiver]
  refine enters_of_desc hm le_rfl ht.inherited ht.self ht.result ?_ ht.isStatic ?_
  · rw [haccess]
    exact ht.access
  · rw [List.take_length, h.desc]
    exact h.full

-- The code of the instructions of a method finds its arguments in the frame.
theorem Family.follows_body {f g : Frame} (h : Family env owner m t access .bound main ws)
    (hm : Typed env.pod.symbols m) {given : UInt16}
    (ht : t.Fits env.pod.symbols m given .bound ret) (haccess : main.access = given)
    (hframe : Frame.forMethod env.pod.symbols owner m .bound = .ok f)
    (hlocals : g.local? = f.local?) (hbody : HasBody env m g main) :
    FollowsConvention env env.pod.symbols m main := by
  obtain ⟨ts, hts, henters⟩ := h.enters hm ht haccess
  refine follows_of_body henters ?_ hbody
  intro r l hl
  rw [hlocals]
  exact local?_of_registers le_rfl hts hframe rfl r l hl

theorem plainTarget_aligned (m : MethodDef) (desc : String) (ret : TypeRef) :
    (plainTarget m desc ret).Aligned m .bound where
  isStatic := fun _ => rfl
  receiver := by
    unfold plainTarget receiverOf Frame.selfRegs
    cases m.isStatic <;> rfl

theorem plainTarget_fits {desc : String}
    (hret : typeRefAt env.pod.symbols m.inheritedRet = .ok ret)
    (haccess : (access &&& ClassFile.Access.static_ = 0) = (m.isStatic = false)) :
    (plainTarget m desc ret).Fits env.pod.symbols m access .bound ret where
  inherited := fun _ => hret
  self := nofun
  result := nofun
  access := haccess
  toAligned := plainTarget_aligned m desc ret
  resultStack := rfl

theorem follows_of_standard (hm : Typed env.pod.symbols m) (hc : c.WellFormed env)
    (h : lowerStandard m env c = .ok u c') :
    ∃ ms, c.Declares env ms c' ∧ ∀ w ∈ ms, FollowsConvention env env.pod.symbols m w := by
  obtain ⟨main, ret, hret, hsteps, hmain⟩ := lowerStandard_eq_ok hc h
  obtain ⟨ws, hdeclares, hfamily⟩ := hsteps.family
  refine ⟨_, hdeclares, List.forall_mem_cons.mpr ⟨?_, ?_⟩⟩
  · obtain ⟨-, hcode⟩ | ⟨haccess, f, hframe, hbody⟩ := hmain
    · exact .declared hcode
    · exact hfamily.follows_body hm (plainTarget_fits hret (static_accessOf m)) haccess hframe rfl
        hbody
  · exact follows_of_wrappers hm (plainTarget_fits hret (static_withoutAbstract m))
      hfamily.wrappers

theorem ctorBodyTarget_aligned (self desc : String) (hstatic : m.isStatic = false) :
    (ctorBodyTarget self m desc).Aligned m .bound where
  isStatic := nofun
  receiver := by
    unfold ctorBodyTarget receiverOf Frame.selfRegs
    rw [hstatic]
    rfl

theorem ctorBodyTarget_fits {self desc : String} (hself : isClassName self = true)
    (hstatic : m.isStatic = false) :
    (ctorBodyTarget self m desc).Fits env.pod.symbols m
      (accessOf m.flags ||| ClassFile.Access.static_) .bound ret where
  inherited := nofun
  self := by
    rintro cls ⟨⟩
    exact hself
  result := nofun
  access := static_or_static _
  toAligned := ctorBodyTarget_aligned self desc hstatic
  resultStack := rfl

theorem factoryTarget_aligned (self desc : String) (hstatic : m.isStatic = false) :
    (factoryTarget self m desc).Aligned m .unbound where
  isStatic := nofun
  receiver := by
    unfold factoryTarget receiverOf Frame.selfRegs
    rw [hstatic]
    rfl

theorem factoryTarget_fits {self desc : String} (hself : isClassName self = true)
    (hstatic : m.isStatic = false) :
    (factoryTarget self m desc).Fits env.pod.symbols m
      (accessOf m.flags ||| ClassFile.Access.static_) .unbound ret where
  inherited := nofun
  self := nofun
  result := by
    rintro cls ⟨⟩
    exact hself
  access := static_or_static _
  toAligned := factoryTarget_aligned self desc hstatic
  resultStack := rfl

-- A factory pushes the new object, and behind it the arguments that it has.
theorem Family.follows_factory {g : Frame} {self bodyDesc : String} {maxStack maxLocals : Nat}
    (h : Family env owner m (factoryTarget self m main.desc) access .unbound main ws)
    (hm : Typed env.pod.symbols m) (hself : isClassName self = true)
    (hstatic : m.isStatic = false)
    (haccess : main.access = accessOf m.flags ||| ClassFile.Access.static_)
    (hframe : Frame.forMethod env.pod.symbols owner m .unbound = .ok g)
    (hitems : HasItems env maxStack maxLocals (factoryItems self (ctorBodyTarget self m bodyDesc)
      (g.params m.params.length)) main) : FollowsConvention env env.pod.symbols m main := by
  have hfits : (factoryTarget self m main.desc).Fits env.pod.symbols m
      (accessOf m.flags ||| ClassFile.Access.static_) .unbound default :=
    factoryTarget_fits hself hstatic
  obtain ⟨ts, hts, henters⟩ := h.enters hm hfits haccess
  rw [factoryItems, Frame.params_forMethod hframe le_rfl hts,
    List.append_assoc] at hitems
  obtain ⟨c₁, c₂, pre, out, i, hpre, hcode, hbytes⟩ := code_of_items (by simp) hitems
  have hreceiver : (Frame.selfRegs m .unbound).filterMap id = [] := by
    unfold Frame.selfRegs
    rw [hstatic]
    rfl
  rw [hreceiver] at henters hbytes
  obtain ⟨i₁, c₃, pre₁, hpre, hbytes₁⟩ := interned_const hpre
  obtain ⟨pre₂, hpre, hbytes₂⟩ := interned_op hpre
  obtain ⟨i₂, c₄, pre₃, hpre, hbytes₃⟩ := interned_const hpre
  obtain ⟨pre₄, hpre, hbytes₄⟩ := interned_op hpre
  rw [hbytes₁, hbytes₂, hbytes₃, hbytes₄, interned_nil hpre] at hbytes
  exact follows_of_call (b := newObject :: ((Bytes.be2 i₁).toList ++
      dup :: invokeSpecial :: ((Bytes.be2 i₂).toList ++ [dup]))) henters hcode (.inl rfl)
    hbytes (.object (spells_of_toList hbytes))

theorem follows_of_ctor (hm : Typed env.pod.symbols m) (hc : c.WellFormed env)
    (hself : isClassName env.selfName = true) (hstatic : m.isStatic = false)
    (h : lowerCtor m env c = .ok u c') :
    ∃ ms, c.Declares env ms c' ∧ ∀ w ∈ ms, FollowsConvention env env.pod.symbols m w := by
  obtain ⟨c₁, body, factory, f, g, hbodySteps, hbodyAccess, hbound, hbody, hfactorySteps,
    hfactoryAccess, hunbound, hfactory⟩ := lowerCtor_eq_ok hc h
  obtain ⟨bs, hdeclares, hbodies⟩ := hbodySteps.family
  obtain ⟨fs, hdeclares', hfactories⟩ := hfactorySteps.family
  rw [hdeclares.draft.name] at hfactories
  have hbodyFits (desc : String) : (ctorBodyTarget env.selfName m desc).Fits env.pod.symbols m
      (accessOf m.flags ||| ClassFile.Access.static_) .bound default :=
    ctorBodyTarget_fits hself hstatic
  have hfactoryFits (desc : String) : (factoryTarget env.selfName m desc).Fits env.pod.symbols m
      (accessOf m.flags ||| ClassFile.Access.static_) .unbound default :=
    factoryTarget_fits hself hstatic
  refine ⟨_, hdeclares.trans hdeclares', ?_⟩
  rw [List.forall_mem_append, List.forall_mem_cons, List.forall_mem_cons]
  refine ⟨⟨?_, ?_⟩, ?_, ?_⟩
  · exact hbodies.follows_body (g := f.withRet .void) hm (hbodyFits _) hbodyAccess hbound rfl hbody
  · exact follows_of_wrappers hm (hbodyFits _) hbodies.wrappers
  · exact hfactories.follows_factory hm hself hstatic hfactoryAccess hunbound
      hfactory.hasItems
  · exact follows_of_wrappers hm (hfactoryFits _) hfactories.wrappers

-- A native method pushes the peer of its object, if it has one, and behind it the arguments.
theorem Family.follows_native {f : Frame} {self peerDesc : String} {maxStack maxLocals : Nat}
    (h : Family env owner m (plainTarget m main.desc ret) access .bound main ws)
    (hm : Typed env.pod.symbols m) (hret : typeRefAt env.pod.symbols m.inheritedRet = .ok ret)
    (haccess : main.access = withoutAbstract (accessOf m.flags))
    (hframe : Frame.forMethod env.pod.symbols owner m .bound = .ok f)
    (hitems : HasItems env maxStack maxLocals
      (nativeItems self m peerDesc (f.params m.params.length) ret.stack) main) :
    FollowsConvention env env.pod.symbols m main := by
  have hfits : (plainTarget m main.desc ret).Fits env.pod.symbols m
      (withoutAbstract (accessOf m.flags)) .bound ret :=
    plainTarget_fits hret (static_withoutAbstract m)
  obtain ⟨ts, hts, henters⟩ := h.enters hm hfits haccess
  rw [nativeItems, Frame.params_forMethod hframe le_rfl hts] at hitems
  cases hstatic : m.isStatic with
  | true =>
    have hreceiver : (Frame.selfRegs m .bound).filterMap id = [] := by
      unfold Frame.selfRegs
      rw [hstatic]
      rfl
    rw [hreceiver] at henters hitems
    rw [hstatic, if_pos rfl, List.append_assoc] at hitems
    obtain ⟨c₁, c₂, pre, out, i, hpre, hcode, hbytes⟩ :=
      code_of_items (p := []) Item.inert_nil hitems
    rw [interned_nil hpre] at hbytes
    exact follows_of_call (b := []) henters hcode (.inl rfl) hbytes .none
  | false =>
    have hreceiver : (Frame.selfRegs m .bound).filterMap id = [⟨0, .obj⟩] := by
      unfold Frame.selfRegs
      rw [hstatic]
      rfl
    rw [hreceiver] at henters hitems
    rw [hstatic, if_neg (by decide), List.append_assoc, List.append_assoc] at hitems
    obtain ⟨c₁, c₂, pre, out, i, hpre, hcode, hbytes⟩ := code_of_items (by simp) hitems
    obtain ⟨pre₁, hpre, hbytes₁⟩ := interned_op hpre
    obtain ⟨i₂, c₃, pre₂, hpre, hbytes₂⟩ := interned_const hpre
    obtain ⟨pre₃, hpre, hbytes₃⟩ := interned_op hpre
    rw [hbytes₁, hbytes₂, hbytes₃, interned_nil hpre] at hbytes
    -- The object itself is the first argument.
    exact follows_of_call (b := aload0 :: getField :: (Bytes.be2 i₂).toList) henters hcode
      (.inr rfl) hbytes (.peer (spells_of_toList hbytes))

theorem follows_of_native (hm : Typed env.pod.symbols m) (hc : c.WellFormed env)
    (h : lowerNative m env c = .ok u c') :
    ∃ ms, c.Declares env ms c' ∧ ∀ w ∈ ms, FollowsConvention env env.pod.symbols m w := by
  obtain ⟨main, ret, f, peerDesc, hret, hsteps, haccess, hframe, hitems, -⟩ :=
    lowerNative_eq_ok hc h
  obtain ⟨ws, hdeclares, hfamily⟩ := hsteps.family
  refine ⟨_, hdeclares, List.forall_mem_cons.mpr ⟨?_, ?_⟩⟩
  · exact hfamily.follows_native hm hret haccess hframe hitems.hasItems
  · exact follows_of_wrappers hm (plainTarget_fits hret (static_withoutAbstract m))
      hfamily.wrappers

theorem mixinBodyTarget_aligned (self : String) (m : MethodDef) (desc : String) (ret : TypeRef) :
    (mixinBodyTarget self m desc ret).Aligned m .bound where
  isStatic := nofun
  receiver := by
    unfold mixinBodyTarget mixinSelf receiverOf Frame.selfRegs
    cases m.isStatic <;> rfl

theorem mixinBodyTarget_fits {self desc : String}
    (hret : typeRefAt env.pod.symbols m.inheritedRet = .ok ret)
    (hself : m.isStatic = false → isClassName self = true) :
    (mixinBodyTarget self m desc ret).Fits env.pod.symbols m (mixinBodyAccess m) .bound ret where
  inherited := fun _ => hret
  self := by
    intro cls hcls
    unfold mixinBodyTarget mixinSelf at hcls
    cases hstatic : m.isStatic with
    | true => simp [hstatic] at hcls
    | false =>
      obtain rfl : self = cls := by simpa [hstatic] using hcls
      exact hself hstatic
  result := nofun
  access := static_or_static _
  toAligned := mixinBodyTarget_aligned self m desc ret
  resultStack := rfl

theorem follows_of_mixinBody (hm : Typed env.pod.symbols m) (hc : c.WellFormed env)
    (hself : m.isStatic = false → isClassName env.selfName = true)
    (h : lowerMixinBody m env c = .ok u c') :
    ∃ ms, c.Declares env ms c' ∧ ∀ w ∈ ms, FollowsConvention env env.pod.symbols m w := by
  obtain ⟨-, hdeclares⟩ | ⟨main, ret, f, hret, hsteps, haccess, hframe, hbody⟩ :=
    lowerMixinBody_eq_ok hc h
  · exact ⟨[], hdeclares, nofun⟩
  · obtain ⟨ws, hdeclares, hfamily⟩ := hsteps.family
    have hfits (desc : String) : (mixinBodyTarget env.selfName m desc ret).Fits env.pod.symbols m
        (mixinBodyAccess m) .bound ret := mixinBodyTarget_fits hret hself
    refine ⟨_, hdeclares, List.forall_mem_cons.mpr ⟨?_, ?_⟩⟩
    · exact hfamily.follows_body hm (hfits _) haccess hframe rfl hbody
    · exact follows_of_wrappers hm (hfits _) hfamily.wrappers

end Kinds

section Routers

variable {env : ClassEnv} {c c' : OpenClass} {pod : Pod} {mixin : String} {m : MethodDef}
  {access : UInt16} {ret : TypeRef} {n : Nat} {w : MethodInfo} {u : Unit}

-- A router pushes its object and the arguments behind it.
theorem Router.agrees (h : Router env pod mixin m access ret.stack n w)
    (hm : Typed pod.symbols m) (hn : n ≤ m.params.length)
    (hret : typeRefAt pod.symbols m.inheritedRet = .ok ret)
    (haccess : access &&& ClassFile.Access.static_ = 0) :
    FollowsConvention env pod.symbols m w := by
  have hobject : (w.access &&& ClassFile.Access.static_ = 0) = (false = false) := by
    rw [h.access, haccess]
    exact propext ⟨fun _ => rfl, fun _ => rfl⟩
  have hself : ∀ cls ∈ (none : Option String), isClassName cls = true := nofun
  have hresult : ∀ cls, Result.inherited = .object cls → isClassName cls = true := nofun
  obtain ⟨ts, hts, henters⟩ := enters_of_desc hm hn (fun _ => hret) hself hresult hobject
    (fun _ => rfl) h.desc
  obtain ⟨bodyDesc, kinds, -, hkinds, hitems⟩ := h.code
  obtain ⟨us, hus, rfl⟩ := except_mapM_map_eq_ok hkinds
  obtain rfl : ts = us := by
    rw [paramTypes, hus] at hts
    cases hts
    rfl
  rw [routerItems, routerLocals_eq_locate (hm.ne_void hts)] at hitems
  obtain ⟨c₁, c₂, pre, out, i, hpre, hcode, hbytes⟩ :=
    code_of_items (p := [.op aload0]) (by simp) hitems
  obtain ⟨pre₁, hpre, hbytes₁⟩ := interned_op hpre
  rw [hbytes₁, interned_nil hpre] at hbytes
  exact follows_of_call (b := []) henters hcode (.inl rfl) hbytes .none

theorem follows_of_routers {ns : List Nat} (hm : Typed pod.symbols m)
    (hns : ∀ n ∈ ns, n ≤ m.params.length)
    (hret : typeRefAt pod.symbols m.inheritedRet = .ok ret)
    (haccess : access &&& ClassFile.Access.static_ = 0) (hc : c.WellFormed env)
    (h : ns.forM (lowerRouterFor pod mixin m access ret.stack) env c = .ok u c') :
    ∃ ms, c.Declares env ms c' ∧ ∀ w ∈ ms, FollowsConvention env pod.symbols m w := by
  induction ns generalizing c with
  | nil =>
    obtain ⟨-, rfl⟩ := ClassM.pure_eq_ok.mp h
    exact ⟨[], .refl hc, nofun⟩
  | cons n rest ih =>
    obtain ⟨hn, hrest⟩ := List.forall_mem_cons.mp hns
    obtain ⟨v, c₁, hfirst, hmore⟩ := ClassM.bind_eq_ok.mp h
    obtain ⟨-, -, -, hnone⟩ | ⟨w, -, hw, hrouter⟩ := lowerRouterFor_eq_ok hc hfirst
    · obtain ⟨ms, hms, hagree⟩ := ih hrest hnone.formed hmore
      exact ⟨_, hnone.trans hms, by simpa using hagree⟩
    · obtain ⟨ms, hms, hagree⟩ := ih hrest hw.formed hmore
      exact ⟨_, hw.trans hms,
        List.forall_mem_cons.mpr ⟨hrouter.agrees hm hn hret haccess, hagree⟩⟩

theorem follows_of_router {mixin : Pod.TypeDef} (hm : Typed pod.symbols m) (hc : c.WellFormed env)
    (h : lowerRouter pod mixin m env c = .ok u c') :
    ∃ ms, c.Declares env ms c' ∧ ∀ w ∈ ms, FollowsConvention env pod.symbols m w := by
  obtain ⟨self, c₁, hrun, h₁⟩ := ClassM.bind_eq_ok.mp h
  obtain ⟨-, rfl⟩ := ClassM.ofExcept_eq_ok.mp hrun
  obtain ⟨ret, c₂, hrun, h₂⟩ := ClassM.bind_eq_ok.mp h₁
  obtain ⟨hret, rfl⟩ := ClassM.ofExcept_eq_ok.mp hrun
  refine follows_of_routers hm ?_ hret ?_ hc h₂
  · intro n hn
    have := List.mem_range.mp (List.mem_of_mem_drop hn)
    omega
  · rw [static_or (by decide), UInt16.and_assoc]
    exact UInt16.and_zero

end Routers

-- The steps by which a method becomes methods of the machine. What they put into descriptors beside
-- the types of the method is the class of the receiver, if that is an argument, or the result.
inductive LowersMethod (env : ClassEnv) (m : MethodDef) : Pod.Symbols → ClassM Unit → Prop where
  | member (hctor : m.isCtor = true → m.isStatic = false ∧ isClassName env.selfName = true) :
      LowersMethod env m env.pod.symbols (lowerMethod m)
  | mixinBody (hself : m.isStatic = false → isClassName env.selfName = true) :
      LowersMethod env m env.pod.symbols (lowerMixinBody m)
  | router (pod : Pod) (mixin : Pod.TypeDef) :
      LowersMethod env m pod.symbols (lowerRouter pod mixin m)

section Steps

variable {env : ClassEnv} {c c' : OpenClass} {m : MethodDef} {s : Pod.Symbols} {step : ClassM Unit}
  {u : Unit}

theorem LowersMethod.agrees (h : LowersMethod env m s step) (hm : Typed s m)
    (hc : c.WellFormed env) (hstep : step env c = .ok u c') :
    ∃ ms, c.Declares env ms c' ∧ ∀ w ∈ ms, FollowsConvention env s m w := by
  cases h with
  | member hctor =>
    unfold lowerMethod at hstep
    split at hstep
    · rename_i his
      obtain ⟨hstatic, hself⟩ := hctor his
      exact follows_of_ctor hm hc hself hstatic hstep
    · split at hstep
      · exact follows_of_native hm hc hstep
      · exact follows_of_standard hm hc hstep
  | mixinBody hself => exact follows_of_mixinBody hm hc hself hstep
  | router pod mixin => exact follows_of_router hm hc hstep

theorem LowersMethod.countsFrom (h : LowersMethod env m s step) : CountsFrom env c step := by
  cases h with
  | member => exact countsFrom_lowerMethod
  | mixinBody => exact countsFrom_lowerMixinBody
  | router pod mixin => exact countsFrom_lowerRouter pod mixin

-- Every method of the machine that a method becomes has its arguments where its code loads them,
-- returns what its descriptor says, and counts the arguments of its calls through interfaces.
theorem arguments_agree (h : LowersMethod env m s step) (hm : Typed s m) (hc : c.WellFormed env)
    (hstep : step env c = .ok u c') :
    ∃ ms, c.Declares env ms c' ∧
      ∀ w ∈ ms, FollowsConvention env s m w ∧ MethodCounting env c'.draft.pool.get? w := by
  obtain ⟨ms, hdeclares, hagrees⟩ := h.agrees hm hc hstep
  obtain ⟨ms', hdeclares', hcounts⟩ := h.countsFrom hc _ _ hstep
  obtain rfl := hdeclares.unique hdeclares'
  exact ⟨ms, hdeclares, fun w hw => ⟨hagrees w hw, hcounts w hw⟩⟩

end Steps

-- A static method of two integers that gives back the second one, which is in the third slot:
-- `LoadVar 1; ReturnObj`.
def secondMethod : MethodDef where
  name := "second"
  flags := Pod.Flag.public_ ||| Pod.Flag.static_
  ret := 0
  inheritedRet := 0
  maxStack := 2
  paramCount := 2
  localCount := 0
  vars := #[⟨"a", 0, Pod.Flag.param, {}⟩, ⟨"b", 0, Pod.Flag.param, {}⟩]
  code := #[10, 0, 1, 43]
  attrs := {}

def secondEnv : ClassEnv :=
  { bareEnv with pod := { bareEnv.pod with symbols := { typeRefs := #[⟨"sys", "Int", ""⟩] } } }

-- The first integer takes two slots, so the second one is loaded from the slot behind these.
theorem exists_body_second : ∃ f out c₁,
    ClassM.frame secondMethod .bound secondEnv bareClass = .ok f bareClass ∧
    lowerPlainBody secondMethod f secondEnv bareClass = .ok out c₁ ∧
    out.code = #[lload0 + 2, lreturn] ∧ c₁.draft.pool.next + 4 ≤ ClassFile.Pool.limit := by
  have hrun : (match (ClassM.frame secondMethod .bound >>= lowerPlainBody secondMethod) secondEnv
      bareClass with
    | .ok out c₁ => decide (out.code = #[lload0 + 2, lreturn]) &&
        decide (c₁.draft.pool.next + 4 ≤ ClassFile.Pool.limit)
    | .error _ _ => false) = true := by
    decide +kernel
  split at hrun
  · rename_i out c₁ hresult
    obtain ⟨f, c₀, hframe, hbody⟩ := ClassM.bind_eq_ok.mp hresult
    obtain rfl := (frame_eq_ok hframe).2
    simp only [Bool.and_eq_true, decide_eq_true_eq] at hrun
    exact ⟨f, out, c₁, hframe, hbody, hrun⟩
  · cases hrun

-- The method becomes one method, with this code.
theorem exists_lower_second : ∃ c' w out,
    lowerMethod secondMethod secondEnv bareClass = .ok () c' ∧
    bareClass.Declares secondEnv [w] c' ∧ w.name = "second" ∧ w.desc = "(JJ)J" ∧
    w.code = some out ∧ out.code = #[lload0 + 2, lreturn] := by
  obtain ⟨f, out, c₁, hframe, hbody, hcode, hroom⟩ := exists_body_second
  have hsize : out.code.size ≤ ClassFile.CodeBuffer.maxSize := by
    rw [hcode]
    decide
  obtain ⟨d, hd, -⟩ := ClassFile.Draft.exists_addMethod (accessOf secondMethod.flags) "second"
    "(JJ)J" (some out) (by simpa using hsize) hroom
  have hbodyDeclares := (advancing_lowerPlainBody _ _ _ _ _ _ hbody).declares (wellFormed_bare _)
  have hadd : ClassM.addMethod (accessOf secondMethod.flags) "second" "(JJ)J" (some out) secondEnv
      c₁ = .ok () { c₁ with draft := d } := ClassM.addMethod_run hd
  obtain ⟨w, hdeclares, -, hname, hdesc, hw⟩ := ClassM.addMethod_eq_ok hbodyDeclares.formed hadd
  refine ⟨{ c₁ with draft := d }, w, out, ?_, hbodyDeclares.trans hdeclares, hname, hdesc, hw,
    hcode⟩
  refine ClassM.bind_eq_ok.mpr ⟨"(JJ)J", bareClass, rfl, ?_⟩
  refine ClassM.bind_eq_ok.mpr ⟨f, bareClass, hframe, ?_⟩
  refine ClassM.bind_eq_ok.mpr ⟨out, c₁, hbody, ?_⟩
  exact ClassM.bind_eq_ok.mpr ⟨(), { c₁ with draft := d }, hadd, rfl⟩

theorem typed_second : Typed secondEnv.pod.symbols secondMethod := by
  have hread : typeRefAt secondEnv.pod.symbols 0 = .ok ⟨"sys", "Int", ""⟩ := rfl
  constructor
  · intro p hp t ht
    have hzero : p.type = 0 := (by decide : ∀ p ∈ secondMethod.params, p.type = 0) p hp
    rw [hzero, hread] at ht
    cases ht
    decide +kernel
  · intro t ht
    cases hread.symm.trans ht
    decide +kernel

-- The second integer is loaded from the third slot, where the descriptor passes it.
theorem arguments_agree_second : ∃ c' w out,
    lowerMethod secondMethod secondEnv bareClass = .ok () c' ∧
    bareClass.Declares secondEnv [w] c' ∧ w.name = "second" ∧ w.desc = "(JJ)J" ∧
    w.code = some out ∧ out.code = #[lload0 + 2, lreturn] ∧
    FollowsConvention secondEnv secondEnv.pod.symbols secondMethod w ∧
      MethodCounting secondEnv c'.draft.pool.get? w := by
  obtain ⟨c', w, out, h, hdeclares, hname, hdesc, hw, hcode⟩ := exists_lower_second
  obtain ⟨ms, hdeclares', hms⟩ := arguments_agree (.member (by decide)) typed_second
    (wellFormed_bare _) h
  obtain rfl := hdeclares'.unique hdeclares
  exact ⟨c', w, out, h, hdeclares, hname, hdesc, hw, hcode, hms w (List.mem_singleton.mpr rfl)⟩

end PodCompiler.Lowering
