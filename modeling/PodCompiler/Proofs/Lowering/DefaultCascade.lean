import PodCompiler.Proofs.Lowering.DefaultFragments
import PodCompiler.Proofs.Lowering.Forwarders

namespace PodCompiler

-- Behind the arguments the locals hold nothing.
theorem Jvm.getElem?_ofArgs_free {args : List Jvm.Value} {size i : Nat} (h : Jvm.depth args ≤ i)
    (hi : i < size) : (Jvm.Locals.ofArgs args size)[i]? = some .free := by
  rw [Jvm.depth_eq_length] at h
  rw [Jvm.Locals.ofArgs, List.getElem?_toArray, List.rightpad, List.getElem?_append_right h,
    List.getElem?_replicate, if_pos (by omega)]

theorem Jvm.le_size_ofArgs (args : List Jvm.Value) (size : Nat) :
    size ≤ (Jvm.Locals.ofArgs args size).size := by
  simp only [Jvm.Locals.ofArgs, List.size_toArray, List.rightpad, List.length_append,
    List.length_replicate]
  omega

namespace Lowering

open ClassFile (CodeBuffer Constants MethodInfo)
open ClassFile.Op
open Jvm (CallMode Event Kind Linkage Locals Machine Value depth fetch)
open Pod (MethodDef VarDef)

namespace Frame

variable {regs : List (Option Local)} {args : List (Option Fcode.Value)} {passed : List Value}

-- What is passed has the types of the registers that it is passed for.
theorem Passes.typing (h : Passes regs args passed) :
    Typing passed (((regs.take args.length).filterMap id).map Local.stack) := by
  induction h with
  | done => rfl
  | unbound _ ih => exact ih
  | bound hkind _ _ ih => exact Typing.cons hkind ih

-- The slots of the registers that nothing is passed for are behind all that is passed.
theorem Passes.depth_le {slot stop k : Nat} {l : Local} (h : Passes regs args passed)
    (hregs : Consecutive slot stop regs) (hk : args.length ≤ k) (hl : regs[k]? = some (some l)) :
    slot + depth passed ≤ l.slot := by
  induction h generalizing slot k with
  | done => exact (hregs.bounds.2 l (List.mem_of_getElem? hl)).1
  | unbound _ ih =>
    obtain ⟨k, rfl⟩ := Nat.exists_eq_add_one_of_ne_zero (Nat.ne_of_gt (Nat.zero_lt_of_lt hk))
    exact ih hregs (Nat.le_of_succ_le_succ hk) hl
  | @bound l' _ _ _ _ _ hkind _ _ ih =>
    obtain ⟨rfl, hrest⟩ := hregs
    obtain ⟨k, rfl⟩ := Nat.exists_eq_add_one_of_ne_zero (Nat.ne_of_gt (Nat.zero_lt_of_lt hk))
    have hle := ih hrest (Nat.le_of_succ_le_succ hk) hl
    rw [Jvm.depth_cons, Jvm.Value.length_slots hkind, ← Nat.add_assoc]
    exact hle

-- The number of the registers of a method for its receiver and its parameters.
def paramsEnd (m : MethodDef) (mode : SelfMode) : Nat :=
  (selfRegs m mode).length + m.params.length

end Frame

section Code

variable {m : Machine} {pos : Nat}

-- The bytes that push variables are read as their loads.
theorem reads_of_loadBytes {ls : List Local} (h : m.code.Spells pos (loadBytes ls)) :
    Reads m pos (loadLocals ls) := by
  induction ls generalizing pos with
  | nil => trivial
  | cons l rest ih =>
    have hbytes : loadBytes (l :: rest) =
        Item.loadRaw l.stack l.slot.toUInt16 ++ loadBytes rest := List.flatMap_cons
    rw [hbytes, Bytes.spells_append] at h
    exact ⟨h.1, ih h.2⟩

-- A call and a return at the end of code are read from it.
theorem reads_call_of_toList {all : CodeBuffer} {mode : CallMode} {ref : UInt16} {sig : String}
    {result : StackType}
    (hcode : m.code.toList =
      all.code.toList ++ mode.op :: ((Bytes.be2 ref).toList ++ [returnOp result]))
    (hsig : m.constants.method? ref = some sig) :
    Reads m all.pos [.const mode.op (.method sig), .op (returnOp result)] := by
  have hspells : m.code.Spells all.pos
      (mode.op :: ((Bytes.be2 ref).toList ++ [returnOp result])) := by
    intro k hk
    rw [← Array.getElem?_toList, hcode, CodeBuffer.pos, ← Array.length_toList,
      List.getElem?_append_right (Nat.le_add_right _ _), Nat.add_sub_cancel_left]
  obtain ⟨hop, hspells⟩ := Bytes.spells_cons.mp hspells
  obtain ⟨href, hreturn⟩ := Bytes.spells_append.mp hspells
  exact ⟨hop, ⟨ref, Bytes.be2?_of_spells href, hsig⟩, (Bytes.spells_cons.mp hreturn).1, trivial⟩

end Code

-- How a wrapper calls its method.
def Target.mode (t : Target) : CallMode :=
  if t.isStatic then .static else .virtual

-- The types of what a method is called with in front of its parameters.
def Target.receiverTypes (t : Target) : List StackType :=
  if t.isStatic then receiverKinds t.self else [.obj]

section Wrappers

variable {env : ClassEnv} {c c₁ c' : OpenClass} {m : MethodDef} {t : Target} {access : UInt16}
  {mode : SelfMode} {owner sig : String} {f : Frame} {ref : UInt16} {n : Nat} {w : MethodInfo}
  {ts : List StackType} {args : List (Option Fcode.Value)} {passed : List Value}
  {vs : List Fcode.Value} {l : Linkage} {k : Constants} {size : Nat}

theorem paramStacks.take {s : Pod.Symbols} (h : paramStacks s m.params ts) (n : Nat) :
    paramStacks s (m.params.take n) (ts.take n) := by
  obtain ⟨rs, hrs, rfl⟩ := h
  exact ⟨rs.take n, except_mapM_eq_ok.mpr (List.forall₂_take n (except_mapM_eq_ok.mp hrs)),
    List.map_take.symm⟩

-- The variables that a wrapper loads are where the machine has what is passed.
theorem Target.Aligned.locate_eq (ht : t.Aligned m mode)
    (hframe : Frame.forMethod env.pod.symbols owner m mode = .ok f) (hn : n ≤ m.params.length)
    (hts : paramStacks env.pod.symbols m.params ts) :
    receiverOf t.isStatic t.self ++ f.params n = locate 0 (t.receiverTypes ++ ts.take n) := by
  obtain ⟨rs, hrs, hstacks⟩ := hts.take n
  rw [Frame.params_forMethod hframe hn hrs, ht.receiver, ← hstacks]
  unfold receiverOf Target.receiverTypes
  cases t.isStatic with
  | false => rfl
  | true => cases t.self <;> rfl

-- A call of the wrapper with `n` parameters: what is passed, in the registers of fcode and as the
-- machine has it, and the values of the defaults of the other parameters, one after the other.
structure WrapperCall (env : ClassEnv) (m : MethodDef) (t : Target) (mode : SelfMode) (f : Frame)
    (ts : List StackType) (n : Nat) (args : List (Option Fcode.Value)) (passed : List Value)
    (vs : List Fcode.Value) : Prop where
  passes : Frame.Passes f.regs.toList args passed
  count : args.length = (Frame.selfRegs m mode).length + n
  object : t.isStatic = false → ∃ id rest, passed = .ref (.object id) :: rest
  typing : Typing (vs.map Fcode.Value.toJvm) (ts.drop n)
  pairs : ∀ p ∈ defaultPrograms env f (m.params.drop n), EntersNoPair p.code
  cascade : Fcode.Cascade (Frame.paramsEnd m mode) (defaultPrograms env f (m.params.drop n)) args vs

-- What is passed has the types of the receiver and of the first parameters.
theorem WrapperCall.typing_passed (h : WrapperCall env m t mode f ts n args passed vs)
    (ht : t.Aligned m mode) (hframe : Frame.forMethod env.pod.symbols owner m mode = .ok f)
    (hn : n ≤ m.params.length) (hts : paramStacks env.pod.symbols m.params ts) :
    Typing passed (t.receiverTypes ++ ts.take n) := by
  obtain ⟨rs, hrs, hstacks⟩ := hts.take n
  obtain ⟨more, -, -, hregs, hlength⟩ := Frame.regs_forMethod hframe hn hrs
  have htyping := h.passes.typing
  have hcount : (Frame.selfRegs m mode ++ (locate ((Frame.selfRegs m mode).filterMap id).length
      (rs.map TypeRef.stack)).map some).length = args.length := by
    rw [List.length_append, List.length_map, length_locate, List.length_map, hlength, h.count]
  rw [hregs, List.take_left' hcount, List.filterMap_append, List.filterMap_map, ht.receiver]
    at htyping
  have hlocate := ht.locate_eq hframe hn hts
  rw [Frame.params_forMethod hframe hn hrs, ht.receiver] at hlocate
  rw [← map_stack_locate 0 (t.receiverTypes ++ ts.take n), ← hlocate]
  simpa using htyping

-- With the values of the defaults these are the arguments of the method.
theorem WrapperCall.callee (h : WrapperCall env m t mode f ts n args passed vs)
    (ht : t.Aligned m mode) (hpassed : Typing passed (t.receiverTypes ++ ts.take n)) :
    ∃ on rest, t.mode.On on ∧ on ++ rest = passed ++ vs.map Fcode.Value.toJvm ∧
      Typing rest (receiverKinds t.self ++ ts) := by
  have hall : Typing (passed ++ vs.map Fcode.Value.toJvm) (t.receiverTypes ++ ts) := by
    have hboth := congrArg₂ (· ++ ·) hpassed h.typing
    simp only [← List.map_append, List.append_assoc, List.take_append_drop] at hboth
    exact hboth
  unfold Target.mode
  unfold Target.receiverTypes at hall
  cases hstatic : t.isStatic with
  | true =>
    rw [hstatic] at hall
    exact ⟨[], _, .static, rfl, hall⟩
  | false =>
    rw [hstatic] at hall
    obtain ⟨id, rest, rfl⟩ := h.object hstatic
    refine ⟨[.ref (.object id)], rest ++ vs.map Fcode.Value.toJvm, .virtual id, rfl, ?_⟩
    rw [ht.isStatic hstatic]
    exact (List.cons.inj hall).2

-- The locals of the parameters that are missing hold nothing.
theorem WrapperCall.free (h : WrapperCall env m t mode f ts n args passed vs)
    (hregs : Frame.Consecutive 0 f.maxLocals f.regs.toList) (hsize : f.maxLocals ≤ size)
    {r : UInt16} {var : Local} (hr : args.length ≤ r.toNat) (hvar : f.local? r = some var) :
    (Locals.ofArgs passed size)[var.slot]? = some .free := by
  have hmem := Frame.mem_of_local? hvar
  have hbelow := h.passes.depth_le hregs hr hmem
  have hstop := (hregs.bounds.2 var (List.mem_of_getElem? hmem)).2
  have hwidth : var.slot + 1 ≤ var.stop := Nat.add_le_add_left (Nat.le_max_right _ _) _
  exact Jvm.getElem?_ofArgs_free (by omega) (by omega)

-- The wrapper with `n` parameters returns what the method does, called with what was passed and the
-- values of the defaults behind it, if no default comes to read a register of a parameter that was
-- not passed.
def Completes (env : ClassEnv) (m : MethodDef) (t : Target) (mode : SelfMode) (f : Frame)
    (ts : List StackType) (sig : String) (k : Constants) (n : Nat) (w : MethodInfo) : Prop :=
  ∃ code, w.code = some code ∧ ∀ (machine : Machine) (l : Linkage) args passed vs,
    machine.code = code.code → machine.constants.Extends k →
    HoldsLiterals env.pod machine.statics →
    l.method? sig = some (.ofTypes (receiverKinds t.self ++ ts) t.resultStack) →
    WrapperCall env m t mode f ts n args passed vs → ∀ es v,
      machine.Returns l ⟨0, [], .ofArgs passed code.maxLocals.toNat⟩ es v ↔
        ¬Fcode.ReadsMissing args.length (Frame.paramsEnd m mode)
          (defaultPrograms env f (m.params.drop n)) (Fcode.State.start args).regs ∧
        PassesOn t.mode sig t.resultStack (passed ++ vs.map Fcode.Value.toJvm) es v

-- So the machine finds it in the variables that the wrapper loads.
theorem Typing.gives_passed (h : Typing passed (t.receiverTypes ++ ts.take n))
    (hts : paramStacks env.pod.symbols m.params ts) (size : Nat) :
    Gives (.ofArgs passed size) (locate 0 (t.receiverTypes ++ ts.take n)) passed := by
  have hlength := length_le_of_paramStacks hts le_rfl
  have hreceiver : t.receiverTypes.length ≤ 1 := by
    unfold Target.receiverTypes
    cases t.isStatic with
    | false => exact le_rfl
    | true => cases t.self <;> simp [receiverKinds]
  have hgives : Gives (.ofArgs ([] ++ passed) size)
      (locate (depth []) (t.receiverTypes ++ ts.take n)) passed :=
    h.gives (by rw [Jvm.depth_nil, List.length_append, List.length_take]; omega)
  exact hgives

section Run

variable {machine : Machine} {first all : CodeBuffer} {locals : Locals}

-- What is passed is pushed.
theorem reaches_passed {ls : List Local} (hfirst : first.code.toList = loadBytes ls)
    (hcode : first.code.toList <+: machine.code.toList) (hgives : Gives locals ls passed) :
    machine.Reaches ⟨0, [], locals⟩ ⟨first.pos, passed.reverse, locals⟩ := by
  obtain ⟨more, hmore⟩ := hcode
  have hspells : machine.code.Spells 0 (loadBytes ls) := by
    rw [← hfirst]
    exact spells_of_toList hmore.symm
  have hreads : Reads machine 0 (loadLocals ls ++ []) := by
    rw [List.append_nil]
    exact reads_of_loadBytes hspells
  obtain ⟨hreach, -⟩ := hreads.reaches_loads hgives []
  have hstop : 0 + (loadBytes ls).length = first.pos := by
    rw [← hfirst, Array.length_toList, Nat.zero_add]
    rfl
  rw [hstop, List.append_nil] at hreach
  exact hreach

-- A wrapper, behind its loads: the values of the defaults are pushed, unless one of them comes to
-- read a register of a parameter that was not passed.
theorem WrapperCall.returns_defaults (h : WrapperCall env m t mode f ts n args passed vs)
    (ht : t.Aligned m mode) (hpassed : Typing passed (t.receiverTypes ++ ts.take n))
    (hlink : l.method? sig = some (.ofTypes (receiverKinds t.self ++ ts) t.resultStack))
    (hdefaults : lowerDefaults m f first n (m.params.drop n) env c₁ = .ok all c')
    (hosts : Hosts env f machine c₁ c' all) (hn : n ≤ m.params.length)
    (hcall : Reads machine all.pos [.const t.mode.op (.method sig), .op (returnOp t.resultStack)])
    (hsize : f.maxLocals ≤ size) (es : List Event) (v : Option Value) :
    machine.Returns l ⟨first.pos, passed.reverse, .ofArgs passed size⟩ es v ↔
      ¬Fcode.ReadsMissing args.length (Frame.paramsEnd m mode)
        (defaultPrograms env f (m.params.drop n)) (Fcode.State.start args).regs ∧
      PassesOn t.mode sig t.resultStack (passed ++ vs.map Fcode.Value.toJvm) es v := by
  have hholds : f.Holds (Fcode.State.start args).regs (.ofArgs passed size) :=
    h.passes.holds hosts.frame size
  have hroom := hsize.trans (Jvm.le_size_ofArgs passed size)
  by_cases hreads : Fcode.ReadsMissing args.length (Frame.paramsEnd m mode)
      (defaultPrograms env f (m.params.drop n)) (Fcode.State.start args).regs
  · have hfails := failsToLoad_of_readsMissing h.pairs hdefaults hosts hholds hroom
      (fun r var hr _ hvar _ => h.free hosts.frame hsize hr hvar) hreads passed.reverse
    exact iff_of_false hfails.not_returns fun hboth => hboth.1 hreads
  · rw [and_iff_right hreads]
    have hprograms : (defaultPrograms env f (m.params.drop n)).length ≤ m.params.length - n := by
      rw [defaultPrograms, List.length_map, ← List.length_drop]
      exact List.length_filterMap_le _ _
    have hend : args.length + (defaultPrograms env f (m.params.drop n)).length ≤
        Frame.paramsEnd m mode := by
      rw [h.count, Frame.paramsEnd]
      omega
    have hplace := (h.cascade.inPlace_or (fun _ => .inl rfl) le_rfl hend).resolve_right hreads
    obtain ⟨locals', hreach⟩ := reaches_of_inPlace h.pairs hdefaults hosts hholds hroom hplace
      passed.reverse
    obtain ⟨on, rest, hon, hall, hrest⟩ := h.callee ht hpassed
    rw [← List.reverse_append, ← hall] at hreach
    rw [Machine.returns_of_reaches hreach, ← hall]
    refine returns_last hcall hon ?_
    rw [hrest]
    exact hlink

end Run

theorem WrapperIn.completes (h : WrapperIn env m t access f ref c' n w) (ht : t.Aligned m mode)
    (hframe : Frame.forMethod env.pod.symbols owner m mode = .ok f) (hn : n < m.params.length)
    (hts : paramStacks env.pod.symbols m.params ts)
    (href : Constants.method? c'.draft.pool.get? ref = some sig) :
    Completes env m t mode f ts sig c'.draft.pool.get? n w := by
  obtain ⟨c₁, c₂, c₃, first, all, hc₁, hfirst, hall, hextends, hcode⟩ := h.code
  refine ⟨_, hcode, fun machine l args passed vs hm hconstants hliterals hlink hcall es v => ?_⟩
  have hc₂ := (advancing_assemble _ _ _ _ _ _ hfirst).declares hc₁
  have hbytes := ht.code_of_assemble hfirst
  rw [ht.locate_eq hframe hn.le hts] at hbytes
  have hlast : machine.code.toList =
      all.code.toList ++ t.mode.op :: ((Bytes.be2 ref).toList ++ [returnOp t.resultStack]) := by
    rw [hm]
    unfold Target.mode
    cases t.isStatic <;> simp [CodeBuffer.returnOp, CallMode.op]
  have hbegins : all.code.toList <+: machine.code.toList := ⟨_, hlast.symm⟩
  have hosts : Hosts env f machine c₂ c₃ all :=
    ⟨Frame.consecutive_forMethod hframe, hc₂.formed, hbegins, hconstants.trans hextends, hliterals⟩
  have hpassed := hcall.typing_passed ht hframe hn.le hts
  rw [Machine.returns_of_reaches (reaches_passed hbytes
    ((isPrefix_of_lowerDefaults hall).trans hbegins) (hpassed.gives_passed hts _))]
  refine hcall.returns_defaults ht hpassed hlink hall hosts hn.le
    (reads_call_of_toList hlast (hconstants.method? href)) ?_ es v
  have hsome : m.params.drop n ≠ [] := by simpa using hn
  have hroom := maxLocals_of_lowerDefaults hsome hall
  exact hroom

-- A method of the class with its wrappers: one for each number of parameters from the first one
-- with a default on.
structure HasWrappers (env : ClassEnv) (c : OpenClass) (m : MethodDef) (t : Target)
    (mode : SelfMode) (first : Nat) (main : MethodInfo) (c' : OpenClass) : Prop where
  name : main.name = t.name
  desc : main.desc = t.desc
  full : methodDesc env.pod.symbols m t.self m.params t.result = .ok t.desc
  wrappers : ∃ f ts ws, Frame.forMethod env.pod.symbols c.draft.name m mode = .ok f ∧
    paramStacks env.pod.symbols m.params ts ∧ c.Declares env (main :: ws) c' ∧
    List.Forall₂ (fun n w => w.name = t.name ∧
        methodDesc env.pod.symbols m t.self (m.params.take n) t.result = .ok w.desc ∧
        Completes env m t mode f ts s!"{c.draft.name}.{t.name}{t.desc}" c'.draft.pool.get? n w)
      ((List.range m.params.length).drop first) ws

theorem FamilySteps.hasWrappers {main : MethodInfo} {first : Nat}
    (h : FamilySteps env c m t access mode main c') (ht : t.Aligned m mode)
    (hfirst : m.firstDefault? = some first) : HasWrappers env c m t mode first main c' := by
  obtain ⟨c₁, hmain, hlower⟩ := h.steps
  obtain ⟨f, ref, ws, hframe, hdeclares, href, hws⟩ :=
    lowerWrappers_some hfirst hmain.formed hlower
  rw [hmain.draft.name] at hframe href
  obtain ⟨types, ret, htypes, -⟩ := methodDesc_eq_ok h.full
  obtain ⟨rs, hrs, -⟩ := except_mapM_map_eq_ok htypes
  have hts : paramStacks env.pod.symbols m.params (rs.map TypeRef.stack) := ⟨rs, hrs, rfl⟩
  refine ⟨h.name, h.desc, h.full, f, _, ws, hframe, hts, hmain.trans hdeclares, ?_⟩
  rw [List.forall₂_iff_get] at hws ⊢
  obtain ⟨hlength, hall⟩ := hws
  refine ⟨hlength, fun i hi hi' => ?_⟩
  have hwrapper := hall i hi hi'
  have hn := List.mem_range.mp (List.mem_of_mem_drop (List.getElem_mem hi))
  exact ⟨hwrapper.name, hwrapper.desc, hwrapper.completes ht hframe hn hts href⟩

end Wrappers

section Methods

variable {env : ClassEnv} {c c' : OpenClass} {m : MethodDef} {first : Nat}

-- There is one wrapper for each number of parameters from the first one with a default on, beside a
-- method, a native method, the body and the factory of a constructor, and the body of a method of a
-- mixin. Each calls the method with what is passed and with the values of the defaults, each
-- computed with those before it, and returns what that gives; unless one of the defaults, run
-- where the values before it are not stored, comes to read one of them.
theorem defaults_cascade_iff (hc : c.WellFormed env) (hfirst : m.firstDefault? = some first) :
    (lowerStandard m env c = .ok () c' → ∃ main ret,
      typeRefAt env.pod.symbols m.inheritedRet = .ok ret ∧
      HasWrappers env c m (plainTarget m main.desc ret) .bound first main c') ∧
    (lowerNative m env c = .ok () c' → ∃ main ret,
      typeRefAt env.pod.symbols m.inheritedRet = .ok ret ∧
      HasWrappers env c m (plainTarget m main.desc ret) .bound first main c') ∧
    (m.isStatic = false → lowerCtor m env c = .ok () c' → ∃ c₁ body factory,
      HasWrappers env c m (ctorBodyTarget env.selfName m body.desc) .bound first body c₁ ∧
      HasWrappers env c₁ m (factoryTarget env.selfName m factory.desc) .unbound first factory c') ∧
    (m.hasCode = true → lowerMixinBody m env c = .ok () c' → ∃ main ret,
      typeRefAt env.pod.symbols m.inheritedRet = .ok ret ∧
      HasWrappers env c m (mixinBodyTarget env.selfName m main.desc ret) .bound first main c') := by
  refine ⟨?_, ?_, ?_, ?_⟩
  · intro h
    obtain ⟨main, ret, hret, hsteps, -⟩ := lowerStandard_eq_ok hc h
    exact ⟨main, ret, hret, hsteps.hasWrappers (plainTarget_aligned _ _ _) hfirst⟩
  · intro h
    obtain ⟨main, ret, f, peerDesc, hret, hsteps, -⟩ := lowerNative_eq_ok hc h
    exact ⟨main, ret, hret, hsteps.hasWrappers (plainTarget_aligned _ _ _) hfirst⟩
  · intro hobject h
    obtain ⟨c₁, body, factory, f, g, hbodies, -, -, -, hfactories, -⟩ := lowerCtor_eq_ok hc h
    exact ⟨c₁, body, factory, hbodies.hasWrappers (ctorBodyTarget_aligned _ _ hobject) hfirst,
      hfactories.hasWrappers (factoryTarget_aligned _ _ hobject) hfirst⟩
  · intro hcode h
    obtain ⟨hnone, -⟩ | ⟨main, ret, f, hret, hsteps, -⟩ := lowerMixinBody_eq_ok hc h
    · rw [hcode] at hnone
      cases hnone
    · exact ⟨main, ret, hret, hsteps.hasWrappers (mixinBodyTarget_aligned _ _ _ _) hfirst⟩

end Methods

-- A static method of two bools that may be left out: the first one is true then, and the second one
-- is the first one, `LoadTrue` and `LoadVar 0`.
def bothMethod : MethodDef where
  name := "both"
  flags := Pod.Flag.public_ ||| Pod.Flag.static_
  ret := 1
  inheritedRet := 1
  maxStack := 0
  paramCount := 2
  localCount := 0
  vars := #[⟨"a", 0, Pod.Flag.param, ⟨#[("ParamDefault", #[3])]⟩⟩,
    ⟨"b", 0, Pod.Flag.param, ⟨#[("ParamDefault", #[10, 0, 0])]⟩⟩]
  code := #[42]
  attrs := {}

def bothEnv : ClassEnv :=
  { bareEnv with
    pod :=
      { bareEnv.pod with
        symbols := { typeRefs := #[⟨"sys", "Bool", ""⟩, ⟨"sys", "Void", ""⟩] } }
    config := { lineNumbers := false, sourceFiles := false } }

def bothTarget : Target :=
  plainTarget bothMethod "(ZZ)V" ⟨"sys", "Void", ""⟩

-- The frame of the method, whose registers are the two bools.
theorem exists_frame_both : ∃ f, Frame.forMethod bothEnv.pod.symbols "fan/p/T" bothMethod .bound =
    .ok f ∧ f.regs = #[some ⟨0, .bool⟩, some ⟨1, .bool⟩] ∧ f.maxLocals = 2 :=
  ⟨_, rfl, by cbv, by cbv⟩

theorem hasShortDefault_both {f : Frame} (hregs : f.regs = #[some ⟨0, .bool⟩, some ⟨1, .bool⟩])
    (hlocals : f.maxLocals = 2) :
    ∀ p ∈ bothMethod.params, HasShortDefault bothEnv "fan/p/T" f p := by
  have hmax : f.maxLocals ≤ 0xFFFF := by omega
  have hlocal : variableOf f ⟨0, .loadVar, [0]⟩ = .ok ⟨0, .bool⟩ := by
    have hread : f.local? 0 = some ⟨0, .bool⟩ := by
      rw [Frame.local?, hregs]
      rfl
    unfold variableOf Instr.arg
    dsimp only [List.headD]
    rw [hread]
  have hparams : bothMethod.params =
      [⟨"a", 0, Pod.Flag.param, ⟨#[("ParamDefault", #[3])]⟩⟩,
        ⟨"b", 0, Pod.Flag.param, ⟨#[("ParamDefault", #[10, 0, 0])]⟩⟩] := rfl
  rw [hparams]
  simp only [List.forall_mem_cons]
  refine ⟨⟨#[3], by cbv, fun out => ?_⟩, ⟨#[10, 0, 0], by cbv, fun out => ?_⟩,
    nofun⟩
  · exact fits_lowerFragment_single (i := ⟨0, .loadTrue, []⟩) (x := .op iconst1)
      (by cbv) (fun _ _ _ => rfl) rfl (fun _ => by simp [Item.raw]) hmax out
  · refine fits_lowerFragment_single (i := ⟨0, .loadVar, [0]⟩) (x := .load .bool 0)
      (by cbv) (fun c copy next => ?_) rfl
      (fun _ => (by decide : (Item.loadRaw .bool 0).length ≤ 5)) hmax out
    unfold emitInstr
    dsimp only
    rw [hlocal]
    rfl

theorem exists_lowerStandard_both :
    ∃ c', lowerStandard bothMethod bothEnv bareClass = .ok () c' := by
  obtain ⟨f, hframe, hregs, hlocals⟩ := exists_frame_both
  have hdesc : methodDesc bothEnv.pod.symbols bothMethod none bothMethod.params .inherited =
      .ok "(ZZ)V" := by cbv
  have hdescs : ∀ n < bothMethod.params.length, ∃ desc,
      methodDesc bothEnv.pod.symbols bothMethod none (bothMethod.params.take n) .inherited =
        .ok desc := by
    intro n hn
    have hlt : n < 2 := hn
    interval_cases n
    · exact ⟨"()V", by cbv⟩
    · exact ⟨"(Z)V", by cbv⟩
  have hfirst : bothMethod.firstDefault? = some 0 := by decide
  have hmain : ∃ member, ClassFile.Member.ofMethod "fan/p/T.both(ZZ)V" = .ok member :=
    ⟨⟨"fan/p/T", "both", "(ZZ)V"⟩, by cbv⟩
  have hfits : ClassM.Fits bothEnv "fan/p/T" 8016 (lowerStandard bothMethod) fun _ => True := by
    refine ClassM.fits_look_bind (fun c _ => ClassM.desc_run hdesc c) ?_
    have hcode : ¬(bothMethod.isAbstract || !bothMethod.hasCode) = true := by decide
    rw [if_neg hcode]
    refine ClassM.fits_look_bind (fun c hc => ClassM.frame_run hframe hc) ?_
    refine ClassM.fits_bind (n := 0) (k := 8016)
      (fits_lowerPlainBody_return rfl rfl (by omega) rfl) fun out hout => ?_
    refine ClassM.fits_bind (n := 4) (k := 8012) (fits_addCode _ _ _ (by omega)) fun _ _ => ?_
    refine ClassM.fits_look_bind (a := .void) (fun c _ => rfl) ?_
    exact fits_lowerWrappers hfirst hframe hmain hdescs
      (hasShortDefault_both hregs hlocals)
  obtain ⟨u, c', h, -⟩ := hfits bareClass ⟨rfl, rfl, rfl⟩ (by decide)
  exact ⟨c', h⟩

-- The programs of the defaults.
theorem defaultPrograms_both (f : Frame) :
    defaultPrograms bothEnv f bothMethod.params =
      [fcodeProgram bothEnv f #[3], fcodeProgram bothEnv f #[10, 0, 0]] := rfl

theorem decodeAt_loadVar : Instr.decodeAt #[10, 0, 0] 0 = .ok ⟨0, .loadVar, [0]⟩ := by
  cbv

-- `LoadTrue` gives true.
theorem runs_loadTrue (f : Frame) (regs : Fcode.Registers) :
    (fcodeProgram bothEnv f #[3]).Runs ⟨0, [], regs⟩ ⟨1, [.bool true], regs⟩ := by
  have hat : Instr.decodeAt #[3] 0 = .ok ⟨0, .loadTrue, []⟩ := by cbv
  have hstep : (fcodeProgram bothEnv f #[3]).step ⟨0, [], regs⟩ =
      some (.next ⟨1, [.bool true], regs⟩) :=
    (Fcode.Program.step_of_decodeAt (s := ⟨0, [], regs⟩) hat).trans rfl
  refine .single ⟨?_, .one hat rfl hstep⟩
  intro i v rest hi hop
  cases hat.symm.trans hi
  cases hop

-- `LoadVar 0` gives what the first register holds.
theorem runs_loadVar (f : Frame) {regs : Fcode.Registers} {v : Fcode.Value} (h : regs 0 = some v) :
    (fcodeProgram bothEnv f #[10, 0, 0]).Runs ⟨0, [], regs⟩ ⟨3, [v], regs⟩ := by
  have hstep : (fcodeProgram bothEnv f #[10, 0, 0]).step ⟨0, [], regs⟩ =
      some (.next ⟨3, [v], regs⟩) := by
    refine (Fcode.Program.step_of_decodeAt (s := ⟨0, [], regs⟩) decodeAt_loadVar).trans ?_
    exact congrArg (Option.map _) h
  refine .single ⟨?_, .one decodeAt_loadVar rfl hstep⟩
  intro i v rest hi hop
  cases decodeAt_loadVar.symm.trans hi
  cases hop

-- No instruction of these jumps.
theorem entersNoPair_both (f : Frame) :
    ∀ p ∈ defaultPrograms bothEnv f bothMethod.params, EntersNoPair p.code := by
  have hplain {code : Bytes} {i : Instr} (hcode : Instr.disassemble code = .ok [i])
      (hnone : branchTargets i = []) : EntersNoPair code := by
    intro instrs hinstrs j hj t ht
    cases hcode.symm.trans hinstrs
    rw [List.mem_singleton.mp hj, hnone] at ht
    cases ht
  rw [defaultPrograms_both]
  simp only [List.forall_mem_cons]
  have htrue : Instr.disassemble #[3] = .ok [⟨0, .loadTrue, []⟩] := by cbv
  have hvar : Instr.disassemble #[10, 0, 0] = .ok [⟨0, .loadVar, [0]⟩] := by cbv
  exact ⟨hplain htrue rfl, hplain hvar rfl, List.forall_mem_nil _⟩

-- It reads no other register.
theorem eq_of_isReading {f : Frame} {s : Fcode.State} {r : UInt16}
    (h : (fcodeProgram bothEnv f #[10, 0, 0]).IsReading s r) : r = 0 := by
  obtain ⟨i, hi, hop, rfl⟩ := h
  obtain ⟨-, ⟨b, hb, hbyte⟩, -⟩ := Instr.decodeAt_eq_ok hi
  rw [hop] at hbyte
  -- There is one byte with that opcode.
  have hzero : ∀ pc < 3, (#[10, 0, 0] : Bytes)[pc]? = some b → pc = 0 := by
    intro pc hpc hb
    interval_cases pc
    · rfl
    all_goals
      cases hb
      exact absurd hbyte (by decide)
  have hpc : s.pc = 0 := hzero s.pc (Array.getElem?_eq_some_iff.mp hb).1 hb
  rw [hpc] at hi
  cases decodeAt_loadVar.symm.trans hi
  rfl

theorem not_readsMissing_both (f : Frame) (regs : Fcode.Registers) :
    ¬Fcode.ReadsMissing 1 2 [fcodeProgram bothEnv f #[10, 0, 0]] regs := by
  intro h
  cases h with
  | here _ hreads _ hfirst _ =>
    obtain rfl := eq_of_isReading hreads
    exact absurd hfirst (by decide)
  | later _ hrest => cases hrest

-- The pod has no literals.
theorem holdsLiterals_both (statics : String → Option Value) :
    HoldsLiterals bothEnv.pod statics := by
  intro field v h
  have hnone : bothEnv.pod.literals.values = [] := rfl
  rw [Pod.Literals.get?, hnone] at h
  cases h

-- Its wrappers, for no argument and for one.
theorem HasWrappers.of_both {c' : OpenClass} {main : MethodInfo} {ret : TypeRef}
    (hret : typeRefAt bothEnv.pod.symbols bothMethod.inheritedRet = .ok ret)
    (h : HasWrappers bothEnv bareClass bothMethod (plainTarget bothMethod main.desc ret) .bound 0
      main c') :
    ∃ f, f.regs = #[some ⟨0, .bool⟩, some ⟨1, .bool⟩] ∧ ∀ n desc, n < 2 →
      methodDesc bothEnv.pod.symbols bothMethod none (bothMethod.params.take n) .inherited =
        .ok desc →
      ∃ w ∈ c'.draft.methods.toList, w.name = "both" ∧ w.desc = desc ∧
        Completes bothEnv bothMethod bothTarget .bound f [.bool, .bool] "fan/p/T.both(ZZ)V"
          c'.draft.pool.get? n w := by
  obtain ⟨f, ts, ws, hframe, ⟨rs, hrs, rfl⟩, hdeclares, hws⟩ := h.wrappers
  obtain ⟨g, hg, hregs, -⟩ := exists_frame_both
  obtain rfl : g = f := Except.ok.inj (hg.symm.trans hframe)
  obtain rfl : ret = ⟨"sys", "Void", ""⟩ := Except.ok.inj (hret.symm.trans rfl)
  have hdesc : main.desc = "(ZZ)V" := Except.ok.inj (h.full.symm.trans (by cbv))
  obtain rfl : rs = [⟨"sys", "Bool", ""⟩, ⟨"sys", "Bool", ""⟩] :=
    Except.ok.inj (hrs.symm.trans rfl)
  refine ⟨g, hregs, fun n desc hn hn' => ?_⟩
  have hmem : n ∈ (List.range bothMethod.params.length).drop 0 := List.mem_range.mpr hn
  obtain ⟨w, hw, hname, hwdesc, hcompletes⟩ := exists_of_forall₂ hws hmem
  rw [hdesc] at hcompletes
  refine ⟨w, ?_, hname, Except.ok.inj (hwdesc.symm.trans hn'), hcompletes⟩
  rw [hdeclares.draft.methods]
  exact List.mem_append_right _ (List.mem_cons_of_mem _ hw)

-- What its wrappers do.
theorem Completes.runsTo_of_both {f : Frame} {w : MethodInfo} {k : Constants} {n : Nat}
    {args : List (Option Fcode.Value)} {passed : List Value} {vs : List Fcode.Value}
    (h : Completes bothEnv bothMethod bothTarget .bound f [.bool, .bool] "fan/p/T.both(ZZ)V" k n w)
    (hcall : WrapperCall bothEnv bothMethod bothTarget .bound f [.bool, .bool] n args passed vs) :
    RunsTo w k byDescriptor passed fun es v =>
      ¬Fcode.ReadsMissing args.length 2 (defaultPrograms bothEnv f (bothMethod.params.drop n))
        (Fcode.State.start args).regs ∧
      PassesOn .static "fan/p/T.both(ZZ)V" .void (passed ++ vs.map Fcode.Value.toJvm) es v := by
  obtain ⟨code, hcode, hruns⟩ := h
  exact ⟨code, hcode, fun m hm hconstants es v => hruns m byDescriptor args passed vs hm hconstants
    (holdsLiterals_both _) (by cbv) hcall es v⟩

-- The first bool is passed.
theorem wrapperCall_one {f : Frame} (hregs : f.regs = #[some ⟨0, .bool⟩, some ⟨1, .bool⟩])
    (b : Bool) : WrapperCall bothEnv bothMethod bothTarget .bound f [.bool, .bool] 1
      [some (.bool b)] [.ofBool b] [.bool b] where
  passes := by
    rw [hregs]
    refine .bound rfl ?_ .done
    rintro _ ⟨⟩
    exact ⟨rfl, rfl⟩
  count := rfl
  object := nofun
  typing := rfl
  pairs := fun p hp => entersNoPair_both f p (List.mem_cons_of_mem _ hp)
  cascade := .cons (runs_loadVar f rfl) (fun _ _ => .inl rfl) .nil

-- None is: the first one is true, and so is the second one.
theorem wrapperCall_none (f : Frame) : WrapperCall bothEnv bothMethod bothTarget .bound f
    [.bool, .bool] 0 [] [] [.bool true, .bool true] where
  passes := .done
  count := rfl
  object := nofun
  typing := rfl
  pairs := entersNoPair_both f
  cascade := .cons (runs_loadTrue f _) (fun _ _ => .inl rfl)
    (.cons (runs_loadVar f rfl) (fun _ _ => .inl rfl) .nil)

-- If the first bool is passed, the second one is the same.
theorem defaults_cascade_iff_both : ∃ c' w,
    lowerStandard bothMethod bothEnv bareClass = .ok () c' ∧ w ∈ c'.draft.methods.toList ∧
    w.name = "both" ∧ w.desc = "(Z)V" ∧ ∀ b, RunsTo w c'.draft.pool.get? byDescriptor [.ofBool b]
      (PassesOn .static "fan/p/T.both(ZZ)V" .void [.ofBool b, .ofBool b]) := by
  obtain ⟨c', h⟩ := exists_lowerStandard_both
  have hfirst : bothMethod.firstDefault? = some 0 := by decide
  obtain ⟨main, ret, hret, hwrappers⟩ := (defaults_cascade_iff (wellFormed_bare _) hfirst).1 h
  obtain ⟨f, hregs, hall⟩ := hwrappers.of_both hret
  obtain ⟨w, hw, hname, hdesc, hcompletes⟩ := hall 1 "(Z)V" (by decide) (by cbv)
  refine ⟨c', w, h, hw, hname, hdesc, fun b => ?_⟩
  obtain ⟨code, hcode, hruns⟩ := hcompletes.runsTo_of_both (wrapperCall_one hregs b)
  refine ⟨code, hcode, fun m hm hconstants es v => ?_⟩
  rw [hruns m hm hconstants es v]
  exact and_iff_right (not_readsMissing_both f _)

-- If none is passed, the wrapper returns nothing at all: the second default reads the first bool,
-- which is computed, but not stored.
theorem wrapper_loads_missing_both : ∃ c' w,
    lowerStandard bothMethod bothEnv bareClass = .ok () c' ∧ w ∈ c'.draft.methods.toList ∧
    w.name = "both" ∧ w.desc = "()V" ∧
    (∀ f, Fcode.Cascade 2 (defaultPrograms bothEnv f bothMethod.params) []
      [.bool true, .bool true]) ∧
    RunsTo w c'.draft.pool.get? byDescriptor [] fun _ _ => False := by
  obtain ⟨c', h⟩ := exists_lowerStandard_both
  have hfirst : bothMethod.firstDefault? = some 0 := by decide
  obtain ⟨main, ret, hret, hsteps, -⟩ := lowerStandard_eq_ok (wellFormed_bare _) h
  obtain ⟨f, -, hall⟩ := (hsteps.hasWrappers (plainTarget_aligned _ _ _) hfirst).of_both hret
  obtain ⟨w, hw, hname, hdesc, hcompletes⟩ := hall 0 "()V" (by decide) (by cbv)
  refine ⟨c', w, h, hw, hname, hdesc, fun f => (wrapperCall_none f).cascade, ?_⟩
  obtain ⟨code, hcode, hruns⟩ := hcompletes.runsTo_of_both (wrapperCall_none f)
  refine ⟨code, hcode, fun m hm hconstants es v => ?_⟩
  rw [hruns m hm hconstants es v]
  have hmissing : Fcode.ReadsMissing 0 2 (defaultPrograms bothEnv f bothMethod.params)
      (Fcode.State.start []).regs :=
    .later (runs_loadTrue f _)
      (.here .refl ⟨_, decodeAt_loadVar, rfl, rfl⟩ rfl (by decide) (by decide))
  exact iff_of_false (fun hboth => hboth.1 hmissing) id

end Lowering

end PodCompiler
