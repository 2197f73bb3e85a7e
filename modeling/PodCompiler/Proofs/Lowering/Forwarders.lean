import PodCompiler.Proofs.Lowering.Arguments
import PodCompiler.Proofs.Lowering.Routers
import PodCompiler.Proofs.Lowering.WrittenCode

namespace PodCompiler

-- The signature of a method with these parameters and this result.
def Jvm.Signature.ofTypes (ts : List StackType) (result : StackType) : Jvm.Signature :=
  ⟨ts.map Kind.ofStack, Kind.returned result⟩

namespace Lowering

open ClassFile (Constants MethodInfo)
open ClassFile.Op
open Jvm (CallMode Event Kind Linkage Locals Machine Signature Value depth fetch)
open Pod (MethodDef VarDef)

-- What a run of a method with these arguments asks for and returns.
def RunsTo (w : MethodInfo) (k : Constants) (l : Linkage) (args : List Value)
    (does : List Event → Option Value → Prop) : Prop :=
  ∃ code, w.code = some code ∧ ∀ m : Machine, m.code = code.code → m.constants.Extends k →
    ∀ es v, m.Returns l ⟨0, [], .ofArgs args code.maxLocals.toNat⟩ es v ↔ does es v

-- An object is made and initialised, and handed to a method in front of the arguments; this object
-- is returned.
def MakesObject (cls body : String) (args : List Value) (es : List Event) (v : Option Value) :
    Prop :=
  ∃ id, es = [.new cls id, .call .special s!"{cls}.<init>()V" [.ref (.object id)] none,
    .call .static body (.ref (.object id) :: args) none] ∧ v = some (.ref (.object id))

-- The arguments are handed to a method, and what it gives is returned.
def PassesOn (mode : CallMode) (target : String) (result : StackType) (args : List Value)
    (es : List Event) (v : Option Value) : Prop :=
  ∃ given, given.map Value.kind = Kind.returned result ∧
    es = [.call mode target args given] ∧ v = given

-- The object and the arguments are handed to a method of an object that is in a field of it, and
-- what that gives is returned.
def AsksPeer (field target : String) (result : StackType) (receiver : Jvm.Ref) (args : List Value)
    (es : List Event) (v : Option Value) : Prop :=
  ∃ id given, given.map Value.kind = Kind.returned result ∧
    es = [.get field receiver (.ref (.object id)),
      .call .virtual target (.ref (.object id) :: .ref receiver :: args) given] ∧ v = given

section Code

variable {m : Machine} {l : Linkage} {ts : List StackType} {args : List Value} {size : Nat}
  {es : List Event} {v : Option Value} {result : StackType} {target field : String}

-- What a method returns that got its result from another one.
theorem exec_return {given : Option Value} (h : given.map Value.kind = Kind.returned result)
    (pos n : Nat) (locals : Locals) :
    m.exec ⟨pos, given.toList ++ [], locals⟩ n (.return_ (Kind.returned result)) =
      some (.returned given) := by
  rw [← h]
  cases given with
  | none => rfl
  | some v => exact if_pos rfl

theorem Typing.cons {t : StackType} {v : Value} (hv : v.kind = .ofStack t) (h : Typing args ts) :
    Typing (v :: args) (t :: ts) :=
  congrArg₂ List.cons hv h

-- A factory, up to the loads: it asks for an object, and for its initialisation.
structure BeginsFactory (m : Machine) (l : Linkage) (cls body : String) (ts : List StackType)
    (locals : Locals) : Prop where
  new : m.step ⟨0, [], locals⟩ = none
  made : ∀ e s', m.Asks l ⟨0, [], locals⟩ e s' ↔
    ∃ id, True ∧ e = .new cls id ∧ s' = ⟨3, [.ref (.object id)], locals⟩
  dup : ∀ id, m.step ⟨3, [.ref (.object id)], locals⟩ =
    some (.next ⟨4, [.ref (.object id), .ref (.object id)], locals⟩)
  init : ∀ id, m.step ⟨4, [.ref (.object id), .ref (.object id)], locals⟩ = none
  initialised : ∀ id e s', m.Asks l ⟨4, [.ref (.object id), .ref (.object id)], locals⟩ e s' ↔
    ∃ result : Option Value, (CallMode.special.On [.ref (.object id)] ∧
      result.map Value.kind = none) ∧
      e = .call .special s!"{cls}.<init>()V" ([.ref (.object id)] ++ []) result ∧
      s' = ⟨7, result.toList ++ [.ref (.object id)], locals⟩
  again : ∀ id, m.step ⟨7, [.ref (.object id)], locals⟩ =
    some (.next ⟨8, [.ref (.object id), .ref (.object id)], locals⟩)
  plain : ∀ pc ∈ [0, 3, 4, 7], m.IsPlain pc
  rest : Reads m 8 (loadLocals (locate 0 ts) ++
    [.const CallMode.static.op (.method body), .op (returnOp .obj)])

theorem beginsFactory {cls : String} {body : Target} (locals : Locals)
    (h : Reads m 0 (factoryItems cls body (locate 0 ts)))
    (hinit : l.method? s!"{cls}.<init>()V" = some (.ofTypes [] .void)) :
    BeginsFactory m l cls s!"{cls}.{body.name}{body.desc}" ts locals := by
  have h : Reads m 0 (.const newObject (.class_ cls) :: .op dup ::
      .const CallMode.special.op (.method s!"{cls}.<init>()V") :: .op dup ::
      (loadLocals (locate 0 ts) ++
        [Item.const CallMode.static.op (Ref.method s!"{cls}.{body.name}{body.desc}"),
          Item.op (returnOp .obj)])) := by
    rw [factoryItems, List.append_assoc] at h
    exact h
  obtain ⟨hop, ⟨i, hi, hcls⟩, hdup⟩ := h
  have hinit : l.method? s!"{cls}.<init>()V" =
      some ⟨([] : List Value).map Value.kind, none⟩ := hinit
  have hcall := hdup.2
  have hlast := hcall.2.2
  have hone (id : Nat) : [Value.ref (.object id)].length = CallMode.special.arity := rfl
  exact {
    new := Machine.step_newObject hop
    made := Machine.asks_newObject hop hi hcls
    dup := fun id => hdup.step_op (i := .dup) rfl fun _ => rfl
    init := fun id => hcall.step_call hinit (.inl (.special id))
    initialised := fun id => hcall.asks_call hinit (hone id)
    again := fun id => hlast.step_op (i := .dup) rfl fun _ => rfl
    plain := by
      simp only [List.forall_mem_cons]
      exact ⟨.of_fetch_none (Machine.fetch_of_ofOp?_none hop rfl),
        .of_fetch (hdup.fetch_op (i := .dup) rfl) (by simp), hcall.isPlain_call,
        .of_fetch (hlast.fetch_op (i := .dup) rfl) (by simp), List.forall_mem_nil _⟩
    rest := hlast.2 }

-- The arguments behind others that a method is called with, as its code loads them.
theorem Typing.gives_behind (before : List Value) (h : Typing args ts) (hlength : ts.length ≤ 255)
    (hone : depth before ≤ 1) :
    Gives (.ofArgs (before ++ args) size) (locate (depth before) ts) args :=
  h.gives (by omega)

-- What the call of a factory, or that of its body, gives.
theorem exec_areturn {given : Option Value} (h : given.map Value.kind = none) (id pos n : Nat)
    (locals : Locals) :
    m.exec ⟨pos, given.toList ++ [Value.ref (.object id)], locals⟩ n
        (.return_ (Kind.returned .obj)) =
      some (.returned (some (.ref (.object id)))) := by
  obtain rfl := Option.map_eq_none_iff.mp h
  rfl

theorem BeginsFactory.returns_iff {cls body : String}
    (h : BeginsFactory m l cls body ts (.ofArgs args size)) (hargs : Typing args ts)
    (hlength : ts.length ≤ 255) (hbody : l.method? body = some (.ofTypes (.obj :: ts) .void)) :
    m.Returns l ⟨0, [], .ofArgs args size⟩ es v ↔ MakesObject cls body args es v := by
  have hgives : Gives (.ofArgs args size) (locate 0 ts) args :=
    hargs.gives_behind [] hlength (Nat.zero_le 1)
  have hlink (id : Nat) : l.method? body =
      some ⟨(Value.ref (.object id) :: args).map Value.kind, none⟩ := by
    rw [Typing.cons (t := .obj) rfl hargs]
    exact hbody
  have pushed (id : Nat) : [Value.ref (.object id)] ++ args = [] ++ .ref (.object id) :: args := rfl
  have hcall (id : Nat) (es : List Event) :
      m.Returns l ⟨8, [.ref (.object id), .ref (.object id)], .ofArgs args size⟩ es v ↔
        ∃ given : Option Value, (CallMode.static.On [] ∧ given.map Value.kind = none) ∧
          es = [.call .static body ([] ++ (.ref (.object id) :: args)) given] ∧
          v = some (.ref (.object id)) :=
    h.rest.returns_call hgives (pushed id) (hlink id) rfl (.inl .static)
      fun given pos n hgiven => exec_areturn hgiven id pos n _
  rw [Machine.returns_of_asks h.new h.made]
  constructor
  · rintro ⟨id, es', -, rfl, hrest⟩
    rw [Machine.returns_of_step (h.dup id), Machine.returns_of_asks (h.init id) (h.initialised id)]
      at hrest
    obtain ⟨nothing, es'', ⟨-, hnothing⟩, rfl, hrest⟩ := hrest
    obtain rfl := Option.map_eq_none_iff.mp hnothing
    obtain ⟨given, ⟨-, hgiven⟩, rfl, rfl⟩ :=
      (hcall id es'').mp ((Machine.returns_of_step (h.again id)).mp hrest)
    obtain rfl := Option.map_eq_none_iff.mp hgiven
    exact ⟨id, rfl, rfl⟩
  · rintro ⟨id, rfl, rfl⟩
    refine ⟨id, _, trivial, rfl, ?_⟩
    rw [Machine.returns_of_step (h.dup id), Machine.returns_of_asks (h.init id) (h.initialised id)]
    refine ⟨none, _, ⟨.special id, rfl⟩, rfl, (Machine.returns_of_step (h.again id)).mpr ?_⟩
    exact (hcall id _).mpr ⟨none, ⟨.static, rfl⟩, rfl, rfl⟩

-- A call with all that is on the stack.
theorem returns_last {mode : CallMode} {on : List Value} {pos : Nat} {locals : Locals}
    (h : Reads m pos [.const mode.op (.method target), .op (returnOp result)])
    (hon : mode.On on)
    (hlink : l.method? target = some ⟨args.map Value.kind, Kind.returned result⟩) :
    m.Returns l ⟨pos, (on ++ args).reverse, locals⟩ es v ↔
      PassesOn mode target result (on ++ args) es v := by
  have h : Reads m pos
      (loadLocals [] ++ [Item.const mode.op (Ref.method target), Item.op (returnOp result)]) := h
  have hcall : m.Returns l ⟨pos, (on ++ args).reverse ++ [], locals⟩ es v ↔
      ∃ given : Option Value, (mode.On on ∧ given.map Value.kind = Kind.returned result) ∧
        es = [.call mode target (on ++ args) given] ∧ v = given :=
    h.returns_call .nil (List.append_nil _) hlink hon.length_eq (.inl hon)
      fun given pos n hgiven => exec_return hgiven pos n _
  rw [List.append_nil] at hcall
  rw [hcall]
  constructor
  · rintro ⟨given, ⟨-, hgiven⟩, rfl, rfl⟩
    exact ⟨_, hgiven, rfl, rfl⟩
  · rintro ⟨given, hgiven, rfl, rfl⟩
    exact ⟨_, ⟨hon, hgiven⟩, rfl, rfl⟩

-- A call with the arguments of a method.
theorem returns_passed (before : List Value) {pos : Nat} {locals : Locals}
    (h : Reads m pos (loadLocals (locate (depth before) ts) ++
      [Item.const CallMode.static.op (Ref.method target), Item.op (returnOp result)]))
    (hgives : Gives locals (locate (depth before) ts) args)
    (hlink : l.method? target = some ⟨(before ++ args).map Value.kind, Kind.returned result⟩) :
    m.Returns l ⟨pos, before.reverse, locals⟩ es v ↔
      PassesOn .static target result (before ++ args) es v := by
  obtain ⟨hreach, hlast⟩ := h.reaches_loads hgives before.reverse
  rw [← List.reverse_append] at hreach
  have hcall : m.Returns l
        ⟨pos + (loadBytes (locate (depth before) ts)).length, ([] ++ (before ++ args)).reverse,
          locals⟩ es v ↔
      PassesOn .static target result ([] ++ (before ++ args)) es v :=
    returns_last hlast .static hlink
  exact (Machine.returns_of_reaches hreach).trans hcall

-- The object that a method is called on is pushed by an instruction of its own.
theorem step_aload0 {rest : List (Item Ref)} {pos : Nat} {stack : List Value} (receiver : Jvm.Ref)
    (h : Reads m pos (.op aload0 :: rest)) :
    m.step ⟨pos, stack, .ofArgs (.ref receiver :: args) size⟩ =
      some (.next ⟨pos + 1, .ref receiver :: stack, .ofArgs (.ref receiver :: args) size⟩) := by
  have hself : (Locals.ofArgs (.ref receiver :: args) size).get? 0 = some (.ref receiver) :=
    get?_ofArgs [] args (.ref receiver) size
  refine h.step_op (i := .load .ref 0) rfl fun n => ?_
  simp only [Machine.exec, hself]
  rfl

-- The code of a native method of an object, up to the loads: it asks for the peer.
structure BeginsPeer (m : Machine) (l : Linkage) (field target : String) (ts : List StackType)
    (result : StackType) (receiver : Jvm.Ref) (locals : Locals) : Prop where
  object : m.step ⟨0, [], locals⟩ = some (.next ⟨1, [.ref receiver], locals⟩)
  get : m.step ⟨1, [.ref receiver], locals⟩ = none
  got : ∀ e s', m.Asks l ⟨1, [.ref receiver], locals⟩ e s' ↔
    ∃ peer : Value, peer.kind = .ref ∧ e = .get field receiver peer ∧ s' = ⟨4, [peer], locals⟩
  again : ∀ peer, m.step ⟨4, [peer], locals⟩ = some (.next ⟨5, [.ref receiver, peer], locals⟩)
  first : fetch m.code 0 = some (.load .ref 0, 1)
  plain : m.IsPlain 1
  second : fetch m.code 4 = some (.load .ref 0, 5)
  rest : Reads m 5 (loadLocals (locate 1 ts) ++
    [.const CallMode.virtual.op (.method target), .op (returnOp result)])

theorem beginsPeer {receiver : Jvm.Ref} (hself : receiver ≠ .null)
    (h : Reads m 0 (.op aload0 :: .const getField (.field field) :: .op aload0 ::
      (loadLocals (locate 1 ts) ++
        [Item.const CallMode.virtual.op (Ref.method target), Item.op (returnOp result)])))
    (hfield : l.field? field = some .ref) :
    BeginsPeer m l field target ts result receiver (.ofArgs (.ref receiver :: args) size) := by
  obtain ⟨hop, ⟨i, hi, hsig⟩, hagain⟩ := h.2
  exact {
    object := step_aload0 receiver h
    get := Machine.step_getField hop
    got := Machine.asks_getField hop hi hsig hfield hself rfl
    again := fun peer => step_aload0 receiver hagain
    first := h.fetch_op rfl
    plain := .of_fetch_none (Machine.fetch_of_ofOp?_none hop rfl)
    second := hagain.fetch_op rfl
    rest := hagain.2 }

theorem BeginsPeer.returns_iff {receiver : Jvm.Ref}
    (h : BeginsPeer m l field target ts result receiver (.ofArgs (.ref receiver :: args) size))
    (hargs : Typing args ts) (hlength : ts.length ≤ 255)
    (htarget : l.method? target = some (.ofTypes (.obj :: ts) result)) :
    m.Returns l ⟨0, [], .ofArgs (.ref receiver :: args) size⟩ es v ↔
      AsksPeer field target result receiver args es v := by
  have hgives : Gives (.ofArgs (.ref receiver :: args) size) (locate 1 ts) args :=
    hargs.gives_behind [.ref receiver] hlength le_rfl
  have hlink : l.method? target =
      some ⟨(Value.ref receiver :: args).map Value.kind, Kind.returned result⟩ := by
    rw [Typing.cons (t := .obj) rfl hargs]
    exact htarget
  have hpushed (peer : Value) :
      [peer, .ref receiver] ++ args = [peer] ++ .ref receiver :: args := rfl
  have hcall (peer : Value) (es : List Event) :
      m.Returns l ⟨5, [.ref receiver, peer], .ofArgs (.ref receiver :: args) size⟩ es v ↔
        ∃ given : Option Value, (CallMode.virtual.On [peer] ∧
          given.map Value.kind = Kind.returned result) ∧
          es = [.call .virtual target ([peer] ++ (.ref receiver :: args)) given] ∧ v = given :=
    h.rest.returns_call hgives (hpushed peer) hlink rfl (.inr (List.cons_ne_nil _ _))
      fun given pos n hgiven => exec_return hgiven pos n _
  rw [Machine.returns_of_step h.object, Machine.returns_of_asks h.get h.got]
  constructor
  · rintro ⟨peer, es', -, rfl, hrest⟩
    rw [Machine.returns_of_step (h.again peer), hcall] at hrest
    obtain ⟨given, ⟨hpeer, hgiven⟩, rfl, rfl⟩ := hrest
    cases hpeer with
    | virtual id => exact ⟨id, _, hgiven, rfl, rfl⟩
  · rintro ⟨id, given, hgiven, rfl, rfl⟩
    refine ⟨.ref (.object id), _, rfl, rfl, ?_⟩
    rw [Machine.returns_of_step (h.again _), hcall]
    exact ⟨_, ⟨.virtual id, hgiven⟩, rfl, rfl⟩

end Code

section Methods

variable {env : ClassEnv} {c c' : OpenClass} {m : MethodDef} {ts : List StackType} {u : Unit}

-- The types of some parameters, as the machine holds them.
def paramStacks (s : Pod.Symbols) (params : List VarDef) (ts : List StackType) : Prop :=
  ∃ rs, paramTypes s params = .ok rs ∧ ts = rs.map TypeRef.stack

theorem length_le_of_paramStacks {s : Pod.Symbols} {params : List VarDef}
    (h : paramStacks s params ts) (hle : params.length ≤ m.params.length) : ts.length ≤ 255 := by
  obtain ⟨rs, hrs, rfl⟩ := h
  have hlength := (except_mapM_eq_ok.mp hrs).length_eq
  have hmost := length_params_le m
  rw [List.length_map]
  omega

@[simp] theorem map_stack_locate (slot : Nat) (ts : List StackType) :
    (locate slot ts).map Local.stack = ts := by
  induction ts generalizing slot with
  | nil => rfl
  | cons t rest ih => simp [locate, ih]

-- The body and the factory that a constructor becomes, among the methods that come with them.
structure HasFactory (env : ClassEnv) (c : OpenClass) (m : MethodDef) (c' : OpenClass)
    (ts : List StackType) (body factory : MethodInfo) : Prop where
  types : paramStacks env.pod.symbols m.params ts
  declares : ∃ bodies factories,
    c.Declares env (body :: bodies ++ factory :: factories) c'
  name : factory.name = m.name
  desc : methodDesc env.pod.symbols m none m.params (.object env.selfName) = .ok factory.desc
  bodyName : body.name = m.name ++ "$"
  bodyDesc : methodDesc env.pod.symbols m (some env.selfName) m.params .void = .ok body.desc

theorem factory_of_lowerCtor (hc : c.WellFormed env) (h : lowerCtor m env c = .ok u c') :
    ∃ ts body factory, HasFactory env c m c' ts body factory ∧
      HasItemsIn env (StackType.totalSlots ts + 3) (StackType.totalSlots ts)
        (factoryItems env.selfName (ctorBodyTarget env.selfName m body.desc) (locate 0 ts)) c'
        factory := by
  obtain ⟨c₁, body, factory, f, g, hbodies, -, -, -, hfactories, -, hframe, hitems⟩ :=
    lowerCtor_eq_ok hc h
  obtain ⟨bs, hdeclares, hbody⟩ := hbodies.family
  obtain ⟨fs, hdeclares', hfactory⟩ := hfactories.family
  obtain ⟨args, ret, hargs, -⟩ := methodDesc_eq_ok hfactory.full
  obtain ⟨rs, hrs, -⟩ := except_mapM_map_eq_ok hargs
  refine ⟨rs.map TypeRef.stack, body, factory, ?_, ?_⟩
  · exact {
      types := ⟨rs, hrs, rfl⟩
      declares := ⟨bs, fs, hdeclares.trans hdeclares'⟩
      name := hfactory.name
      desc := hfactory.full
      bodyName := hbody.name
      bodyDesc := hbody.full }
  · have hparams : g.params m.params.length = locate 0 (rs.map TypeRef.stack) := by
      have hnone : (Frame.selfRegs m .unbound).filterMap id = [] := by
        unfold Frame.selfRegs
        cases m.isStatic <;> rfl
      rw [Frame.params_forMethod hframe le_rfl (by rwa [List.take_length]), hnone]
      rfl
    rw [Frame.paramSlots, hparams, map_stack_locate] at hitems
    exact hitems

-- What a native method becomes, and what its peer takes.
structure HasNative (env : ClassEnv) (c : OpenClass) (m : MethodDef) (c' : OpenClass)
    (ts : List StackType) (ret : TypeRef) (peerDesc : String) (main : MethodInfo) : Prop where
  types : paramStacks env.pod.symbols m.params ts
  returns : typeRefAt env.pod.symbols m.inheritedRet = .ok ret
  declares : ∃ ws, c.Declares env (main :: ws) c'
  name : main.name = m.name
  desc : methodDesc env.pod.symbols m none m.params .inherited = .ok main.desc
  peerDesc : methodDesc env.pod.symbols m (if m.isStatic then none else some env.selfName) m.params
    .inherited = .ok peerDesc

-- The parameters of a method are the first variables behind the object.
theorem params_of_bound {s : Pod.Symbols} {owner : String} {f : Frame}
    (h : Frame.forMethod s owner m .bound = .ok f) (hts : paramStacks s m.params ts) :
    f.params m.params.length = locate (if m.isStatic then 0 else 1) ts := by
  obtain ⟨rs, hrs, rfl⟩ := hts
  have hself : ((Frame.selfRegs m .bound).filterMap id).length = if m.isStatic then 0 else 1 := by
    unfold Frame.selfRegs
    cases m.isStatic <;> rfl
  rw [Frame.params_forMethod h le_rfl (by rwa [List.take_length]), hself]

theorem native_of_lowerNative (hc : c.WellFormed env) (h : lowerNative m env c = .ok u c') :
    ∃ ts ret peerDesc main f, HasNative env c m c' ts ret peerDesc main ∧
      Frame.forMethod env.pod.symbols c.draft.name m .bound = .ok f ∧
      HasItemsIn env (StackType.totalSlots ts + 2) f.maxLocals
        (nativeItems env.selfName m peerDesc (locate (if m.isStatic then 0 else 1) ts) ret.stack)
        c' main := by
  obtain ⟨main, ret, f, peerDesc, hret, hsteps, -, hframe, hitems, hstatic, hobject⟩ :=
    lowerNative_eq_ok hc h
  obtain ⟨ws, hdeclares, hfamily⟩ := hsteps.family
  obtain ⟨args, resultDesc, hargs, -⟩ := methodDesc_eq_ok hfamily.full
  obtain ⟨rs, hrs, -⟩ := except_mapM_map_eq_ok hargs
  refine ⟨rs.map TypeRef.stack, ret, peerDesc, main, f, ?_, hframe, ?_⟩
  · exact {
      types := ⟨rs, hrs, rfl⟩
      returns := hret
      declares := ⟨ws, hdeclares⟩
      name := hfamily.name
      desc := hfamily.full
      peerDesc := by
        cases his : m.isStatic with
        | true =>
          rw [hstatic his]
          exact hfamily.full
        | false => exact hobject his }
  · rw [Frame.paramSlots, params_of_bound hframe ⟨rs, hrs, rfl⟩, map_stack_locate] at hitems
    exact hitems

-- The router of a method of a mixin for the first `n` parameters, and what the body takes for
-- these.
structure HasRouter (pod : Pod) (mixin : String) (m : MethodDef) (n : Nat) (ts : List StackType)
    (bodyDesc : String) (w : MethodInfo) : Prop where
  le : n ≤ m.params.length
  types : paramStacks pod.symbols (m.params.take n) ts
  name : w.name = m.name
  desc : methodDesc pod.symbols m none (m.params.take n) .inherited = .ok w.desc
  bodyDesc : methodDesc pod.symbols m (some mixin) (m.params.take n) .inherited = .ok bodyDesc

-- With its code.
def RoutesIn (env : ClassEnv) (pod : Pod) (mixin : String) (m : MethodDef) (result : StackType)
    (c' : OpenClass) (w : MethodInfo) : Prop :=
  ∃ n ts bodyDesc, HasRouter pod mixin m n ts bodyDesc w ∧
    HasItemsIn env (1 + StackType.totalSlots ts) (1 + StackType.totalSlots ts)
      (routerItems mixin m.name bodyDesc ts result) c' w

theorem RoutesIn.declares {pod : Pod} {mixin : String} {result : StackType} {w : MethodInfo}
    {ms : List MethodInfo} (h : RoutesIn env pod mixin m result c w)
    (hms : c.Declares env ms c') : RoutesIn env pod mixin m result c' w := by
  obtain ⟨n, ts, bodyDesc, hrouter, hitems⟩ := h
  exact ⟨n, ts, bodyDesc, hrouter, hitems.declares hms⟩

theorem forM_lowerRouterFor_eq_ok {pod : Pod} {mixin : String} {access : UInt16}
    {result : StackType} {ns : List Nat} (hns : ∀ n ∈ ns, n ≤ m.params.length)
    (hc : c.WellFormed env)
    (h : ns.forM (lowerRouterFor pod mixin m access result) env c = .ok u c') :
    ∃ ms, c.Declares env ms c' ∧ ∀ w ∈ ms, RoutesIn env pod mixin m result c' w := by
  induction ns generalizing c with
  | nil =>
    obtain ⟨-, rfl⟩ := ClassM.pure_eq_ok.mp h
    exact ⟨[], .refl hc, nofun⟩
  | cons n rest ih =>
    obtain ⟨hn, hrest⟩ := List.forall_mem_cons.mp hns
    obtain ⟨v, c₁, hfirst, hmore⟩ := ClassM.bind_eq_ok.mp h
    obtain ⟨desc, hdesc, ⟨-, rfl⟩ |
      ⟨bodyDesc, kinds, out, c₂, -, hbodyDesc, hkinds, hitems, hadd⟩⟩ := lowerRouterFor_cases hfirst
    · exact ih hrest hc hmore
    · obtain ⟨w, hw, -, hname, rfl, hcode⟩ := declares_items hc hitems hadd
      obtain ⟨ms, hms, hall⟩ := ih hrest hw.formed hmore
      obtain ⟨rs, hrs, rfl⟩ := except_mapM_map_eq_ok hkinds
      have hrouter : RoutesIn env pod mixin m result c₁ w :=
        ⟨n, _, bodyDesc, ⟨hn, ⟨rs, hrs, rfl⟩, hname, hdesc, hbodyDesc⟩, hcode⟩
      exact ⟨w :: ms, hw.trans hms, List.forall_mem_cons.mpr ⟨hrouter.declares hms, hall⟩⟩

theorem routers_of_lowerRouter {pod : Pod} {mixin : Pod.TypeDef} (hc : c.WellFormed env)
    (h : lowerRouter pod mixin m env c = .ok u c') :
    ∃ self ret ms, typeRefAt pod.symbols mixin.self = .ok self ∧
      typeRefAt pod.symbols m.inheritedRet = .ok ret ∧ c.Declares env ms c' ∧
      ∀ w ∈ ms, RoutesIn env pod self.jname m ret.stack c' w := by
  obtain ⟨self, c₁, hrun, h₁⟩ := ClassM.bind_eq_ok.mp h
  obtain ⟨hself, rfl⟩ := ClassM.ofExcept_eq_ok.mp hrun
  obtain ⟨ret, c₂, hrun, h₂⟩ := ClassM.bind_eq_ok.mp h₁
  obtain ⟨hret, rfl⟩ := ClassM.ofExcept_eq_ok.mp hrun
  have hns : ∀ n ∈ (List.range (m.params.length + 1)).drop
      (m.firstDefault?.getD m.params.length), n ≤ m.params.length := by
    intro n hn
    have := List.mem_range.mp (List.mem_of_mem_drop hn)
    omega
  obtain ⟨ms, hms, hall⟩ := forM_lowerRouterFor_eq_ok hns hc h₂
  exact ⟨self, ret, ms, hself, hret, hms, hall⟩

section Runs

variable {l : Linkage} {args : List Value} {w : MethodInfo} {maxStack maxLocals : Nat}
  {receiver : Jvm.Ref} {result : StackType}

-- What a written method does is what its items do.
theorem HasItemsIn.runsTo {items : List (Item Ref)} {does : List Event → Option Value → Prop}
    (h : HasItemsIn env maxStack maxLocals items c' w) (hitems : Item.Straight items)
    (hdoes : ∀ (m : Machine) size es v, Reads m 0 items →
      (m.Returns l ⟨0, [], .ofArgs args size⟩ es v ↔ does es v)) :
    RunsTo w c'.draft.pool.get? l args does := by
  obtain ⟨out, hcode, -, -, hreads⟩ := h.reads hitems
  exact ⟨out, hcode, fun m hm hconstants es v => hdoes m _ es v (hreads m hm hconstants)⟩

theorem runsTo_factory (body : Target) (hlength : ts.length ≤ 255) (hargs : Typing args ts)
    (hinit : l.method? s!"{env.selfName}.<init>()V" = some (.ofTypes [] .void))
    (hbody : l.method? s!"{env.selfName}.{body.name}{body.desc}" =
      some (.ofTypes (.obj :: ts) .void))
    (h : HasItemsIn env maxStack maxLocals (factoryItems env.selfName body (locate 0 ts)) c' w) :
    RunsTo w c'.draft.pool.get? l args
      (MakesObject env.selfName s!"{env.selfName}.{body.name}{body.desc}" args) :=
  h.runsTo (straight_factoryItems _ _ _) fun _ _ _ _ hreads =>
    (beginsFactory _ hreads hinit).returns_iff hargs hlength hbody

-- The class that a native method is implemented in.
def peerName (self : String) : String :=
  self ++ "Peer"

theorem runsTo_static {peerDesc : String} (hlength : ts.length ≤ 255) (hargs : Typing args ts)
    (hstatic : m.isStatic = true)
    (htarget : l.method? s!"{peerName env.selfName}.{m.name}{peerDesc}" = some (.ofTypes ts result))
    (h : HasItemsIn env maxStack maxLocals
      (nativeItems env.selfName m peerDesc (locate 0 ts) result) c' w) :
    RunsTo w c'.draft.pool.get? l args
      (PassesOn .static s!"{peerName env.selfName}.{m.name}{peerDesc}" result args) := by
  refine h.runsTo (straight_nativeItems _ _ _ _) fun m' size es v hreads => ?_
  rw [nativeItems, hstatic, if_pos rfl, List.append_assoc] at hreads
  refine returns_passed [] hreads (hargs.gives_behind [] hlength (Nat.zero_le 1)) ?_
  rw [List.nil_append, hargs]
  exact htarget

theorem runsTo_peer {peerDesc : String} (hlength : ts.length ≤ 255) (hargs : Typing args ts)
    (hobject : m.isStatic = false) (hreceiver : receiver ≠ .null)
    (hfield : l.field? s!"{env.selfName}.peer:L{peerName env.selfName};" = some .ref)
    (htarget : l.method? s!"{peerName env.selfName}.{m.name}{peerDesc}" =
      some (.ofTypes (.obj :: ts) result))
    (h : HasItemsIn env maxStack maxLocals
      (nativeItems env.selfName m peerDesc (locate 1 ts) result) c' w) :
    RunsTo w c'.draft.pool.get? l (.ref receiver :: args)
      (AsksPeer s!"{env.selfName}.peer:L{peerName env.selfName};"
        s!"{peerName env.selfName}.{m.name}{peerDesc}" result receiver args) := by
  refine h.runsTo (straight_nativeItems _ _ _ _) fun m' size es v hreads => ?_
  rw [nativeItems, hobject, if_neg (by decide), List.append_assoc, List.append_assoc] at hreads
  exact (beginsPeer hreceiver hreads hfield).returns_iff hargs hlength htarget

theorem runsTo_router {mixin name bodyDesc : String} (hlength : ts.length ≤ 255)
    (hargs : Typing args ts) (hvoid : ∀ t ∈ ts, t ≠ .void)
    (hbody : l.method? s!"{mixin}$.{name}{bodyDesc}" = some (.ofTypes (.obj :: ts) result))
    (h : HasItemsIn env maxStack maxLocals (routerItems mixin name bodyDesc ts result) c' w) :
    RunsTo w c'.draft.pool.get? l (.ref receiver :: args)
      (PassesOn .static s!"{mixin}$.{name}{bodyDesc}" result (.ref receiver :: args)) := by
  refine h.runsTo (straight_routerItems _ _ _ _ _) fun m' size es v hreads => ?_
  rw [routerItems, routerLocals_eq_locate hvoid] at hreads
  rw [Machine.returns_of_step (step_aload0 receiver hreads)]
  refine returns_passed [.ref receiver] hreads.2
    (hargs.gives_behind [.ref receiver] hlength le_rfl) ?_
  rw [List.singleton_append, Typing.cons (t := .obj) rfl hargs]
  exact hbody

end Runs

-- Forwarders hand on exactly what they get. A factory makes one object, has it initialised, hands
-- it to the body of the constructor in front of all arguments, and returns it. A native method
-- hands all arguments to the peer of its object behind the object itself, or to a static method,
-- and a router hands the object and all arguments to the body of the method; these return what that
-- gives.
theorem forwarders_forward (hc : c.WellFormed env) :
    (lowerCtor m env c = .ok () c' →
      ∃ ts body factory, HasFactory env c m c' ts body factory ∧
        (∀ (l : Linkage) (args : List Value), Typing args ts →
          l.method? s!"{env.selfName}.<init>()V" = some (.ofTypes [] .void) →
          l.method? s!"{env.selfName}.{body.name}{body.desc}" =
            some (.ofTypes (.obj :: ts) .void) →
          RunsTo factory c'.draft.pool.get? l args
            (MakesObject env.selfName s!"{env.selfName}.{body.name}{body.desc}" args))) ∧
    (lowerNative m env c = .ok () c' →
      ∃ ts ret peerDesc main, HasNative env c m c' ts ret peerDesc main ∧
        (∀ (l : Linkage) (args : List Value), Typing args ts →
          (m.isStatic = true →
            l.method? s!"{peerName env.selfName}.{m.name}{peerDesc}" =
              some (.ofTypes ts ret.stack) →
            RunsTo main c'.draft.pool.get? l args
              (PassesOn .static s!"{peerName env.selfName}.{m.name}{peerDesc}" ret.stack args)) ∧
          (m.isStatic = false → ∀ receiver, receiver ≠ .null →
            l.field? s!"{env.selfName}.peer:L{peerName env.selfName};" = some .ref →
            l.method? s!"{peerName env.selfName}.{m.name}{peerDesc}" =
              some (.ofTypes (.obj :: ts) ret.stack) →
            RunsTo main c'.draft.pool.get? l (.ref receiver :: args)
              (AsksPeer s!"{env.selfName}.peer:L{peerName env.selfName};"
                s!"{peerName env.selfName}.{m.name}{peerDesc}" ret.stack receiver args)))) ∧
    ∀ (pod : Pod) (mixin : Pod.TypeDef), lowerRouter pod mixin m env c = .ok () c' →
      ∃ self ret ms, typeRefAt pod.symbols mixin.self = .ok self ∧
        typeRefAt pod.symbols m.inheritedRet = .ok ret ∧ c.Declares env ms c' ∧
        ∀ w ∈ ms, ∃ n ts bodyDesc, HasRouter pod self.jname m n ts bodyDesc w ∧
          ((∀ t ∈ ts, t ≠ .void) → ∀ (l : Linkage) (args : List Value) receiver, Typing args ts →
            l.method? s!"{self.jname}$.{m.name}{bodyDesc}" =
              some (.ofTypes (.obj :: ts) ret.stack) →
            RunsTo w c'.draft.pool.get? l (.ref receiver :: args)
              (PassesOn .static s!"{self.jname}$.{m.name}{bodyDesc}" ret.stack
                (.ref receiver :: args))) := by
  refine ⟨?_, ?_, ?_⟩
  · intro h
    obtain ⟨ts, body, factory, hfactory, hitems⟩ := factory_of_lowerCtor hc h
    refine ⟨ts, body, factory, hfactory, ?_⟩
    intro l args hargs hinit hbody
    rw [hfactory.bodyName] at hbody ⊢
    exact runsTo_factory (ctorBodyTarget env.selfName m body.desc)
      (length_le_of_paramStacks hfactory.types le_rfl) hargs hinit hbody hitems
  · intro h
    obtain ⟨ts, ret, peerDesc, main, f, hnative, -, hitems⟩ := native_of_lowerNative hc h
    refine ⟨ts, ret, peerDesc, main, hnative, ?_⟩
    intro l args hargs
    have hlength := length_le_of_paramStacks hnative.types le_rfl
    refine ⟨fun hstatic htarget => ?_, fun hobject receiver hreceiver hfield htarget => ?_⟩
    · rw [hstatic] at hitems
      exact runsTo_static hlength hargs hstatic htarget hitems
    · rw [hobject] at hitems
      exact runsTo_peer hlength hargs hobject hreceiver hfield htarget hitems
  · intro pod mixin h
    obtain ⟨self, ret, ms, hself, hret, hms, hall⟩ := routers_of_lowerRouter hc h
    refine ⟨self, ret, ms, hself, hret, hms, ?_⟩
    intro w hw
    obtain ⟨n, ts, bodyDesc, hrouter, hitems⟩ := hall w hw
    refine ⟨n, ts, bodyDesc, hrouter, ?_⟩
    intro hvoid l args receiver hargs hbody
    have hlength := length_le_of_paramStacks (m := m) hrouter.types (List.length_take_le' _ _)
    exact runsTo_router hlength hargs hvoid hbody hitems

end Methods

section Signatures

open ClassFile.Descriptor (arguments? field? isClassName method? returned? result?)

-- The members that a class names, each with the types that its descriptor has: those of a method
-- are behind the first bracket, that of a field is behind the colon.
def byDescriptor : Linkage where
  method? sig :=
    let desc := String.ofList (sig.toList.dropWhile (· ≠ '('))
    (arguments? desc).bind fun ts => (returned? desc).map fun t => .ofTypes ts t
  field? sig :=
    (field? ((sig.toList.dropWhile (· ≠ ':')).drop 1)).map fun found => .ofStack found.1
  unboxes := by decide +kernel

end Signatures

-- A method with an integer and a float: as a constructor, as a native method, and in a mixin.
def pairMethod : MethodDef where
  name := "pair"
  flags := Pod.Flag.public_
  ret := 0
  inheritedRet := 0
  maxStack := 0
  paramCount := 2
  localCount := 0
  vars := #[⟨"a", 0, Pod.Flag.param, {}⟩, ⟨"b", 2, Pod.Flag.param, {}⟩]
  code := #[42]
  attrs := {}

def pairEnv : ClassEnv :=
  { bareEnv with
    pod :=
      { bareEnv.pod with
        symbols := { typeRefs := #[⟨"sys", "Int", ""⟩, walksRef, ⟨"sys", "Float", ""⟩] } }
    config := { lineNumbers := false, sourceFiles := false } }

-- The class has room for what the method becomes.
theorem exists_lowerCtor_pair : ∃ c', lowerCtor pairMethod pairEnv bareClass = .ok () c' := by
  have hbodyDesc : methodDesc pairEnv.pod.symbols pairMethod (some pairEnv.selfName)
      pairMethod.params .void = .ok "(Lfan/p/T;JD)V" := by decide +kernel
  have hdesc : methodDesc pairEnv.pod.symbols pairMethod none pairMethod.params
      (.object pairEnv.selfName) = .ok "(JD)Lfan/p/T;" := by decide +kernel
  obtain ⟨f, hf, hlocals⟩ : ∃ f, Frame.forMethod pairEnv.pod.symbols "fan/p/T" pairMethod
      .bound = .ok f ∧ (f.withRet .void).maxLocals ≤ 0xFFFF := ⟨_, rfl, by decide +kernel⟩
  obtain ⟨g, hg, hparams⟩ : ∃ g, Frame.forMethod pairEnv.pod.symbols "fan/p/T" pairMethod
      .unbound = .ok g ∧ g.params 2 = [⟨0, .long⟩, ⟨2, .double⟩] := ⟨_, rfl, by decide +kernel⟩
  have hinit : ∃ member, ClassFile.Member.ofMethod "fan/p/T.<init>()V" = .ok member :=
    ⟨⟨"fan/p/T", "<init>", "()V"⟩, by decide +kernel⟩
  have hbody : ∃ member, ClassFile.Member.ofMethod "fan/p/T.pair$(Lfan/p/T;JD)V" = .ok member :=
    ⟨⟨"fan/p/T", "pair$", "(Lfan/p/T;JD)V"⟩, by decide +kernel⟩
  have hlength : pairMethod.params.length = 2 := rfl
  have hfits := fits_lowerCtor_return rfl rfl rfl rfl hbodyDesc hdesc hf hlocals hg
    (by rw [hlength, hparams]; decide) hinit hbody
  rw [hlength, hparams] at hfits
  obtain ⟨u, c', h, -⟩ := hfits bareClass ⟨rfl, rfl, rfl⟩ (by decide)
  exact ⟨c', h⟩

theorem exists_lowerNative_pair : ∃ c', lowerNative pairMethod pairEnv bareClass = .ok () c' := by
  have hdesc : methodDesc pairEnv.pod.symbols pairMethod none pairMethod.params .inherited =
      .ok "(JD)J" := by decide +kernel
  have hpeerDesc : methodDesc pairEnv.pod.symbols pairMethod (some pairEnv.selfName)
      pairMethod.params .inherited = .ok "(Lfan/p/T;JD)J" := by decide +kernel
  obtain ⟨f, hf, hparams⟩ : ∃ f, Frame.forMethod pairEnv.pod.symbols "fan/p/T" pairMethod
      .bound = .ok f ∧ f.params 2 = [⟨1, .long⟩, ⟨3, .double⟩] := ⟨_, rfl, by decide +kernel⟩
  have hpeer : ∃ member, ClassFile.Member.ofField "fan/p/T.peer:Lfan/p/TPeer;" = .ok member :=
    ⟨⟨"fan/p/T", "peer", "Lfan/p/TPeer;"⟩, by decide +kernel⟩
  have htarget : ∃ member,
      ClassFile.Member.ofMethod "fan/p/TPeer.pair(Lfan/p/T;JD)J" = .ok member :=
    ⟨⟨"fan/p/TPeer", "pair", "(Lfan/p/T;JD)J"⟩, by decide +kernel⟩
  have hfits : ClassM.Fits pairEnv "fan/p/T" 88 (lowerNative pairMethod) fun _ => True := by
    refine ClassM.fits_look_bind (a := pairEnv) (fun c _ => rfl) ?_
    refine ClassM.fits_look_bind (fun c _ => ClassM.desc_run hdesc c) ?_
    refine ClassM.fits_look_bind (a := .long) (fun c _ => rfl) ?_
    refine ClassM.fits_look_bind (fun c hc => ClassM.frame_run hf hc) ?_
    refine ClassM.fits_look_bind (a := "(Lfan/p/T;JD)J")
      (fun c _ => ClassM.desc_run hpeerDesc c) ?_
    have hlength : pairMethod.params.length = 2 := rfl
    rw [hlength, hparams]
    refine fits_code (k := 4) ?_ (by decide) (by decide) fun out hout => ?_
    · have hobject : ¬pairMethod.isStatic := by decide
      simp only [nativeItems, if_neg hobject, loadLocals, List.cons_append, List.nil_append,
        List.map_cons, List.map_nil, List.forall_mem_cons]
      exact ⟨trivial, hpeer, trivial, trivial, trivial, htarget, trivial, by simp⟩
    · exact ClassM.fits_bind (n := 4) (k := 0) (fits_addCode _ _ _ (by omega)) fun _ _ =>
        fits_lowerWrappers_none rfl _ _ _
  obtain ⟨u, c', h, -⟩ := hfits bareClass ⟨rfl, rfl, rfl⟩ (by decide)
  exact ⟨c', h⟩

theorem exists_lowerRouter_pair :
    ∃ c', lowerRouter pairEnv.pod walksType pairMethod pairEnv bareClass = .ok () c' := by
  have hdesc : methodDesc pairEnv.pod.symbols pairMethod none (pairMethod.params.take 2)
      .inherited = .ok "(JD)J" := by decide +kernel
  have hbody : methodDesc pairEnv.pod.symbols pairMethod (some walksRef.jname)
      (pairMethod.params.take 2) .inherited = .ok "(Lfan/p/Walks;JD)J" := by decide +kernel
  have hfits : ClassM.Fits pairEnv "fan/p/T" 64 (lowerRouter pairEnv.pod walksType pairMethod)
      fun _ => True := by
    refine ClassM.fits_look_bind (a := walksRef) (fun c _ => rfl) ?_
    refine ClassM.fits_look_bind (a := ⟨"sys", "Int", ""⟩) (fun c _ => rfl) ?_
    refine ClassM.fits_bind (n := 64) (k := 0) (P := fun _ => True) ?_ fun _ _ =>
      ClassM.fits_pure trivial
    refine fits_lowerRouterFor [.long, .double] hdesc hbody (by decide +kernel) (by decide) ?_
    exact ⟨⟨"fan/p/Walks$", "pair", "(Lfan/p/Walks;JD)J"⟩, by decide +kernel⟩
  obtain ⟨u, c', h, -⟩ := hfits bareClass ⟨rfl, rfl, rfl⟩ (by decide)
  exact ⟨c', h⟩

-- What it becomes takes an integer and a float.
theorem paramStacks_pair {ts : List StackType}
    (h : paramStacks pairEnv.pod.symbols pairMethod.params ts) : ts = [.long, .double] := by
  obtain ⟨rs, hrs, rfl⟩ := h
  have hread : paramTypes pairEnv.pod.symbols pairMethod.params =
      .ok [⟨"sys", "Int", ""⟩, ⟨"sys", "Float", ""⟩] := rfl
  rw [hread] at hrs
  cases hrs
  rfl

theorem HasFactory.of_pair {c' : OpenClass} {ts : List StackType} {body factory : MethodInfo}
    (h : HasFactory pairEnv bareClass pairMethod c' ts body factory) :
    ts = [.long, .double] ∧ body.name = "pair$" ∧ body.desc = "(Lfan/p/T;JD)V" := by
  refine ⟨paramStacks_pair h.types, h.bodyName, Except.ok.inj (h.bodyDesc.symm.trans ?_)⟩
  decide +kernel

theorem HasNative.of_pair {c' : OpenClass} {ts : List StackType} {ret : TypeRef}
    {peerDesc : String} {main : MethodInfo}
    (h : HasNative pairEnv bareClass pairMethod c' ts ret peerDesc main) :
    ts = [.long, .double] ∧ ret = ⟨"sys", "Int", ""⟩ ∧ peerDesc = "(Lfan/p/T;JD)J" := by
  refine ⟨paramStacks_pair h.types, Except.ok.inj (h.returns.symm.trans rfl),
    Except.ok.inj (h.peerDesc.symm.trans ?_)⟩
  decide +kernel

-- There is a router, and it is for both parameters.
theorem exists_router_pair {c' : OpenClass} {ms : List MethodInfo}
    (h : lowerRouter pairEnv.pod walksType pairMethod pairEnv bareClass = .ok () c')
    (hms : bareClass.Declares pairEnv ms c') :
    ∃ router ∈ ms, ∀ n ts bodyDesc,
      HasRouter pairEnv.pod walksRef.jname pairMethod n ts bodyDesc router →
        ts = [.long, .double] ∧ bodyDesc = "(Lfan/p/Walks;JD)J" := by
  obtain ⟨mixin, routers, hrouters, hroutes⟩ :=
    lowerRouter_routes (l := ⟨pairEnv.pod, walksType⟩) (wellFormed_bare _) h
  obtain ⟨router, hrouter, -, hdesc⟩ := hroutes.covered 2 (by decide)
  rw [hms.draft.methods] at hrouter
  refine ⟨router, hrouter, fun n ts bodyDesc hhas => ?_⟩
  -- The descriptor tells how many parameters it has.
  obtain rfl : n = 2 := by
    have hsame := hhas.desc.trans hdesc.symm
    have hle : n ≤ 2 := hhas.le
    interval_cases n
    · exact absurd (Except.ok.inj hsame) (by decide)
    · exact absurd (Except.ok.inj hsame) (by decide)
    · rfl
  refine ⟨paramStacks_pair hhas.types, Except.ok.inj (hhas.bodyDesc.symm.trans ?_)⟩
  decide +kernel

-- An integer and a float are handed on in their order, whatever they are.
theorem forwarders_forward_pair :
    (∃ c' body factory, lowerCtor pairMethod pairEnv bareClass = .ok () c' ∧
      HasFactory pairEnv bareClass pairMethod c' [.long, .double] body factory ∧ ∀ i x,
        RunsTo factory c'.draft.pool.get? byDescriptor [.long i, .double x]
          (MakesObject "fan/p/T" "fan/p/T.pair$(Lfan/p/T;JD)V" [.long i, .double x])) ∧
    (∃ c' ret main, lowerNative pairMethod pairEnv bareClass = .ok () c' ∧
      HasNative pairEnv bareClass pairMethod c' [.long, .double] ret "(Lfan/p/T;JD)J" main ∧
      ∀ receiver i x, receiver ≠ .null →
        RunsTo main c'.draft.pool.get? byDescriptor [.ref receiver, .long i, .double x]
          (AsksPeer "fan/p/T.peer:Lfan/p/TPeer;" "fan/p/TPeer.pair(Lfan/p/T;JD)J" .long receiver
            [.long i, .double x])) ∧
    ∃ c' router, lowerRouter pairEnv.pod walksType pairMethod pairEnv bareClass = .ok () c' ∧
      router ∈ c'.draft.methods.toList ∧ ∀ receiver i x,
        RunsTo router c'.draft.pool.get? byDescriptor [.ref receiver, .long i, .double x]
          (PassesOn .static "fan/p/Walks$.pair(Lfan/p/Walks;JD)J" .long
            [.ref receiver, .long i, .double x]) := by
  have hvoid : ∀ t ∈ [StackType.long, .double], t ≠ .void := by decide
  have hargs (i : Int64) (x : UInt64) : Typing [.long i, .double x] [.long, .double] := rfl
  refine ⟨?_, ?_, ?_⟩
  · obtain ⟨c', h⟩ := exists_lowerCtor_pair
    obtain ⟨ts, body, factory, hfactory, hruns⟩ := (forwarders_forward (wellFormed_bare _)).1 h
    obtain ⟨rfl, hname, hdesc⟩ := hfactory.of_pair
    refine ⟨c', body, factory, h, hfactory, fun i x => ?_⟩
    rw [hname, hdesc] at hruns
    exact hruns byDescriptor _ (hargs i x) (by decide +kernel) (by decide +kernel)
  · obtain ⟨c', h⟩ := exists_lowerNative_pair
    obtain ⟨ts, ret, peerDesc, main, hnative, hruns⟩ :=
      (forwarders_forward (wellFormed_bare _)).2.1 h
    obtain ⟨rfl, rfl, rfl⟩ := hnative.of_pair
    refine ⟨c', _, main, h, hnative, fun receiver i x hreceiver => ?_⟩
    exact (hruns byDescriptor _ (hargs i x)).2 rfl receiver hreceiver (by decide +kernel)
      (by decide +kernel)
  · obtain ⟨c', h⟩ := exists_lowerRouter_pair
    obtain ⟨self, ret, ms, hself, hret, hms, hruns⟩ :=
      (forwarders_forward (wellFormed_bare _)).2.2 _ _ h
    obtain rfl : self = walksRef := Except.ok.inj (hself.symm.trans rfl)
    obtain rfl : ret = ⟨"sys", "Int", ""⟩ := Except.ok.inj (hret.symm.trans rfl)
    obtain ⟨router, hrouter, hpair⟩ := exists_router_pair h hms
    obtain ⟨n, ts, bodyDesc, hhas, hruns⟩ := hruns router hrouter
    obtain ⟨rfl, rfl⟩ := hpair n ts bodyDesc hhas
    have hjname : walksRef.jname = "fan/p/Walks" := by decide +kernel
    rw [hjname] at hruns
    refine ⟨c', router, h, ?_, fun receiver i x => ?_⟩
    · rw [hms.draft.methods]
      exact List.mem_append_right _ hrouter
    · exact hruns hvoid byDescriptor _ receiver (hargs i x) (by decide +kernel)

end Lowering

end PodCompiler
