import PodCompiler.Proofs.Lowering.Forwarders
import PodCompiler.Proofs.Pod.BodyRequests

namespace PodCompiler

namespace Lowering

open ClassFile (Constants MethodInfo)
open ClassFile.Op
open Jvm (CallMode Event Kind Linkage Locals Machine Value depth fetch)
open Pod (MethodDef)

-- A method whose code stays within the stack and the locals that it declares.
def StaysWithin (w : MethodInfo) (k : Constants) (l : Linkage) (args : List Value) : Prop :=
  ∃ code, w.code = some code ∧ ∀ m : Machine, m.code = code.code → m.constants.Extends k →
    m.Always l ⟨0, [], .ofArgs args code.maxLocals.toNat⟩
      (m.Within code.maxStack.toNat code.maxLocals.toNat)

section Code

variable {m : Machine} {l : Linkage} {ts : List StackType} {args : List Value} {size : Nat}
  {result : StackType} {target field : String} {receiver : Jvm.Ref} {maxStack maxLocals : Nat}

theorem slots_le_two (t : StackType) : t.slots ≤ 2 := by
  cases t <;> decide

theorem totalSlots_le (ts : List StackType) : StackType.totalSlots ts ≤ 2 * ts.length := by
  induction ts with
  | nil => exact Nat.le_refl _
  | cons t rest ih =>
    have ht := slots_le_two t
    rw [StackType.totalSlots, List.length_cons]
    omega

theorem totalWidth_le (ts : List StackType) : StackType.totalWidth ts ≤ 2 * ts.length := by
  induction ts with
  | nil => exact Nat.le_refl _
  | cons t rest ih =>
    have ht : t.width ≤ 2 := by cases t <;> decide
    rw [StackType.totalWidth, List.length_cons]
    omega

-- What a call gives takes the slots of its type.
theorem depth_given {given : Option Value} (h : given.map Value.kind = Kind.returned result) :
    depth given.toList = result.slots := by
  cases given with
  | none => cases result <;> first | rfl | cases h
  | some v =>
    have hslots := Jvm.Value.length_slots (v := v) (t := result)
    cases result <;>
      first
      | cases h
      | (rw [Option.toList_some, Jvm.depth_cons, hslots (Option.some.inj h)]; rfl)

theorem exists_given (result : StackType) :
    ∃ given : Option Value, given.map Value.kind = Kind.returned result := by
  cases result with
  | void => exact ⟨none, rfl⟩
  | long => exact ⟨some (.long 0), rfl⟩
  | double => exact ⟨some (.double 0), rfl⟩
  | float => exact ⟨some (.float 0), rfl⟩
  | obj => exact ⟨some (.ref .null), rfl⟩
  | _ => exact ⟨some (.int 0), rfl⟩

-- At its deepest a factory has two references and the arguments on the stack.
theorem BeginsFactory.always {cls body : String}
    (h : BeginsFactory m l cls body ts (.ofArgs args size)) (hargs : Typing args ts)
    (hvoid : ∀ t ∈ ts, t ≠ .void) (hlength : ts.length ≤ 255)
    (hbody : l.method? body = some (.ofTypes (.obj :: ts) .void)) :
    m.Always l ⟨0, [], .ofArgs args size⟩
      (m.Within (StackType.totalSlots ts + 3) (StackType.totalSlots ts)) := by
  have hdepth := hargs.depth_eq hvoid
  have hgives : Gives (.ofArgs args size) (locate 0 ts) args :=
    hargs.gives_behind [] hlength (Nat.zero_le 1)
  have hlink (id : Nat) : l.method? body =
      some ⟨(Value.ref (.object id) :: args).map Value.kind, none⟩ := by
    rw [Typing.cons (t := .obj) rfl hargs]
    exact hbody
  have hpushed (id : Nat) :
      [Value.ref (.object id)] ++ args = [] ++ .ref (.object id) :: args := rfl
  have hcall (id : Nat) : m.Always l
      ⟨8, [.ref (.object id), .ref (.object id)], .ofArgs args size⟩
      (m.Within (StackType.totalSlots ts + 3) (StackType.totalSlots ts)) := by
    refine h.rest.always_call hgives (hpushed id) (hlink id) rfl (.inl .static)
      (fun given pos n hgiven => exec_areturn hgiven id pos n _) ?_ ?_ fun var hvar => ?_
    · simp [hdepth]
    · intro given hgiven
      obtain rfl := Option.map_eq_none_iff.mp hgiven
      exact Nat.le_add_left 1 _
    · have hle := slot_le_of_mem_locate hvoid hvar
      rwa [Nat.zero_add] at hle
  have hfew (n : Nat) (hn : n ≤ 3) : n ≤ StackType.totalSlots ts + 3 := by omega
  rw [Machine.always_of_asks h.new h.made]
  refine ⟨(h.plain 0 (by simp)).within (Nat.zero_le _), fun id _ => ?_⟩
  rw [Machine.always_of_step (h.dup id), Machine.always_of_asks (h.init id) (h.initialised id)]
  refine ⟨(h.plain 3 (by simp)).within (hfew 1 (by decide)),
    (h.plain 4 (by simp)).within (hfew 2 (by decide)), ?_⟩
  rintro nothing ⟨-, hnothing⟩
  obtain rfl := Option.map_eq_none_iff.mp hnothing
  rw [Option.toList_none, List.nil_append, Machine.always_of_step (h.again id)]
  exact ⟨(h.plain 7 (by simp)).within (hfew 1 (by decide)), hcall id⟩

-- A call with the arguments of a method, and nothing below them.
theorem always_passed (before : List Value) {pos : Nat} {locals : Locals}
    (h : Reads m pos (loadLocals (locate (depth before) ts) ++
      [Item.const CallMode.static.op (Ref.method target), Item.op (returnOp result)]))
    (hgives : Gives locals (locate (depth before) ts) args)
    (hlink : l.method? target = some ⟨(before ++ args).map Value.kind, Kind.returned result⟩)
    (hstack : depth args + depth before ≤ maxStack) (hresult : result.slots ≤ maxStack)
    (hslots : ∀ var ∈ locate (depth before) ts,
      var.slot + (if var.stack.isWide then 2 else 1) ≤ maxLocals) :
    m.Always l ⟨pos, before.reverse, locals⟩ (m.Within maxStack maxLocals) := by
  have hcall : m.Always l ⟨pos, before.reverse ++ [], locals⟩ (m.Within maxStack maxLocals) := by
    refine h.always_call hgives (List.nil_append _).symm hlink rfl (.inl .static)
      (fun given pos n hgiven => exec_return hgiven pos n _) ?_ ?_ hslots
    · rwa [List.append_nil]
    · intro given hgiven
      rwa [List.append_nil, depth_given hgiven]
  rwa [List.append_nil] at hcall

-- At its deepest a native method of an object has the peer, the object and the arguments on the
-- stack.
theorem BeginsPeer.always
    (h : BeginsPeer m l field target ts result receiver (.ofArgs (.ref receiver :: args) size))
    (hargs : Typing args ts) (hvoid : ∀ t ∈ ts, t ≠ .void) (hlength : ts.length ≤ 255)
    (htarget : l.method? target = some (.ofTypes (.obj :: ts) result)) (hself : 1 ≤ maxLocals)
    (hslots : ∀ var ∈ locate 1 ts, var.slot + (if var.stack.isWide then 2 else 1) ≤ maxLocals) :
    m.Always l ⟨0, [], .ofArgs (.ref receiver :: args) size⟩
      (m.Within (StackType.totalSlots ts + 2) maxLocals) := by
  have hdepth := hargs.depth_eq hvoid
  have hgives : Gives (.ofArgs (.ref receiver :: args) size) (locate 1 ts) args :=
    hargs.gives_behind [.ref receiver] hlength le_rfl
  have hlink : l.method? target =
      some ⟨(Value.ref receiver :: args).map Value.kind, Kind.returned result⟩ := by
    rw [Typing.cons (t := .obj) rfl hargs]
    exact htarget
  have hpushed (peer : Value) :
      [peer, .ref receiver] ++ args = [peer] ++ .ref receiver :: args := rfl
  have hfew (n : Nat) (hn : n ≤ 2) : n ≤ StackType.totalSlots ts + 2 := by omega
  have hcall (peer : Value) (hpeer : peer.kind = .ref) : m.Always l
      ⟨5, [.ref receiver, peer], .ofArgs (.ref receiver :: args) size⟩
      (m.Within (StackType.totalSlots ts + 2) maxLocals) := by
    refine h.rest.always_call hgives (hpushed peer) hlink rfl (.inr (List.cons_ne_nil _ _))
      (fun given pos n hgiven => exec_return hgiven pos n _) ?_ ?_ hslots
    · have hone : peer.slots.length = 1 := Jvm.Value.length_slots (t := .obj) hpeer
      simp [hdepth, hone]
    · intro given hgiven
      rw [List.append_nil, depth_given hgiven]
      exact hfew _ (slots_le_two result)
  rw [Machine.always_of_step h.object, Machine.always_of_asks h.get h.got]
  refine ⟨Machine.within_of_load h.first (Nat.zero_le _) hself,
    h.plain.within (hfew 1 (by decide)), ?_⟩
  rintro peer hpeer
  rw [Machine.always_of_step (h.again peer)]
  refine ⟨Machine.within_of_load h.second ?_ hself, hcall peer hpeer⟩
  have hone : peer.slots.length = 1 := Jvm.Value.length_slots (t := .obj) hpeer
  simp [hone]

-- A router needs room for the object and the arguments, and then for the result.
theorem always_router {mixin name bodyDesc : String}
    (h : Reads m 0 (routerItems mixin name bodyDesc ts result)) (hargs : Typing args ts)
    (hvoid : ∀ t ∈ ts, t ≠ .void) (hlength : ts.length ≤ 255)
    (hbody : l.method? s!"{mixin}$.{name}{bodyDesc}" = some (.ofTypes (.obj :: ts) result)) :
    m.Always l ⟨0, [], .ofArgs (.ref receiver :: args) size⟩
        (m.Within (1 + StackType.totalSlots ts) (1 + StackType.totalSlots ts)) ↔
      result.slots ≤ 1 + StackType.totalSlots ts := by
  have hdepth := hargs.depth_eq hvoid
  have hgives : Gives (.ofArgs (.ref receiver :: args) size) (locate 1 ts) args :=
    hargs.gives_behind [.ref receiver] hlength le_rfl
  have hlink : l.method? s!"{mixin}$.{name}{bodyDesc}" =
      some ⟨([Value.ref receiver] ++ args).map Value.kind, Kind.returned result⟩ := by
    rw [List.singleton_append, Typing.cons (t := .obj) rfl hargs]
    exact hbody
  rw [routerItems, routerLocals_eq_locate hvoid] at h
  rw [Machine.always_of_step (step_aload0 receiver h)]
  constructor
  · rintro ⟨-, halways⟩
    obtain ⟨given, hgiven⟩ := exists_given result
    obtain ⟨es, pos, hcomes⟩ : ∃ es pos, m.Comes l
        ⟨1, [Value.ref receiver].reverse ++ [], .ofArgs (.ref receiver :: args) size⟩ es
        ⟨pos, given.toList ++ [], .ofArgs (.ref receiver :: args) size⟩ :=
      h.2.comes_call hgives (List.nil_append _).symm hlink .static hgiven
    have hstack := (halways _ _ hcomes).stack
    rwa [List.append_nil, depth_given hgiven] at hstack
  · intro hresult
    refine ⟨Machine.within_of_load (h.fetch_op (i := .load .ref 0) rfl) (Nat.zero_le _)
      (Nat.le_add_right 1 _), ?_⟩
    refine always_passed [.ref receiver] h.2 hgives hlink ?_ hresult fun var hvar => ?_
    · simp [hdepth, Nat.add_comm]
    · exact slot_le_of_mem_locate hvoid hvar

end Code

section Frames

variable {s : Pod.Symbols} {owner : String} {m : MethodDef} {mode : SelfMode} {f : Frame}

-- A frame has the slot of the object, and two for each variable at most.
theorem Frame.maxLocals_bounds (h : forMethod s owner m mode = .ok f) :
    (if !m.isStatic && mode = .bound then 1 else 0) ≤ f.maxLocals ∧
      f.maxLocals ≤ 1 + 2 * m.vars.size := by
  obtain ⟨kinds, hkinds, h⟩ := except_bind_eq_ok.mp h
  obtain ⟨ret, -, h⟩ := except_bind_eq_ok.mp h
  cases h
  have hlength := (except_mapM_eq_ok.mp hkinds).length_eq
  have hwidth := totalWidth_le kinds
  rw [Array.length_toList] at hlength
  dsimp only [layoutEnd]
  split <;> omega

-- A variable that is loaded lies in the frame.
theorem Frame.stop_le_of_mem_params {n : Nat} {var : Local} (h : forMethod s owner m mode = .ok f)
    (hvar : var ∈ f.params n) : var.stop ≤ f.maxLocals := by
  obtain ⟨o, ho, hsome⟩ := List.mem_filterMap.mp hvar
  obtain rfl : o = some var := hsome
  exact ((consecutive_forMethod h).bounds.2 var
    (List.mem_of_mem_drop (List.mem_of_mem_take ho))).2

end Frames

section Methods

variable {env : ClassEnv} {c c' : OpenClass} {m : MethodDef} {w : MethodInfo} {l : Linkage}
  {ts : List StackType} {args : List Value} {result : StackType} {receiver : Jvm.Ref}
  {maxStack maxLocals : Nat}

-- A written method stays within what it declares if its items do.
theorem HasItemsIn.staysWithin_iff {items : List (Item Ref)} {p : Prop}
    (h : HasItemsIn env maxStack maxLocals items c' w) (hitems : Item.Straight items)
    (hstack : maxStack < 2 ^ 16) (hlocals : maxLocals < 2 ^ 16)
    (halways : ∀ (m : Machine) size, Reads m 0 items →
      (m.Always l ⟨0, [], .ofArgs args size⟩ (m.Within maxStack maxLocals) ↔ p)) :
    StaysWithin w c'.draft.pool.get? l args ↔ p := by
  obtain ⟨out, hcode, hmaxStack, hmaxLocals, hreads⟩ := h.reads hitems
  have hmaxStack : out.maxStack.toNat = maxStack := by
    rw [hmaxStack, UInt16.toNat_ofNat', Nat.mod_eq_of_lt hstack]
  have hmaxLocals : out.maxLocals.toNat = maxLocals := by
    rw [hmaxLocals, UInt16.toNat_ofNat', Nat.mod_eq_of_lt hlocals]
  constructor
  · rintro ⟨code, hcode', hall⟩
    cases hcode.symm.trans hcode'
    let m : Machine := ⟨out.code, c'.draft.pool.get?, fun _ => none⟩
    have hconstants : m.constants.Extends c'.draft.pool.get? := fun _ _ hi => hi
    have hstays := hall m rfl hconstants
    rw [hmaxStack, hmaxLocals] at hstays
    exact (halways m _ (hreads m rfl hconstants)).mp hstays
  · intro hp
    refine ⟨out, hcode, fun m hm hconstants => ?_⟩
    rw [hmaxStack, hmaxLocals]
    exact (halways m _ (hreads m hm hconstants)).mpr hp

theorem staysWithin_factory (body : Target) (hlength : ts.length ≤ 255) (hargs : Typing args ts)
    (hvoid : ∀ t ∈ ts, t ≠ .void)
    (hinit : l.method? s!"{env.selfName}.<init>()V" = some (.ofTypes [] .void))
    (hbody : l.method? s!"{env.selfName}.{body.name}{body.desc}" =
      some (.ofTypes (.obj :: ts) .void))
    (h : HasItemsIn env (StackType.totalSlots ts + 3) (StackType.totalSlots ts)
      (factoryItems env.selfName body (locate 0 ts)) c' w) :
    StaysWithin w c'.draft.pool.get? l args := by
  have hslots := totalSlots_le ts
  refine (h.staysWithin_iff (straight_factoryItems _ _ _) (by omega) (by omega)
    fun m size hreads => iff_true_intro ?_).mpr trivial
  exact (beginsFactory _ hreads hinit).always hargs hvoid hlength hbody

theorem staysWithin_static {peerDesc : String} (hlength : ts.length ≤ 255) (hargs : Typing args ts)
    (hvoid : ∀ t ∈ ts, t ≠ .void) (hstatic : m.isStatic = true) (hlocals : maxLocals < 2 ^ 16)
    (hslots : ∀ var ∈ locate 0 ts, var.stop ≤ maxLocals)
    (htarget : l.method? s!"{peerName env.selfName}.{m.name}{peerDesc}" = some (.ofTypes ts result))
    (h : HasItemsIn env (StackType.totalSlots ts + 2) maxLocals
      (nativeItems env.selfName m peerDesc (locate 0 ts) result) c' w) :
    StaysWithin w c'.draft.pool.get? l args := by
  have htotal := totalSlots_le ts
  have hresult := slots_le_two result
  refine (h.staysWithin_iff (straight_nativeItems _ _ _ _) (by omega) hlocals
    fun m' size hreads => iff_true_intro ?_).mpr trivial
  rw [nativeItems, hstatic, if_pos rfl, List.append_assoc] at hreads
  refine always_passed [] hreads (hargs.gives_behind [] hlength (Nat.zero_le 1)) ?_ ?_ ?_ ?_
  · rw [List.nil_append, hargs]
    exact htarget
  · rw [hargs.depth_eq hvoid]
    exact Nat.le_add_right _ 2
  · omega
  · intro var hvar
    rw [← width_eq]
    exact hslots var hvar

theorem staysWithin_peer {peerDesc : String} (hlength : ts.length ≤ 255) (hargs : Typing args ts)
    (hvoid : ∀ t ∈ ts, t ≠ .void) (hobject : m.isStatic = false) (hreceiver : receiver ≠ .null)
    (hlocals : maxLocals < 2 ^ 16) (hself : 1 ≤ maxLocals)
    (hslots : ∀ var ∈ locate 1 ts, var.stop ≤ maxLocals)
    (hfield : l.field? s!"{env.selfName}.peer:L{peerName env.selfName};" = some .ref)
    (htarget : l.method? s!"{peerName env.selfName}.{m.name}{peerDesc}" =
      some (.ofTypes (.obj :: ts) result))
    (h : HasItemsIn env (StackType.totalSlots ts + 2) maxLocals
      (nativeItems env.selfName m peerDesc (locate 1 ts) result) c' w) :
    StaysWithin w c'.draft.pool.get? l (.ref receiver :: args) := by
  have htotal := totalSlots_le ts
  refine (h.staysWithin_iff (straight_nativeItems _ _ _ _) (by omega) hlocals
    fun m' size hreads => iff_true_intro ?_).mpr trivial
  rw [nativeItems, hobject, if_neg (by decide), List.append_assoc, List.append_assoc] at hreads
  refine (beginsPeer hreceiver hreads hfield).always hargs hvoid hlength htarget hself ?_
  intro var hvar
  rw [← width_eq]
  exact hslots var hvar

theorem staysWithin_router_iff {mixin name bodyDesc : String} (hlength : ts.length ≤ 255)
    (hargs : Typing args ts) (hvoid : ∀ t ∈ ts, t ≠ .void)
    (hbody : l.method? s!"{mixin}$.{name}{bodyDesc}" = some (.ofTypes (.obj :: ts) result))
    (h : HasItemsIn env (1 + StackType.totalSlots ts) (1 + StackType.totalSlots ts)
      (routerItems mixin name bodyDesc ts result) c' w) :
    StaysWithin w c'.draft.pool.get? l (.ref receiver :: args) ↔
      ¬(ts = [] ∧ result.isWide = true) := by
  have htotal := totalSlots_le ts
  rw [h.staysWithin_iff (straight_routerItems _ _ _ _ _) (by omega) (by omega)
    fun m size hreads => always_router hreads hargs hvoid hlength hbody]
  cases ts with
  | nil => cases result <;> decide
  | cons t rest =>
    have ht : 0 < t.slots := by
      have hne := hvoid t List.mem_cons_self
      cases t <;> first | decide | exact absurd rfl hne
    have hresult := slots_le_two result
    rw [StackType.totalSlots]
    simp only [List.cons_ne_nil, false_and, not_false_eq_true, iff_true]
    omega

-- Forwarders stay within the stack and the locals that they declare, but for a router that has
-- nothing but its object to hand on, and a wide result.
theorem forwarders_stay_within_iff (hc : c.WellFormed env) :
    (lowerCtor m env c = .ok () c' →
      ∃ ts body factory, HasFactory env c m c' ts body factory ∧
        ((∀ t ∈ ts, t ≠ .void) → ∀ (l : Linkage) (args : List Value), Typing args ts →
          l.method? s!"{env.selfName}.<init>()V" = some (.ofTypes [] .void) →
          l.method? s!"{env.selfName}.{body.name}{body.desc}" =
            some (.ofTypes (.obj :: ts) .void) →
          StaysWithin factory c'.draft.pool.get? l args)) ∧
    (lowerNative m env c = .ok () c' → m.vars.size = m.paramCount.toNat + m.localCount.toNat →
      ∃ ts ret peerDesc main, HasNative env c m c' ts ret peerDesc main ∧
        ((∀ t ∈ ts, t ≠ .void) → ∀ (l : Linkage) (args : List Value), Typing args ts →
          (m.isStatic = true →
            l.method? s!"{peerName env.selfName}.{m.name}{peerDesc}" =
              some (.ofTypes ts ret.stack) →
            StaysWithin main c'.draft.pool.get? l args) ∧
          (m.isStatic = false → ∀ receiver, receiver ≠ .null →
            l.field? s!"{env.selfName}.peer:L{peerName env.selfName};" = some .ref →
            l.method? s!"{peerName env.selfName}.{m.name}{peerDesc}" =
              some (.ofTypes (.obj :: ts) ret.stack) →
            StaysWithin main c'.draft.pool.get? l (.ref receiver :: args)))) ∧
    ∀ (pod : Pod) (mixin : Pod.TypeDef), lowerRouter pod mixin m env c = .ok () c' →
      ∃ self ret ms, typeRefAt pod.symbols mixin.self = .ok self ∧
        typeRefAt pod.symbols m.inheritedRet = .ok ret ∧ c.Declares env ms c' ∧
        ∀ w ∈ ms, ∃ n ts bodyDesc, HasRouter pod self.jname m n ts bodyDesc w ∧
          ((∀ t ∈ ts, t ≠ .void) → ∀ (l : Linkage) (args : List Value) receiver, Typing args ts →
            l.method? s!"{self.jname}$.{m.name}{bodyDesc}" =
              some (.ofTypes (.obj :: ts) ret.stack) →
            (StaysWithin w c'.draft.pool.get? l (.ref receiver :: args) ↔
              ¬(ts = [] ∧ ret.stack.isWide = true))) := by
  refine ⟨?_, ?_, ?_⟩
  · intro h
    obtain ⟨ts, body, factory, hfactory, hitems⟩ := factory_of_lowerCtor hc h
    refine ⟨ts, body, factory, hfactory, ?_⟩
    intro hvoid l args hargs hinit hbody
    rw [hfactory.bodyName] at hbody
    exact staysWithin_factory (ctorBodyTarget env.selfName m body.desc)
      (length_le_of_paramStacks hfactory.types le_rfl) hargs hvoid hinit hbody hitems
  · intro h hvars
    obtain ⟨ts, ret, peerDesc, main, f, hnative, hframe, hitems⟩ := native_of_lowerNative hc h
    refine ⟨ts, ret, peerDesc, main, hnative, ?_⟩
    intro hvoid l args hargs
    have hlength := length_le_of_paramStacks hnative.types le_rfl
    obtain ⟨hself, hlocals⟩ := Frame.maxLocals_bounds hframe
    have hparams := m.paramCount.toNat_lt
    have hmore := m.localCount.toNat_lt
    have hslots : ∀ var ∈ locate (if m.isStatic then 0 else 1) ts, var.stop ≤ f.maxLocals := by
      intro var hvar
      rw [← params_of_bound hframe hnative.types] at hvar
      exact Frame.stop_le_of_mem_params hframe hvar
    refine ⟨fun hstatic htarget => ?_, fun hobject receiver hreceiver hfield htarget => ?_⟩
    · rw [hstatic] at hitems hslots
      exact staysWithin_static hlength hargs hvoid hstatic (by omega) hslots htarget hitems
    · rw [hobject] at hitems hslots hself
      exact staysWithin_peer hlength hargs hvoid hobject hreceiver (by omega) hself hslots hfield
        htarget hitems
  · intro pod mixin h
    obtain ⟨self, ret, ms, hself, hret, hms, hall⟩ := routers_of_lowerRouter hc h
    refine ⟨self, ret, ms, hself, hret, hms, ?_⟩
    intro w hw
    obtain ⟨n, ts, bodyDesc, hrouter, hitems⟩ := hall w hw
    refine ⟨n, ts, bodyDesc, hrouter, ?_⟩
    intro hvoid l args receiver hargs hbody
    have hlength := length_le_of_paramStacks (m := m) hrouter.types (List.length_take_le' _ _)
    exact staysWithin_router_iff hlength hargs hvoid hbody hitems

end Methods

-- With an integer and a float there is room for everything.
theorem forwarders_stay_within_iff_pair :
    (∃ c' body factory, lowerCtor pairMethod pairEnv bareClass = .ok () c' ∧
      HasFactory pairEnv bareClass pairMethod c' [.long, .double] body factory ∧ ∀ i x,
        StaysWithin factory c'.draft.pool.get? byDescriptor [.long i, .double x]) ∧
    (∃ c' ret main, lowerNative pairMethod pairEnv bareClass = .ok () c' ∧
      HasNative pairEnv bareClass pairMethod c' [.long, .double] ret "(Lfan/p/T;JD)J" main ∧
      ∀ receiver i x, receiver ≠ .null →
        StaysWithin main c'.draft.pool.get? byDescriptor
          [.ref receiver, .long i, .double x]) ∧
    ∃ c' router, lowerRouter pairEnv.pod walksType pairMethod pairEnv bareClass = .ok () c' ∧
      router ∈ c'.draft.methods.toList ∧ ∀ receiver i x,
        StaysWithin router c'.draft.pool.get? byDescriptor
          [.ref receiver, .long i, .double x] := by
  have hvoid : ∀ t ∈ [StackType.long, .double], t ≠ .void := by decide
  have hargs (i : Int64) (x : UInt64) : Typing [.long i, .double x] [.long, .double] := rfl
  refine ⟨?_, ?_, ?_⟩
  · obtain ⟨c', h⟩ := exists_lowerCtor_pair
    obtain ⟨ts, body, factory, hfactory, hstays⟩ :=
      (forwarders_stay_within_iff (wellFormed_bare _)).1 h
    obtain ⟨rfl, hname, hdesc⟩ := hfactory.of_pair
    refine ⟨c', body, factory, h, hfactory, fun i x => ?_⟩
    rw [hname, hdesc] at hstays
    exact hstays hvoid byDescriptor _ (hargs i x) (by cbv) (by cbv)
  · obtain ⟨c', h⟩ := exists_lowerNative_pair
    obtain ⟨ts, ret, peerDesc, main, hnative, hstays⟩ :=
      (forwarders_stay_within_iff (wellFormed_bare _)).2.1 h rfl
    obtain ⟨rfl, rfl, rfl⟩ := hnative.of_pair
    refine ⟨c', _, main, h, hnative, fun receiver i x hreceiver => ?_⟩
    exact (hstays hvoid byDescriptor _ (hargs i x)).2 rfl receiver hreceiver (by cbv) (by cbv)
  · obtain ⟨c', h⟩ := exists_lowerRouter_pair
    obtain ⟨self, ret, ms, hself, hret, hms, hstays⟩ :=
      (forwarders_stay_within_iff (wellFormed_bare _)).2.2 _ _ h
    obtain rfl : self = walksRef := Except.ok.inj (hself.symm.trans rfl)
    obtain rfl : ret = ⟨"sys", "Int", ""⟩ := Except.ok.inj (hret.symm.trans rfl)
    obtain ⟨router, hrouter, hpair⟩ := exists_router_pair h hms
    obtain ⟨n, ts, bodyDesc, hhas, hstays⟩ := hstays router hrouter
    obtain ⟨rfl, rfl⟩ := hpair n ts bodyDesc hhas
    have hjname : walksRef.jname = "fan/p/Walks" := by cbv
    rw [hjname] at hstays
    refine ⟨c', router, h, ?_, fun receiver i x => ?_⟩
    · rw [hms.draft.methods]
      exact List.mem_append_right _ hrouter
    · exact (hstays hvoid byDescriptor _ receiver (hargs i x) (by cbv)).mpr (by decide)

-- A method of a mixin without parameters that gives an integer.
def sizeMethod : MethodDef :=
  { pairMethod with name := "size", paramCount := 0, vars := #[] }

theorem exists_lowerRouter_size :
    ∃ c', lowerRouter pairEnv.pod walksType sizeMethod pairEnv bareClass = .ok () c' := by
  have hdesc : methodDesc pairEnv.pod.symbols sizeMethod none (sizeMethod.params.take 0)
      .inherited = .ok "()J" := by cbv
  have hbody : methodDesc pairEnv.pod.symbols sizeMethod (some walksRef.jname)
      (sizeMethod.params.take 0) .inherited = .ok "(Lfan/p/Walks;)J" := by cbv
  have hfits : ClassM.Fits pairEnv "fan/p/T" 40 (lowerRouter pairEnv.pod walksType sizeMethod)
      fun _ => True := by
    refine ClassM.fits_look_bind (a := walksRef) (fun c _ => rfl) ?_
    refine ClassM.fits_look_bind (a := ⟨"sys", "Int", ""⟩) (fun c _ => rfl) ?_
    refine ClassM.fits_bind (n := 40) (k := 0) (P := fun _ => True) ?_ fun _ _ =>
      ClassM.fits_pure trivial
    refine fits_lowerRouterFor [] hdesc hbody rfl (by decide) ?_
    exact ⟨⟨"fan/p/Walks$", "size", "(Lfan/p/Walks;)J"⟩, by cbv⟩
  obtain ⟨u, c', h, -⟩ := hfits bareClass ⟨rfl, rfl, rfl⟩ (by decide)
  exact ⟨c', h⟩

-- Its router has one slot of stack, and gets an integer, which takes two.
theorem router_overflows_size : ∃ c' router,
    lowerRouter pairEnv.pod walksType sizeMethod pairEnv bareClass = .ok () c' ∧
    router ∈ c'.draft.methods.toList ∧ ∀ receiver,
      ¬StaysWithin router c'.draft.pool.get? byDescriptor [.ref receiver] := by
  obtain ⟨c', h⟩ := exists_lowerRouter_size
  obtain ⟨mixin, routers, hrouters, hroutes⟩ :=
    lowerRouter_routes (l := ⟨pairEnv.pod, walksType⟩) (wellFormed_bare _) h
  obtain ⟨router, hrouter, -⟩ := hroutes.covered 0 (by decide)
  obtain ⟨self, ret, ms, hself, hret, hms, hall⟩ := routers_of_lowerRouter (wellFormed_bare _) h
  obtain rfl : self = walksRef := Except.ok.inj (hself.symm.trans rfl)
  obtain rfl : ret = ⟨"sys", "Int", ""⟩ := Except.ok.inj (hret.symm.trans rfl)
  refine ⟨c', router, h, hrouter, fun receiver hstays => ?_⟩
  rw [hms.draft.methods] at hrouter
  obtain ⟨n, ts, bodyDesc, hhas, hitems⟩ := hall router hrouter
  obtain rfl : n = 0 := Nat.le_zero.mp hhas.le
  obtain rfl : ts = [] := by
    obtain ⟨rs, hrs, rfl⟩ := hhas.types
    cases hrs
    rfl
  obtain rfl : bodyDesc = "(Lfan/p/Walks;)J" := by
    refine Except.ok.inj (hhas.bodyDesc.symm.trans ?_)
    cbv
  have hjname : walksRef.jname = "fan/p/Walks" := by cbv
  rw [hjname] at hitems
  have hargs : Typing [] [] := rfl
  exact (staysWithin_router_iff (Nat.zero_le _) hargs (List.forall_mem_nil _) (by cbv) hitems).mp hstays (by decide)

end Lowering

end PodCompiler
