import PodCompiler.Proofs.Lowering.CodeStream
import PodCompiler.Proofs.Lowering.CoreItems
import PodCompiler.Proofs.Lowering.PassedArguments

namespace PodCompiler

-- The instructions from a position to another push these variables, one after the other.
def Jvm.Loads (code : Bytes) (stop : Nat) : Nat → List Lowering.Local → Prop
  | pos, [] => pos = stop
  | pos, l :: rest => ∃ next, fetch code pos = some (.load (.ofStack l.stack) l.slot, next) ∧
      Loads code stop next rest

namespace Lowering

open ClassFile (CodeBuffer MethodInfo)
open ClassFile.Op
open ClassFile.Descriptor (arguments? isClassName method? returned?)
open Jvm (fetch Kind Loads)
open Pod (MethodDef VarDef)

-- What the machine passes to a method for the first `n` parameters, behind its receiver, and takes
-- from it.
structure Enters (s : Pod.Symbols) (m : MethodDef) (n : Nat) (w : MethodInfo)
    (receiver params : List Local) (result : StackType) : Prop where
  incoming : incoming? w = some (receiver ++ params)
  returned : returned? w.desc = some result
  receiver_eq : receiver = [] ∨ receiver = [⟨0, .obj⟩]
  params_eq : ∃ ts, paramTypes s (m.params.take n) = .ok ts ∧ ts.length = n ∧
    params = locate receiver.length (ts.map TypeRef.stack)

-- What stands before the code that pushes arguments: nothing, the peer of the object, or the new
-- object.
inductive Prelude (code : Bytes) : Nat → Prop where
  | none : Prelude code 0
  | peer {a b : UInt8} (h : code.Spells 0 [aload0, getField, a, b]) : Prelude code 4
  | object {a b a' b' : UInt8}
      (h : code.Spells 0 [newObject, a, b, dup, invokeSpecial, a', b', dup]) : Prelude code 8

-- The registers of a method for its receiver and its parameters. In a factory there is no receiver.
def registers (m : MethodDef) (receiver params : List Local) : List (Option Local) :=
  (if m.isStatic then [] else [receiver.head?]) ++ params.map some

-- Wherever an instruction that loads a register is lowered, in a copy of a finally block too, it
-- loads the local of the register.
def LoadsRegisters (regs : List (Option Local)) (code : Bytes) (out : CodeBuffer)
    (body : BodyState) (mc : MethodCode) : Prop :=
  ∀ scope q pc i l, (body.layout code out).reloc.getLocal scope q = some pc →
    Instr.decodeAt code q = .ok i → i.op = .loadVar → regs[i.arg.toNat]? = some (some l) →
    ∃ next, fetch mc.code.code pc = some (.load (.ofStack l.stack) l.slot, next)

-- The code of the defaults of some parameters, one behind the other.
inductive Defaults (env : ClassEnv) (regs : List (Option Local)) :
    List VarDef → CodeBuffer → CodeBuffer → Prop where
  | nil {out : CodeBuffer} : Defaults env regs [] out out
  | cons {p : VarDef} {rest : List VarDef} {code : Bytes} {f : Frame} {out all : CodeBuffer}
      {c c₁ : OpenClass} {body : BodyState} {mc : MethodCode} (hdefault : p.default? = some code)
      (hlowered : Lowered env f code out c c₁ body mc)
      (hloads : LoadsRegisters regs code out body mc)
      (hrest : Defaults env regs rest mc.code all) : Defaults env regs (p :: rest) out all

-- A method of a class finds its arguments where they are passed.
inductive FollowsConvention (env : ClassEnv) (s : Pod.Symbols) (m : MethodDef) (w : MethodInfo) :
    Prop where
  | declared (hcode : w.code = none)
  -- The instructions of the method.
  | body {receiver params : List Local} {result : StackType} {f : Frame} {out : CodeBuffer}
      {c c₁ : OpenClass} {body : BodyState} {mc : MethodCode}
      (henters : Enters s m m.params.length w receiver params result)
      (hcode : w.code = some mc.code) (hlowered : Lowered env f m.code out c c₁ body mc)
      (hloads : LoadsRegisters (registers m receiver params) m.code out body mc)
  -- Code that pushes all arguments, and in a wrapper the defaults of the parameters behind them,
  -- calls another method and returns.
  | forwards {n start : Nat} {receiver params : List Local} {result : StackType}
      {passed all out : CodeBuffer} {o : UInt8} {ref : UInt16} {others : List VarDef}
      (henters : Enters s m n w receiver params result) (hcode : w.code = some out)
      (hstart : Prelude out.code start)
      (hloads : Loads out.code passed.code.size start (receiver ++ params))
      (hothers : others = [] ∨ others = m.params.drop n)
      (hdefaults : Defaults env (registers m receiver params) others passed all)
      (ho : o = invokeStatic ∨ o = invokeVirtual)
      (hcall : out.code.toList =
        all.code.toList ++ o :: ((Bytes.be2 ref).toList ++ [returnOp result]))
      (hreturns : fetch out.code (out.code.size - 1) =
        some (.return_ (Kind.returned result), out.code.size))

section Bytes

-- The bytes that push variables.
def loadBytes (ls : List Local) : List UInt8 :=
  ls.flatMap fun l => Item.loadRaw l.stack l.slot.toUInt16

theorem loads_of_spells {code : Bytes} {pos : Nat} {ls : List Local}
    (hslots : ∀ l ∈ ls, l.slot < 2 ^ 16) (h : code.Spells pos (loadBytes ls)) :
    Loads code (pos + (loadBytes ls).length) pos ls := by
  induction ls generalizing pos with
  | nil => rfl
  | cons l rest ih =>
    obtain ⟨hl, hrest⟩ := List.forall_mem_cons.mp hslots
    have hbytes : loadBytes (l :: rest) =
        Item.loadRaw l.stack l.slot.toUInt16 ++ loadBytes rest := List.flatMap_cons
    rw [hbytes] at h ⊢
    obtain ⟨hfirst, hmore⟩ := Bytes.spells_append.mp h
    obtain ⟨compact, general, hraw, hcompact, hgeneral⟩ := loadRaw_eq l.stack l.slot.toUInt16
    rw [hraw] at hfirst
    have hfetch := fetch_localRaw hcompact hgeneral hfirst
    rw [← hraw, UInt16.toNat_ofNat', Nat.mod_eq_of_lt hl] at hfetch
    refine ⟨_, hfetch, ?_⟩
    rw [List.length_append, ← Nat.add_assoc]
    exact ih hrest hmore

theorem fetch_return {code : Bytes} {pc : Nat} {t : StackType}
    (h : code[pc]? = some (returnOp t)) :
    fetch code pc = some (.return_ (Kind.returned t), pc + 1) := by
  refine Jvm.fetch_plain h ?_
  cases t <;> rfl

end Bytes

section Items

variable {env : ClassEnv} {c c' : OpenClass}

-- The code of items that were written behind other code.
theorem assemble_eq_ok {out out' : CodeBuffer} {items : List (Item Ref)}
    (h : ClassM.assemble out items env c = .ok out' c') :
    ∃ its, Item.Interned env c items its c' ∧ out' = ((Layout.start out 0).puts its).out := by
  obtain ⟨its, c₁, hits, hpure⟩ := ClassM.bind_eq_ok.mp h
  obtain ⟨rfl, rfl⟩ := ClassM.pure_eq_ok.mp hpure
  refine ⟨its, ?_, by rw [Layout.putAll_eq]⟩
  clear h hpure
  induction items generalizing c its with
  | nil =>
    rw [List.mapM_nil] at hits
    obtain ⟨rfl, rfl⟩ := ClassM.pure_eq_ok.mp hits
    exact .nil
  | cons i rest ih =>
    rw [List.mapM_cons] at hits
    obtain ⟨j, c₂, hj, hrest⟩ := ClassM.bind_eq_ok.mp hits
    obtain ⟨js, c₃, hjs, hpure⟩ := ClassM.bind_eq_ok.mp hrest
    obtain ⟨rfl, rfl⟩ := ClassM.pure_eq_ok.mp hpure
    exact .cons hj (ih _ hjs)

-- The bytes of items that hold no switch do not depend on where they stand.
def itemBytes (its : List (Item UInt16)) : List UInt8 :=
  its.flatMap (Item.raw 0)

theorem code_puts_inert {its : List (Item UInt16)} (h : Item.Inert its) (l : Layout) :
    (l.puts its).out.code.toList = l.out.code.toList ++ itemBytes its := by
  induction its generalizing l with
  | nil => simp [itemBytes, Layout.puts_nil]
  | cons i rest ih =>
    rw [Item.inert_cons] at h
    have hraw : i.raw l.out.pos = i.raw 0 := by
      cases i with
      | switch targets => simp [Item.isInert] at h
      | _ => rfl
    rw [Layout.puts_cons, ih h.2, Layout.code_put, hraw]
    simp [itemBytes]

-- Loads hold no constants.
theorem interned_loads {ls : List Local} {its : List (Item UInt16)}
    (h : Item.Interned env c (loadLocals ls) its c') : itemBytes its = loadBytes ls := by
  induction ls generalizing c its with
  | nil =>
    cases h
    rfl
  | cons l rest ih =>
    cases h with
    | cons hj hrest =>
      cases hj
      simp only [itemBytes, List.flatMap_cons] at ih ⊢
      rw [ih hrest]
      rfl

theorem inert_loadLocals (ls : List Local) : Item.Inert (loadLocals ls) := by
  induction ls with
  | nil => exact Item.inert_nil
  | cons l rest ih => exact Item.inert_cons.mpr ⟨rfl, ih⟩

end Items

section Agreement

variable {env : ClassEnv} {s : Pod.Symbols} {m : MethodDef} {n : Nat} {w : MethodInfo}
  {receiver params : List Local} {result : StackType}

-- The receiver of a method: it is passed by the machine, or as the first argument of a static
-- method.
def receiverOf (isStatic : Bool) (self : Option String) : List Local :=
  if isStatic then locate 0 (receiverKinds self) else [⟨0, .obj⟩]

-- The descriptor of a method says where its arguments are.
theorem enters_of_desc {isStatic : Bool} {self : Option String} {result : Result} {ret : TypeRef}
    (hm : Typed s m) (hn : n ≤ m.params.length)
    (hret : result = .inherited → typeRefAt s m.inheritedRet = .ok ret)
    (hself : ∀ cls ∈ self, isClassName cls = true)
    (hclass : ∀ cls, result = .object cls → isClassName cls = true)
    (haccess : (w.access &&& ClassFile.Access.static_ = 0) = (isStatic = false))
    (hstatic : isStatic = false → self = none)
    (hdesc : methodDesc s m self (m.params.take n) result = .ok w.desc) :
    ∃ ts, paramTypes s (m.params.take n) = .ok ts ∧
      Enters s m n w (receiverOf isStatic self)
        (locate (receiverOf isStatic self).length (ts.map TypeRef.stack)) (result.stack ret) := by
  obtain ⟨ts, desc, hts, hresult, hmethod⟩ := method?_methodDesc hm hself hdesc
  refine ⟨ts, hts, ?_, ?_, ?_, ts, hts, ?_, rfl⟩
  · unfold incoming? arguments?
    simp only [hmethod, Option.map_some, haccess]
    cases isStatic with
    | false =>
      rw [hstatic rfl]
      rfl
    | true => cases self <;> rfl
  · unfold returned?
    rw [hmethod, Option.bind_some]
    exact result?_resultDesc hm hret hclass hresult
  · cases isStatic with
    | false => exact .inr rfl
    | true =>
      cases self with
      | none => exact .inl rfl
      | some cls => exact .inr rfl
  · rw [← (except_mapM_eq_ok.mp hts).length_eq, List.length_take, Nat.min_eq_left hn]

-- A slot of an argument is a number of two bytes.
theorem Enters.slot_lt (h : Enters s m n w receiver params result) :
    ∀ l ∈ receiver ++ params, l.slot < 2 ^ 16 := by
  have hreceiver := h.receiver_eq
  obtain ⟨ts, hts, -, rfl⟩ := h.params_eq
  have hlength : ts.length ≤ 255 := by
    have hmost := length_params_le m
    rw [← (except_mapM_eq_ok.mp hts).length_eq, List.length_take]
    omega
  intro l hl
  obtain hl | hl := List.mem_append.mp hl
  · obtain rfl | rfl := hreceiver
    · cases hl
    · obtain rfl := List.mem_singleton.mp hl
      decide
  · have hlt := slot_lt_of_mem_locate hl
    rw [List.length_map] at hlt
    have hone : receiver.length ≤ 1 := by obtain rfl | rfl := hreceiver <;> decide
    omega

theorem spells_of_toList {code : Bytes} {before after : List UInt8}
    (h : code.toList = before ++ after) : code.Spells 0 before := by
  intro k hk
  rw [← Array.getElem?_toList, h, Nat.zero_add, List.getElem?_append_left hk]

-- Code that begins with the loads of the arguments and ends with a call and a return.
theorem follows_of_bytes {passed all out : CodeBuffer} {b : List UInt8} {o : UInt8}
    {ref : UInt16} {others : List VarDef} (henters : Enters s m n w receiver params result)
    (hcode : w.code = some out) (ho : o = invokeStatic ∨ o = invokeVirtual)
    (hothers : others = [] ∨ others = m.params.drop n)
    (hpassed : passed.code.toList = b ++ loadBytes (receiver ++ params))
    (hdefaults : Defaults env (registers m receiver params) others passed all)
    (hbegins : passed.code.toList <+: all.code.toList)
    (hcall : out.code.toList =
      all.code.toList ++ o :: ((Bytes.be2 ref).toList ++ [returnOp result]))
    (hbefore : Prelude out.code b.length) : FollowsConvention env s m w := by
  obtain ⟨more, hmore⟩ := hbegins
  have hspells : out.code.Spells b.length (loadBytes (receiver ++ params)) := by
    intro k hk
    rw [← Array.getElem?_toList, hcall, ← hmore, hpassed, List.append_assoc, List.append_assoc,
      List.getElem?_append_right (Nat.le_add_right _ _), Nat.add_sub_cancel_left,
      List.getElem?_append_left hk]
  have hstop : passed.code.size = b.length + (loadBytes (receiver ++ params)).length := by
    rw [← Array.length_toList, hpassed, List.length_append]
  have hreturn : out.code[out.code.size - 1]? = some (returnOp result) := by
    rw [← Array.getElem?_toList, ← Array.length_toList, ← List.getLast?_eq_getElem?, hcall,
      ← List.cons_append, ← List.append_assoc, List.getLast?_concat]
  have hpos : 0 < out.code.size := by
    rw [← Array.length_toList, hcall]
    simp
  refine .forwards henters hcode hbefore ?_ hothers hdefaults ho hcall ?_
  · rw [hstop]
    exact loads_of_spells henters.slot_lt hspells
  · rw [fetch_return hreturn]
    congr 2
    omega

-- The same without defaults.
theorem follows_of_call {out : CodeBuffer} {b : List UInt8} {o : UInt8} {ref : UInt16}
    (henters : Enters s m n w receiver params result) (hcode : w.code = some out)
    (ho : o = invokeStatic ∨ o = invokeVirtual)
    (hbytes : out.code.toList = b ++ (loadBytes (receiver ++ params) ++
      o :: ((Bytes.be2 ref).toList ++ [returnOp result])))
    (hbefore : Prelude out.code b.length) : FollowsConvention env s m w := by
  let passed : CodeBuffer := { code := (b ++ loadBytes (receiver ++ params)).toArray }
  have hcall : out.code.toList =
      passed.code.toList ++ o :: ((Bytes.be2 ref).toList ++ [returnOp result]) := by
    rw [hbytes, ← List.append_assoc]
  exact follows_of_bytes henters hcode ho (.inl rfl) rfl .nil List.prefix_rfl hcall hbefore

-- An instruction without operands, in bytes.
theorem interned_op {c c' : OpenClass} {o : UInt8} {rest : List (Item Ref)}
    {its : List (Item UInt16)} (h : Item.Interned env c (.op o :: rest) its c') :
    ∃ its', Item.Interned env c rest its' c' ∧ itemBytes its = o :: itemBytes its' := by
  cases h with
  | cons hop hrest =>
    cases hop
    exact ⟨_, hrest, rfl⟩

-- An instruction with a constant, in bytes.
theorem interned_const {c c' : OpenClass} {o : UInt8} {ref : Ref} {rest : List (Item Ref)}
    {its : List (Item UInt16)} (h : Item.Interned env c (.const o ref :: rest) its c') :
    ∃ i c₁ its', Item.Interned env c₁ rest its' c' ∧
      itemBytes its = o :: ((Bytes.be2 i).toList ++ itemBytes its') := by
  cases h with
  | cons hconst hrest =>
    obtain ⟨i, -, rfl⟩ := ClassM.map_eq_ok.mp hconst
    exact ⟨i, _, _, hrest, rfl⟩

theorem interned_nil {c c' : OpenClass} {its : List (Item UInt16)}
    (h : Item.Interned env c [] its c') : itemBytes its = [] := by
  cases h
  rfl

-- The items of a call, in bytes.
theorem interned_call {c c' : OpenClass} {o r : UInt8} {ref : Ref} {its : List (Item UInt16)}
    (h : Item.Interned env c [.const o ref, .op r] its c') :
    ∃ i, ref.intern env c = .ok i c' ∧ itemBytes its = o :: ((Bytes.be2 i).toList ++ [r]) := by
  cases h with
  | cons hconst hrest =>
    obtain ⟨i, hi, rfl⟩ := ClassM.map_eq_ok.mp hconst
    cases hrest with
    | cons hop hnil =>
      cases hop
      cases hnil
      exact ⟨i, hi, rfl⟩

-- Items that push variables behind others, and end with a call.
theorem code_of_assemble {c c' : OpenClass} {maxStack maxLocals : Nat} {p : List (Item Ref)}
    {ls : List Local} {o r : UInt8} {ref : Ref} {out : CodeBuffer} (hpre : Item.Inert p)
    (h : ClassM.assemble (CodeBuffer.sized maxStack maxLocals)
      (p ++ (loadLocals ls ++ [Item.const o ref, Item.op r])) env c = .ok out c') :
    ∃ c₁ c₂ pre' loads i, Item.Interned env c p pre' c₁ ∧
      Item.Interned env c₁ (loadLocals ls) loads c₂ ∧ ref.intern env c₂ = .ok i c' ∧
      out.code.toList = itemBytes pre' ++ (loadBytes ls ++ (o :: ((Bytes.be2 i).toList ++ [r]))) := by
  obtain ⟨its, hits, rfl⟩ := assemble_eq_ok h
  have hinert : Item.Inert its := by
    refine hits.inert ?_
    rw [Item.inert_append, Item.inert_append]
    exact ⟨hpre, inert_loadLocals ls, by simp⟩
  have hbytes := code_puts_inert hinert (Layout.start (CodeBuffer.sized maxStack maxLocals) 0)
  obtain ⟨pre', rest, c₁, rfl, hpre', hrest⟩ := hits.append_left
  obtain ⟨loads, last, c₂, rfl, hloads, hlast⟩ := hrest.append_left
  obtain ⟨i, hintern, hi⟩ := interned_call hlast
  refine ⟨c₁, c₂, pre', loads, i, hpre', hloads, hintern, ?_⟩
  rw [hbytes, ← hi, ← interned_loads hloads]
  simp [itemBytes, Layout.start, CodeBuffer.sized]

-- The code of these.
theorem code_of_items {maxStack maxLocals : Nat} {p : List (Item Ref)} {ls : List Local}
    {o r : UInt8} {ref : Ref} (hpre : Item.Inert p)
    (h : HasItems env maxStack maxLocals
      (p ++ (loadLocals ls ++ [Item.const o ref, Item.op r])) w) :
    ∃ c₁ c₂ pre' out i, Item.Interned env c₁ p pre' c₂ ∧ w.code = some out ∧
      out.code.toList = itemBytes pre' ++ (loadBytes ls ++ (o :: ((Bytes.be2 i).toList ++ [r]))) := by
  obtain ⟨c₁, out, c₂, hassemble, hcode⟩ := h
  obtain ⟨c₃, c₄, pre', loads, i, hpre', -, -, hbytes⟩ := code_of_assemble hpre hassemble
  exact ⟨c₁, c₃, pre', out, i, hpre', hcode, hbytes⟩

end Agreement

section Body

variable {env : ClassEnv} {m : MethodDef} {w : MethodInfo} {result : StackType}
  {ts : List TypeRef} {owner : String} {f g : Frame}

-- An instruction that loads a variable is lowered to the load of its local.
theorem Lowered.fetch_loadVar {code : Bytes} {out : CodeBuffer} {c c₁ : OpenClass}
    {body : BodyState} {mc : MethodCode} (hl : Lowered env f code out c c₁ body mc)
    {scope q pc : Nat} {i : Instr}
    (hat : (body.layout code out).reloc.getLocal scope q = some pc)
    (hi : Instr.decodeAt code q = .ok i) (hop : i.op = .loadVar) :
    ∃ l next, f.local? i.arg = some l ∧
      fetch mc.code.code pc = some (.load (.ofStack l.stack) l.slot.toUInt16.toNat, next) := by
  obtain ⟨next, e, e₁, own, more, hown, -, -, hstands⟩ := hl.stands_alone hat hi (by rw [hop]; rfl)
    (by rw [hop]; rfl) (by simp [hop]) (by simp [hop])
  obtain ⟨l, hlocal, rfl⟩ := hown.loadVar hop
  exact ⟨l, _, hlocal, hl.fetch_load hstands⟩

-- Code in a frame that has the registers loads them.
theorem Lowered.loadsRegisters {code : Bytes} {out : CodeBuffer} {c c₁ : OpenClass}
    {body : BodyState} {mc : MethodCode} (hl : Lowered env f code out c c₁ body mc)
    {regs : List (Option Local)}
    (hlocals : ∀ (r : UInt16) l, regs[r.toNat]? = some (some l) →
      f.local? r = some l ∧ l.slot < 2 ^ 16) : LoadsRegisters regs code out body mc := by
  intro scope q pc i l hat hi hop hl'
  obtain ⟨l', next, hlocal, hfetch⟩ := hl.fetch_loadVar hat hi hop
  obtain ⟨hsame, hlt⟩ := hlocals _ l hl'
  rw [hsame] at hlocal
  cases hlocal
  rw [UInt16.toNat_ofNat', Nat.mod_eq_of_lt hlt] at hfetch
  exact ⟨next, hfetch⟩

theorem mem_of_registers {receiver params : List Local} {r : Nat} {l : Local}
    (h : (registers m receiver params)[r]? = some (some l)) : l ∈ receiver ++ params := by
  have hmem := List.mem_of_getElem? h
  obtain hmem | hmem := List.mem_append.mp hmem
  · split at hmem
    · cases hmem
    · have hhead : receiver.head? = some l := (List.mem_singleton.mp hmem).symm
      exact List.mem_append_left _ (List.mem_of_mem_head? hhead)
  · obtain ⟨l', hl', heq⟩ := List.mem_map.mp hmem
    cases heq
    exact List.mem_append_right _ hl'

-- The code of the instructions of a method, in a frame that has its registers.
theorem follows_of_body {receiver params : List Local}
    (henters : Enters env.pod.symbols m m.params.length w receiver params result)
    (hlocals : ∀ (r : UInt16) l, (registers m receiver params)[r.toNat]? = some (some l) →
      f.local? r = some l)
    (hbody : HasBody env m f w) : FollowsConvention env env.pod.symbols m w := by
  obtain ⟨c₁, mc, c₂, hlower, hcode⟩ := hbody
  obtain ⟨body, c₃, hlowered⟩ := lowered_of_lowerCode hlower
  refine .body henters hcode hlowered (hlowered.loadsRegisters fun r l hr => ?_)
  exact ⟨hlocals r l hr, henters.slot_lt l (mem_of_registers hr)⟩

end Body

section Wrappers

variable {env : ClassEnv} {m : MethodDef} {f : Frame}

-- The code that was there before a body.
theorem Lowered.isPrefix {code : Bytes} {out : CodeBuffer} {c c₁ : OpenClass} {body : BodyState}
    {mc : MethodCode} (hl : Lowered env f code out c c₁ body mc) :
    out.code.toList <+: mc.code.code.toList := by
  have hsize : out.code.size ≤ mc.code.code.size := by
    rw [hl.filled.size_eq, body.layout_eq]
    exact Layout.pos_le_puts (Layout.start out code.size) _
  rw [List.prefix_iff_eq_take]
  apply List.ext_getElem?
  intro k
  rw [List.getElem?_take]
  split
  · rename_i hk
    rw [Array.getElem?_toList, Array.getElem?_toList]
    rw [Array.length_toList] at hk
    exact (hl.getElem?_before hk).symm
  · rename_i hk
    exact List.getElem?_eq_none (by omega)

theorem lowered_of_lowerFragment {code : Bytes} {out : CodeBuffer} {mc : MethodCode}
    {c c' : OpenClass} (h : lowerFragment f code out env c = .ok mc c') :
    ∃ body, Lowered env f code out c c' body mc := by
  obtain ⟨p, c₁, hp, h₁⟩ := ClassM.bind_eq_ok.mp h
  obtain ⟨hfinish, rfl⟩ := ClassM.ofExcept_eq_ok.mp h₁
  obtain ⟨hcode, hreloc, hjumps⟩ := finish_eq_ok hfinish
  obtain ⟨body, hbody, hexact⟩ := exact_of_placed hp hcode hreloc hjumps
  exact ⟨body, hbody, hexact⟩

theorem defaults_of_lowerDefaults {out all : CodeBuffer} {index : Nat} {params : List VarDef}
    {c c' : OpenClass} {regs : List (Option Local)}
    (hlocals : ∀ (r : UInt16) l, regs[r.toNat]? = some (some l) →
      f.local? r = some l ∧ l.slot < 2 ^ 16)
    (h : lowerDefaults m f out index params env c = .ok all c') :
    Defaults env regs params out all ∧ out.code.toList <+: all.code.toList := by
  induction params generalizing out index c with
  | nil =>
    obtain ⟨rfl, -⟩ := ClassM.pure_eq_ok.mp h
    exact ⟨.nil, List.prefix_rfl⟩
  | cons p rest ih =>
    obtain ⟨code, fragment, c₁, hdefault, hfragment, hrest⟩ := lowerDefaults_cons h
    obtain ⟨body, hlowered⟩ := lowered_of_lowerFragment hfragment
    obtain ⟨hdefaults, hbegins⟩ := ih hrest
    exact ⟨.cons hdefault hlowered (hlowered.loadsRegisters hlocals) hdefaults,
      hlowered.isPrefix.trans hbegins⟩

-- A method to which the parameters of another are passed has the receiver where the frame has it.
structure Target.Aligned (t : Target) (m : MethodDef) (mode : SelfMode) : Prop where
  isStatic : t.isStatic = false → t.self = none
  receiver : (Frame.selfRegs m mode).filterMap id = receiverOf t.isStatic t.self

-- Its descriptor says that, and what it returns.
structure Target.Fits (t : Target) (s : Pod.Symbols) (m : MethodDef) (access : UInt16)
    (mode : SelfMode) (ret : TypeRef) : Prop extends t.Aligned m mode where
  inherited : t.result = .inherited → typeRefAt s m.inheritedRet = .ok ret
  self : ∀ cls ∈ t.self, isClassName cls = true
  result : ∀ cls, t.result = .object cls → isClassName cls = true
  access : (access &&& ClassFile.Access.static_ = 0) = (t.isStatic = false)
  resultStack : t.resultStack = t.result.stack ret

-- The receiver is pushed like the other arguments.
theorem Target.Aligned.interned_receiver {t : Target} {mode : SelfMode} (ht : t.Aligned m mode)
    {c c' : OpenClass} {its : List (Item UInt16)} (h : Item.Interned env c t.receiver its c') :
    Item.Inert its ∧ itemBytes its = loadBytes (receiverOf t.isStatic t.self) := by
  have hone : Item.Interned env c [.op aload0] its c' →
      Item.Inert its ∧ itemBytes its = loadBytes [⟨0, .obj⟩] := by
    intro h
    refine ⟨h.inert (by simp), ?_⟩
    obtain ⟨its', hnil, hbytes⟩ := interned_op h
    rw [hbytes, interned_nil hnil]
    rfl
  unfold Target.receiver at h
  unfold receiverOf receiverKinds
  cases hs : t.isStatic with
  | false =>
    rw [hs, ht.isStatic hs] at h
    exact hone h
  | true =>
    cases hself : t.self with
    | none =>
      rw [hs, hself] at h
      cases h
      exact ⟨Item.inert_nil, rfl⟩
    | some cls =>
      rw [hs, hself] at h
      exact hone h

-- So the code is that of the loads of all arguments.
theorem Target.Aligned.code_of_assemble {t : Target} {mode : SelfMode} (ht : t.Aligned m mode)
    {maxStack maxLocals : Nat} {ls : List Local} {passed : CodeBuffer} {c c' : OpenClass}
    (h : ClassM.assemble (CodeBuffer.sized maxStack maxLocals) (t.receiver ++ loadLocals ls) env c =
      .ok passed c') :
    passed.code.toList = loadBytes (receiverOf t.isStatic t.self ++ ls) := by
  obtain ⟨its, hits, rfl⟩ := assemble_eq_ok h
  obtain ⟨pre, loads, c₁, rfl, hpre, hloads⟩ := hits.append_left
  obtain ⟨hinert, hreceiver⟩ := ht.interned_receiver hpre
  have hparams := interned_loads hloads
  rw [code_puts_inert (Item.inert_append.mpr ⟨hinert, hloads.inert (inert_loadLocals _)⟩)]
  simp only [itemBytes, loadBytes, List.flatMap_append] at hreceiver hparams ⊢
  rw [hreceiver, hparams]
  simp [Layout.start, CodeBuffer.sized]

theorem registers_selfRegs (m : MethodDef) (mode : SelfMode) (params : List Local) :
    registers m ((Frame.selfRegs m mode).filterMap id) params =
      Frame.selfRegs m mode ++ params.map some := by
  unfold registers Frame.selfRegs
  cases m.isStatic with
  | true => rfl
  | false => cases mode <;> rfl

-- The frame of a method has the registers of the parameters that are passed.
theorem local?_of_registers {mode : SelfMode} {owner : String} {n : Nat} {ts : List TypeRef}
    {receiver : List Local} (hn : n ≤ m.params.length)
    (hts : paramTypes env.pod.symbols (m.params.take n) = .ok ts)
    (hframe : Frame.forMethod env.pod.symbols owner m mode = .ok f)
    (hreceiver : (Frame.selfRegs m mode).filterMap id = receiver) (r : UInt16) (l : Local)
    (h : (registers m receiver (locate receiver.length (ts.map TypeRef.stack)))[r.toNat]? =
      some (some l)) : f.local? r = some l := by
  subst hreceiver
  rw [registers_selfRegs] at h
  exact Frame.local?_forMethod hframe hn hts h

-- A wrapper pushes the arguments that it has.
theorem follows_of_wrapper {t : Target} {access : UInt16} {mode : SelfMode} {owner : String}
    {ref : UInt16} {n : Nat} {w : MethodInfo} {ret : TypeRef}
    (hm : Typed env.pod.symbols m) (hn : n ≤ m.params.length)
    (ht : t.Fits env.pod.symbols m access mode ret)
    (hframe : Frame.forMethod env.pod.symbols owner m mode = .ok f)
    (h : Wrapper env m t access f ref n w) : FollowsConvention env env.pod.symbols m w := by
  obtain ⟨ts, hts, henters⟩ := enters_of_desc hm hn ht.inherited ht.self ht.result
    (by rw [h.access]; exact ht.access) ht.isStatic h.desc
  obtain ⟨c₁, c₂, c₃, passed, all, hpassed, hall, hcode⟩ := h.code
  have hbytes := ht.code_of_assemble hpassed
  rw [Frame.params_forMethod hframe hn hts, ht.receiver] at hbytes
  obtain ⟨hdefaults, hbegins⟩ := defaults_of_lowerDefaults (fun r l hr =>
    ⟨local?_of_registers hn hts hframe ht.receiver r l hr,
      henters.slot_lt l (mem_of_registers hr)⟩) hall
  have hcall : (if t.isStatic then invokeStatic else invokeVirtual) = invokeStatic ∨
      (if t.isStatic then invokeStatic else invokeVirtual) = invokeVirtual := by
    cases t.isStatic <;> simp
  have hlast (o : UInt8) : ((all.op2 o ref).returnOp t.resultStack).code.toList =
      all.code.toList ++ o :: ((Bytes.be2 ref).toList ++ [returnOp (t.result.stack ret)]) := by
    rw [← ht.resultStack]
    simp [CodeBuffer.returnOp]
  exact follows_of_bytes (b := []) henters hcode hcall (.inr rfl) hbytes hdefaults hbegins
    (hlast _) .none

end Wrappers

end Lowering

end PodCompiler
