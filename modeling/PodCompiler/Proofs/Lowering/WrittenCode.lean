import PodCompiler.Proofs.Jvm.Calls
import PodCompiler.Proofs.Lowering.CountedCalls
import PodCompiler.Proofs.Lowering.FrameSlots

namespace PodCompiler.Lowering

open ClassFile (CodeBuffer Constants MethodInfo)
open ClassFile.Op
open Jvm (CallMode Event Form Instruction Kind Linkage Locals Machine Value depth fetch)

-- What an index of a class stands for.
def Ref.IsAt (k : Constants) (i : UInt16) : Ref → Prop
  | .class_ name => k.className? i = some name
  | .field sig => k.field? i = some sig
  | .method sig => k.method? i = some sig
  | _ => True

-- The code of a machine is that of some items, from a position on.
def Reads (m : Machine) : Nat → List (Item Ref) → Prop
  | _, [] => True
  | pos, .op o :: rest => m.code[pos]? = some o ∧ Reads m (pos + 1) rest
  | pos, .load t slot :: rest =>
    m.code.Spells pos (Item.loadRaw t slot) ∧ Reads m (pos + (Item.loadRaw t slot).length) rest
  | pos, .const o r :: rest =>
    m.code[pos]? = some o ∧ (∃ i, m.code.be2? (pos + 1) = some i ∧ r.IsAt m.constants i) ∧
      Reads m (pos + 3) rest
  | _, _ :: _ => False

-- Variables that can be loaded, and give these values.
def Gives (locals : Locals) : List Local → List Value → Prop :=
  List.Forall₂ fun l v =>
    l.slot < 2 ^ 16 ∧ locals.get? l.slot = some v ∧ v.kind = .ofStack l.stack

section Values

-- Values of these types.
def Typing (vs : List Value) (ts : List StackType) : Prop :=
  vs.map Value.kind = ts.map Kind.ofStack

variable {v : Value} {vs before : List Value} {t : StackType} {ts : List StackType} {size : Nat}

theorem Typing.eq_nil (h : Typing vs []) : vs = [] :=
  List.map_eq_nil_iff.mp h

theorem Typing.exists_cons (h : Typing vs (t :: ts)) :
    ∃ v rest, vs = v :: rest ∧ v.kind = .ofStack t ∧ Typing rest ts := by
  obtain ⟨v, rest, rfl, hv, hrest⟩ := List.map_eq_cons_iff.mp h
  exact ⟨v, rest, rfl, hv, hrest⟩

theorem isWide_ofStack (t : StackType) : (Kind.ofStack t).isWide = t.isWide := by
  cases t <;> rfl

theorem width_of_kind (h : v.kind = .ofStack t) :
    v.slots.length = if t.isWide then 2 else 1 := by
  rw [← isWide_ofStack, ← h]
  unfold Value.slots Value.isWide
  split <;> rfl

-- How much room values take is up to their types.
theorem Typing.depth_eq (h : Typing vs ts) (hvoid : ∀ t ∈ ts, t ≠ .void) :
    depth vs = StackType.totalSlots ts := by
  induction ts generalizing vs with
  | nil =>
    rw [h.eq_nil]
    rfl
  | cons t rest ih =>
    obtain ⟨v, vs, rfl, hv, hvs⟩ := h.exists_cons
    obtain ⟨ht, hrest⟩ := List.forall_mem_cons.mp hvoid
    have hslots : t.width = t.slots := by cases t <;> first | rfl | exact absurd rfl ht
    rw [Jvm.depth_cons, ih hvs hrest, StackType.totalSlots, Jvm.Value.length_slots hv, hslots]

-- When a method is called, each argument is in the slot behind those of the arguments before it.
theorem get?_ofArgs (before after : List Value) (v : Value) (size : Nat) :
    (Locals.ofArgs (before ++ v :: after) size).get? (depth before) = some v := by
  rw [Jvm.Locals.get?_eq_some_iff]
  intro i hi
  rw [Jvm.Locals.ofArgs, List.getElem?_toArray, List.rightpad, List.flatMap_append,
    List.flatMap_cons, List.append_assoc, List.append_assoc, Jvm.depth_eq_length,
    List.getElem?_append_right (Nat.le_add_right _ _), Nat.add_sub_cancel_left,
    List.getElem?_append_left hi]

-- These are the slots that its parameters have.
theorem Typing.gives (h : Typing vs ts) (hroom : depth before + 2 * ts.length ≤ 2 ^ 16) :
    Gives (.ofArgs (before ++ vs) size) (locate (depth before) ts) vs := by
  induction ts generalizing before vs with
  | nil =>
    rw [h.eq_nil]
    exact .nil
  | cons t rest ih =>
    obtain ⟨v, vs, rfl, hv, hvs⟩ := h.exists_cons
    rw [List.length_cons] at hroom
    have hwidth := width_of_kind hv
    have hnext : Gives (.ofArgs (before ++ [v] ++ vs) size) (locate (depth (before ++ [v])) rest)
        vs :=
      ih hvs (by
        rw [Jvm.depth_append, Jvm.depth_cons, Jvm.depth_nil, hwidth]
        split <;> omega)
    rw [List.append_assoc, List.singleton_append, Jvm.depth_append, Jvm.depth_cons, Jvm.depth_nil,
      hwidth] at hnext
    refine .cons ⟨?_, get?_ofArgs before vs v size, hv⟩ hnext
    change depth before < 2 ^ 16
    omega

-- Each variable is below the first slot behind all.
theorem slot_le_of_mem_locate {slot : Nat} {l : Local} (hvoid : ∀ t ∈ ts, t ≠ .void)
    (h : l ∈ locate slot ts) :
    l.slot + (if l.stack.isWide then 2 else 1) ≤ slot + StackType.totalSlots ts := by
  induction ts generalizing slot with
  | nil => cases h
  | cons t rest ih =>
    obtain ⟨ht, hrest⟩ := List.forall_mem_cons.mp hvoid
    have hslots : t.slots = if t.isWide then 2 else 1 := by
      cases t <;> first | rfl | exact absurd rfl ht
    rw [StackType.totalSlots, hslots]
    obtain rfl | h := List.mem_cons.mp h
    · dsimp only
      omega
    · have := ih hrest h
      omega

end Values

-- Such items leave the sizes of the stack and of the locals alone.
theorem Layout.sizes_puts {its : List (Item UInt16)} (h : Item.Straight its) (l : Layout) :
    (l.puts its).out.maxStack = l.out.maxStack ∧ (l.puts its).out.maxLocals = l.out.maxLocals := by
  induction its generalizing l with
  | nil => exact ⟨rfl, rfl⟩
  | cons x rest ih =>
    obtain ⟨hx, hrest⟩ := Item.straight_cons.mp h
    obtain ⟨hstack, hlocals⟩ := ih hrest (l.put x)
    have hput : (l.put x).out.maxStack = l.out.maxStack ∧
        (l.put x).out.maxLocals = l.out.maxLocals := by
      cases x with
      | op o => exact ⟨rfl, rfl⟩
      | const o r => exact ⟨rfl, rfl⟩
      | load t slot =>
        change (l.out.loadVar t slot).maxStack = _ ∧ (l.out.loadVar t slot).maxLocals = _
        cases t <;>
          · unfold CodeBuffer.loadVar CodeBuffer.localOp
            dsimp only
            split
            · exact ⟨rfl, rfl⟩
            · split <;> exact ⟨rfl, rfl⟩
      | _ => cases hx
    rw [Layout.puts_cons]
    exact ⟨hstack.trans hput.1, hlocals.trans hput.2⟩

section Reads

variable {env : ClassEnv} {m : Machine} {l : Linkage} {pos : Nat} {rest : List (Item Ref)}
  {stack stack' : List Value} {locals : Locals}

-- Items that were written are read.
theorem reads_of_interned {c c' : OpenClass} {items : List (Item Ref)} {its : List (Item UInt16)}
    (hc : c.WellFormed env) (h : Item.Interned env c items its c') (hitems : Item.Straight items)
    (hm : m.constants.Extends c'.draft.pool.get?) (hcode : m.code.Spells pos (itemBytes its)) :
    Reads m pos items := by
  induction h generalizing pos with
  | nil => trivial
  | @cons c c₁ c₂ i j is js hj hrest ih =>
    obtain ⟨hi, hmore⟩ := Item.straight_cons.mp hitems
    have hc₁ := (ClassM.advancing_item _ _ _ _ _ hj hc).1
    have hbytes : itemBytes (j :: js) = j.raw 0 ++ itemBytes js := List.flatMap_cons
    rw [hbytes, Bytes.spells_append] at hcode
    have hnext := ih hc₁ hmore hm hcode.2
    cases i with
    | op o =>
      cases hj
      exact ⟨(Bytes.spells_cons.mp hcode.1).1, hnext⟩
    | load t slot =>
      cases hj
      exact ⟨hcode.1, hnext⟩
    | const o r =>
      obtain ⟨i, hintern, rfl⟩ := ClassM.map_eq_ok.mp hj
      obtain ⟨hop, hspells⟩ := Bytes.spells_cons.mp hcode.1
      refine ⟨hop, ⟨i, Bytes.be2?_of_spells hspells, ?_⟩, hnext⟩
      have hextends := hm.trans (hrest.advances.extends hc₁)
      cases r with
      | class_ name =>
        obtain ⟨p, hp, rfl⟩ := ClassM.onPool_eq_ok.mp hintern
        exact hextends.className? (ClassFile.Pool.class_eq_ok hc.pool hp).2.2
      | field sig => exact hextends.field? (intern_field_eq_ok hc hintern)
      | method sig => exact hextends.method? (intern_method_eq_ok hc hintern)
      | _ => trivial
    | _ => cases hi

-- A method with the code of items.
theorem HasItemsIn.reads {c' : OpenClass} {maxStack maxLocals : Nat} {items : List (Item Ref)}
    {w : MethodInfo} (h : HasItemsIn env maxStack maxLocals items c' w)
    (hitems : Item.Straight items) :
    ∃ out, w.code = some out ∧ out.maxStack = maxStack.toUInt16 ∧
      out.maxLocals = maxLocals.toUInt16 ∧
      ∀ m : Machine, m.code = out.code → m.constants.Extends c'.draft.pool.get? →
        Reads m 0 items := by
  obtain ⟨c₁, out, c₂, hc₁, hrun, hextends, hcode⟩ := h
  obtain ⟨its, hits, rfl⟩ := assemble_eq_ok hrun
  have hstraight := straight_of_interned hits hitems
  have hinert : Item.Inert its := fun x hx =>
    Item.isInert_of_isStraight (List.all_eq_true.mp hstraight x hx)
  have hbytes := code_puts_inert hinert (Layout.start (CodeBuffer.sized maxStack maxLocals) 0)
  obtain ⟨hstack, hlocals⟩ :=
    Layout.sizes_puts hstraight (Layout.start (CodeBuffer.sized maxStack maxLocals) 0)
  refine ⟨_, hcode, hstack, hlocals, ?_⟩
  intro m hm hconstants
  refine reads_of_interned hc₁ hits hitems (hconstants.trans hextends) ?_
  rw [hm]
  refine spells_of_toList (?_ : _ = itemBytes its ++ [])
  rw [hbytes, List.append_nil]
  rfl

-- One instruction without operands.
theorem Reads.fetch_op {o : UInt8} {i : Instruction} (h : Reads m pos (.op o :: rest))
    (hform : Form.ofOp? o = some (.plain i)) : fetch m.code pos = some (i, pos + 1) :=
  Jvm.fetch_plain h.1 hform

theorem Reads.step_op {o : UInt8} {i : Instruction} (h : Reads m pos (.op o :: rest))
    (hform : Form.ofOp? o = some (.plain i))
    (hexec : ∀ n, m.exec ⟨pos, stack, locals⟩ n i = some (.next ⟨n, stack', locals⟩)) :
    m.step ⟨pos, stack, locals⟩ = some (.next ⟨pos + 1, stack', locals⟩) := by
  rw [Machine.step_of_fetch rfl (h.fetch_op hform), hexec]

-- The last instruction.
theorem Reads.step_return {t : StackType} {ret : Option Value}
    (h : Reads m pos (.op (returnOp t) :: rest))
    (hexec : ∀ n, m.exec ⟨pos, stack, locals⟩ n (.return_ (Kind.returned t)) =
      some (.returned ret)) :
    m.step ⟨pos, stack, locals⟩ = some (.returned ret) := by
  rw [Machine.step_of_fetch rfl (fetch_return h.1), hexec]

-- One load.
theorem Reads.fetch_load {t : StackType} {slot : UInt16} (h : Reads m pos (.load t slot :: rest)) :
    fetch m.code pos = some (.load (.ofStack t) slot.toNat,
      pos + (Item.loadRaw t slot).length) := by
  obtain ⟨compact, general, hraw, hcompact, hgeneral⟩ := loadRaw_eq t slot
  have hspells := h.1
  rw [hraw] at hspells ⊢
  exact fetch_localRaw hcompact hgeneral hspells

theorem Reads.step_load {var : Local} {v : Value}
    (h : Reads m pos (.load var.stack var.slot.toUInt16 :: rest)) (hslot : var.slot < 2 ^ 16)
    (hv : locals.get? var.slot = some v) (hkind : v.kind = .ofStack var.stack) :
    m.step ⟨pos, stack, locals⟩ = some (.next
      ⟨pos + (Item.loadRaw var.stack var.slot.toUInt16).length, v :: stack, locals⟩) := by
  rw [Machine.step_of_fetch rfl h.fetch_load, UInt16.toNat_ofNat', Nat.mod_eq_of_lt hslot]
  simp only [Machine.exec, hv]
  exact if_pos hkind

-- Variables are pushed in their order.
theorem Reads.reaches_loads {ls : List Local} {vs : List Value}
    (h : Reads m pos (loadLocals ls ++ rest)) (hvs : Gives locals ls vs) (stack : List Value) :
    m.Reaches ⟨pos, stack, locals⟩
        ⟨pos + (loadBytes ls).length, vs.reverse ++ stack, locals⟩ ∧
      Reads m (pos + (loadBytes ls).length) rest := by
  induction hvs generalizing pos stack with
  | nil => exact ⟨.refl, h⟩
  | @cons var v ls vs hv _ ih =>
    obtain ⟨hslot, hget, hkind⟩ := hv
    have hstop : pos + (loadBytes (var :: ls)).length =
        pos + (Item.loadRaw var.stack var.slot.toUInt16).length + (loadBytes ls).length := by
      rw [loadBytes, List.flatMap_cons, List.length_append, Nat.add_assoc]
      rfl
    obtain ⟨hreach, hrest⟩ := ih h.2 (v :: stack)
    rw [hstop, List.reverse_cons, List.append_assoc]
    exact ⟨.head (Reads.step_load h hslot hget hkind) hreach, hrest⟩

-- They take no more than their own room on the way.
theorem Reads.always_loads {ls : List Local} {vs : List Value} {maxStack maxLocals : Nat}
    (h : Reads m pos (loadLocals ls ++ rest)) (hvs : Gives locals ls vs)
    (hstack : depth vs + depth stack ≤ maxStack)
    (hslots : ∀ var ∈ ls, var.slot + (if var.stack.isWide then 2 else 1) ≤ maxLocals)
    (hrest : ∀ pos', Reads m pos' rest →
      m.Always l ⟨pos', vs.reverse ++ stack, locals⟩ (m.Within maxStack maxLocals)) :
    m.Always l ⟨pos, stack, locals⟩ (m.Within maxStack maxLocals) := by
  induction hvs generalizing pos stack with
  | nil => exact hrest pos h
  | @cons var v ls vs hv _ ih =>
    obtain ⟨hslot, hget, hkind⟩ := hv
    obtain ⟨hvar, hmore⟩ := List.forall_mem_cons.mp hslots
    rw [Jvm.depth_cons] at hstack
    rw [Machine.always_of_step (Reads.step_load h hslot hget hkind)]
    refine ⟨Machine.within_of_load (Reads.fetch_load h) (by dsimp only; omega) ?_, ?_⟩
    · rw [UInt16.toNat_ofNat', Nat.mod_eq_of_lt hslot, isWide_ofStack]
      exact hvar
    · refine ih h.2 ?_ hmore ?_
      · rw [Jvm.depth_cons]
        omega
      · simpa using hrest

-- A call.
section Calls

variable {mode : CallMode} {sig : String} {gives : Option Kind} {on args : List Value}

theorem Reads.step_call (h : Reads m pos (.const mode.op (.method sig) :: rest))
    (hlink : l.method? sig = some ⟨args.map Value.kind, gives⟩) (hon : mode.On on ∨ args ≠ []) :
    m.step ⟨pos, (on ++ args).reverse ++ stack, locals⟩ = none := by
  obtain ⟨hop, ⟨i, hi, hsig⟩, -⟩ := h
  exact Machine.step_call hop hi hsig hlink hon rfl rfl

theorem Reads.asks_call (h : Reads m pos (.const mode.op (.method sig) :: rest))
    (hlink : l.method? sig = some ⟨args.map Value.kind, gives⟩) (hlength : on.length = mode.arity)
    (e : Event) (s' : Jvm.State) :
    m.Asks l ⟨pos, (on ++ args).reverse ++ stack, locals⟩ e s' ↔
      ∃ result : Option Value, (mode.On on ∧ result.map Value.kind = gives) ∧
        e = .call mode sig (on ++ args) result ∧
        s' = ⟨pos + 3, result.toList ++ stack, locals⟩ := by
  obtain ⟨hop, ⟨i, hi, hsig⟩, -⟩ := h
  exact Machine.asks_call hop hi hsig hlink hlength rfl rfl e s'

theorem Reads.isPlain_call (h : Reads m pos (.const mode.op (.method sig) :: rest)) :
    m.IsPlain pos := by
  obtain ⟨hop, ⟨i, hi, -⟩, -⟩ := h
  cases mode with
  | virtual => exact .of_fetch (Jvm.fetch_pool hop rfl hi) nofun
  | special | static => exact .of_fetch_none (Machine.fetch_of_ofOp?_none hop rfl)

-- Variables are pushed on others, a method is called with all of them, and something is returned.
variable {t : StackType} {ls : List Local} {vs pushed below : List Value}
  {ret : Option Value → Option Value} {es : List Event} {v : Option Value}
  {maxStack maxLocals : Nat}

-- The machine returns what there is to return, behind the call.
theorem Reads.returns_call
    (h : Reads m pos (loadLocals ls ++ [Item.const mode.op (Ref.method sig), Item.op (returnOp t)]))
    (hvs : Gives locals ls vs) (hpushed : pushed ++ vs = on ++ args)
    (hlink : l.method? sig = some ⟨args.map Value.kind, gives⟩) (hlength : on.length = mode.arity)
    (hon : mode.On on ∨ args ≠ [])
    (hret : ∀ result pos n, result.map Value.kind = gives →
      m.exec ⟨pos, result.toList ++ below, locals⟩ n (.return_ (Kind.returned t)) =
        some (.returned (ret result))) :
    m.Returns l ⟨pos, pushed.reverse ++ below, locals⟩ es v ↔
      ∃ result, (mode.On on ∧ result.map Value.kind = gives) ∧
        es = [.call mode sig (on ++ args) result] ∧ v = ret result := by
  obtain ⟨hreach, hcall⟩ := h.reaches_loads hvs (pushed.reverse ++ below)
  rw [← List.append_assoc, ← List.reverse_append, hpushed] at hreach
  have hreturned : ∀ result, result.map Value.kind = gives → ∀ es,
      m.Returns l ⟨pos + (loadBytes ls).length + 3, result.toList ++ below, locals⟩ es v ↔
        es = [] ∧ v = ret result :=
    fun result hresult es =>
      Machine.returns_of_returned (hcall.2.2.step_return fun n => hret result _ n hresult)
  rw [Machine.returns_of_reaches hreach,
    Machine.returns_of_asks (hcall.step_call hlink hon) (hcall.asks_call hlink hlength)]
  constructor
  · rintro ⟨result, es', hresult, rfl, hrest⟩
    obtain ⟨rfl, rfl⟩ := (hreturned result hresult.2 es').mp hrest
    exact ⟨result, hresult, rfl, rfl⟩
  · rintro ⟨result, hresult, rfl, rfl⟩
    exact ⟨result, [], hresult, rfl, (hreturned result hresult.2 []).mpr ⟨rfl, rfl⟩⟩

-- The machine comes behind the call.
theorem Reads.comes_call
    (h : Reads m pos (loadLocals ls ++ [Item.const mode.op (Ref.method sig), Item.op (returnOp t)]))
    (hvs : Gives locals ls vs) (hpushed : pushed ++ vs = on ++ args)
    (hlink : l.method? sig = some ⟨args.map Value.kind, gives⟩) (hon : mode.On on)
    {result : Option Value} (hresult : result.map Value.kind = gives) :
    ∃ es pos', m.Comes l ⟨pos, pushed.reverse ++ below, locals⟩ es
      ⟨pos', result.toList ++ below, locals⟩ := by
  obtain ⟨hreach, hcall⟩ := h.reaches_loads hvs (pushed.reverse ++ below)
  rw [← List.append_assoc, ← List.reverse_append, hpushed] at hreach
  have hevent : m.Comes l
      ⟨pos + (loadBytes ls).length, (on ++ args).reverse ++ below, locals⟩
      [.call mode sig (on ++ args) result]
      ⟨pos + (loadBytes ls).length + 3, result.toList ++ below, locals⟩ :=
    .event (hcall.step_call hlink (.inl hon))
      ((hcall.asks_call hlink hon.length_eq _ _).mpr ⟨result, ⟨hon, hresult⟩, rfl, rfl⟩) .refl
  exact ⟨_, _, (Machine.comes_of_reaches hreach).trans hevent⟩

-- It never needs more room than the arguments do, or the result.
theorem Reads.always_call
    (h : Reads m pos (loadLocals ls ++ [Item.const mode.op (Ref.method sig), Item.op (returnOp t)]))
    (hvs : Gives locals ls vs) (hpushed : pushed ++ vs = on ++ args)
    (hlink : l.method? sig = some ⟨args.map Value.kind, gives⟩) (hlength : on.length = mode.arity)
    (hon : mode.On on ∨ args ≠ [])
    (hret : ∀ result pos n, result.map Value.kind = gives →
      m.exec ⟨pos, result.toList ++ below, locals⟩ n (.return_ (Kind.returned t)) =
        some (.returned (ret result)))
    (hstack : depth vs + depth (pushed ++ below) ≤ maxStack)
    (hresult : ∀ result : Option Value, result.map Value.kind = gives →
      depth (result.toList ++ below) ≤ maxStack)
    (hslots : ∀ var ∈ ls, var.slot + (if var.stack.isWide then 2 else 1) ≤ maxLocals) :
    m.Always l ⟨pos, pushed.reverse ++ below, locals⟩ (m.Within maxStack maxLocals) := by
  have hbefore : depth (pushed.reverse ++ below) = depth (pushed ++ below) := by simp
  refine h.always_loads hvs (by rw [hbefore]; exact hstack) hslots ?_
  intro pos' hcall
  have hsame : vs.reverse ++ (pushed.reverse ++ below) = (on ++ args).reverse ++ below := by
    rw [← List.append_assoc, ← List.reverse_append, hpushed]
  have hdepth : depth ((on ++ args).reverse ++ below) = depth vs + depth (pushed ++ below) := by
    rw [← hsame, Jvm.depth_append, Jvm.depth_reverse, hbefore]
  rw [hsame, Machine.always_of_asks (hcall.step_call hlink hon) (hcall.asks_call hlink hlength)]
  refine ⟨hcall.isPlain_call.within (hdepth ▸ hstack), ?_⟩
  rintro result ⟨-, hkind⟩
  rw [Machine.always_of_returned (hcall.2.2.step_return fun n => hret result _ n hkind)]
  exact (Machine.IsPlain.of_fetch (fetch_return hcall.2.2.1) nofun).within (hresult result hkind)

end Calls

end Reads

end PodCompiler.Lowering
