import PodCompiler.Proofs.Lowering.CoreItems
import PodCompiler.Proofs.Lowering.FinalCode
import PodCompiler.Proofs.Lowering.FrameSlots
import PodCompiler.Proofs.Lowering.SwitchDispatch

namespace PodCompiler.Lowering

open ClassFile (CodeBuffer)
open ClassFile.Op
open Jvm (Form Instruction Machine)

-- A method as a program of fcode.
def fcodeProgram (env : ClassEnv) (f : Frame) (code : Bytes) : Fcode.Program where
  code
  symbols := env.pod.symbols
  literals := env.pod.literals
  vars r := (f.local? r).map Local.stack
  ret := f.ret

-- The fields of the literals of a pod hold its integers, each in its object.
def HoldsLiterals (pod : Pod) (statics : String → Option Jvm.Value) : Prop :=
  ∀ field v, pod.literals.get? field = some (.int v) →
    statics s!"{literalClass pod.name}.{field}:{Pod.LiteralKind.int.desc}" = some (.ref (.long v))

-- What the virtual machine runs a lowered method with.
structure Execution (env : ClassEnv) (f : Frame) (code : Bytes) (out : CodeBuffer)
    (c c₁ : OpenClass) (body : BodyState) (mc : MethodCode) (m : Machine) : Prop where
  lowered : Lowered env f code out c c₁ body mc
  frame : Frame.Consecutive 0 f.maxLocals f.regs.toList
  slots : f.maxLocals ≤ 0xFFFF
  formed : c.WellFormed env
  code_eq : m.code = mc.code.code
  constants : m.constants.Extends c₁.draft.pool.get?
  literals : HoldsLiterals env.pod m.statics

-- The virtual machine is where fcode is, and has what fcode has.
structure Matches (f : Frame) (mc : MethodCode) (s : Fcode.State) (j : Jvm.State) : Prop where
  pc : mc.reloc[s.pc]? = some (some j.pc)
  stack : j.stack = s.stack.map Fcode.Value.toJvm
  locals : f.Holds s.regs j.locals
  room : f.maxLocals ≤ j.locals.size

-- The machine goes on from a state to one that matches. On the way it stores to no register that
-- holds nothing there.
def Continues (f : Frame) (mc : MethodCode) (m : Machine) (j : Jvm.State) (s : Fcode.State) : Prop :=
  ∃ j', m.Reaches j j' ∧ f.Keeps s.regs j.locals j'.locals ∧ Matches f mc s j'

-- The machine is before the items of an instruction, as fcode is before the instruction.
structure Before (f : Frame) (code : Bytes) (out : CodeBuffer) (body : BodyState) (mc : MethodCode)
    (s : Fcode.State) (j : Jvm.State) (i : Instr) (own more : List (Item UInt16)) : Prop where
  matched : Matches f mc s j
  stands : body.Stands code out Relocation.mainScope j.pc (own ++ more)
  next : NotesNext (s.pc + i.size) more

-- The machine comes from a state to where the items stand, with a stack and locals.
def Arrives (body : BodyState) (code : Bytes) (out : CodeBuffer) (m : Machine) (j : Jvm.State)
    (stack : List Jvm.Value) (locals : Jvm.Locals) (items : List (Item UInt16)) : Prop :=
  ∃ pos, m.Reaches j ⟨pos, stack, locals⟩ ∧
    body.Stands code out Relocation.mainScope pos items

section Run

variable {env : ClassEnv} {f : Frame} {code : Bytes} {out : CodeBuffer} {c c₁ : OpenClass}
  {body : BodyState} {mc : MethodCode} {m : Machine} {j : Jvm.State} {stack stack' : List Jvm.Value}
  {locals locals' : Jvm.Locals} {rest : List (Item UInt16)} {q : Nat}

-- One instruction more.
theorem Arrives.step {x : Item UInt16} {i : Instruction}
    (h : Arrives body code out m j stack locals (x :: rest))
    (hx : ∀ l : Layout, (l.put x).scope = l.scope)
    (hstep : ∀ pos, body.Stands code out Relocation.mainScope pos (x :: rest) →
      m.step ⟨pos, stack, locals⟩ = m.exec ⟨pos, stack, locals⟩ (pos + (x.raw pos).length) i)
    (hexec : ∀ pos n, m.exec ⟨pos, stack, locals⟩ n i = some (.next ⟨n, stack', locals'⟩)) :
    Arrives body code out m j stack' locals' rest := by
  obtain ⟨pos, hreach, hs⟩ := h
  refine ⟨_, hreach.tail ?_, hs.tail hx⟩
  rw [hstep pos hs]
  exact hexec _ _

theorem Arrives.op (hx : Execution env f code out c c₁ body mc m) {o : UInt8} {i : Instruction}
    (h : Arrives body code out m j stack locals (.op o :: rest))
    (hi : Form.ofOp? o = some (.plain i))
    (hexec : ∀ pos n, m.exec ⟨pos, stack, locals⟩ n i = some (.next ⟨n, stack', locals'⟩)) :
    Arrives body code out m j stack' locals' rest :=
  h.step (fun _ => rfl)
    (fun _ hs => Machine.step_of_fetch hx.code_eq (hx.lowered.fetch_op hs hi) _ _) hexec

theorem Arrives.const (hx : Execution env f code out c c₁ body mc m) {o : UInt8} {r : UInt16}
    {i : UInt16 → Instruction} (h : Arrives body code out m j stack locals (.const o r :: rest))
    (hi : Form.ofOp? o = some (.pool i))
    (hexec : ∀ pos n, m.exec ⟨pos, stack, locals⟩ n (i r) = some (.next ⟨n, stack', locals'⟩)) :
    Arrives body code out m j stack' locals' rest :=
  h.step (fun _ => rfl)
    (fun _ hs => Machine.step_of_fetch hx.code_eq (hx.lowered.fetch_const hs hi) _ _) hexec

theorem Arrives.load (hx : Execution env f code out c c₁ body mc m) {t : StackType} {slot : UInt16}
    {v : Jvm.Value} (h : Arrives body code out m j stack locals (.load t slot :: rest))
    (hget : locals.get? slot.toNat = some v) (hkind : v.kind = .ofStack t) :
    Arrives body code out m j (v :: stack) locals rest := by
  refine h.step (fun _ => rfl)
    (fun _ hs => Machine.step_of_fetch hx.code_eq (hx.lowered.fetch_load hs) _ _) ?_
  intro pos n
  simp only [Machine.exec, hget, hkind, if_true]
  rfl

theorem Arrives.store (hx : Execution env f code out c c₁ body mc m) {t : StackType} {slot : UInt16}
    {v : Jvm.Value} (h : Arrives body code out m j (v :: stack) locals (.store t slot :: rest))
    (hset : locals.set? slot.toNat v = some locals') (hkind : v.kind = .ofStack t) :
    Arrives body code out m j stack locals' rest := by
  refine h.step (fun _ => rfl)
    (fun _ hs => Machine.step_of_fetch hx.code_eq (hx.lowered.fetch_store hs) _ _) ?_
  intro pos n
  simp only [Machine.exec, hset, hkind, if_true]
  rfl

-- What the main scope knows the method knows.
theorem Execution.reloc_eq (hx : Execution env f code out c c₁ body mc m) {q java : Nat}
    (h : (body.layout code out).reloc.getLocal Relocation.mainScope q = some java) :
    mc.reloc[q]? = some (some java) := by
  rw [hx.lowered.filled.main]
  exact Relocation.mainMap_eq_some_iff.mpr h

-- No scope is around the main one.
theorem Execution.reloc_of_finds (hx : Execution env f code out c c₁ body mc m) {q java : Nat}
    (h : (body.layout code out).reloc.Finds q Relocation.mainScope java) :
    mc.reloc[q]? = some (some java) := by
  cases h with
  | here h => exact hx.reloc_eq h
  | outer _ hparent _ =>
    have hv := body.layout_valid code out
    exact absurd (hv.parent_lt _ _ hparent) (Nat.not_lt_zero _)

-- The next instruction begins where the items of one end.
theorem Arrives.continues (hx : Execution env f code out c c₁ body mc m)
    {values : List Fcode.Value} {regs : UInt16 → Option Fcode.Value}
    (h : Arrives body code out m j (values.map Fcode.Value.toJvm) locals rest)
    (hnext : NotesNext q rest) (hlocals : f.Holds regs locals)
    (hkeeps : f.Keeps regs j.locals locals) (hroom : f.maxLocals ≤ locals.size) :
    Continues f mc m j ⟨q, values, regs⟩ := by
  obtain ⟨pos, hreach, hs⟩ := h
  exact ⟨_, hreach, hkeeps, hx.reloc_eq (hx.lowered.note_of_stands hs hnext), rfl, hlocals, hroom⟩

-- A jump goes to its target or on behind it.
theorem Arrives.branch (hx : Execution env f code out c c₁ body mc m) (taken : Bool) {o : UInt8}
    {t : UInt16} {i : Int → Instruction}
    (h : Arrives body code out m j stack locals (.jump .branch o t :: rest))
    (hi : Form.ofOp? o = some (.branch i))
    (hexec : ∀ pos n offset, m.exec ⟨pos, stack, locals⟩ n (i offset) =
      Jvm.State.branch ⟨pos, stack, locals⟩ n taken offset stack')
    (hnext : NotesNext q rest) :
    ∃ pos, m.Reaches j ⟨pos, stack', locals⟩ ∧
      mc.reloc[if taken then t.toNat else q]? = some (some pos) := by
  obtain ⟨pos, hreach, hs⟩ := h
  obtain ⟨offset, dest, hfetch, hfinds, hoffset⟩ := hx.lowered.fetch_jump hs hi
  have hstep : m.step ⟨pos, stack, locals⟩ =
      some (.next ⟨if taken then dest else pos + 3, stack', locals⟩) := by
    rw [Machine.step_of_fetch hx.code_eq hfetch, hexec]
    exact Jvm.State.branch_eq hoffset _ _ _
  refine ⟨_, hreach.tail hstep, ?_⟩
  cases taken with
  | true => exact hx.reloc_of_finds hfinds
  | false => exact hx.reloc_eq (hx.lowered.note_of_stands (hs.tail fun _ => rfl) hnext)

end Run

-- The integers of `sys` are neither bools nor arrays.
theorem sysInt_tests {t : TypeRef} (hpod : t.pod = "sys") (hname : t.name = "Int") :
    t.arrayElement? = none ∧ t.isBool = false ∧ t.isInt = true := by
  have harray : t.arrayElement? = none := by
    rw [TypeRef.arrayElement?, hpod]
    rfl
  have hstack : t.stack = if t.isNullable then .obj else .long := by
    unfold TypeRef.stack TypeRef.isSys
    rw [hpod, hname]
    rfl
  have hbit : ∀ name, t.hasSysBit name = decide (((if t.isNullable then TypeRef.nullableBit else 0) |||
      (if t.isGenericInstance then TypeRef.genericBit else 0) ||| TypeRef.sysBit "Int" |||
      TypeRef.primitiveBit (if t.isNullable then .obj else .long) ||| 0) &&&
        TypeRef.sysBit name ≠ 0) := by
    intro name
    unfold TypeRef.hasSysBit TypeRef.mask TypeRef.isSys
    rw [harray, hpod, hname, hstack]
    rfl
  refine ⟨harray, ?_, ?_⟩
  · rw [TypeRef.isBool, hbit]
    cases t.isNullable <;> cases t.isGenericInstance <;> decide
  · rw [TypeRef.isInt, hbit]
    cases t.isNullable <;> cases t.isGenericInstance <;> decide

-- A method of integers becomes one instruction, which computes what the method does.
theorem lookup?_intMethod {t : TypeRef} {name : String} {meth : Fcode.IntMethod}
    (hpod : t.pod = "sys") (hname : t.name = "Int") (h : Fcode.IntMethod.ofName? name = some meth) :
    ∃ o i, Intrinsic.lookup? t name = some (.ops [o]) ∧ Form.ofOp? o = some (.plain i) ∧
      ∀ stack stack', meth.run? stack = some stack' → ∀ (m : Machine) locals pos n,
        m.exec ⟨pos, stack.map Fcode.Value.toJvm, locals⟩ n i =
          some (.next ⟨n, stack'.map Fcode.Value.toJvm, locals⟩) := by
  obtain ⟨harray, hbool, hint⟩ := sysInt_tests hpod hname
  have hlookup : ∀ name, name ≠ "<new>" → name ≠ "<class>" →
      Intrinsic.lookup? t name = .ops <$> Intrinsic.intOps? name := by
    intro name hnew hclass
    rw [Intrinsic.lookup?, if_neg hnew, if_neg hclass, harray, hbool, hint]
    rfl
  have hunary : ∀ (g : Int64 → Int64) i, (∀ (m : Machine) a rest locals pos n,
        m.exec ⟨pos, .long a :: rest, locals⟩ n i = some (.next ⟨n, .long (g a) :: rest, locals⟩)) →
      ∀ stack stack', (Fcode.IntMethod.unary g).run? stack = some stack' →
        ∀ (m : Machine) locals pos n, m.exec ⟨pos, stack.map Fcode.Value.toJvm, locals⟩ n i =
          some (.next ⟨n, stack'.map Fcode.Value.toJvm, locals⟩) := by
    intro g i hi stack stack' happly m locals pos n
    unfold Fcode.IntMethod.run? at happly
    split at happly
    · rename_i heq
      cases heq
      cases happly
      exact hi _ _ _ _ _ _
    · rename_i heq
      cases heq
    · cases happly
  have hbinary : ∀ (g : Int64 → Int64 → Int64) i, (∀ (m : Machine) a b rest locals pos n,
        m.exec ⟨pos, .long b :: .long a :: rest, locals⟩ n i =
          some (.next ⟨n, .long (g a b) :: rest, locals⟩)) →
      ∀ stack stack', (Fcode.IntMethod.binary g).run? stack = some stack' →
        ∀ (m : Machine) locals pos n, m.exec ⟨pos, stack.map Fcode.Value.toJvm, locals⟩ n i =
          some (.next ⟨n, stack'.map Fcode.Value.toJvm, locals⟩) := by
    intro g i hi stack stack' happly m locals pos n
    unfold Fcode.IntMethod.run? at happly
    split at happly
    · rename_i heq
      cases heq
    · rename_i heq
      cases heq
      cases happly
      exact hi _ _ _ _ _ _ _
    · cases happly
  unfold Fcode.IntMethod.ofName? at h
  split at h <;> cases h <;> rw [hlookup _ (by decide) (by decide)]
  · exact ⟨lneg, .neg, rfl, rfl, hunary _ _ fun _ _ _ _ _ _ => rfl⟩
  · exact ⟨ladd, .arith .add, rfl, rfl, hbinary _ _ fun _ _ _ _ _ _ _ => rfl⟩
  · exact ⟨lsub, .arith .sub, rfl, rfl, hbinary _ _ fun _ _ _ _ _ _ _ => rfl⟩
  · exact ⟨lmul, .arith .mul, rfl, rfl, hbinary _ _ fun _ _ _ _ _ _ _ => rfl⟩
  · exact ⟨land, .arith .and, rfl, rfl, hbinary _ _ fun _ _ _ _ _ _ _ => rfl⟩
  · exact ⟨lor, .arith .or, rfl, rfl, hbinary _ _ fun _ _ _ _ _ _ _ => rfl⟩
  · exact ⟨lxor, .arith .xor, rfl, rfl, hbinary _ _ fun _ _ _ _ _ _ _ => rfl⟩

-- The jump behind a three-way comparison of longs is taken if they are in the relation, or are not.
theorem jumpOp_orderLong (rel : Relation) (sense : Bool) :
    ∃ cond, Form.ofOp? (if sense then rel.jumpOp else negateBranch rel.jumpOp) =
        some (.branch (.ifZero cond)) ∧
      ∀ a b, cond.holds (Jvm.orderLong a b) = decide (Fcode.relatesInt rel a b = sense) := by
  have horder : ∀ a b : Int64, a < b ∧ ¬b < a ∧ ¬b ≤ a ∧ a ≤ b ∧ a ≠ b ∧ Jvm.orderLong a b = -1 ∨
      a = b ∧ ¬a < b ∧ a ≤ b ∧ Jvm.orderLong a b = 0 ∨
      b < a ∧ ¬a < b ∧ ¬a ≤ b ∧ b ≤ a ∧ a ≠ b ∧ Jvm.orderLong a b = 1 := by
    intro a b
    unfold Jvm.orderLong
    simp only [Int64.lt_iff_toInt_lt, Int64.le_iff_toInt_le, ← Int64.toInt_inj, ne_eq]
    split
    · exact .inl ⟨by omega, by omega, by omega, by omega, by omega, rfl⟩
    · split
      · exact .inr (.inl ⟨by omega, by omega, by omega, rfl⟩)
      · exact .inr (.inr ⟨by omega, by omega, by omega, by omega, by omega, rfl⟩)
  cases rel <;> cases sense <;> refine ⟨_, rfl, ?_⟩ <;> intro a b <;>
    obtain ⟨h₁, h₂, h₃, h₄, h₅, h⟩ | ⟨rfl, h₁, h₂, h⟩ | ⟨h₁, h₂, h₃, h₄, h₅, h⟩ := horder a b <;>
    simp [Jvm.Cond.holds, Fcode.relatesInt, *]

-- The jump that compares two bools.
theorem ifInt_ofBool {rel : Relation} {a b r : Bool} (h : Fcode.relatesBool? rel a b = some r)
    (sense : Bool) :
    ∃ op equal, Comparison.direct? rel .bool .bool = some ([], op) ∧
      Form.ofOp? (if sense then op else negateBranch op) = some (.branch (.ifInt equal)) ∧
      ∀ (m : Machine) rest locals pos n offset,
        m.exec ⟨pos, .ofBool b :: .ofBool a :: rest, locals⟩ n (.ifInt equal offset) =
          Jvm.State.branch ⟨pos, .ofBool b :: .ofBool a :: rest, locals⟩ n (decide (r = sense))
            offset rest := by
  cases rel <;> cases h
  case eq =>
    refine ⟨ifIcmpeq, sense, rfl, by cases sense <;> rfl, ?_⟩
    intro m rest locals pos n offset
    cases a <;> cases b <;> cases sense <;> rfl
  case ne =>
    refine ⟨ifIcmpne, !sense, rfl, by cases sense <;> rfl, ?_⟩
    intro m rest locals pos n offset
    cases a <;> cases b <;> cases sense <;> rfl

section Turn

variable {env : ClassEnv} {f : Frame} {code : Bytes} {out : CodeBuffer} {c c₁ : OpenClass}
  {body : BodyState} {mc : MethodCode} {m : Machine} {s s' : Fcode.State} {j : Jvm.State}
  {i : Instr} {next : Following} {e e₁ : EmitState} {own more : List (Item UInt16)}

-- Lowering finds the types and methods that fcode finds.
theorem typeRefAt_eq_ok_iff {symbols : Pod.Symbols} {index : UInt16} {t : TypeRef} :
    typeRefAt symbols index = .ok t ↔ (symbols.typeRef index).toOption = some t := by
  unfold typeRefAt
  cases symbols.typeRef index <;> simp [Except.toOption]

theorem methodRefAt_eq_ok_iff {symbols : Pod.Symbols} {index : UInt16} {r : Pod.MethodRef} :
    methodRefAt symbols index = .ok r ↔ (symbols.methodRef index).toOption = some r := by
  unfold methodRefAt
  cases symbols.methodRef index <;> simp [Except.toOption]

-- The type that an instruction states.
theorem type?_fcodeProgram {index : UInt16} {t : TypeRef}
    (h : typeRefAt env.pod.symbols index = .ok t) :
    (fcodeProgram env f code).type? index = some t.stack := by
  have ht := typeRefAt_eq_ok_iff.mp h
  unfold Fcode.Program.type?
  rw [fcodeProgram, ht]
  rfl

theorem Before.arrives (h : Before f code out body mc s j i own more) :
    Arrives body code out m j (s.stack.map Fcode.Value.toJvm) j.locals (own ++ more) := by
  have harrives : Arrives body code out m j j.stack j.locals (own ++ more) :=
    ⟨j.pc, .refl, h.stands⟩
  rwa [h.matched.stack] at harrives

-- An instruction that stores to no register.
theorem Before.continues (hx : Execution env f code out c c₁ body mc m)
    (hat : Before f code out body mc s j i own more) {values : List Fcode.Value}
    (h : Arrives body code out m j (values.map Fcode.Value.toJvm) j.locals more) :
    Continues f mc m j ⟨s.pc + i.size, values, s.regs⟩ :=
  h.continues hx hat.next hat.matched.locals .refl hat.matched.room

theorem Execution.nop (hx : Execution env f code out c c₁ body mc m)
    (hat : Before f code out body mc s j i own more) (hown : Emits env f i next e false own e₁)
    (hop : i.op = .nop) : Continues f mc m j ⟨s.pc + i.size, s.stack, s.regs⟩ := by
  obtain rfl := hown.nop hop
  exact hat.continues hx hat.arrives

theorem Execution.loadBool (hx : Execution env f code out c c₁ body mc m)
    (hat : Before f code out body mc s j i own more) (hown : Emits env f i next e false own e₁)
    (b : Bool) (hop : i.op = if b then .loadTrue else .loadFalse) :
    Continues f mc m j ⟨s.pc + i.size, .bool b :: s.stack, s.regs⟩ := by
  obtain rfl := hown.loadBool b hop
  have hload : Arrives body code out m j ((.bool b :: s.stack).map Fcode.Value.toJvm) j.locals
      more :=
    hat.arrives.op hx (i := .const (if b then 1 else 0)) (by cases b <;> rfl) fun _ _ => rfl
  exact hat.continues hx hload

-- The slots of a frame are numbers of 16 bits.
theorem Execution.slot_toNat (hx : Execution env f code out c c₁ body mc m) {r : UInt16} {l : Local}
    (hl : f.local? r = some l) : l.slot.toUInt16.toNat = l.slot :=
  Frame.slot_toNat hx.frame hx.slots hl

theorem Execution.loadVar (hx : Execution env f code out c c₁ body mc m)
    (hat : Before f code out body mc s j i own more) (hown : Emits env f i next e false own e₁)
    (hop : i.op = .loadVar) {v : Fcode.Value} (hv : s.regs i.arg = some v) :
    Continues f mc m j ⟨s.pc + i.size, v :: s.stack, s.regs⟩ := by
  obtain ⟨l, hl, rfl⟩ := hown.loadVar hop
  obtain ⟨l', hl', hstack, hget⟩ := hat.matched.locals i.arg v hv
  rw [hl] at hl'
  cases hl'
  rw [← hx.slot_toNat hl] at hget
  have hload : Arrives body code out m j ((v :: s.stack).map Fcode.Value.toJvm) j.locals more :=
    hat.arrives.load hx hget (by rw [v.kind_toJvm, hstack])
  exact hat.continues hx hload

theorem Execution.storeVar (hx : Execution env f code out c c₁ body mc m)
    (hat : Before f code out body mc s j i own more) (hown : Emits env f i next e false own e₁)
    (hop : i.op = .storeVar) {v : Fcode.Value} {rest : List Fcode.Value}
    (hstack : s.stack = v :: rest) (hv : (f.local? i.arg).map Local.stack = some v.stack) :
    Continues f mc m j ⟨s.pc + i.size, rest, Function.update s.regs i.arg (some v)⟩ := by
  obtain ⟨l, hl, rfl⟩ := hown.storeVar hop
  rw [hl, Option.map_some, Option.some.injEq] at hv
  obtain ⟨locals, hset, hsize, hholds, hkeeps⟩ :=
    hat.matched.locals.store hx.frame hl hv hat.matched.room
  rw [← hx.slot_toNat hl] at hset
  have harrives := hat.arrives (m := m)
  rw [hstack] at harrives
  have hstore : Arrives body code out m j (rest.map Fcode.Value.toJvm) locals more :=
    Arrives.store hx harrives hset (by rw [v.kind_toJvm, hv])
  exact hstore.continues hx hat.next hholds hkeeps (hsize ▸ hat.matched.room)

theorem Execution.dup (hx : Execution env f code out c c₁ body mc m)
    (hat : Before f code out body mc s j i own more) (hown : Emits env f i next e false own e₁)
    (hop : i.op = .dup) {v : Fcode.Value} {rest : List Fcode.Value} (hstack : s.stack = v :: rest)
    (hv : (fcodeProgram env f code).type? i.arg = some v.stack) :
    Continues f mc m j ⟨s.pc + i.size, v :: v :: rest, s.regs⟩ := by
  obtain ⟨t, ht, rfl⟩ := hown.dup hop
  rw [type?_fcodeProgram ht, Option.some.injEq] at hv
  have harrives := hat.arrives (m := m)
  rw [hstack] at harrives
  have hdup : Arrives body code out m j ((v :: v :: rest).map Fcode.Value.toJvm) j.locals more := by
    rw [TypeRef.isWide, hv] at harrives
    cases v with
    | int v => exact harrives.op hx (i := .dup2) rfl fun _ _ => rfl
    | bool b => exact harrives.op hx (i := .dup) rfl fun _ _ => rfl
  exact hat.continues hx hdup

theorem Execution.pop (hx : Execution env f code out c c₁ body mc m)
    (hat : Before f code out body mc s j i own more) (hown : Emits env f i next e false own e₁)
    (hop : i.op = .pop) {v : Fcode.Value} {rest : List Fcode.Value} (hstack : s.stack = v :: rest)
    (hv : (fcodeProgram env f code).type? i.arg = some v.stack) :
    Continues f mc m j ⟨s.pc + i.size, rest, s.regs⟩ := by
  obtain ⟨t, ht, hitems⟩ := hown.pop hop
  rw [type?_fcodeProgram ht, Option.some.injEq] at hv
  have hvoid : t.isVoid = false := by
    rw [TypeRef.isVoid, hv]
    cases v <;> rfl
  obtain rfl := hitems hvoid
  have harrives := hat.arrives (m := m)
  rw [hstack] at harrives
  have hpop : Arrives body code out m j (rest.map Fcode.Value.toJvm) j.locals more := by
    rw [TypeRef.isWide, hv] at harrives
    cases v with
    | int v => exact harrives.op hx (i := .pop2) rfl fun _ _ => rfl
    | bool b => exact harrives.op hx (i := .pop) rfl fun _ _ => rfl
  exact hat.continues hx hpop

-- A method of integers is resolved to its instruction.
theorem computeCall_intMethod {index : UInt16} {kind : CallKind} (hkind : kind.allowsIntrinsic = true)
    {meth : Fcode.IntMethod} (h : (fcodeProgram env f code).intMethod? index = some meth) :
    ∃ o i, Resolver.computeCall env.pod.symbols index kind = .ok (.intrinsic (.ops [o])) ∧
      Form.ofOp? o = some (.plain i) ∧
      ∀ stack stack', meth.run? stack = some stack' → ∀ (m : Machine) locals pos n,
        m.exec ⟨pos, stack.map Fcode.Value.toJvm, locals⟩ n i =
          some (.next ⟨n, stack'.map Fcode.Value.toJvm, locals⟩) := by
  obtain ⟨ref, href, h⟩ := Option.bind_eq_some_iff.mp h
  obtain ⟨t, ht, h⟩ := Option.bind_eq_some_iff.mp h
  split at h
  · rename_i hint
    obtain ⟨o, i, hlookup, hi, happly⟩ := lookup?_intMethod hint.1 hint.2 h
    refine ⟨o, i, ?_, hi, happly⟩
    refine except_bind_eq_ok.mpr ⟨ref, methodRefAt_eq_ok_iff.mpr href, ?_⟩
    refine except_bind_eq_ok.mpr ⟨t, typeRefAt_eq_ok_iff.mpr ht, ?_⟩
    rw [if_pos hkind, hlookup]
    rfl
  · cases h

theorem Execution.call (hx : Execution env f code out c c₁ body mc m)
    (hat : Before f code out body mc s j i own more) (hown : Emits env f i next e false own e₁)
    (hfirst : Later env f c e.cls) (hop : i.op = .callStatic ∨ i.op = .callVirtual)
    {meth : Fcode.IntMethod} (hmeth : (fcodeProgram env f code).intMethod? i.arg = some meth)
    {values : List Fcode.Value} (hvalues : meth.run? s.stack = some values) :
    Continues f mc m j ⟨s.pc + i.size, values, s.regs⟩ := by
  obtain ⟨kind, hkind, hop⟩ : ∃ kind : CallKind, kind.allowsIntrinsic = true ∧
      (i.op = .callStatic ∧ kind = .static ∨ i.op = .callVirtual ∧ kind = .virtual) := by
    obtain hop | hop := hop
    · exact ⟨.static, rfl, .inl ⟨hop, rfl⟩⟩
    · exact ⟨.virtual, rfl, .inr ⟨hop, rfl⟩⟩
  obtain ⟨o, instr, hcall, hform, happly⟩ := computeCall_intMethod hkind hmeth
  obtain rfl := hown.call (hfirst.advances hx.formed).1 hop hcall
  have hcalled : Arrives body code out m j (values.map Fcode.Value.toJvm) j.locals more :=
    hat.arrives.op hx hform fun _ _ => happly _ _ hvalues _ _ _ _
  exact hat.continues hx hcalled

theorem Execution.loadInt (hx : Execution env f code out c c₁ body mc m)
    (hat : Before f code out body mc s j i own more) (hown : Emits env f i next e false own e₁)
    (hfirst : Later env f c e.cls) (hlast : Later env f e₁.cls c₁) (hop : i.op = .loadInt)
    {v : Int64} (hv : env.pod.literals.ints[i.arg.toNat]? = some v) :
    Continues f mc m j ⟨s.pc + i.size, .int v :: s.stack, s.regs⟩ := by
  have he := (hfirst.advances hx.formed).1
  have he₁ := (hown.advances he).1
  obtain ⟨field, getter, rfl, hfield, hgetter⟩ := hown.loadInt he hop
  -- The constants of the instruction are still there when the method is run.
  have hextends := hlast.advances.extends he₁
  have hfield := hx.constants.field? (hextends.field? hfield)
  have hgetter := hx.constants.method? (hextends.method? hgetter)
  have hstatic := hx.literals _ v (Pod.Literals.get?_int hv)
  have hobject : Arrives body code out m j
      (.ref (.long v) :: s.stack.map Fcode.Value.toJvm) j.locals
      (.const invokeVirtual getter :: more) := by
    refine hat.arrives.const hx (i := .getStatic) rfl ?_
    intro pos n
    simp only [Machine.exec, hfield, Option.bind_some, hstatic]
    rfl
  have hload : Arrives body code out m j ((.int v :: s.stack).map Fcode.Value.toJvm) j.locals
      more := by
    refine hobject.const hx (i := .invokeVirtual) rfl ?_
    intro pos n
    simp only [Machine.exec, hgetter, if_true]
    rfl
  exact hat.continues hx hload

theorem Execution.jump (hx : Execution env f code out c c₁ body mc m)
    (hat : Before f code out body mc s j i own more) (hown : Emits env f i next e false own e₁)
    (hop : i.op = .jump ∨ i.op = .leave) :
    Continues f mc m j ⟨i.arg.toNat, s.stack, s.regs⟩ := by
  have hbranch : branchItem? i = some (.jump .branch goto i.arg) := by
    unfold branchItem?
    obtain hop | hop := hop <;> rw [hop]
  obtain rfl := hown.branch hbranch
  obtain ⟨pos, hreach, hpc⟩ := hat.arrives.branch hx true (i := .goto) rfl
    (fun _ _ _ => rfl) hat.next
  exact ⟨_, hreach, .refl, hpc, rfl, hat.matched.locals, hat.matched.room⟩

theorem Execution.jumpIf (hx : Execution env f code out c c₁ body mc m)
    (hat : Before f code out body mc s j i own more) (hown : Emits env f i next e false own e₁)
    {sense b : Bool} (hop : Following.sense? i.op = some sense) {rest : List Fcode.Value}
    (hstack : s.stack = .bool b :: rest) :
    Continues f mc m j ⟨if b = sense then i.arg.toNat else s.pc + i.size, rest, s.regs⟩ := by
  obtain rfl := hown.branch (branchItem?_of_sense hop)
  have harrives := hat.arrives (m := m)
  rw [hstack] at harrives
  obtain ⟨pos, hreach, hpc⟩ := Arrives.branch hx (decide (b = sense))
    (i := .ifZero (if sense then .ne else .eq)) harrives (by cases sense <;> rfl)
    (by intros; cases b <;> cases sense <;> rfl) hat.next
  refine ⟨_, hreach, .refl, ?_, rfl, hat.matched.locals, hat.matched.room⟩
  simpa using hpc

theorem Execution.switch (hx : Execution env f code out c c₁ body mc m)
    (hat : Before f code out body mc s j i own more) (hown : Emits env f i next e false own e₁)
    (hi : Instr.decodeAt code s.pc = .ok i) (hop : i.op = .switch) {v : Int64}
    {rest : List Fcode.Value} (hstack : s.stack = .int v :: rest)
    (hv : -2 ^ 31 ≤ v.toInt ∧ v.toInt < 2 ^ 31) :
    Continues f mc m j ⟨Fcode.switchTarget i.args (s.pc + i.size) v, rest, s.regs⟩ := by
  have hbranch : branchItem? i = some (.switch i.args) := by
    unfold branchItem?
    rw [hop]
  obtain rfl := hown.branch hbranch
  obtain ⟨pos, hreach, hs⟩ := hat.arrives (m := m)
  rw [hstack] at hreach
  have hlength := Instr.decodeAt_length_lt hi
  obtain ⟨dest, hrun, hdest⟩ := hx.lowered.after?_switch hx.code_eq hs hlength v
    (rest.map Fcode.Value.toJvm) j.locals
  -- The value is a number of 32 bits, so its low bits are all of it.
  have hvalue : v.toInt32.toInt = v.toInt := by
    rw [Int64.toInt_toInt32]
    exact Int.bmod_eq_of_le (by omega) (by omega)
  rw [hvalue] at hdest
  refine ⟨_, hreach.trans (Machine.reaches_of_after? hrun), .refl, ?_, rfl, hat.matched.locals,
    hat.matched.room⟩
  cases hdest with
  | target hn ht hfinds =>
    rw [Fcode.switchTarget, if_pos hn, ht]
    exact hx.reloc_of_finds hfinds
  | behind hout =>
    have htarget : Fcode.switchTarget i.args (s.pc + i.size) v = s.pc + i.size := by
      unfold Fcode.switchTarget
      split
      · rw [List.getElem?_eq_none (by omega)]
      · rfl
    rw [htarget]
    exact hx.reloc_eq (hx.lowered.note_of_stands (hs.tail (Layout.scope_put_switch · _)) hat.next)

-- A comparison and the jump behind it, in one turn.
theorem Execution.pair (hx : Execution env f code out c c₁ body mc m) (hmatch : Matches f mc s j)
    {q : Nat} {sense r : Bool} {target : UInt16}
    (hown : Emits env f i (.jump q sense target) e true own e₁)
    (hs : body.Stands code out Relocation.mainScope j.pc (own ++ more)) {n : Nat}
    (hmore : NotesNext n more) {rel : Relation} (hop : relation? i.op = some rel)
    {t u : StackType} (ht : (fcodeProgram env f code).type? i.arg = some t)
    (hu : (fcodeProgram env f code).type? (i.args.getD 1 0) = some u) {rest : List Fcode.Value}
    (hcompare : Fcode.compare? rel t u s.stack = some (.bool r :: rest)) :
    Continues f mc m j ⟨if r = sense then target.toNat else n, rest, s.regs⟩ := by
  obtain ⟨cmp, hcmp, hits, -, -⟩ := hown.comparison hown.isComparison
  cases hcmp with
  | @relation rel' tref uref hop' htref huref =>
    rw [hop] at hop'
    cases hop'
    rw [type?_fcodeProgram htref] at ht
    rw [type?_fcodeProgram huref] at hu
    cases ht
    cases hu
    have harrives : ∀ {its : List (Item UInt16)}, own = .mark q :: its →
        Arrives body code out m j (s.stack.map Fcode.Value.toJvm) j.locals (its ++ more) := by
      rintro its rfl
      rw [← hmatch.stack]
      exact ⟨j.pc, .refl, hs.unmark⟩
    suffices hbranch : ∃ pos, m.Reaches j ⟨pos, rest.map Fcode.Value.toJvm, j.locals⟩ ∧
        mc.reloc[if decide (r = sense) then target.toNat else n]? = some (some pos) by
      obtain ⟨pos, hreach, hpc⟩ := hbranch
      exact ⟨_, hreach, .refl, by simpa using hpc, rfl, hmatch.locals, hmatch.room⟩
    rw [Comparison.relation] at hits
    unfold Fcode.compare? at hcompare
    split at hcompare
    · -- Two integers are compared first, and the jump tests the result.
      rename_i b a values ht hu hstack
      cases hcompare
      rw [ht, hu] at hits
      have hfirst := harrives (hits.eq_fused [lcmp])
      rw [hstack] at hfirst
      have hcompared : Arrives body code out m j
          (.int (Jvm.orderLong a b) :: rest.map Fcode.Value.toJvm) j.locals
          (.jump .branch (if sense then rel.jumpOp else negateBranch rel.jumpOp) target :: more) :=
        Arrives.op hx (i := .compareLong) hfirst rfl fun _ _ => rfl
      obtain ⟨cond, hform, hholds⟩ := jumpOp_orderLong rel sense
      refine hcompared.branch hx _ hform ?_ hmore
      intro pos n offset
      rw [← hholds]
      rfl
    · -- Two bools are compared by the jump itself.
      rename_i b a values ht hu hstack
      obtain ⟨result, hresult, hvalues⟩ := Option.map_eq_some_iff.mp hcompare
      cases hvalues
      obtain ⟨op, equal, hdirect, hform, hexec⟩ := ifInt_ofBool hresult sense
      rw [ht, hu, hdirect] at hits
      have hfirst := harrives (hits.eq_fused [])
      rw [hstack] at hfirst
      exact Arrives.branch hx _ hfirst hform (hexec m _ _) hmore
    · cases hcompare
  | same want hop' => cases want <;> rw [hop'] at hop <;> cases hop
  | null want hop' _ => cases want <;> rw [hop'] at hop <;> cases hop

end Turn

end PodCompiler.Lowering
