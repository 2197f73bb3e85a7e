import PodCompiler.Proofs.Lowering.KeptSlots
import PodCompiler.Proofs.Lowering.RepeatedBlocks
import PodCompiler.Proofs.Lowering.TwinScopes

namespace PodCompiler.Lowering

open ClassFile (CodeBuffer)
open ClassFile.Op
open Instr (Stream)

-- The items that begin a block: it calls itself with the exception stored, and other calls enter it
-- behind that.
def FinallySlots.subroutineItems (exception address : UInt16) : List (Item UInt16) :=
  [.onSlot astore exception, .hop jsr (3 + slotOpSize exception + 1).toUInt16,
    .onSlot aload exception, .op athrow, .store .obj address]

-- The slots of the method are the two behind the variables.
def FinallySlots.Given (f : Frame) (s : FinallySlots) : Prop :=
  f.maxLocals + 1 ≤ 0xFFFF ∧
    s.subroutine = some (f.maxLocals.toUInt16, (f.maxLocals + 1).toUInt16)

-- They are, or no slot is given out yet.
def FinallySlots.Paired (f : Frame) (s : FinallySlots) : Prop :=
  s.Given f ∨ s.subroutine = none ∧ s.extra = 0

section Emission

variable {env : ClassEnv} {f : Frame} {code : Bytes} {e e' : EmitState} {i : Instr}
  {next : Following} {fused : Bool} {its : List (Item UInt16)} {instrs : List Instr}

theorem FinallySlots.Paired.forSubroutine {s s' : FinallySlots} {slots : UInt16 × UInt16}
    (hs : s.Paired f) (h : s.forSubroutine f = .ok (slots, s')) :
    slots = (f.maxLocals.toUInt16, (f.maxLocals + 1).toUInt16) ∧ s'.Given f := by
  unfold FinallySlots.forSubroutine at h
  obtain ⟨hfits, hsome⟩ | ⟨hnone, hextra⟩ := hs
  · rw [hsome] at h
    cases h
    exact ⟨rfl, hfits, hsome⟩
  · rw [hnone] at h
    obtain ⟨⟨exception, s₁⟩, hfirst, h⟩ := except_bind_eq_ok.mp h
    obtain ⟨⟨address, s₂⟩, hsecond, h⟩ := except_bind_eq_ok.mp h
    cases h
    unfold alloc at hfirst hsecond
    dsimp only at hfirst hsecond
    rw [hextra] at hfirst
    split at hfirst <;> cases hfirst
    split at hsecond
    · rename_i hfits
      cases hsecond
      exact ⟨rfl, hfits.1, rfl⟩
    · cases hsecond

-- What begins a block.
theorem Emits.finallyStart_jsr (h : Emits env f i next e fused its e') (hop : i.op = .finallyStart)
    (hcalls : env.config.finallyStrategy = .subroutine) :
    ∃ slots, e.slots.forSubroutine f = .ok (slots, e'.slots) ∧
      its = FinallySlots.subroutineItems slots.1 slots.2 := by
  obtain ⟨rfl, s₁, c₁, h₁, rfl, hs, -⟩ := h.run (by unfold emitInstr; rw [hop])
  obtain ⟨env', s₂, c₂, h₂, hrun⟩ := BodyM.bind_eq_ok.mp h₁
  obtain ⟨rfl, rfl, rfl⟩ := BodyM.read_eq_ok.mp h₂
  rw [hcalls] at hrun
  obtain ⟨⟨exception, address⟩, s₃, c₃, h₃, hemit⟩ := BodyM.bind_eq_ok.mp hrun
  obtain ⟨fs, hslots, rfl, rfl⟩ := slots_eq_ok.mp h₃
  obtain ⟨js, hjs, rfl⟩ := BodyM.emit_eq_ok.mp hemit
  have hsame : js = FinallySlots.subroutineItems exception address := by
    obtain - | ⟨hstore, hjs⟩ := hjs
    cases hstore
    obtain - | ⟨hcall, hjs⟩ := hjs
    cases hcall
    obtain - | ⟨hload, hjs⟩ := hjs
    cases hload
    obtain - | ⟨hthrow, hjs⟩ := hjs
    cases hthrow
    obtain - | ⟨haddress, hjs⟩ := hjs
    cases haddress
    cases hjs
    rfl
  exact ⟨(exception, address), hs ▸ hslots, by simp [hsame]⟩

-- What ends it.
theorem Emits.finallyEnd_ret (h : Emits env f i next e fused its e') (hop : i.op = .finallyEnd)
    (hcalls : env.config.finallyStrategy = .subroutine) :
    ∃ slots, e.slots.forSubroutine f = .ok (slots, e'.slots) ∧
      its = [.onSlot ClassFile.Op.ret slots.2] := by
  obtain ⟨rfl, s₁, c₁, h₁, rfl, hs, -⟩ := h.run (by unfold emitInstr; rw [hop])
  obtain ⟨env', s₂, c₂, h₂, hrun⟩ := BodyM.bind_eq_ok.mp h₁
  obtain ⟨rfl, rfl, rfl⟩ := BodyM.read_eq_ok.mp h₂
  rw [hcalls] at hrun
  obtain ⟨⟨exception, address⟩, s₃, c₃, h₃, hemit⟩ := BodyM.bind_eq_ok.mp hrun
  obtain ⟨fs, hslots, rfl, rfl⟩ := slots_eq_ok.mp h₃
  obtain ⟨js, hjs, rfl⟩ := BodyM.emit_eq_ok.mp hemit
  cases hjs with
  | cons hj hnil =>
    cases hj
    cases hnil
    exact ⟨(exception, address), hs ▸ hslots, by simp⟩

-- The slots change only at the start and at the end of a block.
theorem Emits.slots_eq (h : Emits env f i next e fused its e') (hstart : i.op ≠ .finallyStart)
    (hend : i.op ≠ .finallyEnd) : e'.slots = e.slots := by
  by_cases hjump : i.op = .jumpFinally
  · cases hcalls : env.config.finallyStrategy with
    | inline => exact absurd hjump (h.op_ne hcalls)
    | subroutine =>
      obtain ⟨-, s₁, c₁, h₁, -, hs, -⟩ := h.run (by unfold emitInstr; rw [hjump])
      obtain ⟨env', s₂, c₂, h₂, hrun⟩ := BodyM.bind_eq_ok.mp h₁
      obtain ⟨rfl, rfl, rfl⟩ := BodyM.read_eq_ok.mp h₂
      rw [hcalls] at hrun
      obtain ⟨js, -, rfl⟩ := BodyM.emit_eq_ok.mp hrun
      exact hs
  · exact (h.steady hjump hstart hend).1

theorem Emits.slots_cases (h : Emits env f i next e fused its e')
    (hcalls : env.config.finallyStrategy = .subroutine) :
    e'.slots = e.slots ∨ ∃ slots, e.slots.forSubroutine f = .ok (slots, e'.slots) := by
  by_cases hstart : i.op = .finallyStart
  · obtain ⟨slots, hslots, -⟩ := h.finallyStart_jsr hstart hcalls
    exact .inr ⟨slots, hslots⟩
  by_cases hend : i.op = .finallyEnd
  · obtain ⟨slots, hslots, -⟩ := h.finallyEnd_ret hend hcalls
    exact .inr ⟨slots, hslots⟩
  exact .inl (h.slots_eq hstart hend)

theorem Emits.given (h : Emits env f i next e fused its e')
    (hcalls : env.config.finallyStrategy = .subroutine) (he : e.slots.Given f) :
    e'.slots.Given f := by
  obtain hsame | ⟨slots, hslots⟩ := h.slots_cases hcalls
  · rwa [hsame]
  · exact (FinallySlots.Paired.forSubroutine (.inl he) hslots).2

theorem Emits.paired (h : Emits env f i next e fused its e')
    (hcalls : env.config.finallyStrategy = .subroutine) (he : e.slots.Paired f) :
    e'.slots.Paired f := by
  obtain hsame | ⟨slots, hslots⟩ := h.slots_cases hcalls
  · rwa [hsame]
  · exact .inl (he.forSubroutine hslots).2

theorem Emission.given (h : Emission env f code e instrs its e')
    (hcalls : env.config.finallyStrategy = .subroutine) (he : e.slots.Given f) :
    e'.slots.Given f := by
  induction h with
  | nil => exact he
  | one hi _ ih | fused hi _ ih => exact ih (hi.given hcalls he)
  | copy _ hinline _ _ _ _ _ _ => cases hcalls.symm.trans hinline

theorem Emission.paired (h : Emission env f code e instrs its e')
    (hcalls : env.config.finallyStrategy = .subroutine) (he : e.slots.Paired f) :
    e'.slots.Paired f := by
  induction h with
  | nil => exact he
  | one hi _ ih | fused hi _ ih => exact ih (hi.paired hcalls he)
  | copy _ hinline _ _ _ _ _ _ => cases hcalls.symm.trans hinline

-- What is stored where no block begins is a variable.
theorem Emits.stores_lt (h : Emits env f i next e fused its e')
    (hf : Frame.Consecutive 0 f.maxLocals f.regs.toList)
    (hcalls : env.config.finallyStrategy = .subroutine) (hfits : f.maxLocals ≤ 0xFFFF)
    (hop : i.op ≠ .finallyStart) : ∀ x ∈ its, ∀ n ∈ x.stores, n < f.maxLocals := by
  have hnone : ∀ {items : List (Item UInt16)}, (∀ x ∈ items, x.stores = []) →
      ∀ x ∈ items, ∀ n ∈ x.stores, n < f.maxLocals := by
    intro items hitems x hx n hn
    rw [hitems x hx] at hn
    cases hn
  cases hs : namesSlot i.op with
  | false => exact hnone (h.stores_eq_nil hs)
  | true =>
    simp only [namesSlot, Bool.or_eq_true, decide_eq_true_eq] at hs
    obtain ((hload | hstore) | hstart) | hend := hs
    · obtain ⟨l, -, rfl⟩ := h.loadVar hload
      exact hnone (by simp [Item.stores])
    · obtain ⟨l, hl, rfl⟩ := h.storeVar hstore
      have hmem := List.mem_of_getElem? (Frame.mem_of_local? hl)
      obtain ⟨-, hstop⟩ := hf.bounds.2 l hmem
      have hwidth : l.stack.width = if l.stack.isWide then 2 else 1 := by
        cases l.stack <;> rfl
      rw [Local.stop, hwidth] at hstop
      intro x hx n hn
      obtain rfl := List.mem_singleton.mp hx
      rw [Item.stores, Frame.slot_toNat hf hfits hl] at hn
      split at hn
      · rename_i hwide
        rw [if_pos hwide] at hstop
        simp only [List.mem_cons, List.not_mem_nil, or_false] at hn
        omega
      · rename_i hone
        rw [if_neg hone] at hstop
        obtain rfl := List.mem_singleton.mp hn
        omega
    · exact absurd hstart hop
    · obtain ⟨slots, -, rfl⟩ := h.finallyEnd_ret hend hcalls
      refine hnone fun x hx => ?_
      obtain rfl := List.mem_singleton.mp hx
      exact storedAt_eq_nil rfl _

theorem Emission.stores_lt (h : Emission env f code e instrs its e')
    (hf : Frame.Consecutive 0 f.maxLocals f.regs.toList)
    (hcalls : env.config.finallyStrategy = .subroutine) (hfits : f.maxLocals ≤ 0xFFFF)
    (hop : ∀ i ∈ instrs, i.op ≠ .finallyStart) : ∀ x ∈ its, ∀ n ∈ x.stores, n < f.maxLocals := by
  have hmark : ∀ {p : Nat} {xs : List (Item UInt16)},
      (∀ x ∈ xs, ∀ n ∈ x.stores, n < f.maxLocals) →
      ∀ x ∈ .mark p :: xs, ∀ n ∈ x.stores, n < f.maxLocals :=
    fun hxs => List.forall_mem_cons.mpr ⟨by simp [Item.stores], hxs⟩
  induction h with
  | nil => simp
  | one hi _ ih =>
    obtain ⟨hown, hrest⟩ := List.forall_mem_cons.mp hop
    exact hmark (List.forall_mem_append.mpr ⟨hi.stores_lt hf hcalls hfits hown, ih hrest⟩)
  | fused hi _ ih =>
    obtain ⟨hown, hrest⟩ := List.forall_mem_cons.mp hop
    refine hmark (List.forall_mem_append.mpr ⟨hi.stores_lt hf hcalls hfits hown, ih ?_⟩)
    exact (List.forall_mem_cons.mp hrest).2
  | copy _ hinline _ _ _ _ _ _ => cases hcalls.symm.trans hinline

-- A block that begins among instructions stores into both slots.
theorem Emission.stores_of_block (h : Emission env f code e instrs its e')
    (hcalls : env.config.finallyStrategy = .subroutine) (he : e.slots.Paired f) {j : Instr}
    (hj : j ∈ instrs) (hop : j.op = .finallyStart) :
    (.onSlot astore f.maxLocals.toUInt16) ∈ its ∧
      (.store .obj (f.maxLocals + 1).toUInt16) ∈ its := by
  obtain ⟨xs, ys, rfl⟩ := List.append_of_mem hj
  obtain ⟨before, first, more, e₁, e₂, rfl, hbefore, hfirst, -⟩ :=
    h.split_one (by rw [hop]; rfl) (by rw [hop]; rfl) (.inl (by simp [hop]))
  obtain ⟨slots, hslots, rfl⟩ := hfirst.finallyStart_jsr hop hcalls
  obtain ⟨rfl, -⟩ := (hbefore.paired hcalls he).forSubroutine hslots
  constructor <;> simp [FinallySlots.subroutineItems]

end Emission

-- The code of a block: where it starts, where calls enter it, its own instructions, and where it
-- goes back.
structure SubroutineCode where
  start : Nat
  entry : Nat
  starts : List Nat
  back : Nat

namespace SubroutineCode

-- The block stores the exception and calls itself, to throw the exception again when that is back.
-- What enters it stores where it came from.
structure Spelled (b : SubroutineCode) (code : Bytes) (exception address : UInt16) : Prop where
  catches : code.Spells b.start ((Item.onSlot astore exception).raw b.start)
  calls : code[b.start + FinallySlots.slotOpSize exception]? = some jsr ∧
    (b.start + FinallySlots.slotOpSize exception : Nat) +
      (word2 code (b.start + FinallySlots.slotOpSize exception + 1)).toInt16.toInt = b.entry
  rethrows : code.Spells (b.start + FinallySlots.slotOpSize exception + 3)
    ((Item.onSlot aload exception).raw b.start ++ [athrow])
  enters : code.Spells b.entry (Item.storeRaw .obj address)
  own : Walk code (b.entry + (Item.storeRaw .obj address).length) b.starts b.back
  returns : code.Spells b.back ((Item.onSlot ClassFile.Op.ret address).raw b.back)

-- No instruction of the block stores into a slot.
def Keeps (b : SubroutineCode) (code : Bytes) (slot : UInt16) : Prop :=
  ∀ p ∈ b.starts, slot.toNat ∉ stored code p

-- An instruction of the block calls another one.
def Calls (b : SubroutineCode) (code : Bytes) (b' : SubroutineCode) : Prop :=
  ∃ p ∈ b.starts, code[p]? = some jsr ∧ p + (word2 code (p + 1)).toInt16.toInt = b'.entry

end SubroutineCode

-- A finally block of a method, from its start to its end.
def FinallyBlock (code : Bytes) (instrs : List Instr) (q stop : Nat) : Prop :=
  (∃ j ∈ instrs, j.op = .finallyStart ∧ j.pos = q) ∧
    Instr.findFinallyEnd code 0 (q + 1) = .ok (some stop)

-- The blocks that run between a call of one and its return: it, and those that are called there.
def RunsBlocksOf (code : Bytes) (instrs : List Instr) (bytes : Bytes)
    (place : Nat → SubroutineCode) : Nat → Nat → Prop :=
  Relation.ReflTransGen fun q r =>
    (∃ stop, FinallyBlock code instrs r stop) ∧ (place q).Calls bytes (place r)

-- Another block begins in it.
def NestsBlock (instrs : List Instr) (q stop : Nat) : Prop :=
  ∃ j ∈ instrs, j.op = .finallyStart ∧ q < j.pos ∧ j.pos < stop

section Blocks

variable {env : ClassEnv} {f : Frame} {code : Bytes} {out : CodeBuffer} {c c₁ : OpenClass}
  {body : BodyState} {mc : MethodCode} {q stop : Nat} {instrs : List Instr}

-- Items stand at one position only.
theorem BodyState.Stands.unique {s s' pos pos' : Nat} {items : List (Item UInt16)}
    (h : body.Stands code out s pos items) (h' : body.Stands code out s' pos' items) :
    s = s' ∧ pos = pos' := by
  obtain ⟨pre, hitems, rfl, rfl⟩ := h
  obtain ⟨pre', hitems', rfl, rfl⟩ := h'
  rw [hitems] at hitems'
  rw [List.append_cancel_right hitems']
  exact ⟨rfl, rfl⟩

-- The instructions in a block are those at the positions in it.
theorem Stream.mem_inner_iff {start : Nat} {xs inner zs : List Instr} {i j k : Instr}
    (h : Stream code stop start (xs ++ j :: (inner ++ k :: zs))) :
    i ∈ inner ↔ i ∈ xs ++ j :: (inner ++ k :: zs) ∧ j.pos < i.pos ∧ i.pos < k.pos := by
  have hsorted := h.pairwise.imp (S := fun a b => a.pos < b.pos) fun {a b} hle => by
    have := a.size_pos
    omega
  rw [List.pairwise_append, List.pairwise_cons, List.pairwise_append, List.pairwise_cons] at hsorted
  obtain ⟨-, ⟨hj, -, ⟨hk, -⟩, hinner⟩, hxs⟩ := hsorted
  constructor
  · intro hi
    exact ⟨by simp [hi], hj i (by simp [hi]), hinner i hi k (by simp)⟩
  · rintro ⟨hi, hlo, hhi⟩
    simp only [List.mem_append, List.mem_cons] at hi
    obtain hi | rfl | hi | rfl | hi := hi
    · have := hxs i hi j (by simp)
      omega
    · omega
    · exact hi
    · omega
    · have := hk i hi
      omega

theorem not_nestsBlock_iff {start : Nat} {xs inner zs : List Instr} {j k : Instr}
    (h : Stream code stop start (xs ++ j :: (inner ++ k :: zs))) :
    ¬NestsBlock (xs ++ j :: (inner ++ k :: zs)) j.pos k.pos ↔
      ∀ i ∈ inner, i.op ≠ .finallyStart := by
  constructor
  · intro hnests i hi hop
    obtain ⟨hmem, hlo, hhi⟩ := (Stream.mem_inner_iff h).mp hi
    exact hnests ⟨i, hmem, hop, hlo, hhi⟩
  · rintro hnone ⟨i, hi, hop, hlo, hhi⟩
    exact hnone i ((Stream.mem_inner_iff h).mpr ⟨hi, hlo, hhi⟩) hop

-- What is before the entry of a block.
def FinallySlots.entryBehind (exception : UInt16) (start : Nat) : Nat :=
  start + slotOpSize exception + 3 + slotOpSize exception + 1

theorem FinallySlots.Given.entryBehind_eq {s : FinallySlots} (h : s.Given f) (start : Nat) :
    entryBehind f.maxLocals.toUInt16 start = start + s.prologue := by
  unfold entryBehind slotOpSize prologue
  rw [h.2]
  dsimp only
  split <;> rfl

theorem length_slotRaw_eq (o : UInt8) (slot : UInt16) (pos : Nat) :
    ((Item.onSlot o slot).raw pos).length = FinallySlots.slotOpSize slot :=
  Item.length_slotRaw o slot pos

-- What is before the instructions of a block: it stores the exception, calls itself over what throws
-- the exception again, and stores at its entry, behind that, where the call came from.
structure SubroutineCode.Prologue (code : Bytes) (exception address : UInt16) (start entry : Nat) :
    Prop where
  entry_eq : entry = FinallySlots.entryBehind exception start
  catches : code.Spells start ((Item.onSlot astore exception).raw start)
  calls : code[start + FinallySlots.slotOpSize exception]? = some jsr ∧
    (start + FinallySlots.slotOpSize exception : Nat) +
      (word2 code (start + FinallySlots.slotOpSize exception + 1)).toInt16.toInt = entry
  rethrows : code.Spells (start + FinallySlots.slotOpSize exception + 3)
    ((Item.onSlot aload exception).raw start ++ [athrow])
  enters : code.Spells entry (Item.storeRaw .obj address)

-- The items that begin a block are its code up to its own instructions.
theorem Lowered.prologue_start (hl : Lowered env f code out c c₁ body mc) {s pos : Nat}
    {exception address : UInt16} {rest : List (Item UInt16)}
    (hx : body.Stands code out s pos (FinallySlots.subroutineItems exception address ++ rest)) :
    body.Stands code out s
        (FinallySlots.entryBehind exception pos + (Item.storeRaw .obj address).length) rest ∧
      SubroutineCode.Prologue mc.code.code exception address pos
        (FinallySlots.entryBehind exception pos) := by
  have hcall := hx.tail fun _ => rfl
  rw [length_slotRaw_eq] at hcall
  have hload := hcall.tail fun _ => rfl
  have hthrow := hload.tail fun _ => rfl
  rw [length_slotRaw_eq] at hthrow
  have hstore := hthrow.tail fun _ => rfl
  refine ⟨hstore.tail fun _ => rfl, ?_⟩
  obtain ⟨hjsr, hdistance⟩ := Bytes.spells_cons.mp (hl.spells hcall rfl)
  refine ⟨rfl, hl.spells hx rfl, ⟨hjsr, ?_⟩, ?_, hl.spells hstore rfl⟩
  · have hsmall : FinallySlots.slotOpSize exception ≤ 4 := by
      unfold FinallySlots.slotOpSize
      split <;> decide
    have hnat : (3 + FinallySlots.slotOpSize exception + 1).toUInt16.toNat =
        3 + FinallySlots.slotOpSize exception + 1 :=
      Nat.mod_eq_of_lt (by omega)
    rw [word2_of_spells (by omega) hdistance, hnat]
    change ((pos + _ : Nat) : Int) + _ = ((FinallySlots.entryBehind exception pos : Nat) : Int)
    unfold FinallySlots.entryBehind
    omega
  · refine Bytes.spells_append.mpr ⟨hl.spells hload rfl, ?_⟩
    rw [length_slotRaw_eq]
    exact hl.spells hthrow rfl

-- With the instructions of the block behind it, and its way back, that is the code of the block.
theorem SubroutineCode.Prologue.spelled {bytes : Bytes} {exception address : UInt16}
    {start entry back : Nat} {starts : List Nat}
    (h : Prologue bytes exception address start entry)
    (hown : Walk bytes (entry + (Item.storeRaw .obj address).length) starts back)
    (hreturns : bytes.Spells back ((Item.onSlot ClassFile.Op.ret address).raw back)) :
    Spelled ⟨start, entry, starts, back⟩ bytes exception address :=
  ⟨h.catches, h.calls, h.rethrows, h.enters, hown, hreturns⟩

-- The instructions of a block leave its slots as they are, unless another one begins among them.
theorem Emission.keeps_iff {e e' : EmitState} {inner : List Instr} {own rest : List (Item UInt16)}
    {s pos : Nat} {slot : UInt16} (h : Emission env f code e inner own e')
    (hl : Lowered env f code out c c₁ body mc)
    (hf : Frame.Consecutive 0 f.maxLocals f.regs.toList)
    (hcalls : env.config.finallyStrategy = .subroutine) (hgiven : e.slots.Given f)
    (hx : body.Stands code out s pos (own ++ rest)) (htidy : Item.isTidy (own ++ rest) = true)
    (hslot : slot = f.maxLocals.toUInt16 ∨ slot = (f.maxLocals + 1).toUInt16) :
    (∀ p ∈ Item.allStarts pos own, slot.toNat ∉ stored mc.code.code p) ↔
      ∀ i ∈ inner, i.op ≠ .finallyStart := by
  have hfits := hgiven.1
  constructor
  · intro hkeeps i hi hop
    obtain ⟨hexception, haddress⟩ := h.stores_of_block hcalls (.inl hgiven) hi hop
    have hlost : ∀ x ∈ own, x.stores = [slot.toNat] → False := by
      intro x hx' hstores
      obtain ⟨p, hp, hstored⟩ := hl.exists_start_of_stores hx htidy hx' (by simp [hstores])
      exact hkeeps p hp (by simp [hstored, hstores])
    obtain rfl | rfl := hslot
    · exact hlost _ hexception rfl
    · exact hlost _ haddress rfl
  · intro hnone p hp hmem
    obtain ⟨x, hx', hstored⟩ := hl.exists_stores_of_start hx htidy hp
    rw [hstored] at hmem
    have hlt := h.stores_lt hf hcalls (by omega) hnone x hx' _ hmem
    have hlow : f.maxLocals.toUInt16.toNat = f.maxLocals := Nat.mod_eq_of_lt (by omega)
    have hhigh : (f.maxLocals + 1).toUInt16.toNat = f.maxLocals + 1 := Nat.mod_eq_of_lt (by omega)
    obtain rfl | rfl := hslot <;> omega

-- The code of the block from `q` to `stop`.
structure SubroutineCode.IsBlock (b : SubroutineCode) (f : Frame) (r : Relocation) (bytes : Bytes)
    (instrs : List Instr) (q stop : Nat) : Prop where
  start : r.getLocal Relocation.mainScope q = some b.start
  back : r.getLocal Relocation.mainScope stop = some b.back
  entry_eq : b.entry = FinallySlots.entryBehind f.maxLocals.toUInt16 b.start
  spelled : b.Spelled bytes f.maxLocals.toUInt16 (f.maxLocals + 1).toUInt16
  exception : b.Keeps bytes f.maxLocals.toUInt16 ↔ ¬NestsBlock instrs q stop
  address : b.Keeps bytes (f.maxLocals + 1).toUInt16 ↔ ¬NestsBlock instrs q stop

-- A block of a body, in the code.
theorem Lowered.exists_subroutine (hl : Lowered env f code out c c₁ body mc)
    (hc : c.WellFormed env) (hf : Frame.Consecutive 0 f.maxLocals f.regs.toList)
    (hcalls : env.config.finallyStrategy = .subroutine)
    (hsize : mc.code.code.size ≤ CodeBuffer.maxSize) (hs : Stream code code.size 0 instrs)
    (hblock : FinallyBlock code instrs q stop) :
    body.finallies.Given f ∧ ∃ b : SubroutineCode,
      b.IsBlock f (body.layout code out).reloc mc.code.code instrs q stop := by
  obtain ⟨⟨j, hj, hop, rfl⟩, hend⟩ := hblock
  obtain ⟨instrs', its, hs', hder, hitems⟩ := items_of_emitBody hl.emits
  obtain rfl := Stream.unique hs hs'
  obtain ⟨xs, inner, k, zs, rfl, rfl, hkop, -, hxs, hinner, -⟩ :=
    Stream.exists_block hs hj hop hend
  cases hder.cut hop hkop with
  | @intro before _ own _ behind e₁ e₂ e₃ e₄ hbefore hfirst hown hlast hbehind =>
    obtain ⟨slots, hslots, rfl⟩ := hfirst.finallyStart_jsr hop hcalls
    obtain ⟨rfl, hgiven⟩ := (hbefore.paired hcalls (.inr ⟨rfl, rfl⟩)).forSubroutine hslots
    obtain ⟨slots', hslots', rfl⟩ := hlast.finallyEnd_ret hkop hcalls
    obtain ⟨rfl, hlater⟩ := FinallySlots.Paired.forSubroutine (.inl (hown.given hcalls hgiven)) hslots'
    refine ⟨hbehind.given hcalls hlater, ?_⟩
    have hgoes : body.Goes code out ((Layout.start out code.size).puts before)
        (.mark j.pos :: (FinallySlots.subroutineItems f.maxLocals.toUInt16
          (f.maxLocals + 1).toUInt16 ++ (own ++ Item.mark k.pos ::
            .onSlot ClassFile.Op.ret (f.maxLocals + 1).toUInt16 ::
              (behind ++ [Item.mark code.size])))) :=
      ⟨before, by rw [hitems]; simp, rfl⟩
    have hmain : ((Layout.start out code.size).puts before).scope = Relocation.mainScope := by
      obtain ⟨ps, hps, -⟩ := hbefore.marked hxs (Layout.valid_start out code.size)
      exact hps.scope
    generalize (Layout.start out code.size).puts before = l at hgoes hmain
    have hstart := hgoes.note hl.emits ⟨_, _, rfl, .inl rfl⟩
    rw [hmain] at hstart
    have hrest := hgoes.next.behind.behind
    have hend := hrest.note hl.emits ⟨_, _, rfl, .inl rfl⟩
    have hscope : (((l.put (.mark j.pos)).puts (FinallySlots.subroutineItems f.maxLocals.toUInt16
        (f.maxLocals + 1).toUInt16)).puts own).scope = Relocation.mainScope := by
      obtain ⟨ps, hps, -⟩ := hown.marked hinner hgoes.next.behind.valid
      exact hps.scope.trans hmain
    rw [hscope] at hend
    have htidy := (tidy_of_emitBody hl.emits hc : Item.isTidy body.items.toList = true)
    obtain ⟨pre, hpre, -⟩ := hgoes.next.behind
    rw [hpre] at htidy
    have htidy := Item.isTidy_of_append htidy
    obtain ⟨hfirst', hprologue⟩ := hl.prologue_start hgoes.next.stands
    obtain ⟨s', back, hback, hsegment⟩ := hl.exists_segment hsize hfirst' htidy
    obtain ⟨-, rfl⟩ := hback.unique hrest.stands
    have hiff := fun slot
        (hslot : slot = f.maxLocals.toUInt16 ∨ slot = (f.maxLocals + 1).toUInt16) =>
      (hown.keeps_iff hl hf hcalls hgiven hfirst' htidy hslot).trans (not_nestsBlock_iff hs).symm
    exact ⟨⟨_, _, _, _⟩, hstart, hend, rfl,
      hprologue.spelled hsegment.walk (hl.spells hback.unmark rfl), hiff _ (.inl rfl),
      hiff _ (.inr rfl)⟩

-- An instruction that runs a block calls its entry.
theorem Lowered.call_enters (hl : Lowered env f code out c c₁ body mc)
    (hcalls : env.config.finallyStrategy = .subroutine) (hs : Stream code code.size 0 instrs)
    (hgiven : body.finallies.Given f) {i : Instr} (hi : i ∈ instrs) (hop : i.op = .jumpFinally)
    {start : Nat} (hstart : (body.layout code out).reloc.getLocal Relocation.mainScope
      i.arg.toNat = some start) :
    ∃ p : Nat, (body.layout code out).reloc.getLocal Relocation.mainScope i.pos = some p ∧
      mc.code.code[p]? = some jsr ∧ p + (word2 mc.code.code (p + 1)).toInt16.toInt =
        FinallySlots.entryBehind f.maxLocals.toUInt16 start := by
  obtain ⟨instrs', its, hs', hder, hitems⟩ := items_of_emitBody hl.emits
  obtain rfl := Stream.unique hs hs'
  obtain ⟨xs, ys, rfl⟩ := List.append_of_mem hi
  obtain ⟨before, first, more, e₁, e₂, rfl, hbefore, hfirst, -⟩ :=
    hder.split_one (by rw [hop]; rfl) (by rw [hop]; rfl) (.inr hcalls)
  obtain rfl := hfirst.branch (b := .jump .finally_ jsr i.arg) (by simp [branchItem?, hop])
  have hgoes : body.Goes code out ((Layout.start out code.size).puts before)
      (.mark i.pos :: .jump .finally_ jsr i.arg :: (more ++ [Item.mark code.size])) :=
    ⟨before, by rw [hitems]; simp, rfl⟩
  have hmain : ((Layout.start out code.size).puts before).scope = Relocation.mainScope := by
    obtain ⟨ps, hps, -⟩ := hbefore.marked (Stream.before hs) (Layout.valid_start out code.size)
    exact hps.scope
  generalize (Layout.start out code.size).puts before = l at hgoes hmain
  have hknown := hgoes.note hl.emits ⟨_, _, rfl, .inl rfl⟩
  have hstands := hgoes.stands.unmark
  obtain ⟨offset, hstored, java, hfinds, hoffset⟩ :=
    hl.reaches hstands (List.mem_singleton_self _)
  rw [hmain] at hknown hfinds
  obtain rfl := hfinds.unique (.here hstart)
  obtain ⟨w, hw, rfl⟩ := Option.map_eq_some_iff.mp hstored
  refine ⟨_, hknown, hl.getElem?_jump hstands, ?_⟩
  rw [word2, hw, hgiven.entryBehind_eq]
  exact hoffset

-- What is between the store of the return address of a block and the instruction that goes back
-- leaves that address, unless another block begins there; and what runs between the store of the
-- exception and the place that throws it again, with the blocks that are called on the way, leaves
-- the exception, unless another block begins in one of them.
theorem subroutine_slots_kept_iff {attrs : Pod.Attributes} {c' : OpenClass} {owner : String}
    {d : Pod.MethodDef} {mode : SelfMode} {frame : Frame}
    (hframe : Frame.forMethod env.pod.symbols owner d mode = .ok frame) {ret : StackType}
    (hf : f = frame.withRet ret) (hc : c.WellFormed env)
    (hcalls : env.config.finallyStrategy = .subroutine)
    (h : lowerCode f code attrs out env c = .ok mc c')
    (hsize : mc.code.code.size ≤ CodeBuffer.maxSize) :
    ∃ body c₁ instrs, emitBody f code {} env c = .ok ((), body) c₁ ∧
      Instr.disassemble code = .ok instrs ∧ ∃ place : Nat → SubroutineCode,
      ∀ q stop, FinallyBlock code instrs q stop →
        (body.layout code out).reloc.getLocal Relocation.mainScope q = some (place q).start ∧
        (body.layout code out).reloc.getLocal Relocation.mainScope stop = some (place q).back ∧
        (place q).Spelled mc.code.code f.maxLocals.toUInt16 (f.maxLocals + 1).toUInt16 ∧
        (∀ i ∈ instrs, i.op = .jumpFinally → i.arg.toNat = q → ∃ p : Nat,
          (body.layout code out).reloc.getLocal Relocation.mainScope i.pos = some p ∧
          mc.code.code[p]? = some jsr ∧
          p + (word2 mc.code.code (p + 1)).toInt16.toInt = (place q).entry) ∧
        ((place q).Keeps mc.code.code (f.maxLocals + 1).toUInt16 ↔ ¬NestsBlock instrs q stop) ∧
        ((∀ r, RunsBlocksOf code instrs mc.code.code place q r →
            (place r).Keeps mc.code.code f.maxLocals.toUInt16) ↔
          ∀ r stop', RunsBlocksOf code instrs mc.code.code place q r →
            FinallyBlock code instrs r stop' → ¬NestsBlock instrs r stop') := by
  have hconsecutive : Frame.Consecutive 0 f.maxLocals f.regs.toList := by
    have hslots := Frame.consecutive_forMethod hframe
    rw [hf]
    exact hslots
  obtain ⟨body, c₁, hl⟩ := lowered_of_lowerCode h
  obtain ⟨instrs, its, hs, -, -⟩ := items_of_emitBody hl.emits
  refine ⟨body, c₁, instrs, hl.emits, Instr.disassemble_eq_ok_iff.mpr hs, ?_⟩
  have hblocks : ∀ q, ∃ b : SubroutineCode, ∀ stop, FinallyBlock code instrs q stop →
      b.IsBlock f (body.layout code out).reloc mc.code.code instrs q stop := by
    intro q
    by_cases hq : ∃ stop, FinallyBlock code instrs q stop
    · obtain ⟨stop, hblock⟩ := hq
      obtain ⟨-, b, hb⟩ := hl.exists_subroutine hc hconsecutive hcalls hsize hs hblock
      refine ⟨b, fun stop' hblock' => ?_⟩
      have hsame := hblock'.2.symm.trans hblock.2
      simp only [Except.ok.injEq, Option.some.injEq] at hsame
      exact hsame ▸ hb
    · exact ⟨⟨0, 0, [], 0⟩, fun stop hblock => absurd ⟨stop, hblock⟩ hq⟩
  choose place hplace using hblocks
  refine ⟨place, fun q stop hblock => ?_⟩
  have hb := hplace q stop hblock
  obtain ⟨hgiven, -⟩ := hl.exists_subroutine hc hconsecutive hcalls hsize hs hblock
  refine ⟨hb.start, hb.back, hb.spelled, ?_, hb.address, ?_⟩
  · rintro i hi hop rfl
    rw [hb.entry_eq]
    exact hl.call_enters hcalls hs hgiven hi hop hb.start
  · constructor
    · intro hkeeps r stop' hruns hblock'
      exact (hplace r stop' hblock').exception.mp (hkeeps r hruns)
    · intro hnests r hruns
      have hblock' : ∃ stop', FinallyBlock code instrs r stop' := by
        cases hruns with
        | refl => exact ⟨stop, hblock⟩
        | tail _ hlast => exact hlast.1
      obtain ⟨stop', hblock'⟩ := hblock'
      exact (hplace r stop' hblock').exception.mpr (hnests r stop' hruns hblock')

end Blocks

-- A finally block that has a try with a finally block of its own:
--    0 JumpFinally 6     7 JumpFinally 13    14 FinallyEnd
--    3 Leave 16         10 Leave 15          15 FinallyEnd
--    6 FinallyStart     13 FinallyStart      16 ReturnVoid
def nestedFinally : Bytes :=
  #[53, 0, 6, 52, 0, 16, 57, 53, 0, 13, 52, 0, 15, 57, 58, 58, 42]

def nestedFinallyInstrs : List Instr :=
  [⟨0, .jumpFinally, [6]⟩, ⟨3, .leave, [16]⟩, ⟨6, .finallyStart, []⟩, ⟨7, .jumpFinally, [13]⟩,
    ⟨10, .leave, [15]⟩, ⟨13, .finallyStart, []⟩, ⟨14, .finallyEnd, []⟩, ⟨15, .finallyEnd, []⟩,
    ⟨16, .returnVoid, []⟩]

-- Both tries have their block as a handler.
def nestedFinallyMethod : Pod.MethodDef where
  name := "m"
  flags := Pod.Flag.static_
  ret := 0
  inheritedRet := 0
  maxStack := 0
  paramCount := 0
  localCount := 0
  vars := #[]
  code := nestedFinally
  attrs := { items := #[("ErrTable", #[0, 2, 0, 7, 0, 13, 0, 13, 0, 0, 0, 0, 0, 6, 0, 6, 0, 0])] }

theorem disassemble_nestedFinally : Instr.disassemble nestedFinally = .ok nestedFinallyInstrs := by
  decide +kernel

theorem finallyBlock_nestedFinally : FinallyBlock nestedFinally nestedFinallyInstrs 6 15 ∧
    FinallyBlock nestedFinally nestedFinallyInstrs 13 14 :=
  ⟨⟨by decide, by decide +kernel⟩, ⟨by decide, by decide +kernel⟩⟩

-- Block 6 comes first; the block inside it is at 21.
theorem exists_lowerCode_nestedFinally : ∃ mc c',
    lowerCode bareFrame nestedFinally nestedFinallyMethod.attrs {} subroutineEnv bareClass =
      .ok mc c' ∧ mc.code.code =
        #[168, 0, 14, 167, 0, 31, 58, 0, 168, 0, 6, 25, 0, 191, 76, 168, 0, 14, 167, 0, 14,
          58, 0, 168, 0, 6, 25, 0, 191, 76, 169, 1, 169, 1, 177] := by
  have hrun : (result? (lowerCode bareFrame nestedFinally nestedFinallyMethod.attrs {}
      subroutineEnv bareClass)).map (fun mc => mc.code.code) = some
        #[168, 0, 14, 167, 0, 31, 58, 0, 168, 0, 6, 25, 0, 191, 76, 168, 0, 14, 167, 0, 14,
          58, 0, 168, 0, 6, 25, 0, 191, 76, 169, 1, 169, 1, 177] := by
    decide +kernel
  obtain ⟨mc, hmc, hcode⟩ := Option.map_eq_some_iff.mp hrun
  obtain ⟨mc', c', h⟩ := exists_of_result? (Option.isSome_of_eq_some hmc)
  rw [h] at hmc
  cases hmc
  exact ⟨_, c', h, hcode⟩

-- The block inside keeps the address that it goes back to, and the one around it does not.
theorem subroutine_slots_kept_iff_nestedFinally : ∃ mc c' place,
    lowerCode bareFrame nestedFinally nestedFinallyMethod.attrs {} subroutineEnv bareClass =
      .ok mc c' ∧
    (place 6).Spelled mc.code.code 0 1 ∧ ¬(place 6).Keeps mc.code.code 1 ∧
    (¬∀ r, RunsBlocksOf nestedFinally nestedFinallyInstrs mc.code.code place 6 r →
      (place r).Keeps mc.code.code 0) ∧
    (place 13).Spelled mc.code.code 0 1 ∧ (place 13).Keeps mc.code.code 1 := by
  obtain ⟨mc, c', h, hcode⟩ := exists_lowerCode_nestedFinally
  have hframe : Frame.forMethod subroutineEnv.pod.symbols "fan/p/T" nestedFinallyMethod .bound =
      .ok { bareFrame with ret := .obj } := by
    decide +kernel
  obtain ⟨body, c₁, instrs, -, hinstrs, place, hplace⟩ :=
    subroutine_slots_kept_iff hframe (show bareFrame = Frame.withRet _ .void from rfl)
      (wellFormed_bare _) rfl h
      (by rw [hcode]; decide)
  rw [disassemble_nestedFinally] at hinstrs
  cases hinstrs
  obtain ⟨houter, hinner⟩ := finallyBlock_nestedFinally
  have hnests : NestsBlock nestedFinallyInstrs 6 15 :=
    ⟨⟨13, .finallyStart, []⟩, by decide, rfl, by decide, by decide⟩
  have hlast : ¬NestsBlock nestedFinallyInstrs 13 14 := by
    rintro ⟨j, -, -, hlo, hhi⟩
    omega
  obtain ⟨-, -, hspelled, -, haddress, hexception⟩ := hplace 6 15 houter
  obtain ⟨-, -, hspelled', -, haddress', -⟩ := hplace 13 14 hinner
  exact ⟨mc, c', place, h, hspelled, fun hkeeps => haddress.mp hkeeps hnests,
    fun hkeeps => hexception.mp hkeeps 6 15 .refl houter hnests, hspelled', haddress'.mpr hlast⟩

-- The blocks are properly nested, and the one inside overwrites what the one around it has stored.
theorem subroutine_slots_lost_nestedFinally : ∃ mc c',
    lowerCode bareFrame nestedFinally nestedFinallyMethod.attrs {} subroutineEnv bareClass =
      .ok mc c' ∧
    openBlocks 0 nestedFinallyInstrs = some 0 ∧
    FinallyBlock nestedFinally nestedFinallyInstrs 6 15 ∧
    ∃ outer : SubroutineCode, outer.Spelled mc.code.code 0 1 ∧
      ¬outer.Keeps mc.code.code 0 ∧ ¬outer.Keeps mc.code.code 1 := by
  obtain ⟨mc, c', h, hcode⟩ := exists_lowerCode_nestedFinally
  refine ⟨mc, c', h, by decide, finallyBlock_nestedFinally.1,
    ⟨6, 14, [15, 18, 21, 23, 26, 28, 29, 30], 32⟩, ?_, ?_, ?_⟩
  all_goals rw [hcode]
  · refine ⟨by decide +kernel, by decide +kernel, by decide +kernel, by decide +kernel, ?_,
      by decide +kernel⟩
    exact .step (by decide) rfl <| .step (by decide) rfl <| .step (by decide) rfl <|
      .step (by decide) rfl <| .step (by decide) rfl <| .step (by decide) rfl <|
      .step (by decide) rfl <| .step (by decide) rfl .done
  · exact fun hkeeps => hkeeps 21 (by decide) (by decide +kernel)
  · exact fun hkeeps => hkeeps 29 (by decide) (by decide +kernel)

end PodCompiler.Lowering
