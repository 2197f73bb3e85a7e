import PodCompiler.Proofs.Lowering.CopySteps
import PodCompiler.Proofs.Lowering.SlotDemand
import PodCompiler.Proofs.Lowering.StackDepth

namespace PodCompiler.Lowering

open ClassFile (CodeBuffer)
open Instr (Stream)

-- Lowering the instruction begins the block at `q`: it is the start of the block, or runs a block in
-- which an instruction begins it.
inductive BeginsBlock (name : String) (code : Bytes) (q : Nat) : Instr → Prop where
  | start {i : Instr} (hop : i.op = .finallyStart) (hpos : i.pos = q) : BeginsBlock name code q i
  | copy {i j : Instr} {stop : Nat} (hop : i.op = .jumpFinally)
      (hstop : finallyEnd name code i = .ok stop)
      (hj : j ∈ (Instr.decodeRange code (i.arg.toNat + 1) stop).instrs)
      (hbegins : BeginsBlock name code q j) : BeginsBlock name code q i

-- A block of the code that lowering it begins.
def IsBegun (name : String) (code : Bytes) (q : Nat) : Prop :=
  ∃ i ∈ (Instr.decodeRange code 0 code.size).instrs, BeginsBlock name code q i

-- More blocks than there are numbers for slots behind the variables.
def Exhausts (f : Frame) (p : Nat → Prop) : Prop :=
  ∃ qs : List Nat, qs.Nodup ∧ (∀ q ∈ qs, p q) ∧ 0xFFFF < f.maxLocals + qs.length

namespace FinallySlots

variable {f : Frame} {s s' : FinallySlots} {qs : List Nat} {pos : Nat} {p : Nat → Prop}

-- The blocks that have a slot are these, and nothing else has one.
structure GivenTo (s : FinallySlots) (qs : List Nat) : Prop where
  nodup : qs.Nodup
  length : qs.length = s.extra
  mem_iff : ∀ q, q ∈ qs ↔ q ∈ s.exceptions

theorem givenTo_empty : GivenTo {} [] where
  nodup := List.nodup_nil
  length := rfl
  mem_iff q := by simp

-- The slots are given to blocks with a property.
def Within (p : Nat → Prop) (s : FinallySlots) : Prop :=
  ∃ qs, s.GivenTo qs ∧ ∀ q ∈ qs, p q

theorem within_empty (p : Nat → Prop) : Within p {} :=
  ⟨[], givenTo_empty, List.forall_mem_nil p⟩

theorem Within.pending (h : s.Within p) (pending : List Nat) : { s with pending }.Within p := by
  obtain ⟨qs, hqs, hall⟩ := h
  exact ⟨qs, ⟨hqs.nodup, hqs.length, hqs.mem_iff⟩, hall⟩

theorem alloc_eq_error_iff : s.alloc f = .error .overflow ↔
    0xFFFF < f.maxLocals + s.extra ∨ 0xFFFF ≤ s.extra := by
  unfold alloc
  dsimp only
  split
  · rename_i hfits
    simp only [reduceCtorEq, false_iff]
    omega
  · rename_i hfits
    simp only [true_iff]
    omega

-- A block has a slot already, or gets the next one.
theorem forBlock_of_mem (h : pos ∈ s.exceptions) :
    ∃ slot, s.forBlock f pos = .ok (slot, s) := by
  unfold forBlock
  rw [Std.HashMap.getElem?_eq_some_getElem h]
  exact ⟨_, rfl⟩

theorem forBlock_of_not_mem (h : pos ∉ s.exceptions) :
    s.forBlock f pos = s.alloc f >>= fun p =>
      .ok (p.1, { p.2 with exceptions := p.2.exceptions.insert pos p.1 }) := by
  unfold forBlock
  rw [Std.HashMap.getElem?_eq_none h]
  rfl

theorem GivenTo.insert {slot : UInt16} (h : s.GivenTo qs) (hpos : pos ∉ qs)
    (hexceptions : s'.exceptions = s.exceptions.insert pos slot) (hextra : s'.extra = s.extra + 1) :
    s'.GivenTo (pos :: qs) where
  nodup := List.nodup_cons.mpr ⟨hpos, h.nodup⟩
  length := by rw [List.length_cons, h.length, hextra]
  mem_iff q := by
    rw [List.mem_cons, hexceptions, Std.HashMap.mem_insert, ← h.mem_iff, beq_iff_eq, eq_comm]

theorem Within.forBlock {slot : UInt16} (h : s.Within p) (hpos : p pos)
    (hrun : s.forBlock f pos = .ok (slot, s')) : s'.Within p := by
  obtain ⟨qs, hqs, hall⟩ := h
  by_cases hmem : pos ∈ s.exceptions
  · obtain ⟨slot', hold⟩ := forBlock_of_mem (f := f) hmem
    cases hrun.symm.trans hold
    exact ⟨qs, hqs, hall⟩
  · rw [forBlock_of_not_mem hmem] at hrun
    obtain ⟨⟨slot', s₁⟩, halloc, hrun⟩ := except_bind_eq_ok.mp hrun
    obtain ⟨-, rfl⟩ := alloc_eq_ok halloc
    cases hrun
    have hfresh : pos ∉ qs := mt (hqs.mem_iff pos).mp hmem
    exact ⟨pos :: qs, hqs.insert hfresh rfl rfl, List.forall_mem_cons.mpr ⟨hpos, hall⟩⟩

-- If there is none left, the block and those that have one are too many.
theorem Within.exhausts (h : s.Within p) (hpos : p pos)
    (hrun : s.forBlock f pos = .error .overflow) : Exhausts f p := by
  obtain ⟨qs, hqs, hall⟩ := h
  by_cases hmem : pos ∈ s.exceptions
  · obtain ⟨slot, hold⟩ := forBlock_of_mem (f := f) hmem
    cases hrun.symm.trans hold
  · have hfresh : pos ∉ qs := mt (hqs.mem_iff pos).mp hmem
    have halloc : s.alloc f = .error .overflow := by
      rw [forBlock_of_not_mem hmem] at hrun
      cases hs : s.alloc f with
      | ok r =>
        rw [hs] at hrun
        cases hrun
      | error e =>
        rw [hs] at hrun
        cases hrun
        rfl
    refine ⟨pos :: qs, List.nodup_cons.mpr ⟨hfresh, hqs.nodup⟩,
      List.forall_mem_cons.mpr ⟨hpos, hall⟩, ?_⟩
    rw [alloc_eq_error_iff, ← hqs.length] at halloc
    rw [List.length_cons]
    omega

-- The subroutines have two slots, and nothing else has one.
def PairOnly (f : Frame) (s : FinallySlots) : Prop :=
  s.Paired f ∧ s.extra ≤ 2

theorem pairOnly_empty (f : Frame) : PairOnly f {} :=
  ⟨.inr ⟨rfl, rfl⟩, Nat.zero_le 2⟩

theorem PairOnly.forSubroutine {slots : UInt16 × UInt16} (hs : s.PairOnly f)
    (h : s.forSubroutine f = .ok (slots, s')) : s'.PairOnly f := by
  refine ⟨.inl (hs.1.forSubroutine h).2, ?_⟩
  unfold FinallySlots.forSubroutine at h
  obtain ⟨⟨-, hsome⟩ | ⟨hnone, hextra⟩, htwo⟩ := hs
  · rw [hsome] at h
    cases h
    exact htwo
  · rw [hnone] at h
    obtain ⟨⟨exception, s₁⟩, hfirst, h⟩ := except_bind_eq_ok.mp h
    obtain ⟨⟨address, s₂⟩, hsecond, h⟩ := except_bind_eq_ok.mp h
    obtain ⟨-, rfl⟩ := alloc_eq_ok hfirst
    obtain ⟨-, rfl⟩ := alloc_eq_ok hsecond
    cases h
    simp [hextra]

end FinallySlots

section Demand

variable {env : ClassEnv} {f : Frame} {code : Bytes} {p : Nat → Prop}

-- Code whose blocks have the property runs out of slots only if too many have it.
theorem keeps_emitRange (hinline : env.config.finallyStrategy = .inline) {depth start stop : Nat}
    (hblocks : ∀ i ∈ (Instr.decodeRange code start stop).instrs, ∀ q,
      BeginsBlock f.name code q i → p q) :
    BodyM.Keeps env (FinallySlots.Within p) (Exhausts f p) (emitRange f code depth start stop) := by
  -- An instruction whose copies do so does so too.
  have hinstr : ∀ {copy : Instr → BodyM Unit} {i : Instr} {next : Following},
      (∀ q, BeginsBlock f.name code q i → p q) →
      (i.op = .jumpFinally →
        BodyM.Keeps env (FinallySlots.Within p) (Exhausts f p) (copy i)) →
      BodyM.Keeps env (FinallySlots.Within p) (Exhausts f p) (emitInstr f copy i next) := by
    intro copy i next hi hcopy
    refine keeps_emitInstr (fun hop => ?_) (fun _ => ?_) fun hop => ?_
    · have hpos : p i.pos := hi _ (.start hop rfl)
      exact keeps_emitFinallyStart hinline (fun _ pending hs => hs.pending pending)
        (fun _ _ _ hs hrun => hs.forBlock hpos hrun) fun _ hs hrun => hs.exhausts hpos hrun
    · exact keeps_emitFinallyEnd hinline fun _ pending hs => hs.pending pending
    · refine BodyM.keeps_read ?_
      rw [hinline]
      exact hcopy hop
  induction depth generalizing start stop with
  | zero =>
    refine keeps_emitInstrs fun i hi next => hinstr (hblocks i hi) fun _ => ?_
    exact (BodyM.calm_throw (by simp)).keeps
  | succ depth ih =>
    refine keeps_emitInstrs fun i hi next => hinstr (hblocks i hi) fun hop => ?_
    refine BodyM.keeps_ofExcept (finallyEnd_ne_overflow _ _ _) fun stop' hstop => ?_
    refine BodyM.keeps_bind (BodyM.calm_emit _).keeps fun _ => BodyM.keeps_bind ?_ fun _ =>
      (BodyM.calm_emit _).keeps
    exact ih fun j hj q hq => hblocks i hi q (.copy hop hstop hj hq)

theorem keeps_emitBody (hinline : env.config.finallyStrategy = .inline) :
    BodyM.Keeps env (FinallySlots.Within (IsBegun f.name code))
      (Exhausts f (IsBegun f.name code)) (emitBody f code) :=
  BodyM.keeps_bind (keeps_emitRange hinline fun i hi _ hq => ⟨i, hi, hq⟩) fun _ =>
    (BodyM.calm_emit _).keeps

end Demand

section Emission

variable {env : ClassEnv} {f : Frame} {code : Bytes} {e e' : EmitState} {instrs : List Instr}
  {its : List (Item UInt16)} {i : Instr} {q : Nat}

theorem BeginsBlock.op_cases {name : String} (h : BeginsBlock name code q i) :
    i.op = .finallyStart ∨ i.op = .jumpFinally := by
  cases h with
  | start hop _ => exact .inl hop
  | copy hop _ _ _ => exact .inr hop

theorem Emits.has_block {next : Following} {fused : Bool}
    (h : Emits env f i next e fused its e') (hinline : env.config.finallyStrategy = .inline)
    (hq : BeginsBlock f.name code q i) : q ∈ e'.slots.exceptions := by
  cases hq with
  | start hop hpos =>
    obtain ⟨-, -, -, slot, hslot, -⟩ := h.finallyStart hop hinline
    rw [hpos] at hslot
    exact Std.HashMap.mem_iff_isSome_getElem?.mpr (hslot ▸ rfl)
  | copy hop _ _ _ => exact absurd hop (h.op_ne hinline)

theorem EmitState.Below.mem (h : e.Below e') (hq : q ∈ e.slots.exceptions) :
    q ∈ e'.slots.exceptions := by
  obtain ⟨slot, hslot⟩ := Option.isSome_iff_exists.mp (Std.HashMap.mem_iff_isSome_getElem?.mp hq)
  exact Std.HashMap.mem_iff_isSome_getElem?.mpr (h.exceptions q slot hslot ▸ rfl)

-- Behind instructions all blocks that they begin have a slot.
theorem Emission.has_block (h : Emission env f code e instrs its e')
    (hinline : env.config.finallyStrategy = .inline) (hi : i ∈ instrs)
    (hq : BeginsBlock f.name code q i) : q ∈ e'.slots.exceptions := by
  induction h generalizing i with
  | nil => cases hi
  | one hown hrest ih =>
    obtain rfl | hi := List.mem_cons.mp hi
    · exact (hrest.onward.below hinline).mem (hown.has_block hinline hq)
    · exact ih hi hq
  | fused hown hrest ih =>
    obtain rfl | hi := List.mem_cons.mp hi
    · exact (hrest.onward.below hinline).mem (hown.has_block hinline hq)
    obtain rfl | hi := List.mem_cons.mp hi
    -- The jump behind a comparison begins no block.
    · obtain ⟨sense, hsense⟩ := hown.sense
      obtain hop | hop := hq.op_cases <;> rw [hop] at hsense <;> cases hsense
    · exact ih hi hq
  | copy hop _ hstop hinner _ hrest ihbody ih =>
    obtain rfl | hi := List.mem_cons.mp hi
    · refine (hrest.onward.below hinline).mem ?_
      cases hq with
      | start hstart _ => cases hop.symm.trans hstart
      | copy _ hstop' hj hbegins =>
        obtain rfl := Except.ok.inj (hstop.symm.trans hstop')
        rw [Instr.decodeRange_of_stream hinner] at hj
        exact ihbody hj hbegins
    · exact ih hi hq

end Emission

section Lowering

variable {env : ClassEnv} {f : Frame} {code : Bytes} {out : CodeBuffer} {c c' : OpenClass}
  {attrs : Pod.Attributes} {I : FinallySlots → Prop} {O : Prop}

theorem fault?_ne_overflow {t : JumpTable} {r : Relocation} {method : String} {n : JumpNode} :
    t.fault? r method n ≠ some .overflow := by
  unfold JumpTable.fault?
  split
  · simp
  · split <;> simp

theorem placeCode_of_error {e : LoweringError} (h : emitBody f code {} env c = .error e c') :
    placeCode f code out env c = .error e c' := by
  have hbody : (emitBody f code).run {} env c = .error e c' := h
  unfold placeCode
  rw [ClassM.run_bind, hbody]

-- Code that is placed keeps what its items keep.
theorem placeCode_keeps (out : CodeBuffer) (c : OpenClass)
    (hbody : BodyM.Keeps env I O (emitBody f code)) (hstart : I {}) :
    match placeCode f code out env c with
    | .ok p _ => I p.finallies
    | .error e _ => e = .overflow → O := by
  have hrun := hbody {} c hstart
  cases hemit : emitBody f code {} env c with
  | error e c₁ =>
    rw [hemit] at hrun
    rw [placeCode_of_error hemit]
    exact hrun
  | ok r c₁ =>
    rw [hemit] at hrun
    rw [placeCode_eq hemit]
    split
    · rename_i heq
      split at heq <;> cases heq
      exact hrun
    · rename_i e c₂ heq
      split at heq <;> cases heq
      rename_i hfault
      rintro rfl
      obtain ⟨n, -, hn⟩ := List.exists_of_findSome?_eq_some hfault
      exact absurd hn fault?_ne_overflow

theorem finish_eq_overflow {p : PlacedCode} (h : p.finish f = .error .overflow) :
    0xFFFF < f.maxLocals + p.finallies.extra := by
  by_contra hle
  obtain ⟨mc, hmc⟩ := (PlacedCode.finish_succeeds_iff p.out).mpr (Nat.le_of_not_lt hle)
  cases h.symm.trans hmc

-- What is behind placed code fails for want of slots only where its own are too many.
theorem overflow_of_placed {rest : PlacedCode → ClassM MethodCode}
    (hrest : ∀ p c c', rest p env c = .error .overflow c' →
      0xFFFF < f.maxLocals + p.finallies.extra)
    (hbody : BodyM.Keeps env I O (emitBody f code)) (hstart : I {})
    (h : (placeCode f code out >>= rest) env c = .error .overflow c') :
    O ∨ ∃ s, I s ∧ 0xFFFF < f.maxLocals + s.extra := by
  have hplace := placeCode_keeps out c hbody hstart
  rw [ClassM.run_bind] at h
  split at h
  · rename_i p c₁ hp
    rw [hp] at hplace
    exact .inr ⟨p.finallies, hplace, hrest p c₁ c' h⟩
  · rename_i e c₁ he
    cases h
    rw [he] at hplace
    exact .inl (hplace rfl)

theorem lowerCode_eq_overflow (hbody : BodyM.Keeps env I O (emitBody f code)) (hstart : I {})
    (h : lowerCode f code attrs out env c = .error .overflow c') :
    O ∨ ∃ s, I s ∧ 0xFFFF < f.maxLocals + s.extra := by
  refine overflow_of_placed (fun p c c' h => ?_) hbody hstart h
  obtain ⟨errs, c₁, h⟩ := ClassM.bind_eq_overflow (ClassM.calm_ofFormat _) h
  obtain ⟨exceptions, c₂, h⟩ := ClassM.bind_eq_overflow (Protection.calm_table _ _ _) h
  obtain ⟨env', c₃, h⟩ := ClassM.bind_eq_overflow ClassM.calm_read h
  split at h
  · obtain ⟨lines, c₄, h⟩ := ClassM.bind_eq_overflow (ClassM.calm_ofFormat _) h
    have hmany := finish_eq_overflow (ClassM.ofExcept_eq_error h)
    exact hmany
  · have hmany := finish_eq_overflow (ClassM.ofExcept_eq_error h)
    exact hmany

theorem lowerFragment_eq_overflow (hbody : BodyM.Keeps env I O (emitBody f code)) (hstart : I {})
    (h : lowerFragment f code out env c = .error .overflow c') :
    O ∨ ∃ s, I s ∧ 0xFFFF < f.maxLocals + s.extra :=
  overflow_of_placed (fun _ _ _ h => finish_eq_overflow (ClassM.ofExcept_eq_error h)) hbody
    hstart h

-- Blocks that are copied: where the code is placed, and the method has room for its slots, they are
-- not too many.
theorem not_exhausts_of_placed {p : PlacedCode} (hinline : env.config.finallyStrategy = .inline)
    (hplace : placeCode f code out env c = .ok p c')
    (hfits : f.maxLocals + p.finallies.extra ≤ 0xFFFF) : ¬Exhausts f (IsBegun f.name code) := by
  obtain ⟨body, hemit, -, rfl⟩ := placeCode_eq_ok hplace
  obtain ⟨instrs, its, hstream, hder, -⟩ := items_of_emitBody hemit
  have hwithin := keeps_emitBody hinline {} c (FinallySlots.within_empty (IsBegun f.name code))
  rw [hemit] at hwithin
  obtain ⟨qs, hqs, -⟩ := hwithin
  rintro ⟨begun, hnodup, hbegun, hmany⟩
  have hsubset : begun ⊆ qs := by
    intro q hq
    obtain ⟨i, hi, hbegins⟩ := hbegun q hq
    rw [Instr.decodeRange_of_stream hstream] at hi
    exact (hqs.mem_iff q).mpr (hder.has_block hinline hi hbegins)
  have hle := (List.subperm_of_subset hnodup hsubset).length_le
  rw [hqs.length] at hle
  dsimp only at hfits
  omega

-- Blocks that are called: two slots are enough for all of them.
theorem keeps_emitBody_subroutine (hcalls : env.config.finallyStrategy = .subroutine)
    (hroom : f.maxLocals + 2 ≤ 0xFFFF) :
    BodyM.Keeps env (FinallySlots.PairOnly f) False (emitBody f code) := by
  have hok : ∀ (s : FinallySlots) slots s', s.PairOnly f → s.forSubroutine f = .ok (slots, s') →
      s'.PairOnly f := fun _ _ _ hs hrun => hs.forSubroutine hrun
  have hover : ∀ s : FinallySlots, s.PairOnly f → s.forSubroutine f = .error .overflow → False := by
    intro s hs hrun
    obtain ⟨slots, s', hslots⟩ := hs.1.exists_forSubroutine (by omega)
    cases hrun.symm.trans hslots
  have hinstrs : ∀ {copy : Instr → BodyM Unit} {fault : Option DecodeFault} {instrs : List Instr},
      BodyM.Keeps env (FinallySlots.PairOnly f) False (emitInstrs f copy fault instrs) := by
    intro copy fault instrs
    refine keeps_emitInstrs fun i _ next => ?_
    obtain ⟨hstart, hend, hjump⟩ := keeps_subroutine (i := i) copy hcalls hok hover
    exact keeps_emitInstr (fun _ => hstart) (fun _ => hend) fun _ => hjump
  exact BodyM.keeps_bind hinstrs fun _ => (BodyM.calm_emit _).keeps

theorem exhausts_of_overflow {x : ClassM MethodCode} (hroom : f.maxLocals + 2 ≤ 0xFFFF)
    (hx : x = lowerCode f code attrs out ∨ x = lowerFragment f code out)
    (h : x env c = .error .overflow c') :
    env.config.finallyStrategy = .inline ∧ Exhausts f (IsBegun f.name code) := by
  -- Where the slots that are given out have a property, so they have where they are too many.
  have hshort : ∀ {I : FinallySlots → Prop} {O : Prop}, BodyM.Keeps env I O (emitBody f code) →
      I {} → O ∨ ∃ s, I s ∧ 0xFFFF < f.maxLocals + s.extra := by
    intro I O hbody hstart
    obtain rfl | rfl := hx
    · exact lowerCode_eq_overflow hbody hstart h
    · exact lowerFragment_eq_overflow hbody hstart h
  cases hstrategy : env.config.finallyStrategy with
  | inline =>
    refine ⟨rfl, ?_⟩
    obtain hexhausts | ⟨s, ⟨qs, hqs, hall⟩, hmany⟩ :=
      hshort (keeps_emitBody hstrategy) (FinallySlots.within_empty _)
    · exact hexhausts
    · exact ⟨qs, hqs.nodup, hall, hqs.length ▸ hmany⟩
  | subroutine =>
    obtain hfalse | ⟨s, ⟨-, htwo⟩, hmany⟩ :=
      hshort (keeps_emitBody_subroutine hstrategy hroom) (FinallySlots.pairOnly_empty f)
    · exact hfalse.elim
    · omega

theorem not_exhausts_of_ok {x : ClassM MethodCode} {mc : MethodCode}
    (hx : x = lowerCode f code attrs out ∨ x = lowerFragment f code out)
    (hinline : env.config.finallyStrategy = .inline) (h : x env c = .ok mc c') :
    ¬Exhausts f (IsBegun f.name code) := by
  obtain rfl | rfl := hx
  · obtain ⟨p, c₁, hplace, hcompletes⟩ := lowerCode_succeeds_iff.mp ⟨mc, c', h⟩
    exact not_exhausts_of_placed hinline hplace hcompletes.slots
  · obtain ⟨p, c₁, hplace, hfinish⟩ := ClassM.bind_eq_ok.mp h
    refine not_exhausts_of_placed hinline hplace ?_
    exact (PlacedCode.finish_succeeds_iff p.out).mp ⟨mc, (ClassM.ofExcept_eq_ok.mp hfinish).1⟩

end Lowering

-- The numbers of slots and of stack that are reckoned from a frame: where its registers end, what
-- it has in all, what forwarders declare, and what the wrappers do.
structure Frame.SumsFit (s : Pod.Symbols) (m : Pod.MethodDef) (f : Frame) : Prop where
  stops : ∀ l, some l ∈ f.regs.toList → l.stop ≤ 0xFFFF
  locals : f.maxLocals ≤ 0xFFFF
  stack : f.maxStack ≤ 0xFFFF
  forwarders : ∀ n, f.paramSlots n + 3 ≤ 0xFFFF
  wrappers : max f.maxStack 16 + 2 * m.params.length ≤ 0xFFFF
  routers : ∀ n kinds, ((m.params.take n).mapM fun p => TypeRef.stack <$> typeRefAt s p.type) =
    .ok kinds → 1 + StackType.totalSlots kinds ≤ 0xFFFF

section Frames

variable {s : Pod.Symbols} {owner : String} {m : Pod.MethodDef} {mode : SelfMode} {f : Frame}

theorem Frame.length_params_le (f : Frame) (n : Nat) : (f.params n).length ≤ f.paramCount := by
  refine (List.length_filterMap_le _ _).trans ?_
  rw [List.length_take]
  exact (Nat.min_le_left _ _).trans (Nat.min_le_right _ _)

theorem Frame.sumsFit_forMethod (hvars : m.vars.size = m.paramCount.toNat + m.localCount.toNat)
    (h : forMethod s owner m mode = .ok f) : f.SumsFit s m := by
  have hparams := m.paramCount.toNat_lt
  have hmore := m.localCount.toNat_lt
  have hlocals := (maxLocals_bounds h).2
  have hlength := Lowering.length_params_le m
  obtain ⟨hcount, hstack⟩ : f.paramCount = m.params.length ∧
      f.maxStack = m.maxStack.toNat * 2 + 4 := by
    obtain ⟨kinds, -, h⟩ := except_bind_eq_ok.mp h
    obtain ⟨ret, -, h⟩ := except_bind_eq_ok.mp h
    cases h
    exact ⟨rfl, rfl⟩
  have hdepth := m.maxStack.toNat_lt
  refine ⟨fun l hl => ?_, by omega, by omega, fun n => ?_, by omega, fun n kinds hkinds => ?_⟩
  · have hstop := ((consecutive_forMethod h).bounds.2 l hl).2
    omega
  · have hslots := totalSlots_le ((f.params n).map Local.stack)
    have hfew := f.length_params_le n
    rw [List.length_map] at hslots
    unfold paramSlots
    omega
  · have hslots := totalSlots_le kinds
    have hfew := (except_mapM_eq_ok.mp hkinds).length_eq
    rw [List.length_take] at hfew
    omega

-- All numbers of slots of a method that is read have sixteen bits, but for the slots of finally
-- blocks that are copied. Those run out only if the method has too many such blocks, and then it is
-- never lowered.
theorem slots_suffice_unless_exhausted {cur cur' : Pod.Cursor}
    (hread : Pod.MethodDef.read s cur = .ok m cur')
    (hf : Frame.forMethod s owner m mode = .ok f) :
    f.SumsFit s m ∧ ∀ (env : ClassEnv) (ret : StackType) (code : Bytes) (attrs : Pod.Attributes)
      (out : CodeBuffer) (x : ClassM MethodCode) (c : OpenClass),
      x = lowerCode (f.withRet ret) code attrs out ∨ x = lowerFragment (f.withRet ret) code out →
      (∀ c', x env c = .error .overflow c' →
        env.config.finallyStrategy = .inline ∧ Exhausts f (IsBegun f.name code)) ∧
      (env.config.finallyStrategy = .inline → Exhausts f (IsBegun f.name code) →
        ∀ mc c', x env c ≠ .ok mc c') := by
  have hvars := Pod.MethodDef.size_vars_of_read hread
  refine ⟨Frame.sumsFit_forMethod hvars hf, fun env ret code attrs out x c hx => ⟨?_, ?_⟩⟩
  · intro c' h
    have hlocals := (Frame.maxLocals_bounds hf).2
    have hparams := m.paramCount.toNat_lt
    have hmore := m.localCount.toNat_lt
    have hroom : f.maxLocals + 2 ≤ 0xFFFF := by omega
    exact exhausts_of_overflow (f := f.withRet ret) hroom hx h
  · intro hinline hexhausts mc c' h
    exact not_exhausts_of_ok hx hinline h hexhausts

end Frames

section Starts

variable {env : ClassEnv} {f : Frame} {copy : Instr → BodyM Unit} {i : Instr} {next : Following}
  {s : BodyState} {c : OpenClass} {fault : Option DecodeFault} {instrs : List Instr} {qs : List Nat}

-- The start of a block that has no slot yet.
theorem emitInstr_firstStart (hinline : env.config.finallyStrategy = .inline)
    (hop : i.op = .finallyStart) (hnew : i.pos ∉ s.finallies.exceptions) :
    emitInstr f copy i next s env c =
      match s.finallies.alloc f with
      | .ok (slot, fs) => .ok (false, ⟨s.items.push (.store .obj slot),
          { fs with exceptions := fs.exceptions.insert i.pos slot,
                    pending := i.pos :: fs.pending }⟩) c
      | .error e => .error e c := by
  rw [emitInstr_finallyStart hinline hop, FinallySlots.forBlock_of_not_mem hnew]
  cases s.finallies.alloc f <;> rfl

theorem run_emitInstrs_cons : emitInstrs f copy fault (i :: instrs) s env c =
    (emitInstr f copy i (.ofRest instrs fault) >>= fun fused =>
      emitInstrs f copy fault (if fused then instrs.tail else instrs))
        { s with items := s.items.push (.mark i.pos) } env c := by
  rw [emitInstrs_eq]
  rfl

-- Starts of blocks run out of slots if they are more than there are slots left.
theorem emitInstrs_eq_overflow (hinline : env.config.finallyStrategy = .inline)
    (hstarts : ∀ i ∈ instrs, i.op = .finallyStart) (hnodup : (instrs.map Instr.pos).Nodup)
    (hqs : s.finallies.GivenTo qs) (hfresh : ∀ i ∈ instrs, i.pos ∉ qs)
    (hroom : f.maxLocals + qs.length ≤ 0x10000)
    (hmany : 0x10000 < f.maxLocals + qs.length + instrs.length) :
    ∃ c', emitInstrs f copy fault instrs s env c = .error .overflow c' := by
  induction instrs generalizing s qs with
  | nil =>
    rw [List.length_nil] at hmany
    omega
  | cons i rest ih =>
    obtain ⟨hop, hstarts⟩ := List.forall_mem_cons.mp hstarts
    obtain ⟨hnew, hfresh⟩ := List.forall_mem_cons.mp hfresh
    rw [List.map_cons, List.nodup_cons] at hnodup
    rw [run_emitInstrs_cons, BodyM.run_bind, emitInstr_firstStart
      (s := ⟨s.items.push (.mark i.pos), s.finallies⟩) hinline hop (mt (hqs.mem_iff _).mpr hnew)]
    unfold FinallySlots.alloc
    dsimp only
    by_cases hfits : f.maxLocals + s.finallies.extra ≤ 0xFFFF ∧ s.finallies.extra < 0xFFFF
    · rw [if_pos hfits]
      refine ih hstarts hnodup.2 (hqs.insert hnew rfl rfl) ?_ ?_ ?_
      · intro j hj
        rw [List.mem_cons, not_or]
        exact ⟨fun heq => hnodup.1 (heq ▸ List.mem_map_of_mem hj), hfresh j hj⟩
      · rw [List.length_cons, hqs.length]
        omega
      · rw [List.length_cons] at hmany ⊢
        omega
    · rw [if_neg hfits]
      exact ⟨c, rfl⟩

-- Code that is nothing but starts of blocks.
theorem stream_starts (n : Nat) : Stream (Array.replicate n 57) n 0
    ((List.range n).map fun pos => ⟨pos, .finallyStart, []⟩) := by
  have hfrom : ∀ k pos, pos + k = n → Stream (Array.replicate n 57) n pos
      ((List.range' pos k).map fun pos => ⟨pos, .finallyStart, []⟩) := by
    intro k
    induction k with
    | zero =>
      intro pos hpos
      exact .done (by omega)
    | succ k ih =>
      intro pos hpos
      have hdecode : Instr.decodeAt (Array.replicate n 57) pos = .ok ⟨pos, .finallyStart, []⟩ := by
        unfold Instr.decodeAt
        rw [Array.getElem?_replicate, if_pos (by omega)]
        rfl
      exact .step (by omega) hdecode (ih (pos + 1) (by omega))
  rw [List.range_eq_range']
  exact hfrom n 0 (Nat.zero_add n)

theorem decodeRange_starts (n : Nat) :
    Instr.decodeRange (Array.replicate n 57) 0 (Array.replicate n (57 : UInt8)).size =
      ⟨(List.range n).map fun pos => ⟨pos, .finallyStart, []⟩, none⟩ := by
  rw [Array.size_replicate]
  exact Instr.decodeRange_of_stream (stream_starts n)

theorem exhausts_starts {n : Nat} (hmany : 0xFFFF < f.maxLocals + n) :
    Exhausts f (IsBegun f.name (Array.replicate n 57)) := by
  refine ⟨List.range n, List.nodup_range, fun q hq => ?_, by rwa [List.length_range]⟩
  refine ⟨⟨q, .finallyStart, []⟩, ?_, .start rfl rfl⟩
  rw [decodeRange_starts]
  exact List.mem_map_of_mem hq

theorem emitBody_starts {n : Nat} (hinline : env.config.finallyStrategy = .inline)
    (hroom : f.maxLocals ≤ 0x10000) (hmany : 0x10000 < f.maxLocals + n) :
    ∃ c', emitBody f (Array.replicate n 57) {} env c = .error .overflow c' := by
  obtain ⟨c', h⟩ : ∃ c', emitRange f (Array.replicate n 57) maxInlineDepth 0
      (Array.replicate n (57 : UInt8)).size {} env c = .error .overflow c' := by
    rw [emitRange_eq, decodeRange_starts]
    refine emitInstrs_eq_overflow hinline ?_ ?_ FinallySlots.givenTo_empty ?_ hroom ?_
    · simp
    · simp [Function.comp_def, List.nodup_range]
    · simp
    · simpa using hmany
  refine ⟨c', ?_⟩
  unfold emitBody
  rw [BodyM.run_bind, h]

end Starts

-- A method of a class fails as its code does.
theorem lowerStandard_of_error {env : ClassEnv} {c c' : OpenClass} {m : Pod.MethodDef} {f : Frame}
    {desc : String} {e : LoweringError}
    (hdesc : methodDesc env.pod.symbols m none (m.params.take m.params.length) .inherited =
      .ok desc)
    (hplain : (m.isAbstract || !m.hasCode) = false)
    (hf : Frame.forMethod env.pod.symbols c.draft.name m .bound = .ok f)
    (h : lowerPlainBody m f env c = .error e c') : lowerStandard m env c = .error e c' := by
  have hname : ClassM.desc m none m.params.length .inherited env c = .ok desc c := by
    change (ofExcept (methodDesc env.pod.symbols m none _ .inherited) : ClassM String) env c = _
    rw [hdesc]
    rfl
  have hframe : ClassM.frame m .bound env c = .ok f c := by
    change (ofExcept (Frame.forMethod env.pod.symbols c.draft.name m .bound) : ClassM Frame)
      env c = _
    rw [hf]
    rfl
  unfold lowerStandard
  dsimp only
  rw [ClassM.run_bind, hname, hplain]
  dsimp only
  rw [if_neg (by decide), ClassM.run_bind, hframe]
  dsimp only
  rw [ClassM.run_bind, h]

-- An instance method with one parameter.
def singleMethod (code : Bytes) : Pod.MethodDef where
  name := "single"
  flags := Pod.Flag.public_
  ret := 0
  inheritedRet := 0
  maxStack := 0
  paramCount := 1
  localCount := 0
  vars := #[⟨"a", 0, Pod.Flag.param, {}⟩]
  code := code
  attrs := {}

def singleEnv : ClassEnv :=
  { bareEnv with
    pod :=
      { bareEnv.pod with
        symbols := { names := #["single", "a"], typeRefs := #[⟨"sys", "Int", ""⟩] } } }

def singleFrame : Frame where
  name := "fan/p/T.single"
  regs := #[some ⟨0, .obj⟩, some ⟨1, .long⟩]
  hasSelf := true
  paramCount := 1
  maxLocals := 3
  maxStack := 4
  ret := .long

theorem forMethod_single (code : Bytes) : Frame.forMethod singleEnv.pod.symbols "fan/p/T"
    (singleMethod code) .bound = .ok singleFrame := by
  cbv

theorem methodDesc_single (code : Bytes) : methodDesc singleEnv.pod.symbols (singleMethod code) none
    (singleMethod code).params .inherited = .ok "(J)J" := by
  cbv

theorem lowerMethod_single (code : Bytes) :
    lowerMethod (singleMethod code) = lowerStandard (singleMethod code) := by
  unfold lowerMethod
  have hctor : (singleMethod code).isCtor = false := by
    change (singleMethod #[]).isCtor = false
    decide
  have hnative : (singleMethod code).isNative = false := by
    change (singleMethod #[]).isNative = false
    decide
  rw [hctor, hnative]
  rfl

-- The loader takes it with as much code as a method can have.
theorem exists_read_single {code : Bytes} (hcode : code.size ≤ 0xFFFF) : ∃ cur cur',
    Pod.MethodDef.read singleEnv.pod.symbols cur = .ok (singleMethod code) cur' := by
  let s := singleEnv.pod.symbols
  have hname : ∀ i n, s.name i = .ok n → Pod.Reads s.readName (Bytes.be2 i).toList n :=
    fun i n h => (Pod.Read.reads_u2 i).nil_bind (Pod.Read.reads_ofExcept h)
  have hattrs : Pod.Reads (Pod.Attributes.read s) (Bytes.be2 0).toList {} :=
    Pod.Reads.map (m := Pod.Read.table (Pod.Attributes.readItem s))
      ((Pod.Read.reads_u2 0).nil_bind (Pod.reads_pure #[])) Pod.Attributes.mk
  obtain ⟨bs, hvar⟩ : ∃ bs, Pod.Reads (Pod.VarDef.read s) bs ⟨"a", 0, Pod.Flag.param, {}⟩ :=
    ⟨_, (hname 1 "a" rfl).bind <| (Pod.Read.reads_u2 0).bind <|
      (Pod.Read.reads_u1 Pod.Flag.param).bind <| hattrs.nil_bind <| Pod.reads_pure _⟩
  have hvars : Pod.Reads (Pod.Read.times 1 (Pod.VarDef.read s)) bs (singleMethod code).vars :=
    hvar.nil_bind (Pod.reads_pure _)
  obtain ⟨bs, h⟩ : ∃ bs, Pod.Reads (Pod.MethodDef.read s) bs (singleMethod code) :=
    ⟨_, (hname 0 "single" rfl).bind <| (Pod.Read.reads_u4 Pod.Flag.public_).bind <|
      (Pod.Read.reads_u2 0).bind <| (Pod.Read.reads_u2 0).bind <| (Pod.Read.reads_u1 0).bind <|
      (Pod.Read.reads_u1 1).bind <| (Pod.Read.reads_u1 0).bind <| hvars.bind <|
      (Pod.Read.reads_buf hcode).bind <| hattrs.nil_bind <| Pod.reads_pure _⟩
  exact ⟨_, _, h.run_start "type"⟩

theorem lowerMethod_starts {n : Nat} (hmany : 0x10000 < singleFrame.maxLocals + n) :
    ∃ c', lowerMethod (singleMethod (.replicate n 57)) singleEnv bareClass =
      .error .overflow c' := by
  have hinline : singleEnv.config.finallyStrategy = .inline := rfl
  have hroom : singleFrame.maxLocals ≤ 0x10000 := by decide
  obtain ⟨c', hbody⟩ := emitBody_starts (c := bareClass) hinline hroom hmany
  have hplain : ((singleMethod (.replicate n 57)).isAbstract ||
      !(singleMethod (.replicate n 57)).hasCode) = false := by
    have hcode : (singleMethod (.replicate n 57)).hasCode = true := by
      have hsome : n ≠ 0 := by omega
      simp [Pod.MethodDef.hasCode, singleMethod, hsome]
    rw [hcode]
    change ((singleMethod #[]).isAbstract || !true) = false
    decide
  have hcode : lowerPlainBody (singleMethod (.replicate n 57)) singleFrame singleEnv bareClass =
      .error .overflow c' := by
    change (placeCode singleFrame (.replicate n 57) (CodeBuffer.sized singleFrame.maxStack
      singleFrame.maxLocals) >>= _ >>= _) singleEnv bareClass = _
    rw [ClassM.run_bind, ClassM.run_bind, placeCode_of_error hbody]
  rw [lowerMethod_single]
  exact ⟨c', lowerStandard_of_error (methodDesc_single _) hplain (forMethod_single _) hcode⟩

-- Where its blocks are called a method never runs out of slots; where they are copied this one is
-- never lowered.
theorem slots_suffice_unless_exhausted_starts : ∃ cur cur',
    Pod.MethodDef.read singleEnv.pod.symbols cur = .ok (singleMethod (.replicate 0xFFFF 57)) cur' ∧
    singleFrame.SumsFit singleEnv.pod.symbols (singleMethod (.replicate 0xFFFF 57)) ∧
    (∀ out c c', lowerCode singleFrame (.replicate 0xFFFF 57) {} out subroutineEnv c ≠
      .error .overflow c') ∧
    ∀ out c mc c', lowerCode singleFrame (.replicate 0xFFFF 57) {} out singleEnv c ≠ .ok mc c' := by
  obtain ⟨cur, cur', hread⟩ := exists_read_single (Array.size_replicate (n := 0xFFFF) (v := 57)).le
  obtain ⟨hfit, hlower⟩ := slots_suffice_unless_exhausted hread (forMethod_single _)
  refine ⟨cur, cur', hread, hfit, fun out c c' h => ?_, fun out c mc c' h => ?_⟩
  · obtain ⟨hover, -⟩ := hlower subroutineEnv .long (.replicate 0xFFFF 57) {} out _ c (.inl rfl)
    obtain ⟨hinline, -⟩ := hover c' h
    cases hinline
  · obtain ⟨-, hok⟩ := hlower singleEnv .long (.replicate 0xFFFF 57) {} out _ c (.inl rfl)
    exact hok rfl (exhausts_starts (by decide)) mc c' h

-- So a method that the loader takes may have more blocks than there are slots, and is lost before
-- its code can be found too long.
theorem slots_run_out_starts : ∃ cur cur' c',
    Pod.MethodDef.read singleEnv.pod.symbols cur = .ok (singleMethod (.replicate 0xFFFF 57)) cur' ∧
    lowerMethod (singleMethod (.replicate 0xFFFF 57)) singleEnv bareClass =
      .error .overflow c' := by
  obtain ⟨cur, cur', hread⟩ := exists_read_single (Array.size_replicate (n := 0xFFFF) (v := 57)).le
  obtain ⟨c', hlower⟩ := lowerMethod_starts (n := 0xFFFF) (by decide)
  exact ⟨cur, cur', c', hread, hlower⟩

end PodCompiler.Lowering
