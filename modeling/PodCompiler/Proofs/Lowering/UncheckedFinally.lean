import PodCompiler.Proofs.Lowering.FinallyCalls

namespace PodCompiler.Lowering

open ClassFile (CodeBuffer)
open ClassFile.Op
open Instr (Stream)

-- Lowering comes from some instructions to the last of them, one after the other.
inductive Comes (env : ClassEnv) (f : Frame) :
    EmitState → List Instr → EmitState → List Instr → Prop where
  | here {e : EmitState} {instrs : List Instr} : Comes env f e instrs e instrs
  | step {e e₁ e₂ : EmitState} {i : Instr} {rest last : List Instr} {fused : Bool}
      {its : List (Item UInt16)} (hi : Emits env f i (.ofRest rest none) e fused its e₁)
      (hrest : Comes env f e₁ (if fused then rest.tail else rest) e₂ last) :
      Comes env f e (i :: rest) e₂ last

-- The instructions of finally blocks.
def isFinally (op : Opcode) : Bool :=
  op = .jumpFinally || op = .finallyStart || op = .finallyEnd

-- The targets that an item has operands for.
def Item.targets : Item UInt16 → List UInt16
  | .jump _ _ target => [target]
  | .switch targets => targets
  | _ => []

-- Where an instruction may go: a jump, a switch or a call of a finally block.
def targets (i : Instr) : List UInt16 :=
  ((branchItem? i).map Item.targets).getD []

-- The tables of a method can be written behind its code, and there is room for its slots.
structure PlacedCode.Completes (p : PlacedCode) (f : Frame) (attrs : Pod.Attributes)
    (env : ClassEnv) (c : OpenClass) : Prop where
  handlers : ∃ errs exceptions c', attrs.errTable = .ok errs ∧
    Protection.table p.reloc f.name errs.toList env c = .ok exceptions c'
  lines : env.config.lineNumbers = true → ∃ lines, attrs.lineNumbers = .ok lines
  slots : f.maxLocals + p.finallies.extra ≤ 0xFFFF

-- What lowering asks of a method whose finally blocks are subroutines.
structure SubroutineReady (env : ClassEnv) (f : Frame) (code : Bytes) (attrs : Pod.Attributes)
    (out : CodeBuffer) (c : OpenClass) (instrs : List Instr) : Prop where
  lowered : ∀ i rest e, Comes env f ⟨{}, c⟩ instrs e (i :: rest) → isFinally i.op = false →
    ∃ fused its e', Emits env f i (.ofRest rest none) e fused its e'
  room : ∀ i ∈ instrs, i.op = .finallyStart ∨ i.op = .finallyEnd → f.maxLocals + 1 ≤ 0xFFFF
  -- Any instruction will do as the target of a call, or the end of the code.
  positions : ∀ i ∈ instrs, ∀ t ∈ targets i,
    t.toNat ∈ instrs.map Instr.pos ∨ t.toNat = code.size
  near : ∀ body c₁, emitBody f code {} env c = .ok ((), body) c₁ →
    ∀ n ∈ (body.layout code out).jumps, ∀ offset,
      n.Reaches (body.layout code out).reloc body.finallies.prologue offset → n.Fits offset
  tables : ∀ p c₁, placeCode f code out env c = .ok p c₁ → p.Completes f attrs env c₁

section Steps

variable {env : ClassEnv} {f : Frame} {code : Bytes} {copy : Instr → BodyM Unit}
  {s : BodyState} {c : OpenClass} {e e' : EmitState} {i : Instr} {next : Following}
  {instrs : List Instr} {fused : Bool} {its : List (Item UInt16)}

-- If blocks are called, it does not matter how copies are lowered.
theorem run_emitJumpFinally (hcalls : env.config.finallyStrategy = .subroutine) :
    emitJumpFinally copy i s env c = BodyM.emit [.jump .finally_ jsr i.arg] s env c := by
  have hread : (read : BodyM ClassEnv) s env c = .ok (env, s) c := rfl
  unfold emitJumpFinally
  rw [BodyM.run_bind, hread]
  dsimp only
  rw [hcalls]

theorem emitInstr_of_subroutine (hcalls : env.config.finallyStrategy = .subroutine) :
    emitInstr f copy i next s env c = emitInstr f (noCopy f) i next s env c := by
  unfold emitInstr
  cases i.op with
  | jumpFinally =>
    simp only
    rw [BodyM.run_bind, BodyM.run_bind, run_emitJumpFinally hcalls, run_emitJumpFinally hcalls]
  | _ => rfl

theorem emitInstrs_cons_iff {fault : Option DecodeFault} {rest : List Instr} {s' : BodyState}
    {c' : OpenClass} :
    emitInstrs f copy fault (i :: rest) s env c = .ok ((), s') c' ↔
      ∃ fused s₁ c₁, emitInstr f copy i (.ofRest rest fault)
          { s with items := s.items ++ #[Item.mark i.pos] } env c = .ok (fused, s₁) c₁ ∧
        emitInstrs f copy fault (if fused then rest.tail else rest) s₁ env c₁ =
          .ok ((), s') c' := by
  refine ⟨emitInstrs_cons, ?_⟩
  rintro ⟨fused, s₁, c₁, hi, hrest⟩
  cases rest with
  | nil =>
    rw [List.tail_nil, ite_self, emitInstrs] at hrest
    rw [emitInstrs]
    exact BodyM.bind_eq_ok.mpr ⟨(), _, c, rfl, BodyM.bind_eq_ok.mpr ⟨fused, s₁, c₁, hi, hrest⟩⟩
  | cons j rest =>
    rw [emitInstrs]
    refine BodyM.bind_eq_ok.mpr ⟨(), _, c, rfl, BodyM.bind_eq_ok.mpr ⟨fused, s₁, c₁, hi, ?_⟩⟩
    cases fused with
    | false => exact hrest
    | true => exact hrest

theorem FinallySlots.Paired.exists_forSubroutine {s : FinallySlots} (hs : s.Paired f)
    (hroom : f.maxLocals + 1 ≤ 0xFFFF) : ∃ slots s', s.forSubroutine f = .ok (slots, s') := by
  unfold FinallySlots.forSubroutine
  obtain ⟨-, hsome⟩ | ⟨hnone, hextra⟩ := hs
  · rw [hsome]
    exact ⟨_, s, rfl⟩
  · rw [hnone]
    refine ⟨_, _, except_bind_eq_ok.mpr ⟨(f.maxLocals.toUInt16, { s with extra := 1 }), ?_,
      except_bind_eq_ok.mpr ⟨((f.maxLocals + 1).toUInt16, { s with extra := 2 }), ?_, rfl⟩⟩⟩
    · unfold alloc
      rw [hextra]
      exact if_pos (by omega)
    · exact if_pos ⟨hroom, show 1 < 0xFFFF by decide⟩

theorem Emits.of_run {m : BodyM Unit} {its : List (Item UInt16)} {slots : FinallySlots}
    (hrun : m ⟨#[], e.slots⟩ env e.cls = .ok ((), ⟨its.toArray, slots⟩) e.cls)
    (hm : emitInstr f (noCopy f) i next = m >>= fun _ => pure false) :
    Emits env f i next e false its ⟨slots, e.cls⟩ := by
  unfold Emits
  rw [hm]
  exact BodyM.bind_eq_ok.mpr ⟨(), _, e.cls, hrun, rfl⟩

-- All that an instruction of a finally block asks for are the slots.
theorem exists_emits_of_isFinally (hcalls : env.config.finallyStrategy = .subroutine)
    (hop : isFinally i.op = true) (he : e.slots.Paired f)
    (hroom : i.op = .finallyStart ∨ i.op = .finallyEnd → f.maxLocals + 1 ≤ 0xFFFF) :
    ∃ fused its e', Emits env f i next e fused its e' := by
  simp only [isFinally, Bool.or_eq_true, decide_eq_true_eq] at hop
  obtain (hjump | hstart) | hend := hop
  · have hrun : emitJumpFinally (noCopy f) i ⟨#[], e.slots⟩ env e.cls =
        .ok ((), ⟨[.jump .finally_ jsr i.arg].toArray, e.slots⟩) e.cls :=
      run_emitJumpFinally hcalls
    exact ⟨_, _, _, .of_run hrun (by unfold emitInstr; rw [hjump])⟩
  · obtain ⟨slots, fs, hslots⟩ := he.exists_forSubroutine (hroom (.inl hstart))
    have hrun : emitFinallyStart f i ⟨#[], e.slots⟩ env e.cls =
        .ok ((), ⟨(FinallySlots.subroutineItems slots.1 slots.2).toArray, fs⟩) e.cls := by
      refine BodyM.bind_eq_ok.mpr ⟨env, _, e.cls, rfl, ?_⟩
      rw [hcalls]
      exact BodyM.bind_eq_ok.mpr ⟨slots, _, e.cls, slots_eq_ok.mpr ⟨fs, hslots, rfl, rfl⟩, rfl⟩
    exact ⟨_, _, _, .of_run hrun (by unfold emitInstr; rw [hstart])⟩
  · obtain ⟨slots, fs, hslots⟩ := he.exists_forSubroutine (hroom (.inr hend))
    have hrun : emitFinallyEnd f i ⟨#[], e.slots⟩ env e.cls =
        .ok ((), ⟨[.onSlot ClassFile.Op.ret slots.2].toArray, fs⟩) e.cls := by
      refine BodyM.bind_eq_ok.mpr ⟨env, _, e.cls, rfl, ?_⟩
      rw [hcalls]
      exact BodyM.bind_eq_ok.mpr ⟨slots, _, e.cls, slots_eq_ok.mpr ⟨fs, hslots, rfl, rfl⟩, rfl⟩
    exact ⟨_, _, _, .of_run hrun (by unfold emitInstr; rw [hend])⟩

-- An instruction is lowered behind other items as it is alone.
theorem emits_of_emitInstr (hcalls : env.config.finallyStrategy = .subroutine) {fused : Bool}
    {s' : BodyState} {c' : OpenClass} (h : emitInstr f copy i next s env c = .ok (fused, s') c') :
    ∃ its, Emits env f i next ⟨s.finallies, c⟩ fused its ⟨s'.finallies, c'⟩ := by
  rw [emitInstr_of_subroutine hcalls] at h
  obtain ⟨its, -, halone⟩ := (uniform_emitInstr f i (uniform_noCopy f) next).split h
  exact ⟨its, halone⟩

theorem Emits.emitInstr_eq (h : Emits env f i next ⟨s.finallies, c⟩ fused its e')
    (hcalls : env.config.finallyStrategy = .subroutine) :
    emitInstr f copy i next s env c = .ok (fused, ⟨s.items ++ its.toArray, e'.slots⟩) e'.cls := by
  have halone : emitInstr f (noCopy f) i next ⟨#[], s.finallies⟩ env c =
    .ok (fused, ⟨its.toArray, e'.slots⟩) e'.cls := h
  have hbehind := uniform_emitInstr f i (uniform_noCopy f) next s.items ⟨#[], s.finallies⟩ env c
  rw [halone] at hbehind
  rw [emitInstr_of_subroutine hcalls]
  simpa [BodyM.prepend] using hbehind

theorem Emits.unique {fused' : Bool} {its' : List (Item UInt16)} {e₁ e₂ : EmitState}
    (h : Emits env f i next e fused its e₁) (h' : Emits env f i next e fused' its' e₂) :
    fused = fused' ∧ e₁ = e₂ := by
  unfold Emits at h h'
  rw [h] at h'
  obtain ⟨slots, cls⟩ := e₁
  obtain ⟨slots', cls'⟩ := e₂
  simp only [EStateM.Result.ok.injEq, Prod.mk.injEq, BodyState.mk.injEq] at h'
  obtain ⟨⟨rfl, -, rfl⟩, rfl⟩ := h'
  exact ⟨rfl, rfl⟩

-- Instructions are lowered if each of them is, in the state that lowering comes to it with.
theorem emitInstrs_succeeds_iff (hcalls : env.config.finallyStrategy = .subroutine) :
    (∃ s' c', emitInstrs f copy none instrs s env c = .ok ((), s') c') ↔
      ∀ i rest e, Comes env f ⟨s.finallies, c⟩ instrs e (i :: rest) →
        ∃ fused its e', Emits env f i (.ofRest rest none) e fused its e' := by
  induction hn : instrs.length using Nat.strongRecOn generalizing instrs s c with
  | ind n ih =>
    subst hn
    cases instrs with
    | nil =>
      refine ⟨?_, fun _ => ⟨s, c, rfl⟩⟩
      intro _ i rest e hcomes
      cases hcomes
    | cons i rest =>
      constructor
      · rintro ⟨s', c', h⟩
        obtain ⟨fused, s₁, c₁, hi, hrest⟩ := emitInstrs_cons_iff.mp h
        obtain ⟨its, hemits⟩ := emits_of_emitInstr hcalls hi
        intro j more e hcomes
        cases hcomes with
        | here => exact ⟨fused, its, _, hemits⟩
        | step hstep hcomes =>
          obtain ⟨rfl, rfl⟩ := hstep.unique hemits
          exact (ih _ (length_rest_lt _ i rest) rfl).mp ⟨s', c', hrest⟩ j more e hcomes
      · intro hall
        obtain ⟨fused, its, e₁, hemits⟩ := hall i rest _ .here
        obtain ⟨s', c', hrest⟩ : ∃ s' c', emitInstrs f copy none
            (if fused then rest.tail else rest)
            ⟨s.items ++ #[Item.mark i.pos] ++ its.toArray, e₁.slots⟩ env e₁.cls =
              .ok ((), s') c' :=
          (ih _ (length_rest_lt fused i rest) rfl).mpr
            fun j more e hcomes => hall j more e (.step hemits hcomes)
        exact ⟨s', c', emitInstrs_cons_iff.mpr
          ⟨fused, _, _, Emits.emitInstr_eq hemits hcalls, hrest⟩⟩

-- Where a block starts or ends, there is room for its slots.
theorem Emission.room_of_block (h : Emission env f code e instrs its e')
    (hcalls : env.config.finallyStrategy = .subroutine) (he : e.slots.Paired f)
    (hi : i ∈ instrs) (hop : i.op = .finallyStart ∨ i.op = .finallyEnd) :
    f.maxLocals + 1 ≤ 0xFFFF := by
  obtain ⟨xs, ys, rfl⟩ := List.append_of_mem hi
  have hsense : Following.sense? i.op = none := by obtain hop | hop := hop <;> rw [hop] <;> rfl
  have hc : isComparison i.op = false := by obtain hop | hop := hop <;> rw [hop] <;> rfl
  obtain ⟨before, first, more, e₁, e₂, -, hbefore, hfirst, -⟩ :=
    h.split_one hsense hc (.inr hcalls)
  have hpaired := hbefore.paired hcalls he
  obtain hop | hop := hop
  · obtain ⟨slots, hslots, -⟩ := hfirst.finallyStart_jsr hop hcalls
    exact (hpaired.forSubroutine hslots).2.1
  · obtain ⟨slots, hslots, -⟩ := hfirst.finallyEnd_ret hop hcalls
    exact (hpaired.forSubroutine hslots).2.1

end Steps

section Comes

variable {env : ClassEnv} {f : Frame} {e e' : EmitState} {i : Instr} {instrs last rest : List Instr}

theorem Comes.suffix (h : Comes env f e instrs e' last) : last <:+ instrs := by
  induction h with
  | here => exact List.suffix_rfl
  | @step _ _ _ i rest _ fused _ _ _ ih =>
    have htail : (if fused then rest.tail else rest) <:+ rest := by
      split
      · exact List.tail_suffix rest
      · exact List.suffix_rfl
    exact (ih.trans htail).trans (List.suffix_cons i rest)

theorem Comes.mem (h : Comes env f e instrs e' (i :: rest)) : i ∈ instrs :=
  h.suffix.subset List.mem_cons_self

theorem Comes.paired (h : Comes env f e instrs e' last)
    (hcalls : env.config.finallyStrategy = .subroutine) (he : e.slots.Paired f) :
    e'.slots.Paired f := by
  induction h with
  | here => exact he
  | step hi _ ih => exact ih (hi.paired hcalls he)

end Comes

-- Whether an item is not the edge of a copy.
def Item.isFlat : Item UInt16 → Bool
  | .enter | .leave .. => false
  | _ => true

section Targets

variable {env : ClassEnv} {f : Frame} {code : Bytes} {e e' : EmitState} {i : Instr}
  {next : Following} {its : List (Item UInt16)} {instrs : List Instr}

theorem Item.Inert.flat (h : Item.Inert its) :
    its.flatMap Item.targets = [] ∧ ∀ x ∈ its, x.isFlat = true := by
  refine ⟨List.flatMap_eq_nil_iff.mpr ?_, ?_⟩
  all_goals
    intro x hx
    have hinert := h x hx
    cases x <;> first | rfl | cases hinert

-- A jump or a switch has operands for its targets, and so has a comparison for those of the jump
-- behind it.
theorem Shape.flat {fused : Bool} {rest : List Instr}
    (h : Shape i (.ofRest rest none) fused its) : (∀ x ∈ its, x.isFlat = true) ∧
      its.flatMap Item.targets =
        if fused then (i :: rest.take 1).flatMap targets else targets i := by
  cases h with
  | @branch b hb =>
    refine ⟨?_, by simp [targets, hb]⟩
    intro x hx
    obtain rfl := List.mem_singleton.mp hx
    unfold branchItem? at hb
    split at hb <;> cases hb <;> rfl
  | inert hb hi => exact ⟨hi.flat.2, by simp [targets, hb, hi.flat.1]⟩
  | @fused pos sense target pre before op hc hnext hpre hbefore hop =>
    obtain ⟨j, rest', rfl, rfl, rfl, hsense⟩ := ofRest_eq_jump hnext
    refine ⟨?_, ?_⟩
    · intro x hx
      simp only [List.mem_append, List.mem_cons, List.not_mem_nil, or_false] at hx
      obtain hx | rfl | hx | rfl := hx
      · exact hpre.flat.2 x hx
      · rfl
      · exact hbefore.flat.2 x hx
      · rfl
    · have hnone : targets i = [] := by
        unfold targets branchItem?
        unfold isComparison at hc
        split <;> simp_all [relation?]
      have hjump : targets j = [j.arg] := by
        unfold targets
        rw [branchItem?_of_sense hsense]
        rfl
      simp [hnone, hjump, hpre.flat.1, hbefore.flat.1, Item.targets]

-- Without copies the targets of all items are those of the instructions.
theorem Emission.flat (h : Emission env f code e instrs its e')
    (hcalls : env.config.finallyStrategy = .subroutine) :
    (∀ x ∈ its, x.isFlat = true) ∧ its.flatMap Item.targets = instrs.flatMap targets := by
  induction h with
  | nil => exact ⟨by simp, rfl⟩
  | one hi _ ih =>
    obtain ⟨hflat, htargets⟩ := hi.shape.flat
    obtain ⟨hrest, hmore⟩ := ih
    refine ⟨List.forall_mem_cons.mpr ⟨rfl, List.forall_mem_append.mpr ⟨hflat, hrest⟩⟩, ?_⟩
    simp [Item.targets, htargets, hmore]
  | fused hi _ ih =>
    obtain ⟨hflat, htargets⟩ := hi.shape.flat
    obtain ⟨hrest, hmore⟩ := ih
    refine ⟨List.forall_mem_cons.mpr ⟨rfl, List.forall_mem_append.mpr ⟨hflat, hrest⟩⟩, ?_⟩
    simp [Item.targets, htargets, hmore]
  | copy _ hinline _ _ _ _ _ _ => cases hcalls.symm.trans hinline

theorem Item.nodes_target (x : Item UInt16) (scope pos : Nat) :
    (x.nodes scope pos).map JumpNode.target = x.targets ∧
      ∀ n ∈ x.nodes scope pos, n.scope = scope := by
  have hswitch : ∀ (ts : List UInt16) (origin operand : Nat),
      (Layout.switchNodes scope origin operand ts).map JumpNode.target = ts := by
    intro ts origin operand
    induction ts generalizing operand with
    | nil => rfl
    | cons t rest ih => rw [Layout.switchNodes, List.map_cons, ih]
  cases x with
  | switch ts => exact ⟨hswitch ts _ _, fun n hn => (Item.mem_switchNodes hn).2.2.1⟩
  | _ => simp [Item.nodes, Item.targets]

-- Without copies all jumps are in one scope.
theorem Layout.jumps_puts_flat (l : Layout) (h : ∀ x ∈ its, x.isFlat = true) :
    ∃ ns, (l.puts its).jumps.toList = l.jumps.toList ++ ns ∧
      ns.map JumpNode.target = its.flatMap Item.targets ∧ ∀ n ∈ ns, n.scope = l.scope := by
  induction its generalizing l with
  | nil => exact ⟨[], by simp [Layout.puts_nil], rfl, by simp⟩
  | cons x rest ih =>
    obtain ⟨hx, hrest⟩ := List.forall_mem_cons.mp h
    obtain ⟨ns, hns, htargets, hscope⟩ := ih (l.put x) hrest
    obtain ⟨hown, hownScope⟩ := x.nodes_target l.scope l.out.pos
    have hsame : (l.put x).scope = l.scope := by
      cases x with
      | enter | leave => cases hx
      | switch ts =>
        simp only [Layout.put, Layout.putSwitch]
        split <;> rfl
      | _ => rfl
    refine ⟨x.nodes l.scope l.out.pos ++ ns, ?_, ?_, ?_⟩
    · rw [Layout.puts_cons, hns, jumps_put, List.append_assoc]
    · rw [List.map_append, hown, htargets, List.flatMap_cons]
    · exact List.forall_mem_append.mpr ⟨hownScope, fun n hn => (hscope n hn).trans hsame⟩

end Targets

theorem JumpNode.Reaches.unique {r : Relocation} {prologue : Nat} {n : JumpNode}
    {offset offset' : Int} (h : n.Reaches r prologue offset) (h' : n.Reaches r prologue offset') :
    offset = offset' := by
  obtain ⟨java, hfinds, hoffset⟩ := h
  obtain ⟨java', hfinds', hoffset'⟩ := h'
  obtain rfl := hfinds.unique hfinds'
  omega

section Body

variable {env : ClassEnv} {f : Frame} {code : Bytes} {out : CodeBuffer} {c c₁ : OpenClass}
  {body : BodyState} {attrs : Pod.Attributes} {instrs : List Instr}

-- The items of a body are those of its instructions.
theorem emitBody_eq (f : Frame) (code : Bytes) : ∃ copy, emitBody f code = (do
    emitInstrs f copy (Instr.decodeRange code 0 code.size).fault
      (Instr.decodeRange code 0 code.size).instrs
    BodyM.emit [.mark code.size]) :=
  ⟨_, rfl⟩

theorem emitBody_succeeds_iff (hcalls : env.config.finallyStrategy = .subroutine) :
    (∃ body c₁, emitBody f code {} env c = .ok ((), body) c₁) ↔
      ∃ instrs, Instr.disassemble code = .ok instrs ∧
        ∀ i rest e, Comes env f ⟨{}, c⟩ instrs e (i :: rest) →
          ∃ fused its e', Emits env f i (.ofRest rest none) e fused its e' := by
  obtain ⟨copy, hbody⟩ := emitBody_eq f code
  constructor
  · rintro ⟨body, c₁, h⟩
    rw [hbody] at h
    obtain ⟨_, s₁, c₂, hinstrs, -⟩ := BodyM.bind_eq_ok.mp h
    have hfault := fault_eq_none hinstrs
    rw [hfault] at hinstrs
    refine ⟨_, Instr.disassemble_eq_ok_iff.mpr (Instr.stream_of_decodeRange hfault), ?_⟩
    exact (emitInstrs_succeeds_iff hcalls).mp ⟨s₁, c₂, hinstrs⟩
  · rintro ⟨instrs, hdis, hall⟩
    rw [hbody, Instr.decodeRange_of_stream (Instr.disassemble_eq_ok_iff.mp hdis)]
    obtain ⟨s₁, c₁, hinstrs⟩ := (emitInstrs_succeeds_iff (s := {}) hcalls).mpr hall
    exact ⟨_, c₁, BodyM.bind_eq_ok.mpr ⟨(), s₁, c₁, hinstrs, rfl⟩⟩

theorem ofFormat_of_ok {α : Type} {x : Except Pod.FormatError α} {a : α} (h : x = .ok a) :
    ClassM.ofFormat x env c = .ok a c := by
  rw [h]
  rfl

-- Whether a method has room for its slots does not depend on its tables.
theorem PlacedCode.finish_succeeds_iff {p : PlacedCode} (out : CodeBuffer) :
    (∃ mc, PlacedCode.finish { p with out } f = .ok mc) ↔
      f.maxLocals + p.finallies.extra ≤ 0xFFFF := by
  unfold PlacedCode.finish FinallySlots.maxLocals
  dsimp only
  by_cases hfits : f.maxLocals + p.finallies.extra ≤ 0xFFFF
  · rw [if_pos hfits]
    exact ⟨fun _ => hfits, fun _ => ⟨_, rfl⟩⟩
  · rw [if_neg hfits]
    refine ⟨?_, fun h => absurd h hfits⟩
    rintro ⟨mc, h⟩
    cases h

-- A method is lowered if its code is placed and the tables behind it can be written.
theorem lowerCode_succeeds_iff :
    (∃ mc c', lowerCode f code attrs out env c = .ok mc c') ↔
      ∃ p c₁, placeCode f code out env c = .ok p c₁ ∧ p.Completes f attrs env c₁ := by
  constructor
  · rintro ⟨mc, c', h⟩
    obtain ⟨p, c₁, hp, h₁⟩ := ClassM.bind_eq_ok.mp h
    obtain ⟨errs, c₂, herrs, h₂⟩ := ClassM.bind_eq_ok.mp h₁
    obtain ⟨hread, rfl⟩ := ofFormat_eq_ok herrs
    obtain ⟨exceptions, c₃, hexceptions, h₃⟩ := ClassM.bind_eq_ok.mp h₂
    obtain ⟨env', c₄, henv, h₄⟩ := ClassM.bind_eq_ok.mp h₃
    cases henv
    refine ⟨p, c₂, hp, ⟨errs, exceptions, c₃, hread, hexceptions⟩, ?_, ?_⟩
    · intro hnumbered
      rw [if_pos hnumbered] at h₄
      obtain ⟨lines, c₅, hlines, -⟩ := ClassM.bind_eq_ok.mp h₄
      exact ⟨lines, (ofFormat_eq_ok hlines).1⟩
    · split at h₄
      · obtain ⟨lines, c₅, -, h₅⟩ := ClassM.bind_eq_ok.mp h₄
        exact (PlacedCode.finish_succeeds_iff _).mp ⟨mc, (ClassM.ofExcept_eq_ok.mp h₅).1⟩
      · exact (PlacedCode.finish_succeeds_iff _).mp ⟨mc, (ClassM.ofExcept_eq_ok.mp h₄).1⟩
  · rintro ⟨p, c₁, hp, ⟨errs, exceptions, c₂, herrs, hexceptions⟩, hlines, hslots⟩
    have hfinish := fun out => (PlacedCode.finish_succeeds_iff out).mpr hslots
    by_cases hnumbered : env.config.lineNumbers = true
    · obtain ⟨lines, hlines⟩ := hlines hnumbered
      obtain ⟨mc, hmc⟩ := hfinish ((lineEntries p.reloc lines.toList).foldl CodeBuffer.addLine
        (exceptions.foldl CodeBuffer.addException p.out))
      refine ⟨mc, c₂, ClassM.bind_eq_ok.mpr ⟨p, c₁, hp, ClassM.bind_eq_ok.mpr
        ⟨errs, c₁, ofFormat_of_ok herrs, ClassM.bind_eq_ok.mpr
          ⟨exceptions, c₂, hexceptions, ClassM.bind_eq_ok.mpr ⟨env, c₂, rfl, ?_⟩⟩⟩⟩⟩
      rw [if_pos hnumbered]
      exact ClassM.bind_eq_ok.mpr ⟨lines, c₂, ofFormat_of_ok hlines,
        ClassM.ofExcept_eq_ok.mpr ⟨hmc, rfl⟩⟩
    · obtain ⟨mc, hmc⟩ := hfinish (exceptions.foldl CodeBuffer.addException p.out)
      refine ⟨mc, c₂, ClassM.bind_eq_ok.mpr ⟨p, c₁, hp, ClassM.bind_eq_ok.mpr
        ⟨errs, c₁, ofFormat_of_ok herrs, ClassM.bind_eq_ok.mpr
          ⟨exceptions, c₂, hexceptions, ClassM.bind_eq_ok.mpr ⟨env, c₂, rfl, ?_⟩⟩⟩⟩⟩
      rw [if_neg hnumbered]
      exact ClassM.ofExcept_eq_ok.mpr ⟨hmc, rfl⟩

-- Code is placed if each of its jumps has a target that is near enough.
theorem placeCode_succeeds_iff (out : CodeBuffer) (h : emitBody f code {} env c = .ok ((), body) c₁) :
    (∃ p c₂, placeCode f code out env c = .ok p c₂) ↔
      ∀ n ∈ (body.layout code out).jumps, ∃ offset,
        n.Reaches (body.layout code out).reloc body.finallies.prologue offset ∧
          n.Fits offset := by
  have hnone : body.fault? code out f.name = none ↔ ∀ n ∈ (body.layout code out).jumps, ∃ offset,
      n.Reaches (body.layout code out).reloc body.finallies.prologue offset ∧ n.Fits offset := by
    unfold BodyState.fault?
    rw [List.findSome?_eq_none_iff]
    constructor
    · intro hgood n hn
      have hn := Array.mem_toList_iff.mpr hn
      obtain ⟨offset, hoffset, hfits⟩ := JumpTable.fault?_eq_none (hgood n hn)
      exact ⟨offset, (layout_lookup body code out hn offset).mp hoffset, hfits⟩
    · intro hgood n hn
      obtain ⟨offset, hreaches, hfits⟩ := hgood n (Array.mem_toList_iff.mp hn)
      rw [JumpTable.fault?, (layout_lookup body code out hn offset).mpr hreaches]
      exact if_pos hfits
  rw [← hnone, placeCode_eq h]
  cases body.fault? code out f.name with
  | none => exact ⟨fun _ => rfl, fun _ => ⟨_, _, rfl⟩⟩
  | some e =>
    refine ⟨?_, fun h => absurd h (by simp)⟩
    rintro ⟨p, c₂, hp⟩
    cases hp

-- If nothing is copied, the jumps of a body are those of its instructions, and what they can reach
-- are the instructions and the end of the code.
theorem layout_jumps (out : CodeBuffer) (h : emitBody f code {} env c = .ok ((), body) c₁)
    (hcalls : env.config.finallyStrategy = .subroutine)
    (hinstrs : Instr.disassemble code = .ok instrs) :
    (body.layout code out).jumps.toList.map JumpNode.target = instrs.flatMap targets ∧
      ∀ n ∈ (body.layout code out).jumps,
        (∃ offset, n.Reaches (body.layout code out).reloc body.finallies.prologue offset) ↔
          n.target.toNat ∈ instrs.map Instr.pos ∨ n.target.toNat = code.size := by
  obtain ⟨instrs', its, hstream, hder, hitems⟩ := items_of_emitBody h
  cases hinstrs.symm.trans (Instr.disassemble_eq_ok_iff.mpr hstream)
  obtain ⟨hflat, htargets⟩ := hder.flat hcalls
  have hallFlat : ∀ x ∈ body.items.toList, x.isFlat = true := by
    rw [hitems]
    exact List.forall_mem_append.mpr ⟨hflat, by simp [Item.isFlat]⟩
  obtain ⟨ns, hns, hown, hscope⟩ := (Layout.start out code.size).jumps_puts_flat hallFlat
  rw [← body.layout_eq] at hns
  have hall : (body.layout code out).jumps.toList = ns := hns
  refine ⟨?_, ?_⟩
  · rw [hall, hown, hitems, List.flatMap_append, htargets]
    simp [Item.targets]
  · intro n hn
    obtain ⟨instrs', hdis, hknown⟩ := layout_positions out h
    cases hinstrs.symm.trans hdis
    have hmain : n.scope = Relocation.mainScope :=
      hscope n (hall ▸ Array.mem_toList_iff.mpr hn)
    rw [← hknown]
    constructor
    · rintro ⟨offset, java, hfinds, -⟩
      rw [hmain] at hfinds
      cases hfinds with
      | here hlocal => exact ⟨java, hlocal⟩
      | outer _ hparent _ =>
        exact absurd ((body.layout_valid code out).parent_lt _ _ hparent) (Nat.not_lt_zero _)
    · rintro ⟨java, hlocal⟩
      refine ⟨_, java, ?_, add_sub_cancel _ _⟩
      rw [hmain]
      exact .here hlocal

-- Lowering a method whose finally blocks are subroutines succeeds if what it asks for is there, and
-- else it fails.
theorem subroutine_lowers_iff (f : Frame) (code : Bytes) (attrs : Pod.Attributes)
    (out : CodeBuffer) (c : OpenClass) (hcalls : env.config.finallyStrategy = .subroutine) :
    (∃ mc c', lowerCode f code attrs out env c = .ok mc c') ↔
      ∃ instrs, Instr.disassemble code = .ok instrs ∧
        SubroutineReady env f code attrs out c instrs := by
  have hnew : ({} : FinallySlots).Paired f := .inr ⟨rfl, rfl⟩
  constructor
  · intro hlowered
    obtain ⟨p, c₁, hp, hcompletes⟩ := lowerCode_succeeds_iff.mp hlowered
    obtain ⟨body, hbody, -, -⟩ := placeCode_eq_ok hp
    have hreach := (placeCode_succeeds_iff out hbody).mp ⟨p, c₁, hp⟩
    obtain ⟨instrs, hdis, hall⟩ := (emitBody_succeeds_iff hcalls).mp ⟨body, c₁, hbody⟩
    obtain ⟨htargets, hknown⟩ := layout_jumps out hbody hcalls hdis
    refine ⟨instrs, hdis, ?_⟩
    constructor
    case lowered => exact fun i rest e hcomes _ => hall i rest e hcomes
    case room =>
      obtain ⟨instrs', its, hstream, hder, -⟩ := items_of_emitBody hbody
      cases hdis.symm.trans (Instr.disassemble_eq_ok_iff.mpr hstream)
      exact fun i hi hop => hder.room_of_block hcalls hnew hi hop
    case positions =>
      intro i hi t ht
      have hmem : t ∈ (body.layout code out).jumps.toList.map JumpNode.target := by
        rw [htargets]
        exact List.mem_flatMap.mpr ⟨i, hi, ht⟩
      obtain ⟨n, hn, rfl⟩ := List.mem_map.mp hmem
      have hn := Array.mem_toList_iff.mp hn
      obtain ⟨offset, hreaches, -⟩ := hreach n hn
      exact (hknown n hn).mp ⟨offset, hreaches⟩
    case near =>
      intro body' c' hbody' n hn offset hreaches
      cases hbody.symm.trans hbody'
      obtain ⟨offset', hreaches', hfits⟩ := hreach n hn
      rwa [hreaches.unique hreaches']
    case tables =>
      intro p' c' hp'
      cases hp.symm.trans hp'
      exact hcompletes
  · rintro ⟨instrs, hdis, hready⟩
    have hall : ∀ i rest e, Comes env f ⟨{}, c⟩ instrs e (i :: rest) →
        ∃ fused its e', Emits env f i (.ofRest rest none) e fused its e' := by
      intro i rest e hcomes
      cases hop : isFinally i.op with
      | false => exact hready.lowered i rest e hcomes hop
      | true =>
        exact exists_emits_of_isFinally hcalls hop (hcomes.paired hcalls hnew)
          (hready.room i hcomes.mem)
    obtain ⟨body, c₁, hbody⟩ := (emitBody_succeeds_iff hcalls).mpr ⟨instrs, hdis, hall⟩
    obtain ⟨htargets, hknown⟩ := layout_jumps out hbody hcalls hdis
    obtain ⟨p, c₂, hp⟩ := (placeCode_succeeds_iff out hbody).mpr <| by
      intro n hn
      have hmem : n.target ∈ instrs.flatMap targets := by
        rw [← htargets]
        exact List.mem_map_of_mem (Array.mem_toList_iff.mpr hn)
      obtain ⟨i, hi, ht⟩ := List.mem_flatMap.mp hmem
      obtain ⟨offset, hreaches⟩ := (hknown n hn).mpr (hready.positions i hi _ ht)
      exact ⟨offset, hreaches, hready.near body c₁ hbody n hn offset hreaches⟩
    exact lowerCode_succeeds_iff.mpr ⟨p, c₂, hp, hready.tables p c₂ hp⟩

end Body

-- A call goes to an instruction that starts no block: `JumpFinally 3; Nop; ReturnVoid`.
theorem subroutine_lowers_iff_bareCall :
    subroutineEnv.config.finallyStrategy = .subroutine ∧
    ∃ instrs, Instr.disassemble #[53, 0, 3, 0, 42] = .ok instrs ∧
      SubroutineReady subroutineEnv bareFrame #[53, 0, 3, 0, 42] {} {} bareClass instrs := by
  obtain ⟨mc, c', h⟩ := exists_of_result? (by decide +kernel :
    (result? (lowerCode bareFrame #[53, 0, 3, 0, 42] {} {} subroutineEnv bareClass)).isSome)
  exact ⟨rfl, (subroutine_lowers_iff _ _ _ _ _ rfl).mp ⟨mc, c', h⟩⟩

-- The error of a step that fails.
def error? {ε σ α : Type} : EStateM.Result ε σ α → Option ε
  | .ok _ _ => none
  | .error e _ => some e

theorem exists_of_error? {ε σ α : Type} {r : EStateM.Result ε σ α} {e : ε}
    (h : error? r = some e) : ∃ s, r = .error e s := by
  cases r with
  | ok a s => cases h
  | error e' s =>
    cases h
    exact ⟨s, rfl⟩

-- What is refused where blocks are copied and not where they are called: a call of an instruction
-- that starts no block, a call of a block that never ends, and an end without a start.
theorem structure_unchecked_bareCall :
    (∃ c', lowerCode bareFrame #[53, 0, 3, 0, 42] {} {} errEnv bareClass =
      .error (.badOperand (some .jumpFinally) "fan/p/T.m" (.notFinallyStart 3 .nop)) c') ∧
    (∃ mc c', lowerCode bareFrame #[53, 0, 3, 0, 42] {} {} subroutineEnv bareClass = .ok mc c') ∧
    (∃ c', lowerCode bareFrame #[53, 0, 3, 57, 42] {} {} errEnv bareClass =
      .error (.badOperand (some .jumpFinally) "fan/p/T.m" (.finallyNeverEnds 3)) c') ∧
    (∃ mc c', lowerCode bareFrame #[53, 0, 3, 57, 42] {} {} subroutineEnv bareClass = .ok mc c') ∧
    (∃ c', lowerCode bareFrame #[58, 42] {} {} errEnv bareClass =
      .error (.badOperand (some .finallyEnd) "fan/p/T.m" .finallyEndAlone) c') ∧
    ∃ mc c', lowerCode bareFrame #[58, 42] {} {} subroutineEnv bareClass = .ok mc c' :=
  ⟨exists_of_error? (by decide +kernel), exists_of_result? (by decide +kernel),
    exists_of_error? (by decide +kernel), exists_of_result? (by decide +kernel),
    exists_of_error? (by decide +kernel), exists_of_result? (by decide +kernel)⟩

end PodCompiler.Lowering
