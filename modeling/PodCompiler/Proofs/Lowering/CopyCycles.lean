import PodCompiler.Proofs.Lowering.CallingConvention
import PodCompiler.Proofs.Lowering.CopySteps
import PodCompiler.Proofs.Lowering.FinallyCalls

namespace PodCompiler.Lowering

open ClassFile (CodeBuffer)
open Instr (Stream)

-- The block that starts at `q` runs the one that starts at `r`.
def RunsBlock (code : Bytes) (instrs : List Instr) (q r : Nat) : Prop :=
  ∃ stop, FinallyBlock code instrs q stop ∧
    ∃ i ∈ instrs, i.op = .jumpFinally ∧ q < i.pos ∧ i.pos < stop ∧ i.arg.toNat = r

section Cycles

variable {env : ClassEnv} {f : Frame} {code : Bytes} {instrs inner : List Instr} {q r stop : Nat}
  {e e' : EmitState} {its : List (Item UInt16)}

-- What runs in a block is among the instructions of its copies.
theorem RunsBlock.exists_mem (h : RunsBlock code instrs q r) (hs : Stream code code.size 0 instrs)
    (hend : Instr.findFinallyEnd code 0 (q + 1) = .ok (some stop))
    (hinner : Stream code stop (q + 1) inner) :
    ∃ i ∈ inner, i.op = .jumpFinally ∧ i.arg.toNat = r := by
  obtain ⟨stop', ⟨⟨j, hj, hjop, rfl⟩, hend'⟩, i, hi, hop, hlo, hhi, harg⟩ := h
  cases hend.symm.trans hend'
  obtain ⟨xs, own, k, zs, rfl, rfl, -, -, -, hown, -⟩ := Stream.exists_block hs hj hjop hend
  obtain rfl := Stream.unique hinner hown
  exact ⟨i, (Stream.mem_inner_iff hs).mpr ⟨hi, hlo, hhi⟩, hop, harg⟩

-- From one block of a circle on, the next one is in a circle too.
theorem exists_runs_of_cycle (h : Relation.TransGen (RunsBlock code instrs) q q) :
    ∃ r, RunsBlock code instrs q r ∧ Relation.TransGen (RunsBlock code instrs) r r := by
  obtain ⟨r, hfirst, hrest⟩ := Relation.TransGen.head'_iff.mp h
  exact ⟨r, hfirst, Relation.TransGen.tail' hrest hfirst⟩

-- No instruction that is lowered runs a block in a circle. By induction on the derivation: the copy
-- would be one with such an instruction.
theorem Emission.no_cycle (h : Emission env f code e inner its e')
    (hs : Stream code code.size 0 instrs) (hinline : env.config.finallyStrategy = .inline) :
    ∀ i ∈ inner, i.op = .jumpFinally → ¬Relation.TransGen (RunsBlock code instrs) i.arg.toNat i.arg.toNat := by
  induction h with
  | nil => simp
  | one hi hrest ih =>
    intro j hj hop
    obtain rfl | hj := List.mem_cons.mp hj
    · exact absurd hop (hi.op_ne hinline)
    · exact ih j hj hop
  | @fused e e₁ e₂ i k rest its more hi hrest ih =>
    intro j hj hop
    obtain rfl | hj := List.mem_cons.mp hj
    · exact absurd hop (hi.op_ne hinline)
    obtain rfl | hj := List.mem_cons.mp hj
    · cases hi.shape with
      | fused _ hnext _ _ _ =>
        obtain ⟨k, rest, hk, -, -, hsense⟩ := ofRest_eq_jump hnext
        cases hk
        rw [hop] at hsense
        cases hsense
    · exact ih j hj hop
  | copy hop hstrategy hstop hinner hbody hrest ihbody ihrest =>
    intro j hj hjop hcycle
    obtain rfl | hj := List.mem_cons.mp hj
    · obtain ⟨r, hruns, hnext⟩ := exists_runs_of_cycle hcycle
      obtain ⟨k, hk, hkop, rfl⟩ := hruns.exists_mem hs (finallyEnd_eq_ok hstop).2 hinner
      exact ihbody k hk hkop hnext
    · exact ihrest j hj hjop hcycle

variable {c c' : OpenClass} {body : BodyState}

theorem not_emitBody_of_cycle
    (hdis : Instr.disassemble code = .ok instrs) (hinline : env.config.finallyStrategy = .inline)
    (hcycle : ∃ q, Relation.TransGen (RunsBlock code instrs) q q)
    (h : emitBody f code {} env c = .ok ((), body) c') : False := by
  have hs := Instr.disassemble_eq_ok_iff.mp hdis
  obtain ⟨q, hcycle⟩ := hcycle
  obtain ⟨r, ⟨-, -, i, hi, hop, -, -, rfl⟩, hnext⟩ := exists_runs_of_cycle hcycle
  obtain ⟨instrs', its, hs', -, hder⟩ := emission_of_emitBody h
  obtain rfl := Stream.unique hs hs'
  exact hder.no_cycle hs hinline i hi hop hnext

-- So lowering the method or the expression ends with an error.
theorem exists_error_of_cycle (f : Frame) (hdis : Instr.disassemble code = .ok instrs)
    (hinline : env.config.finallyStrategy = .inline)
    (hcycle : ∃ q, Relation.TransGen (RunsBlock code instrs) q q) (out : CodeBuffer)
    (c : OpenClass) :
    (∀ attrs, ∃ e c', lowerCode f code attrs out env c = .error e c') ∧
      ∃ e c', lowerFragment f code out env c = .error e c' := by
  constructor
  · intro attrs
    cases h : lowerCode f code attrs out env c with
    | error e c' => exact ⟨e, c', rfl⟩
    | ok mc c' =>
      obtain ⟨body, c₁, hl⟩ := lowered_of_lowerCode h
      exact (not_emitBody_of_cycle hdis hinline hcycle hl.emits).elim
  · cases h : lowerFragment f code out env c with
    | error e c' => exact ⟨e, c', rfl⟩
    | ok mc c' =>
      obtain ⟨body, hl⟩ := lowered_of_lowerFragment h
      exact (not_emitBody_of_cycle hdis hinline hcycle hl.emits).elim

end Cycles

-- The steps that lowering code of some size takes at most.
def maxSteps (size : Nat) : Nat :=
  (size + 1) * (size + 2) ^ maxInlineDepth

theorem Place.advances_start (f : Frame) (code : Bytes) :
    advances f code (maxSteps code.size) (.start code) =
      (emitRange f code maxInlineDepth 0 code.size >>= fun _ => pure none) := by
  have hwithin : (start code).Within code.size := ⟨Nat.zero_le _, Nat.le_refl _, by simp [start]⟩
  have hwork : (start code).work code.size ≤ maxSteps code.size := by
    simp [work, weight, outerWork, start, maxSteps]
  rw [advances_eq hwithin hwork, finish, bind_assoc]
  rfl

-- Whatever the code is and however finally blocks are lowered, lowering it comes to an end: after
-- as many steps there is none left, or one of them was an error, and what was done is what lowering
-- the whole range does. If blocks are copied and run each other in a circle, it is an error.
theorem lowering_ends (f : Frame) (code : Bytes) :
    (∀ (s : BodyState) (env : ClassEnv) (c : OpenClass),
      (∃ s' c', Place.advances f code (maxSteps code.size) (.start code) s env c =
          .ok (none, s') c' ∧
        emitRange f code maxInlineDepth 0 code.size s env c = .ok ((), s') c') ∨
      ∃ e c', Place.advances f code (maxSteps code.size) (.start code) s env c = .error e c' ∧
        emitRange f code maxInlineDepth 0 code.size s env c = .error e c') ∧
    ∀ (env : ClassEnv) (instrs : List Instr), Instr.disassemble code = .ok instrs →
      env.config.finallyStrategy = .inline →
      (∃ q, Relation.TransGen (RunsBlock code instrs) q q) →
      ∀ (out : CodeBuffer) (c : OpenClass),
        (∀ attrs, ∃ e c', lowerCode f code attrs out env c = .error e c') ∧
          ∃ e c', lowerFragment f code out env c = .error e c' := by
  constructor
  · intro s env c
    rw [Place.advances_start, BodyM.run_bind]
    cases emitRange f code maxInlineDepth 0 code.size s env c with
    | ok r c' => exact .inl ⟨r.2, c', rfl, rfl⟩
    | error e c' => exact .inr ⟨e, c', rfl, rfl⟩
  · intro env instrs hdis hinline hcycle out c
    exact exists_error_of_cycle f hdis hinline hcycle out c

-- A block that runs itself:
--    0 FinallyStart    1 JumpFinally 0    4 FinallyEnd    5 ReturnVoid
def selfRunningBlock : Bytes := #[57, 53, 0, 0, 58, 42]

theorem lowering_ends_selfRunningBlock :
    bareEnv.config.finallyStrategy = .inline ∧
    ∃ e c', lowerCode bareFrame selfRunningBlock {} {} bareEnv bareClass = .error e c' := by
  have hdis : Instr.disassemble selfRunningBlock = .ok
      [⟨0, .finallyStart, []⟩, ⟨1, .jumpFinally, [0]⟩, ⟨4, .finallyEnd, []⟩,
        ⟨5, .returnVoid, []⟩] := by
    cbv
  have hruns : RunsBlock selfRunningBlock [⟨0, .finallyStart, []⟩, ⟨1, .jumpFinally, [0]⟩,
      ⟨4, .finallyEnd, []⟩, ⟨5, .returnVoid, []⟩] 0 0 :=
    ⟨4, ⟨⟨_, List.mem_cons_self, rfl, rfl⟩, by cbv⟩, ⟨1, .jumpFinally, [0]⟩, by decide, rfl,
      by decide, by decide, rfl⟩
  obtain ⟨-, hcycles⟩ := lowering_ends bareFrame selfRunningBlock
  exact ⟨rfl, (hcycles bareEnv _ hdis rfl ⟨0, .single hruns⟩ {} bareClass).1 {}⟩

end PodCompiler.Lowering
