import PodCompiler.Proofs.Lowering.FinallyCalls

namespace PodCompiler.Lowering

open ClassFile (CodeBuffer)
open ClassFile.Op
open Instr (Stream)

section Entries

variable {env : ClassEnv} {f : Frame} {code : Bytes} {out : CodeBuffer} {c c₁ c' : OpenClass}
  {body : BodyState} {mc : MethodCode} {instrs : List Instr}

-- A block of a body begins with its prologue, behind which the slots of the method are given out.
theorem Lowered.exists_prologue (hl : Lowered env f code out c c₁ body mc)
    (hcalls : env.config.finallyStrategy = .subroutine) (hs : Stream code code.size 0 instrs)
    {j : Instr} (hj : j ∈ instrs) (hop : j.op = .finallyStart) :
    body.finallies.Given f ∧ ∃ start : Nat,
      (body.layout code out).reloc.getLocal Relocation.mainScope j.pos = some start ∧
      SubroutineCode.Prologue mc.code.code f.maxLocals.toUInt16 (f.maxLocals + 1).toUInt16 start
        (FinallySlots.entryBehind f.maxLocals.toUInt16 start) := by
  obtain ⟨instrs', its, hs', hder, hitems⟩ := items_of_emitBody hl.emits
  obtain rfl := Stream.unique hs hs'
  obtain ⟨xs, ys, rfl⟩ := List.append_of_mem hj
  obtain ⟨before, first, more, e₁, e₂, rfl, hbefore, hfirst, hmore⟩ :=
    hder.split_one (by rw [hop]; rfl) (by rw [hop]; rfl) (.inl (by simp [hop]))
  obtain ⟨slots, hslots, rfl⟩ := hfirst.finallyStart_jsr hop hcalls
  obtain ⟨rfl, hgiven⟩ := (hbefore.paired hcalls (.inr ⟨rfl, rfl⟩)).forSubroutine hslots
  refine ⟨hmore.given hcalls hgiven, ?_⟩
  have hgoes : body.Goes code out ((Layout.start out code.size).puts before)
      (.mark j.pos :: (FinallySlots.subroutineItems f.maxLocals.toUInt16
        (f.maxLocals + 1).toUInt16 ++ (more ++ [Item.mark code.size]))) :=
    ⟨before, by rw [hitems]; simp, rfl⟩
  have hmain : ((Layout.start out code.size).puts before).scope = Relocation.mainScope := by
    obtain ⟨ps, hps, -⟩ := hbefore.marked (Stream.before hs) (Layout.valid_start out code.size)
    exact hps.scope
  have hstart := hgoes.note hl.emits ⟨_, _, rfl, .inl rfl⟩
  rw [hmain] at hstart
  exact ⟨_, hstart, (hl.prologue_start hgoes.next.stands).2⟩

end Entries

-- Every block of a method stores the address that it goes back to where its own call and those of
-- the instructions that run it enter it, in whatever order they come, with no bound on the slots.
theorem calls_enter_prologue {env : ClassEnv} {f : Frame} {code : Bytes} {attrs : Pod.Attributes}
    {out : CodeBuffer} {c c' : OpenClass} {mc : MethodCode}
    (hcalls : env.config.finallyStrategy = .subroutine)
    (h : lowerCode f code attrs out env c = .ok mc c') :
    ∃ instrs, Instr.disassemble code = .ok instrs ∧ ∀ j ∈ instrs, j.op = .finallyStart →
      f.maxLocals + 1 ≤ 0xFFFF ∧ ∃ start entry : Nat,
      mc.reloc[j.pos]? = some (some start) ∧
      SubroutineCode.Prologue mc.code.code f.maxLocals.toUInt16 (f.maxLocals + 1).toUInt16
        start entry ∧
      ∀ i ∈ instrs, i.op = .jumpFinally → i.arg.toNat = j.pos → ∃ p : Nat,
        mc.reloc[i.pos]? = some (some p) ∧ mc.code.code[p]? = some jsr ∧
        p + (word2 mc.code.code (p + 1)).toInt16.toInt = entry := by
  obtain ⟨body, c₁, hl⟩ := lowered_of_lowerCode h
  obtain ⟨instrs, its, hs, -, -⟩ := items_of_emitBody hl.emits
  refine ⟨instrs, Instr.disassemble_eq_ok_iff.mpr hs, fun j hj hop => ?_⟩
  obtain ⟨hgiven, start, hstart, hprologue⟩ := hl.exists_prologue hcalls hs hj hop
  simp only [hl.filled.main, Relocation.mainMap_eq_some_iff]
  refine ⟨hgiven.1, start, _, hstart, hprologue, fun i hi hjump htarget => ?_⟩
  rw [← htarget] at hstart
  exact hl.call_enters hcalls hs hgiven hi hjump hstart

-- With 255 variables the slot of the exception is the last one that fits a byte, and that of the
-- address does not. The call comes before the block:
--    0 JumpFinally 6    6 FinallyStart    8 ReturnVoid
--    3 Leave 8          7 FinallyEnd
def callBeforeBlock : Bytes :=
  #[53, 0, 6, 52, 0, 8, 57, 58, 42]

def fullFrame : Frame :=
  { bareFrame with maxLocals := 255 }

theorem calls_enter_prologue_wide : ∃ mc c' start entry,
    lowerCode fullFrame callBeforeBlock {} {} subroutineEnv bareClass = .ok mc c' ∧
    SubroutineCode.Prologue mc.code.code 255 256 start entry ∧
    mc.code.code[0]? = some jsr ∧ (word2 mc.code.code 1).toInt16.toInt = entry ∧ entry = 14 := by
  have hrun : (result? (lowerCode fullFrame callBeforeBlock {} {} subroutineEnv bareClass)).map
      (fun mc => (mc.code.code, mc.reloc[0]?, mc.reloc[6]?)) = some
        (#[168, 0, 14, 167, 0, 19, 58, 255, 168, 0, 6, 25, 255, 191, 196, 58, 1, 0,
          196, 169, 1, 0, 177], some (some 0), some (some 6)) := by
    decide +kernel
  obtain ⟨mc, hmc, hcode⟩ := Option.map_eq_some_iff.mp hrun
  obtain ⟨mc', c', h⟩ := exists_of_result? (Option.isSome_of_eq_some hmc)
  rw [h] at hmc
  cases hmc
  simp only [Prod.mk.injEq] at hcode
  obtain ⟨hcode, hcall, hblock⟩ := hcode
  obtain ⟨instrs, hinstrs, hentries⟩ := calls_enter_prologue rfl h
  have hlist : Instr.disassemble callBeforeBlock = .ok [⟨0, .jumpFinally, [6]⟩, ⟨3, .leave, [8]⟩,
      ⟨6, .finallyStart, []⟩, ⟨7, .finallyEnd, []⟩, ⟨8, .returnVoid, []⟩] := by
    decide +kernel
  cases hlist.symm.trans hinstrs
  obtain ⟨-, start, entry, hstart, hprologue, hcalls⟩ :=
    hentries ⟨6, .finallyStart, []⟩ (by decide) rfl
  obtain ⟨p, hp, hjsr, hentry⟩ := hcalls ⟨0, .jumpFinally, [6]⟩ (by decide) rfl rfl
  cases hblock.symm.trans hstart
  cases hcall.symm.trans hp
  refine ⟨mc, c', 6, entry, h, hprologue, hjsr, ?_, hprologue.entry_eq⟩
  rwa [Nat.cast_zero, zero_add] at hentry

end PodCompiler.Lowering
