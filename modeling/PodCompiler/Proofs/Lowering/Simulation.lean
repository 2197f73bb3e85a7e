import PodCompiler.Proofs.Lowering.CoreSteps

namespace PodCompiler.Lowering

open ClassFile (CodeBuffer)
open ClassFile.Op
open Instr (Stream)
open Jvm (Form Machine)

section Entries

variable {code : Bytes} {instrs : List Instr} {i j : Instr}

-- Two instructions of a buffer that end in one place are the same.
theorem eq_of_end_eq (hs : Stream code code.size 0 instrs) (hi : i ∈ instrs) (hj : j ∈ instrs)
    (hend : i.pos + i.size = j.pos + j.size) : i = j := by
  have hisize := i.size_pos
  have hjsize := j.size_pos
  obtain h | h | h := pairwise_trichotomy hs.pairwise hi hj
  · exact h
  · omega
  · omega

-- The instruction behind one of a buffer.
theorem exists_next (hs : Stream code code.size 0 instrs) (hi : i ∈ instrs)
    (hj : Instr.decodeAt code (i.pos + i.size) = .ok j) :
    ∃ pre post, instrs = pre ++ i :: j :: post := by
  obtain ⟨pre, post, rfl⟩ := List.append_of_mem hi
  have hpos := hs.decodeAt_of_split.2.1
  have hend := Instr.decodeAt_size_le hj
  have hsize := j.size_pos
  have hrest := hs.split
  rw [← hpos] at hrest
  cases hrest with
  | step _ _ hrest =>
    cases hrest with
    | done hdone => omega
    | step _ hj' _ =>
      rw [hj] at hj'
      cases hj'
      exact ⟨pre, _, rfl⟩

-- Behind an instruction that is no comparison.
theorem not_behind_of_plain (hs : Stream code code.size 0 instrs) (hi : i ∈ instrs)
    (hplain : isComparison i.op = false) : ¬Fcode.BehindComparison code (i.pos + i.size) := by
  rintro ⟨pre, i', j, post, hdis, hcompare, -, hpos⟩
  have hs' := Instr.disassemble_eq_ok_iff.mp hdis
  have heq := Instr.disassemble_eq_ok_iff.mpr hs
  rw [hdis] at heq
  cases heq
  have hend : i'.pos + i'.size = i.pos + i.size := by
    have hrest := hs'.split
    rw [← hs'.decodeAt_of_split.2.1] at hrest
    cases hrest with
    | step _ _ hrest =>
      cases hrest with
      | step _ hj _ => rw [← hpos, Instr.decodeAt_pos hj]
  obtain rfl := eq_of_end_eq hs (by simp) hi hend
  rw [hplain] at hcompare
  cases hcompare

end Entries

-- Fcode goes on behind an instruction or at a target of it.
theorem exec_pc {p : Fcode.Program} {s s' : Fcode.State} {n : Nat} {i : Instr}
    (h : p.exec s n i = some (.next s')) :
    s'.pc = n ∨ ∃ t ∈ branchTargets i, s'.pc = t.toNat := by
  have hmap : ∀ {α : Type} {x : Option α} {g : α → List Fcode.Value},
      x.map (fun a => s.goTo n (g a)) = some (.next s') → s'.pc = n := by
    intro α x g h
    obtain ⟨a, -, h⟩ := Option.map_eq_some_iff.mp h
    cases h
    rfl
  have hjumpIf : ∀ sense, Fcode.Program.jumpIf s n sense i.arg = some (.next s') →
      s'.pc = n ∨ s'.pc = i.arg.toNat := by
    intro sense h
    unfold Fcode.Program.jumpIf at h
    split at h
    · rename_i b rest hstack
      cases h
      by_cases hb : b = sense
      · exact .inr (if_pos hb)
      · exact .inl (if_neg hb)
    · cases h
  unfold Fcode.Program.exec at h
  unfold branchTargets
  cases hop : i.op <;> rw [hop] at h <;> dsimp only at h ⊢
  case nop | loadTrue | loadFalse =>
    cases h
    exact .inl rfl
  case loadInt | loadVar | callStatic | callVirtual => exact .inl (hmap h)
  case storeVar | dup | pop =>
    split at h
    · split at h <;> cases h
      exact .inl rfl
    · cases h
  case returnObj =>
    split at h
    · split at h <;> cases h
    · cases h
  case jump | leave =>
    cases h
    exact .inr ⟨i.arg, by simp, rfl⟩
  case jumpTrue | jumpFalse =>
    obtain hpc | hpc := hjumpIf _ h
    · exact .inl hpc
    · exact .inr ⟨i.arg, by simp, hpc⟩
  case switch =>
    split at h
    · rename_i v rest hstack
      cases h
      simp only [Fcode.switchTarget]
      split
      · split
        · rename_i t ht
          exact .inr ⟨t, List.mem_of_getElem? ht, rfl⟩
        · exact .inl rfl
      · exact .inl rfl
    · cases h
  all_goals
    split at h
    · exact .inl (hmap h)
    · cases h

-- No jump leads to the conditional jump directly behind a comparison.
def EntersNoPair (code : Bytes) : Prop :=
  ∀ instrs, Instr.disassemble code = .ok instrs → ∀ i ∈ instrs, ∀ t ∈ branchTargets i,
    ¬Fcode.BehindComparison code t.toNat

section Turn

variable {env : ClassEnv} {f : Frame} {code : Bytes} {out : CodeBuffer} {c c₁ : OpenClass}
  {body : BodyState} {mc : MethodCode} {m : Machine} {s s' : Fcode.State} {j : Jvm.State}
  {i : Instr} {next : Following} {e e₁ : EmitState} {own more : List (Item UInt16)}

-- One instruction that is no comparison.
theorem Execution.one (hx : Execution env f code out c c₁ body mc m)
    (hat : Before f code out body mc s j i own more) (hown : Emits env f i next e false own e₁)
    (hfirst : Later env f c e.cls) (hlast : Later env f e₁.cls c₁)
    (hi : Instr.decodeAt code s.pc = .ok i) (hplain : isComparison i.op = false)
    (hfits : (fcodeProgram env f code).SwitchFits s)
    (h : (fcodeProgram env f code).exec s (s.pc + i.size) i = some (.next s')) :
    Continues f mc m j s' := by
  have hfits := fun v rest => hfits i v rest hi
  unfold Fcode.Program.exec at h
  cases hop : i.op <;> rw [hop] at h <;> dsimp only at h
  case nop =>
    cases h
    exact hx.nop hat hown hop
  case loadTrue =>
    cases h
    exact hx.loadBool hat hown true hop
  case loadFalse =>
    cases h
    exact hx.loadBool hat hown false hop
  case loadInt =>
    obtain ⟨v, hv, h⟩ := Option.map_eq_some_iff.mp h
    cases h
    exact hx.loadInt hat hown hfirst hlast hop hv
  case loadVar =>
    obtain ⟨v, hv, h⟩ := Option.map_eq_some_iff.mp h
    cases h
    exact hx.loadVar hat hown hop hv
  case storeVar =>
    split at h
    · rename_i v rest hstack
      split at h <;> cases h
      rename_i hv
      exact hx.storeVar hat hown hop hstack hv
    · cases h
  case dup =>
    split at h
    · rename_i v rest hstack
      split at h <;> cases h
      rename_i hv
      exact hx.dup hat hown hop hstack hv
    · cases h
  case pop =>
    split at h
    · rename_i v rest hstack
      split at h <;> cases h
      rename_i hv
      exact hx.pop hat hown hop hstack hv
    · cases h
  case returnObj =>
    split at h
    · split at h <;> cases h
    · cases h
  case callStatic =>
    obtain ⟨values, hvalues, h⟩ := Option.map_eq_some_iff.mp h
    obtain ⟨meth, hmeth, hvalues⟩ := Option.bind_eq_some_iff.mp hvalues
    cases h
    exact hx.call hat hown hfirst (.inl hop) hmeth hvalues
  case callVirtual =>
    obtain ⟨values, hvalues, h⟩ := Option.map_eq_some_iff.mp h
    obtain ⟨meth, hmeth, hvalues⟩ := Option.bind_eq_some_iff.mp hvalues
    cases h
    exact hx.call hat hown hfirst (.inr hop) hmeth hvalues
  case jump =>
    cases h
    exact hx.jump hat hown (.inl hop)
  case leave =>
    cases h
    exact hx.jump hat hown (.inr hop)
  case jumpTrue =>
    unfold Fcode.Program.jumpIf at h
    split at h <;> cases h
    rename_i b rest hstack
    exact hx.jumpIf hat hown (by rw [hop]; rfl) hstack
  case jumpFalse =>
    unfold Fcode.Program.jumpIf at h
    split at h <;> cases h
    rename_i b rest hstack
    exact hx.jumpIf hat hown (by rw [hop]; rfl) hstack
  case switch =>
    split at h <;> cases h
    rename_i v rest hstack
    exact hx.switch hat hown hi hop hstack (hfits v rest hop hstack)
  -- No other instruction is run, and comparisons were excluded.
  all_goals
    first
    | cases h
    | rw [hop] at hplain
      cases hplain

-- An instruction at a position of the method is one of its buffer.
theorem Lowered.mem_of_reloc (hl : Lowered env f code out c c₁ body mc) {q java : Nat}
    (hq : mc.reloc[q]? = some (some java)) (hi : Instr.decodeAt code q = .ok i) :
    ∃ instrs, Stream code code.size 0 instrs ∧ i ∈ instrs := by
  obtain ⟨instrs, hdis, hpositions⟩ := hl.filled.positions
  have hs := Instr.disassemble_eq_ok_iff.mp hdis
  refine ⟨instrs, hs, ?_⟩
  obtain hmem | hend := (hpositions q).mp ⟨java, hq⟩
  · obtain ⟨i', hi', rfl⟩ := List.mem_map.mp hmem
    have hdecode := (hs.decodeAt_of_mem hi').1
    rw [hi] at hdecode
    cases hdecode
    exact hi'
  · have hsize := Instr.decodeAt_size_le hi
    have hpos := i.size_pos
    omega

-- Where a jump was taken along by the comparison before it, it is behind that comparison.
theorem Execution.behind_of_swallowed (hx : Execution env f code out c c₁ body mc m) {p : Nat}
    {j' : Instr} {rest : List Instr} {before pre post : List (Item UInt16)}
    (hi : Instr.decodeAt code p = .ok i) (hj : Instr.decodeAt code (p + i.size) = .ok j')
    (hown : Emits env f i (.ofRest (j' :: rest) none) e true (pre ++ Item.mark (p + i.size) :: own) e₁)
    (hitems : body.items.toList = (before ++ Item.mark p :: pre) ++ post)
    (hscope : ((Layout.start out code.size).puts (before ++ Item.mark p :: pre)).scope =
      Relocation.mainScope) : Fcode.BehindComparison code (p + i.size) := by
  obtain ⟨sense, target, -, -, hnext, hpre, -, -⟩ := hown.shape.of_mark
  obtain ⟨j, rest', hrest, -, -, hsense⟩ := ofRest_eq_jump hnext
  cases hrest
  -- The comparison is in the main scope too, as nothing between them opens or closes one.
  rw [Layout.puts_append, Layout.puts_cons, (Marked.inert hpre _).scope] at hscope
  have hscope : ((Layout.start out code.size).puts before).scope = Relocation.mainScope := hscope
  have hsplit : body.items.toList = before ++ Item.mark p :: (pre ++ post) := by
    rw [hitems, List.append_assoc, List.cons_append]
  have hnote := layout_note out hx.lowered.emits hsplit (.inl rfl)
  rw [hscope] at hnote
  obtain ⟨instrs, hs, hmem⟩ := hx.lowered.mem_of_reloc (hx.reloc_eq hnote) hi
  have hipos := Instr.decodeAt_pos hi
  obtain ⟨first, last, rfl⟩ := exists_next hs hmem (by rw [hipos]; exact hj)
  exact ⟨first, i, j', last, Instr.disassemble_eq_ok_iff.mpr hs, hown.isComparison,
    by rw [hsense]; rfl, Instr.decodeAt_pos hj⟩

-- What stands where the machine matches fcode: an instruction on its own, or a comparison with the
-- jump behind it. A jump that was taken along is behind a comparison, and excluded.
theorem Execution.site_of_entry (hx : Execution env f code out c c₁ body mc m)
    (hmatch : Matches f mc s j) (hentry : ¬Fcode.BehindComparison code s.pc)
    (hi : Instr.decodeAt code s.pc = .ok i) (hend : i.op ≠ .finallyEnd)
    (hcopy : i.op ≠ .jumpFinally) :
    (∃ next e own e₁ more, Before f code out body mc s j i own more ∧
      Emits env f i next e false own e₁ ∧ Follows code (s.pc + i.size) next ∧
      Later env f c e.cls ∧ Later env f e₁.cls c₁) ∨
    ∃ j' rest e own e₁ more, Instr.decodeAt code (s.pc + i.size) = .ok j' ∧
      Emits env f i (.ofRest (j' :: rest) none) e true own e₁ ∧
      body.Stands code out Relocation.mainScope j.pc (own ++ more) ∧
      NotesNext (s.pc + i.size + j'.size) more := by
  have hnote := hmatch.pc
  rw [hx.lowered.filled.main, Relocation.mainMap_eq_some_iff] at hnote
  obtain hop | ⟨pre, post, hitems, hscope, hpos, hsite⟩ := layout_site out hx.lowered.emits hnote hi
  · exact absurd hop hend
  have hs : body.Stands code out Relocation.mainScope j.pc (.mark s.pc :: post) :=
    ⟨pre, hitems, hscope, hpos⟩
  have hs := hs.unmark
  generalize hq : s.pc = q at hsite
  cases hsite with
  | one hi' hown hnext hmore hfirst hlast =>
    subst hq
    rw [hi] at hi'
    cases hi'
    exact .inl ⟨_, _, _, _, _, ⟨hmatch, hs, hmore⟩, hown, hnext, hfirst.later, hlast.later⟩
  | fused hi' hj hown hmore hfirst hlast =>
    subst hq
    rw [hi] at hi'
    cases hi'
    exact .inr ⟨_, _, _, _, _, _, hj, hown, hs, hmore⟩
  | swallowed hi' hpc hj hown hmore =>
    subst hpc
    have hbehind := hx.behind_of_swallowed hi' hj hown hitems hscope
    rw [← hq] at hbehind
    exact absurd hbehind hentry
  | copy hi' hop _ =>
    rw [← hq, hi] at hi'
    cases hi'
    exact absurd hop hcopy

-- Fcode runs no part of a finally block.
theorem exec_outside_finally {p : Fcode.Program} {n : Nat} {o : Fcode.Outcome}
    (h : p.exec s n i = some o) : i.op ≠ .finallyEnd ∧ i.op ≠ .jumpFinally := by
  unfold Fcode.Program.exec at h
  constructor
  · intro hop
    rw [hop] at h
    cases h
  · intro hop
    rw [hop] at h
    cases h

-- A relation and a conditional jump behind it become one.
theorem Compares.fused_of_relation {q : Nat} {sense : Bool} {target : UInt16} {cmp : Compared}
    {rel : Relation} (h : Compares env i (.jump q sense target) cmp)
    (hop : relation? i.op = some rel) : cmp.fused = true := by
  cases h with
  | @relation rel' t u _ _ _ =>
    unfold Comparison.relation
    cases Comparison.direct? rel' t.stack u.stack <;> rfl
  | same want hop' => cases want <;> rw [hop'] at hop <;> cases hop
  | null want hop' _ => cases want <;> rw [hop'] at hop <;> cases hop

-- One turn of fcode takes the machine along.
theorem Execution.turn (hx : Execution env f code out c c₁ body mc m) (hmatch : Matches f mc s j)
    (hentry : ¬Fcode.BehindComparison code s.pc) (hfits : (fcodeProgram env f code).SwitchFits s)
    (h : (fcodeProgram env f code).Turn s s') : Continues f mc m j s' := by
  cases h with
  | one hi hplain h =>
    rw [Fcode.Program.step_of_decodeAt hi] at h
    obtain ⟨hend, hcopy⟩ := exec_outside_finally h
    obtain ⟨next, e, own, e₁, more, hat, hown, -, hfirst, hlast⟩ |
        ⟨j', rest, e, own, e₁, more, -, hown, -, -⟩ :=
      hx.site_of_entry hmatch hentry hi hend hcopy
    · exact hx.one hat hown hfirst hlast hi hplain hfits h
    · rw [hown.isComparison] at hplain
      cases hplain
  | @pair mid _ i j' sense hi hcompare hj hsense h hjump =>
    rw [Fcode.Program.step_of_decodeAt hi] at h
    obtain ⟨hend, hcopy⟩ := exec_outside_finally h
    obtain ⟨rel, t, u, r, rest, hrel, ht, hu, hvalues, rfl⟩ :=
      Fcode.Program.exec_comparison hcompare h
    rw [Fcode.Program.step_of_decodeAt hj, Fcode.Program.exec_of_sense hsense] at hjump
    cases hjump
    obtain ⟨next, e, own, e₁, more, -, hown, hnext, -, -⟩ |
        ⟨j'', instrs, e, own, e₁, more, hj', hown, hs, hmore⟩ :=
      hx.site_of_entry hmatch hentry hi hend hcopy
    · -- A comparison before a jump is never on its own.
      obtain ⟨cmp, hcmp, -, hfused, -⟩ := hown.comparison hcompare
      rw [hnext.jump j' sense hj hsense] at hcmp
      rw [hcmp.fused_of_relation hrel] at hfused
      cases hfused
    · have hsame := hj'.symm.trans hj
      cases hsame
      rw [Following.ofRest, hsense] at hown
      exact hx.pair hmatch hown hs hmore hrel ht hu hvalues

-- What fcode returns the machine returns.
theorem Execution.returns (hx : Execution env f code out c c₁ body mc m) (hmatch : Matches f mc s j)
    (hentry : ¬Fcode.BehindComparison code s.pc) {v : Fcode.Value}
    (h : (fcodeProgram env f code).step s = some (.returned v)) :
    m.step j = some (.returned (some v.toJvm)) := by
  unfold Fcode.Program.step at h
  split at h
  · rename_i i hi
    obtain ⟨hend, hcopy⟩ := exec_outside_finally h
    obtain ⟨hop, hret, rest, hstack⟩ := Fcode.Program.exec_returned h
    obtain ⟨next, e, own, e₁, more, hat, hown, -, -, -⟩ |
        ⟨j', instrs, e, own, e₁, more, -, hown, -, -⟩ :=
      hx.site_of_entry hmatch hentry hi hend hcopy
    · have hs := hat.stands
      rw [hown.returnObj hop] at hs
      have hform : Form.ofOp? (returnOp f.ret) = some (.plain (.return_ (some v.toJvm.kind))) := by
        have hret : f.ret = v.stack := hret
        rw [hret]
        cases v <;> rfl
      have hstep := Machine.step_of_fetch hx.code_eq (hx.lowered.fetch_op hs hform) j.stack j.locals
      refine hstep.trans ?_
      rw [hmatch.stack, hstack]
      exact if_pos rfl
    · have hc := hown.isComparison
      rw [hop] at hc
      cases hc
  · cases h

-- Fcode does not come to a jump behind a comparison on its own.
theorem not_behind_of_exec {p : Fcode.Program} {n : Nat} {instrs : List Instr}
    (hs : Stream code code.size 0 instrs) (hpairs : EntersNoPair code) (hi : i ∈ instrs)
    (hplain : isComparison i.op = false) (hn : n = i.pos + i.size)
    (h : p.exec s n i = some (.next s')) : ¬Fcode.BehindComparison code s'.pc := by
  obtain hpc | ⟨t, ht, hpc⟩ := exec_pc h
  · rw [hpc, hn]
    exact not_behind_of_plain hs hi hplain
  · rw [hpc]
    exact hpairs instrs (Instr.disassemble_eq_ok_iff.mpr hs) i hi t ht

theorem Execution.not_behind_of_turn (hx : Execution env f code out c c₁ body mc m)
    (hpairs : EntersNoPair code) (hmatch : Matches f mc s j)
    (h : (fcodeProgram env f code).Turn s s') : ¬Fcode.BehindComparison code s'.pc := by
  cases h with
  | one hi hplain h =>
    rw [Fcode.Program.step_of_decodeAt hi] at h
    obtain ⟨instrs, hs, hmem⟩ := hx.lowered.mem_of_reloc hmatch.pc hi
    exact not_behind_of_exec hs hpairs hmem hplain (by rw [Instr.decodeAt_pos hi]) h
  | @pair mid _ i j' sense hi hcompare hj hsense h hjump =>
    rw [Fcode.Program.step_of_decodeAt hi] at h
    obtain ⟨_, _, _, _, _, -, -, -, -, rfl⟩ := Fcode.Program.exec_comparison hcompare h
    rw [Fcode.Program.step_of_decodeAt hj] at hjump
    obtain ⟨instrs, hs, hmem⟩ := hx.lowered.mem_of_reloc hmatch.pc hi
    obtain ⟨first, last, rfl⟩ := exists_next hs hmem (by rw [Instr.decodeAt_pos hi]; exact hj)
    exact not_behind_of_exec hs hpairs (by simp) (isComparison_of_sense hsense)
      (by rw [Instr.decodeAt_pos hj]) hjump

-- The machine is where fcode is, and returns there what fcode returns.
def Agrees (p : Fcode.Program) (f : Frame) (mc : MethodCode) (m : Machine) (s : Fcode.State)
    (j : Jvm.State) : Prop :=
  Matches f mc s j ∧
    ∀ v, p.step s = some (.returned v) → m.step j = some (.returned (some v.toJvm))

-- By induction on the run: the machine follows each turn, and fcode stays outside of the pairs.
theorem Execution.run (hx : Execution env f code out c c₁ body mc m) (hpairs : EntersNoPair code)
    {ss : List Fcode.State} (hmatch : Matches f mc s j)
    (hentry : ¬Fcode.BehindComparison code s.pc)
    (hrun : List.IsChain (fcodeProgram env f code).Turn (s :: ss))
    (hfits : ∀ s' ∈ s :: ss, (fcodeProgram env f code).SwitchFits s') :
    ∃ js, List.IsChain m.Reaches (j :: js) ∧
      List.Forall₂ (Agrees (fcodeProgram env f code) f mc m) (s :: ss) (j :: js) := by
  have hagrees : Agrees (fcodeProgram env f code) f mc m s j :=
    ⟨hmatch, fun _ h => hx.returns hmatch hentry h⟩
  induction ss generalizing s j with
  | nil => exact ⟨[], .singleton _, .cons hagrees .nil⟩
  | cons s' ss ih =>
    rw [List.isChain_cons_cons] at hrun
    obtain ⟨hturn, hrun⟩ := hrun
    rw [List.forall_mem_cons] at hfits
    obtain ⟨hfits, hfits'⟩ := hfits
    obtain ⟨j', hreach, -, hmatch'⟩ := hx.turn hmatch hentry hfits hturn
    have hentry' := hx.not_behind_of_turn hpairs hmatch hturn
    obtain ⟨js, hchain, hall⟩ := ih hmatch' hentry' hrun hfits'
      ⟨hmatch', fun _ h => hx.returns hmatch' hentry' h⟩
    exact ⟨j' :: js, .cons_cons hreach hchain, .cons hagrees hall⟩

end Turn

section Start

variable {env : ClassEnv} {f : Frame} {code : Bytes} {out : CodeBuffer} {c c₁ c' : OpenClass}
  {body : BodyState} {mc : MethodCode} {attrs : Pod.Attributes} {m : Machine}

-- The code of a method begins where its buffer ended.
theorem Lowered.getLocal_zero (hl : Lowered env f code out c c₁ body mc) :
    (body.layout code out).reloc.getLocal Relocation.mainScope 0 = some out.pos := by
  obtain ⟨instrs, its, hs, hder, hitems⟩ := items_of_emitBody hl.emits
  have hfinish := hs.finish_eq_size (Nat.zero_le _)
  have hstart : body.Stands code out Relocation.mainScope out.pos (its ++ [Item.mark code.size]) :=
    ⟨[], hitems, rfl, rfl⟩
  exact hl.note_of_stands hstart (hder.notesNext hs ⟨_, _, rfl, .inl (by rw [hfinish])⟩)

-- Nothing is before the first instruction.
theorem not_behind_zero (code : Bytes) : ¬Fcode.BehindComparison code 0 := by
  rintro ⟨pre, i, j, post, hdis, -, -, hpos⟩
  have hpairwise := (Instr.disassemble_eq_ok_iff.mp hdis).pairwise
  have hle := (List.pairwise_cons.mp (List.pairwise_append.mp hpairwise).2.1).1 j (by simp)
  have hsize := i.size_pos
  omega

-- What the virtual machine needs to run a method that was lowered.
theorem execution_of_lowerCode (hframe : Frame.Consecutive 0 f.maxLocals f.regs.toList)
    (hclass : c.WellFormed env) (h : lowerCode f code attrs out env c = .ok mc c')
    (hcode : m.code = mc.code.code) (hconstants : m.constants.Extends c'.draft.pool.get?)
    (hliterals : HoldsLiterals env.pod m.statics) :
    ∃ c₁ body, Execution env f code out c c₁ body mc m := by
  obtain ⟨p, c₁, hp, hcode', hreloc, hjumps⟩ := lowerCode_eq_ok h
  obtain ⟨body, hbody, hexact⟩ := exact_of_placed hp hcode' hreloc hjumps
  obtain ⟨instrs, its, -, hder, -⟩ := items_of_emitBody hbody
  have hclass₁ : c₁.WellFormed env := (hder.later.advances hclass).1
  have hextends := (lowerCode_advances h hp).extends hclass₁
  have hroom := maxLocals_of_lowerCode h
  have hlt := mc.code.maxLocals.toNat_lt
  exact ⟨c₁, body, ⟨hbody, hexact⟩, hframe, by omega, hclass, hcode,
    fun i k hk => hconstants i k (hextends i k hk), hliterals⟩

-- The machine agrees with fcode where the code begins, if its locals do.
theorem Execution.matches_zero {c₁ : OpenClass} {body : BodyState} {locals : Jvm.Locals}
    {regs : UInt16 → Option Fcode.Value} (hx : Execution env f code out c c₁ body mc m)
    (hholds : f.Holds regs locals) (hroom : f.maxLocals ≤ locals.size) :
    Matches f mc ⟨0, [], regs⟩ ⟨out.pos, [], locals⟩ where
  pc := hx.reloc_eq hx.lowered.getLocal_zero
  stack := rfl
  locals := hholds
  room := hroom

-- The machine agrees with fcode when a method is called.
theorem matches_start {c₁ : OpenClass} {body : BodyState} {args : List (Option Fcode.Value)}
    {passed : List Jvm.Value} {size : Nat} (hx : Execution env f code out c c₁ body mc m)
    (hargs : Frame.Passes f.regs.toList args passed) (hsize : f.maxLocals ≤ size) :
    Matches f mc (.start args) ⟨out.pos, [], .ofArgs passed size⟩ := by
  refine hx.matches_zero (hargs.holds hx.frame size) (Nat.le_trans hsize ?_)
  simp [Jvm.Locals.ofArgs, List.rightpad]
  omega

-- Lowered code follows fcode step by step. For all arguments of a call, and every run of fcode that
-- switches on numbers of 32 bits only, the virtual machine goes from the position of each
-- instruction to that of the next with the same values on its stack and in its registers; and
-- where fcode returns a value, the machine returns it.
theorem lowerCode_simulates {owner : String} {d : Pod.MethodDef} {mode : SelfMode} {frame : Frame}
    (hframe : Frame.forMethod env.pod.symbols owner d mode = .ok frame) {ret : StackType}
    (hf : f = frame.withRet ret) (hclass : c.WellFormed env) (hpairs : EntersNoPair code)
    (h : lowerCode f code attrs out env c = .ok mc c')
    (hcode : m.code = mc.code.code) (hconstants : m.constants.Extends c'.draft.pool.get?)
    (hliterals : HoldsLiterals env.pod m.statics)
    {args : List (Option Fcode.Value)} {passed : List Jvm.Value}
    (hargs : Frame.Passes f.regs.toList args passed) {ss : List Fcode.State}
    (hrun : List.IsChain (fcodeProgram env f code).Turn (.start args :: ss))
    (hfits : ∀ s ∈ .start args :: ss, (fcodeProgram env f code).SwitchFits s) :
    ∃ js,
      List.IsChain m.Reaches (⟨out.pos, [], .ofArgs passed mc.code.maxLocals.toNat⟩ :: js) ∧
      List.Forall₂ (Agrees (fcodeProgram env f code) f mc m) (.start args :: ss)
        (⟨out.pos, [], .ofArgs passed mc.code.maxLocals.toNat⟩ :: js) := by
  have hslots := Frame.consecutive_forMethod hframe
  have hlaid : Frame.Consecutive 0 f.maxLocals f.regs.toList := by
    rw [hf]
    exact hslots
  obtain ⟨c₁, body, hx⟩ := execution_of_lowerCode hlaid hclass h hcode hconstants hliterals
  exact hx.run hpairs (matches_start hx hargs (maxLocals_of_lowerCode h)) (not_behind_zero code)
    hrun hfits

end Start

-- A pod that knows the type of integers, and a static method of it with two of them that returns
-- one.
def intEnv : ClassEnv :=
  { bareEnv with pod := { bareEnv.pod with symbols := { typeRefs := #[⟨"sys", "Int", ""⟩] } } }

def minMethod : Pod.MethodDef where
  name := "min"
  flags := Pod.Flag.static_
  ret := 0
  inheritedRet := 0
  maxStack := 2
  paramCount := 2
  localCount := 0
  vars := #[⟨"a", 0, Pod.Flag.param, {}⟩, ⟨"b", 0, Pod.Flag.param, {}⟩]
  code := #[10, 0, 0, 10, 0, 1, 35, 0, 0, 0, 0, 29, 0, 18, 10, 0, 1, 43, 10, 0, 0, 43]
  attrs := {}

--    0 LoadVar 0    6 CompareLT Int Int   14 LoadVar 1    18 LoadVar 0
--    3 LoadVar 1   11 JumpTrue 18         17 ReturnObj    21 ReturnObj
def minInstrs : List Instr :=
  [⟨0, .loadVar, [0]⟩, ⟨3, .loadVar, [1]⟩, ⟨6, .compareLT, [0, 0]⟩, ⟨11, .jumpTrue, [18]⟩,
    ⟨14, .loadVar, [1]⟩, ⟨17, .returnObj, []⟩, ⟨18, .loadVar, [0]⟩, ⟨21, .returnObj, []⟩]

theorem stream_min : Stream minMethod.code minMethod.code.size 0 minInstrs :=
  Instr.disassemble_eq_ok_iff.mp (by decide +kernel)

theorem entersNoPair_min : EntersNoPair minMethod.code := by
  intro instrs hdis i hi t ht
  rw [Instr.disassemble_eq_ok_iff.mpr stream_min] at hdis
  cases hdis
  have htarget : ∀ i ∈ minInstrs, ∀ t ∈ branchTargets i, t = 18 := by
    simp [minInstrs, branchTargets, Instr.arg]
  have hplain : ∀ j ∈ minInstrs, j.pos = 18 → Following.sense? j.op = none := by decide
  rw [htarget i hi t ht]
  rintro ⟨pre, i, j, post, hdis, -, hsense, hpos⟩
  rw [Instr.disassemble_eq_ok_iff.mpr stream_min] at hdis
  have hsplit : minInstrs = pre ++ i :: j :: post := Except.ok.inj hdis
  rw [hplain j (by simp [hsplit]) hpos] at hsense
  cases hsense

-- The states of the call on 3 and 5.
def minRun : List Fcode.State :=
  have regs := (Fcode.State.start [some (.int 3), some (.int 5)]).regs
  [⟨3, [.int 3], regs⟩, ⟨6, [.int 5, .int 3], regs⟩, ⟨18, [], regs⟩, ⟨21, [.int 3], regs⟩]

theorem isChain_minRun (f : Frame) : List.IsChain (fcodeProgram intEnv f minMethod.code).Turn
    (.start [some (.int 3), some (.int 5)] :: minRun) := by
  have hdecode : ∀ i ∈ minInstrs, Instr.decodeAt minMethod.code i.pos = .ok i :=
    fun i hi => (stream_min.decodeAt_of_mem hi).1
  have hone : ∀ {s s' : Fcode.State}, ∀ i ∈ minInstrs, i.pos = s.pc → isComparison i.op = false →
      (fcodeProgram intEnv f minMethod.code).exec s (s.pc + i.size) i = some (.next s') →
      (fcodeProgram intEnv f minMethod.code).Turn s s' := by
    intro s s' i hi hpos hplain hexec
    have hat : Instr.decodeAt minMethod.code s.pc = .ok i := hpos ▸ hdecode i hi
    exact .one hat hplain (by rwa [Fcode.Program.step_of_decodeAt hat])
  refine .cons_cons ?_ (.cons_cons ?_ (.cons_cons ?_ (.cons_cons ?_ (.singleton _))))
  · exact hone ⟨0, .loadVar, [0]⟩ (by decide) rfl rfl rfl
  · exact hone ⟨3, .loadVar, [1]⟩ (by decide) rfl rfl rfl
  · have hcompare := hdecode ⟨6, .compareLT, [0, 0]⟩ (by decide)
    have hjump := hdecode ⟨11, .jumpTrue, [18]⟩ (by decide)
    exact .pair hcompare rfl hjump rfl (by rw [Fcode.Program.step_of_decodeAt hcompare]; rfl)
      (by rw [Fcode.Program.step_of_decodeAt hjump]; rfl)
  · exact hone ⟨18, .loadVar, [0]⟩ (by decide) rfl rfl rfl

-- The method has no switch.
theorem switchFits_min (f : Frame) (s : Fcode.State) :
    (fcodeProgram intEnv f minMethod.code).SwitchFits s := by
  intro i v rest hi hop
  have hbytes : minMethod.code.toList.all (Opcode.ofByte? · ≠ some .switch) = true := by decide
  obtain ⟨-, ⟨b, hb, hbyte⟩, -⟩ := Instr.decodeAt_eq_ok hi
  rw [hop] at hbyte
  have hmem : b ∈ minMethod.code.toList := Array.mem_toList_iff.mpr (Array.mem_of_getElem? hb)
  exact absurd hbyte (of_decide_eq_true (List.all_eq_true.mp hbytes b hmem))

-- The machine returns the lesser of 3 and 5, as fcode does.
theorem lowerCode_simulates_min : ∃ frame mc c',
    Frame.forMethod intEnv.pod.symbols "fan/p/T" minMethod .bound = .ok frame ∧
    lowerCode frame minMethod.code minMethod.attrs {} intEnv bareClass = .ok mc c' ∧
    ∃ j, Machine.Reaches ⟨mc.code.code, c'.draft.pool.get?, fun _ => none⟩
        ⟨0, [], .ofArgs [.long 3, .long 5] mc.code.maxLocals.toNat⟩ j ∧
      Machine.step ⟨mc.code.code, c'.draft.pool.get?, fun _ => none⟩ j =
        some (.returned (some (.long 3))) := by
  obtain ⟨frame, hframe, hregs, hret, hlower⟩ : ∃ frame : Frame,
      Frame.forMethod intEnv.pod.symbols "fan/p/T" minMethod .bound = .ok frame ∧
      frame.regs = #[some ⟨0, .long⟩, some ⟨2, .long⟩] ∧ frame.ret = .long ∧
      (result? (lowerCode frame minMethod.code minMethod.attrs {} intEnv bareClass)).isSome :=
    ⟨_, rfl, rfl, rfl, by decide +kernel⟩
  obtain ⟨mc, c', h⟩ := exists_of_result? hlower
  refine ⟨frame, mc, c', hframe, h, ?_⟩
  have hself : frame = frame.withRet frame.ret := rfl
  have hclass : bareClass.WellFormed intEnv :=
    ⟨ClassFile.Pool.built_empty, fun _ _ _ hcall => by simp [bareClass] at hcall⟩
  have hargs : Frame.Passes frame.regs.toList [some (.int 3), some (.int 5)] [.long 3, .long 5] := by
    rw [hregs]
    refine .bound rfl ?_ (.bound rfl ?_ .done) <;> rintro _ ⟨⟩ <;> exact ⟨rfl, rfl⟩
  have hliterals : HoldsLiterals intEnv.pod fun _ => none := by
    rintro field v ⟨⟩
  obtain ⟨js, hchain, hall⟩ := lowerCode_simulates hframe hself hclass entersNoPair_min h
    (m := ⟨mc.code.code, c'.draft.pool.get?, fun _ => none⟩) rfl (fun _ _ hk => hk) hliterals hargs
    (isChain_minRun frame) (fun s _ => switchFits_min frame s)
  have hreturn : (fcodeProgram intEnv frame minMethod.code).step
      ⟨21, [.int 3], (Fcode.State.start [some (.int 3), some (.int 5)]).regs⟩ =
        some (.returned (.int 3)) := by
    have hat : Instr.decodeAt minMethod.code 21 = .ok ⟨21, .returnObj, []⟩ := by decide +kernel
    rw [Fcode.Program.step_of_decodeAt hat]
    exact if_pos hret
  obtain ⟨j₁, js₁, -, hall₁, rfl⟩ := List.forall₂_cons_left_iff.mp (List.forall₂_cons.mp hall).2
  obtain ⟨j₂, js₂, -, hall₂, rfl⟩ := List.forall₂_cons_left_iff.mp hall₁
  obtain ⟨j₃, js₃, -, hall₃, rfl⟩ := List.forall₂_cons_left_iff.mp hall₂
  obtain ⟨j₄, js₄, hlast, -, rfl⟩ := List.forall₂_cons_left_iff.mp hall₃
  simp only [List.isChain_cons_cons] at hchain
  obtain ⟨h₁, h₂, h₃, h₄, -⟩ := hchain
  exact ⟨j₄, ((h₁.trans h₂).trans h₃).trans h₄, hlast.2 _ hreturn⟩

end PodCompiler.Lowering
