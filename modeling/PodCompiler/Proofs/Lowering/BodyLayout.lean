import PodCompiler.Lowering.MethodCode
import PodCompiler.Proofs.Lowering.Backpatch
import PodCompiler.Proofs.Lowering.Sites

namespace PodCompiler.Lowering

open ClassFile (CodeBuffer)
open Instr (Stream)

-- The code of a body behind `out`, with placeholders for its jumps.
def BodyState.layout (body : BodyState) (code : Bytes) (out : CodeBuffer) : Layout :=
  (Layout.start out code.size).putAll body.items

-- The jumps of a body.
def BodyState.table (body : BodyState) (code : Bytes) (out : CodeBuffer) : JumpTable :=
  { nodes := (body.layout code out).jumps, prologue := body.finallies.prologue }

-- What is wrong with the first jump that has a fault.
def BodyState.fault? (body : BodyState) (code : Bytes) (out : CodeBuffer) (method : String) :
    Option LoweringError :=
  (body.layout code out).jumps.toList.findSome?
    ((body.table code out).fault? (body.layout code out).reloc method)

-- The code with all jumps filled in.
def BodyState.filled (body : BodyState) (code : Bytes) (out : CodeBuffer) : Bytes :=
  (body.table code out).fillAll (body.layout code out).reloc (body.layout code out).jumps.toList
    (body.layout code out).out.code

section Place

variable {env : ClassEnv} {f : Frame} {code : Bytes} {out : CodeBuffer} {c c' c₁ : OpenClass}
  {body : BodyState} {mc : MethodCode} {attrs : Pod.Attributes}

-- A body is placed unless a jump of it fails.
theorem placeCode_eq (h : emitBody f code {} env c = .ok ((), body) c₁) :
    placeCode f code out env c =
      match body.fault? code out f.name with
      | some e => .error e c₁
      | none => .ok
        { out := { (body.layout code out).out with code := body.filled code out }
          reloc := (body.layout code out).reloc
          jumps := (body.layout code out).jumps
          finallies := body.finallies } c₁ := by
  have hbody : (emitBody f code).run {} env c = .ok ((), body) c₁ := h
  obtain ⟨out', hrun⟩ : ∃ out', ((body.table code out).backpatch (body.layout code out).reloc
      f.name).run (body.layout code out).out =
        match body.fault? code out f.name with
        | some e => .error e out'
        | none => .ok () { (body.layout code out).out with code := body.filled code out } :=
    JumpTable.run_forM_patch _ _
  unfold placeCode
  rw [ClassM.run_bind, hbody]
  unfold BodyState.table BodyState.layout at hrun
  dsimp only
  rw [hrun]
  cases body.fault? code out f.name with
  | some e => rfl
  | none => rfl

-- A body that is placed is lowered to items, and no jump of it fails.
theorem placeCode_eq_ok {p : PlacedCode} (h : placeCode f code out env c = .ok p c₁) :
    ∃ body, emitBody f code {} env c = .ok ((), body) c₁ ∧ body.fault? code out f.name = none ∧
      p = { out := { (body.layout code out).out with code := body.filled code out }
            reloc := (body.layout code out).reloc
            jumps := (body.layout code out).jumps
            finallies := body.finallies } := by
  cases hbody : emitBody f code {} env c with
  | error e c₂ =>
    have hrun : (emitBody f code).run {} env c = .error e c₂ := hbody
    unfold placeCode at h
    rw [ClassM.run_bind, hrun] at h
    cases h
  | ok r c₂ =>
    obtain ⟨_, body⟩ := r
    rw [placeCode_eq hbody] at h
    cases hf : body.fault? code out f.name with
    | some e =>
      rw [hf] at h
      cases h
    | none =>
      rw [hf] at h
      cases h
      exact ⟨body, rfl, hf, rfl⟩

theorem finish_eq_ok {p : PlacedCode} (h : p.finish f = .ok mc) :
    mc.code.code = p.out.code ∧ mc.reloc = p.reloc.mainMap ∧ mc.jumps = p.jumps := by
  obtain ⟨locals, -, h⟩ := except_bind_eq_ok.mp h
  cases h
  exact ⟨rfl, rfl, rfl⟩

-- The code has room for the frame and the finally blocks.
theorem room_of_finish {p : PlacedCode} (h : p.finish f = .ok mc) :
    f.maxLocals + p.finallies.extra ≤ mc.code.maxLocals.toNat := by
  obtain ⟨locals, hlocals, h⟩ := except_bind_eq_ok.mp h
  cases h
  unfold FinallySlots.maxLocals at hlocals
  dsimp only at hlocals
  split at hlocals
  · rename_i hfits
    cases hlocals
    have hsize : (f.maxLocals + p.finallies.extra).toUInt16.toNat =
        f.maxLocals + p.finallies.extra := by
      rw [Nat.toUInt16_eq, UInt16.toNat_ofNat']
      exact Nat.mod_eq_of_lt (by omega)
    change f.maxLocals + p.finallies.extra ≤
      (if p.out.maxLocals ≤ (f.maxLocals + p.finallies.extra).toUInt16 then
        (f.maxLocals + p.finallies.extra).toUInt16 else p.out.maxLocals).toNat
    split
    · omega
    · rename_i hle
      rw [UInt16.le_iff_toNat_le] at hle
      omega
  · cases hlocals

theorem maxLocals_of_finish {p : PlacedCode} (h : p.finish f = .ok mc) :
    f.maxLocals ≤ mc.code.maxLocals.toNat :=
  Nat.le_trans (Nat.le_add_right _ _) (room_of_finish h)

theorem foldl_addException (es : List ClassFile.ExceptionEntry) (out : CodeBuffer) :
    es.foldl CodeBuffer.addException out =
      { out with exceptions := out.exceptions ++ es.toArray } := by
  induction es generalizing out with
  | nil => simp
  | cons e es ih =>
    rw [List.foldl_cons, ih]
    simp [CodeBuffer.addException]

theorem foldl_addLine (ls : List ClassFile.LineEntry) (out : CodeBuffer) :
    ls.foldl CodeBuffer.addLine out = { out with lines := out.lines ++ ls.toArray } := by
  induction ls generalizing out with
  | nil => simp
  | cons l ls ih =>
    rw [List.foldl_cons, ih]
    simp [CodeBuffer.addLine]

-- The tables of a method leave the rest of its code as it is.
theorem finish_of_lowerCode (h : lowerCode f code attrs out env c = .ok mc c') :
    ∃ p c₁ exceptions lines, placeCode f code out env c = .ok p c₁ ∧
      PlacedCode.finish { p with out := { p.out with exceptions, lines } } f = .ok mc := by
  obtain ⟨p, c₁, hp, h₁⟩ := ClassM.bind_eq_ok.mp h
  obtain ⟨errs, c₂, -, h₂⟩ := ClassM.bind_eq_ok.mp h₁
  obtain ⟨exceptions, c₃, -, h₃⟩ := ClassM.bind_eq_ok.mp h₂
  obtain ⟨env', c₄, -, h₄⟩ := ClassM.bind_eq_ok.mp h₃
  rw [foldl_addException] at h₄
  split at h₄
  · obtain ⟨lines, c₅, -, h₅⟩ := ClassM.bind_eq_ok.mp h₄
    rw [foldl_addLine] at h₅
    exact ⟨p, c₁, _, _, hp, (ClassM.ofExcept_eq_ok.mp h₅).1⟩
  · exact ⟨p, c₁, _, _, hp, (ClassM.ofExcept_eq_ok.mp h₄).1⟩

theorem maxLocals_of_lowerCode (h : lowerCode f code attrs out env c = .ok mc c') :
    f.maxLocals ≤ mc.code.maxLocals.toNat := by
  obtain ⟨p, c₁, exceptions, lines, -, hfinish⟩ := finish_of_lowerCode h
  exact maxLocals_of_finish hfinish

theorem lowerCode_eq_ok (h : lowerCode f code attrs out env c = .ok mc c') :
    ∃ p c₁, placeCode f code out env c = .ok p c₁ ∧ mc.code.code = p.out.code ∧
      mc.reloc = p.reloc.mainMap ∧ mc.jumps = p.jumps := by
  obtain ⟨p, c₁, exceptions, lines, hp, hfinish⟩ := finish_of_lowerCode h
  obtain ⟨hcode, hreloc, hjumps⟩ := finish_eq_ok hfinish
  exact ⟨p, c₁, hp, hcode, hreloc, hjumps⟩

theorem lowerFragment_eq_ok (h : lowerFragment f code out env c = .ok mc c') :
    ∃ p c₁, placeCode f code out env c = .ok p c₁ ∧ mc.code.code = p.out.code ∧
      mc.reloc = p.reloc.mainMap ∧ mc.jumps = p.jumps := by
  obtain ⟨p, c₁, hp, h₁⟩ := ClassM.bind_eq_ok.mp h
  obtain ⟨hfinish, -⟩ := ClassM.ofExcept_eq_ok.mp h₁
  exact ⟨p, c₁, hp, finish_eq_ok hfinish⟩

-- A body that cannot be placed is not lowered.
theorem lower_eq_error {e : LoweringError} (h : placeCode f code out env c = .error e c₁) :
    lowerCode f code attrs out env c = .error e c₁ ∧
      lowerFragment f code out env c = .error e c₁ := by
  unfold lowerCode lowerFragment
  rw [ClassM.run_bind, ClassM.run_bind, h]
  exact ⟨rfl, rfl⟩

end Place

-- The positions of a stream grow.
theorem Stream.pairwise_pos {code : Bytes} {stop start : Nat} {instrs : List Instr}
    (h : Stream code stop start instrs) : (instrs.map Instr.pos).Pairwise (· < ·) := by
  refine List.pairwise_map.mpr (h.pairwise.imp ?_)
  intro a b hle
  have hsize := a.size_pos
  omega

-- The positions of a stream and its end grow.
theorem Stream.pairwise_append_stop {code : Bytes} {start stop : Nat} {instrs : List Instr}
    (h : Stream code stop start instrs) : (instrs.map Instr.pos ++ [stop]).Pairwise (· < ·) := by
  rw [List.pairwise_append]
  refine ⟨Stream.pairwise_pos h, List.pairwise_singleton _ _, ?_⟩
  intro a ha b hb
  obtain ⟨i, hi, rfl⟩ := List.mem_map.mp ha
  obtain rfl := List.mem_singleton.mp hb
  exact (h.decodeAt_of_mem hi).2.2

-- Members of a list in which each stands in relation to those behind it.
theorem pairwise_trichotomy {α : Type} {R : α → α → Prop} {xs : List α} (h : xs.Pairwise R) {a b : α}
    (ha : a ∈ xs) (hb : b ∈ xs) : a = b ∨ R a b ∨ R b a := by
  induction h with
  | nil => cases ha
  | cons hx _ ih =>
    obtain rfl | ha' := List.mem_cons.mp ha
    · obtain rfl | hb' := List.mem_cons.mp hb
      · exact .inl rfl
      · exact .inr (.inl (hx b hb'))
    · obtain rfl | hb' := List.mem_cons.mp hb
      · exact .inr (.inr (hx a ha'))
      · exact ih ha' hb'

namespace Layout

variable {l : Layout}

-- Jumps are only added, behind those that are there.
theorem jumps_isPrefix (l : Layout) (items : List (Item UInt16)) :
    l.jumps.toList <+: (l.puts items).jumps.toList := by
  induction items generalizing l with
  | nil => exact List.prefix_rfl
  | cons item rest ih =>
    refine List.IsPrefix.trans ?_ (ih (l.put item))
    rw [jumps_put]
    exact List.prefix_append _ _

-- The jumps of each item stand together among those of the whole.
theorem nodes_isInfix (l : Layout) (pre : List (Item UInt16)) (item : Item UInt16)
    (post : List (Item UInt16)) :
    item.nodes (l.puts pre).scope (l.puts pre).out.pos <:+:
      (l.puts (pre ++ item :: post)).jumps.toList := by
  rw [puts_append, puts_cons]
  refine List.IsInfix.trans ?_ (((l.puts pre).put item).jumps_isPrefix post).isInfix
  rw [jumps_put]
  exact (List.suffix_append _ _).isInfix

-- Scopes are only added.
theorem scopes_le_put (l : Layout) (item : Item UInt16) :
    l.reloc.scopes.size ≤ (l.put item).reloc.scopes.size := by
  by_cases hmark : ∃ q, item = .mark q
  · obtain ⟨q, rfl⟩ := hmark
    simp [put]
  by_cases henter : item = .enter
  · subst henter
    simp [put, enter]
  by_cases hleave : ∃ a b c, item = .leave a b c
  · obtain ⟨a, b, c, rfl⟩ := hleave
    simp only [put, leave]
    split <;> simp
  · have hr := (put_reloc (l := l) (fun q hq => hmark ⟨q, hq⟩) henter
      (fun a b c hc => hleave ⟨a, b, c, hc⟩)).1
    exact Nat.le_of_eq (congrArg (·.scopes.size) hr.symm)

theorem scopes_le_puts (l : Layout) (items : List (Item UInt16)) :
    l.reloc.scopes.size ≤ (l.puts items).reloc.scopes.size := by
  induction items generalizing l with
  | nil => exact Nat.le_refl _
  | cons item rest ih => exact Nat.le_trans (l.scopes_le_put item) (ih (l.put item))

-- A jump is looked up in a scope that is there.
theorem scope_lt_of_mem {size : Nat} (hv : l.Valid size)
    (hl : ∀ n ∈ l.jumps.toList, n.scope < l.reloc.scopes.size) (items : List (Item UInt16)) :
    ∀ n ∈ (l.puts items).jumps.toList, n.scope < (l.puts items).reloc.scopes.size := by
  have hscope : ∀ (item : Item UInt16) (scope pos : Nat), ∀ n ∈ item.nodes scope pos,
      n.scope = scope := by
    intro item scope pos n hn
    cases item with
    | jump kind o target =>
      rw [Item.nodes, List.mem_singleton] at hn
      rw [hn]
    | switch targets => exact (Item.mem_switchNodes hn).2.2.1
    | _ => simp [Item.nodes] at hn
  induction items generalizing l with
  | nil => exact hl
  | cons item rest ih =>
    refine ih (hv.put item) ?_
    intro n hn
    have hle := l.scopes_le_put item
    rw [jumps_put] at hn
    obtain hn | hn := List.mem_append.mp hn
    · exact Nat.lt_of_lt_of_le (hl n hn) hle
    · rw [hscope item _ _ n hn]
      exact Nat.lt_of_lt_of_le hv.scope_lt hle

end Layout

-- The targets of a jump or a switch.
def branchTargets (i : Instr) : List UInt16 :=
  match i.op with
  | .jump | .jumpTrue | .jumpFalse | .leave => [i.arg]
  | .switch => i.args
  | _ => []

-- What an operand for a target of the instruction holds.
def branchKind (i : Instr) : JumpKind :=
  if i.op = .switch then .switch else .branch

section Body

variable {env : ClassEnv} {f : Frame} {code : Bytes} {out : CodeBuffer} {c c₁ : OpenClass}
  {body : BodyState}

-- The layout of a body is that of its items in their order.
theorem BodyState.layout_eq (body : BodyState) (code : Bytes) (out : CodeBuffer) :
    body.layout code out = (Layout.start out code.size).puts body.items.toList :=
  Layout.putAll_eq _ _

theorem BodyState.layout_valid (body : BodyState) (code : Bytes) (out : CodeBuffer) :
    (body.layout code out).Valid code.size := by
  rw [body.layout_eq]
  exact (Layout.valid_start out code.size).puts body.items.toList

theorem items_of_emitBody (h : emitBody f code {} env c = .ok ((), body) c₁) :
    ∃ instrs its, Stream code code.size 0 instrs ∧
      Emission env f code ⟨{}, c⟩ instrs its ⟨body.finallies, c₁⟩ ∧
      body.items.toList = its ++ [Item.mark code.size] := by
  obtain ⟨instrs, its, hstream, hitems, hder⟩ := emission_of_emitBody h
  exact ⟨instrs, its, hstream, hder, by rw [hitems]⟩

theorem regular_of_emitBody (h : emitBody f code {} env c = .ok ((), body) c₁) :
    ∀ x ∈ body.items.toList, x.Regular := by
  obtain ⟨instrs, its, -, hder, hitems⟩ := items_of_emitBody h
  intro x hx
  rw [hitems] at hx
  obtain hx | hx := List.mem_append.mp hx
  · exact hder.regular x hx
  · rw [List.mem_singleton] at hx
    subst hx
    trivial

-- What a layout knows that nothing is written to.
theorem getLocal_start (out : CodeBuffer) (size s q : Nat) :
    (Layout.start out size).reloc.getLocal s q = none := by
  cases h : (Layout.start out size).reloc.getLocal s q with
  | none => rfl
  | some java =>
    obtain ⟨sc, hsc, hq⟩ := Option.bind_eq_some_iff.mp h
    simp only [Layout.start, Relocation.ofSize, List.getElem?_toArray,
      List.getElem?_singleton] at hsc
    split at hsc
    · cases hsc
      simp only [Relocation.emptyMap, Array.getElem?_replicate] at hq
      split at hq <;> cases hq
    · cases hsc

-- The notes of the main scope: the positions of all instructions and of the end, in order.
theorem layout_notes (out : CodeBuffer) (h : emitBody f code {} env c = .ok ((), body) c₁) {instrs : List Instr}
    (hstream : Stream code code.size 0 instrs) :
    ∃ ps : List (Nat × Nat), ps.map Prod.fst = instrs.map Instr.pos ++ [code.size] ∧
      ps.Pairwise (fun a b => a.1 < b.1 ∧ a.2 ≤ b.2) ∧
      ∀ q, (body.layout code out).reloc.getLocal Relocation.mainScope q = noted (fun _ => none) ps q := by
  obtain ⟨instrs', its, hstream', hder, hitems⟩ := items_of_emitBody h
  obtain rfl := Stream.unique hstream hstream'
  have hv := Layout.valid_start out code.size
  obtain ⟨ps, hps, hpos⟩ := hder.marked hstream hv
  have hall := hps.trans (Marked.mark (hv.puts its) (Nat.le_refl _))
  have hfst : (ps ++ [(code.size, ((Layout.start out code.size).puts its).out.pos)]).map Prod.fst =
      instrs.map Instr.pos ++ [code.size] := by
    rw [List.map_append, hpos]
    rfl
  refine ⟨_, hfst, ?_, ?_⟩
  · have hlt := Stream.pairwise_append_stop hstream
    rw [← hfst] at hlt
    exact (List.pairwise_map.mp hlt).and (List.pairwise_map.mp hall.sorted)
  · intro q
    have hown := hall.own q
    rw [funext (getLocal_start out code.size _)] at hown
    rw [body.layout_eq, hitems, Layout.puts_append]
    exact hown

-- Where a copy ends stands the end of a finally block.
theorem Emission.finallyEnd_of_leave {e e' : EmitState} {instrs : List Instr}
    {its : List (Item UInt16)} (h : Emission env f code e instrs its e') {a b q : Nat}
    (hmem : .leave a b q ∈ its) : ∃ i, Instr.decodeAt code q = .ok i ∧ i.op = .finallyEnd := by
  induction h with
  | nil => cases hmem
  | one hi _ ih =>
    simp only [List.mem_cons, reduceCtorEq, List.mem_append, false_or] at hmem
    obtain hmem | hmem := hmem
    · exact absurd hmem (hi.shape.leave_not_mem a b q)
    · exact ih hmem
  | fused hi _ ih =>
    simp only [List.mem_cons, reduceCtorEq, List.mem_append, false_or] at hmem
    obtain hmem | hmem := hmem
    · exact absurd hmem (hi.shape.leave_not_mem a b q)
    · exact ih hmem
  | copy _ _ hstop _ _ _ ihbody ihrest =>
    simp only [List.mem_cons, reduceCtorEq, List.mem_append, false_or] at hmem
    obtain hmem | hmem | hmem := hmem
    · exact ihbody hmem
    · cases hmem
      exact (blockEnd_of_finallyEnd hstop).finallyEnd
    · exact ihrest hmem

theorem finallyEnd_of_leave (h : emitBody f code {} env c = .ok ((), body) c₁) {a b q : Nat}
    (hmem : .leave a b q ∈ body.items.toList) :
    ∃ i, Instr.decodeAt code q = .ok i ∧ i.op = .finallyEnd := by
  obtain ⟨instrs, its, -, hder, hitems⟩ := items_of_emitBody h
  rw [hitems] at hmem
  exact hder.finallyEnd_of_leave (by simpa using hmem)

-- What follows the mark of an instruction.
theorem site_of_mark (h : emitBody f code {} env c = .ok ((), body) c₁)
    {pre post : List (Item UInt16)} {q : Nat} {i : Instr}
    (hsplit : body.items.toList = pre ++ Item.mark q :: post) (hi : Instr.decodeAt code q = .ok i) :
    Site env f code ⟨{}, c⟩ ⟨body.finallies, c₁⟩ q pre post := by
  obtain ⟨instrs, its, hstream, hder, hitems⟩ := items_of_emitBody h
  have hfinish := hstream.finish_eq_size (Nat.zero_le _)
  have hend : ∀ {p j}, Instr.decodeAt code p = .ok j → p ≠ code.size := by
    intro p j hj
    have hsize := Instr.decodeAt_size_le hj
    have hpos := j.size_pos
    omega
  rw [hitems] at hsplit
  obtain ⟨post', hits, rfl⟩ | ⟨pre', rfl, hlast⟩ := append_eq_append_cons hsplit
  · refine hder.site hstream ⟨_, _, rfl, .inl (by rw [hfinish])⟩ ?_ hits
    intro j hj
    rw [hfinish] at hj
    exact absurd rfl (hend hj)
  · -- The end of the buffer is a position, but no instruction stands there.
    have hmem : (Item.mark q : Item UInt16) ∈ [.mark code.size] := by simp [hlast]
    rw [List.mem_singleton, Item.mark.injEq] at hmem
    exact absurd hmem (hend hi)

-- What stands where a scope has the position of an instruction: its mark and what follows it. Only
-- the end of a finally block may be known without being lowered there.
theorem layout_site (out : CodeBuffer) (h : emitBody f code {} env c = .ok ((), body) c₁)
    {s q java : Nat} {i : Instr} (hnote : (body.layout code out).reloc.getLocal s q = some java)
    (hi : Instr.decodeAt code q = .ok i) :
    i.op = .finallyEnd ∨ ∃ pre post, body.items.toList = pre ++ Item.mark q :: post ∧
      ((Layout.start out code.size).puts pre).scope = s ∧
      ((Layout.start out code.size).puts pre).out.pos = java ∧
      Site env f code ⟨{}, c⟩ ⟨body.finallies, c₁⟩ q pre post := by
  rw [body.layout_eq] at hnote
  obtain hstart | ⟨pre, item, post, hsplit, hscope, hjava, hitem⟩ := Layout.exists_note hnote
  · rw [getLocal_start] at hstart
    cases hstart
  obtain rfl | ⟨a, b, rfl⟩ := hitem
  · exact .inr ⟨pre, post, hsplit, hscope, hjava.symm, site_of_mark h hsplit hi⟩
  · obtain ⟨j, hj, hop⟩ := finallyEnd_of_leave h (a := a) (b := b) (q := q) (by simp [hsplit])
    rw [hi] at hj
    cases hj
    exact .inl hop

-- Every mark, and every end of a copy, is noted where it was written.
theorem layout_note (out : CodeBuffer) (h : emitBody f code {} env c = .ok ((), body) c₁)
    {pre post : List (Item UInt16)} {item : Item UInt16} {q : Nat}
    (hsplit : body.items.toList = pre ++ item :: post)
    (hitem : item = .mark q ∨ ∃ a b, item = .leave a b q) :
    (body.layout code out).reloc.getLocal ((Layout.start out code.size).puts pre).scope q =
      some ((Layout.start out code.size).puts pre).out.pos := by
  obtain ⟨instrs, its, hstream, hder, hitems⟩ := items_of_emitBody h
  have hv := Layout.valid_start out code.size
  have hlast := Marked.mark (hv.puts its) (Nat.le_refl code.size)
  rw [body.layout_eq, hitems, Layout.puts_append]
  change (((Layout.start out code.size).puts its).put (.mark code.size)).reloc.getLocal _ q = _
  rw [hitems] at hsplit
  obtain ⟨post', hits, -⟩ | ⟨pre', rfl, hend⟩ := append_eq_append_cons hsplit
  · have hkept := hder.kept hstream hv hits hitem
    obtain ⟨ps, hps, -⟩ := hder.marked hstream hv
    have hmain : ((Layout.start out code.size).puts its).scope = (Layout.start out code.size).scope :=
      hps.scope
    have hsize : (Layout.start out code.size).reloc.scopes.size = 1 := rfl
    have hzero : (Layout.start out code.size).scope = 0 := rfl
    rw [Layout.put, Relocation.getLocal_record_of_ne ?_]
    · exact hkept.note
    · obtain ⟨hs, -, hlt⟩ | hs := hkept.cases
      · exact .inr (by omega)
      · exact .inl (by omega)
  · cases pre' with
    | nil =>
      rw [List.nil_append, List.cons.injEq] at hend
      obtain ⟨rfl, -⟩ := hend
      obtain hitem | ⟨a, b, hitem⟩ := hitem
      · cases hitem
        have hown := hlast.own code.size
        rw [List.append_nil]
        rw [hown]
        simp [noted]
      · cases hitem
    | cons x pre' => simp at hend

end Body

-- A class of a pod without types, and a method in it without registers.
def bareEnv : ClassEnv where
  pod :=
    { name := "p", version := "1", depends := #[], attrs := {}, symbols := {}, literals := {}
      types := #[], store := .memory {} }
  config := {}
  selfName := "fan/p/T"

def bareClass : OpenClass where
  draft :=
    { name := "fan/p/T", superName := "java/lang/Object", access := 0, major := 49, pool := {}
      thisIndex := 0, superIndex := 0 }

def bareFrame : Frame where
  name := "fan/p/T.m"
  regs := #[]
  hasSelf := false
  paramCount := 0
  maxLocals := 0
  maxStack := 4
  ret := .void

-- The result of a step that succeeds.
def result? {ε σ α : Type} : EStateM.Result ε σ α → Option α
  | .ok a _ => some a
  | .error _ _ => none

theorem exists_of_result? {ε σ α : Type} {r : EStateM.Result ε σ α} (h : (result? r).isSome) :
    ∃ a s, r = .ok a s := by
  cases r with
  | ok a s => exact ⟨a, s, rfl⟩
  | error e s => cases h

end PodCompiler.Lowering
