import PodCompiler.Proofs.Lowering.BodyLayout
import PodCompiler.Proofs.Pod.BodyRequests

namespace PodCompiler.Lowering

open ClassFile (CodeBuffer)
open Instr (Stream)

namespace Layout

variable {l : Layout} {s : Nat}

-- Only a copy that begins opens a scope.
theorem size_put {item : Item UInt16} (h : item ≠ .enter) :
    (l.put item).reloc.scopes.size = l.reloc.scopes.size := by
  by_cases hmark : ∃ q, item = .mark q
  · obtain ⟨q, rfl⟩ := hmark
    simp [put]
  by_cases hleave : ∃ a b c, item = .leave a b c
  · obtain ⟨a, b, c, rfl⟩ := hleave
    simp only [put, leave]
    split <;> simp
  · have hr := (put_reloc (l := l) (fun q hq => hmark ⟨q, hq⟩) h
      (fun a b c hc => hleave ⟨a, b, c, hc⟩)).1
    rw [hr]

theorem size_puts {items : List (Item UInt16)} (h : .enter ∉ items) :
    (l.puts items).reloc.scopes.size = l.reloc.scopes.size := by
  induction items generalizing l with
  | nil => rfl
  | cons item rest ih =>
    rw [List.mem_cons, not_or] at h
    rw [puts_cons, ih h.2, size_put (Ne.symm h.1)]

-- Where a scope is opened a copy begins.
theorem exists_enter {items : List (Item UInt16)} (hlo : l.reloc.scopes.size ≤ s)
    (hhi : s < (l.puts items).reloc.scopes.size) :
    ∃ pre post, items = pre ++ Item.enter :: post ∧ (l.puts pre).reloc.scopes.size = s := by
  induction items generalizing l with
  | nil =>
    rw [puts_nil] at hhi
    omega
  | cons item rest ih =>
    rw [puts_cons] at hhi
    by_cases henter : item = .enter
    · subst henter
      by_cases hown : s = l.reloc.scopes.size
      · exact ⟨[], rest, rfl, hown.symm⟩
      · have hsize : (l.put .enter).reloc.scopes.size = l.reloc.scopes.size + 1 :=
          Relocation.size_pushScope
        obtain ⟨pre, post, rfl, hpre⟩ := ih (by omega) hhi
        exact ⟨.enter :: pre, post, rfl, hpre⟩
    · obtain ⟨pre, post, rfl, hpre⟩ := ih (by rw [size_put henter]; exact hlo) hhi
      exact ⟨item :: pre, post, rfl, hpre⟩

-- A scope that was left: it is not open, and no open scope is inside it.
structure Left (l : Layout) (s : Nat) : Prop where
  lt : s < l.reloc.scopes.size
  ne : s ≠ l.scope
  outer : ∀ p ∈ l.outer, p.1 ≠ s

-- A scope that was left is not entered again, and stays as it is.
theorem Left.put (h : l.Left s) (item : Item UInt16) :
    (l.put item).Left s ∧ (l.put item).reloc.scopes[s]? = l.reloc.scopes[s]? := by
  by_cases hmark : ∃ q, item = .mark q
  · obtain ⟨q, rfl⟩ := hmark
    refine ⟨⟨by simpa [Layout.put] using h.lt, h.ne, h.outer⟩, ?_⟩
    rw [Layout.put, Relocation.getElem?_record, if_neg (Ne.symm h.ne)]
  by_cases henter : item = .enter
  · subst henter
    have hlt := h.lt
    refine ⟨⟨?_, ?_, ?_⟩, ?_⟩
    · simp only [Layout.put, enter, Relocation.size_pushScope]
      omega
    · simp only [Layout.put, enter, Relocation.nextScope]
      omega
    · intro p hp
      obtain rfl | hp := List.mem_cons.mp hp
      · exact Ne.symm h.ne
      · exact h.outer p hp
    · rw [Layout.put, enter, Relocation.getElem?_pushScope, if_neg (by omega)]
  by_cases hleave : ∃ a b c, item = .leave a b c
  · obtain ⟨a, b, c, rfl⟩ := hleave
    simp only [Layout.put, leave]
    split
    · exact ⟨h, rfl⟩
    · rename_i parent javaStart outer houter
      refine ⟨⟨by simpa using h.lt, ?_, ?_⟩, ?_⟩
      · exact Ne.symm (h.outer (parent, javaStart) (by simp [houter]))
      · intro p hp
        exact h.outer p (by simp [houter, hp])
      · rw [Relocation.getElem?_closeScope, if_neg (Ne.symm h.ne), Relocation.getElem?_record,
          if_neg (Ne.symm h.ne)]
  · obtain ⟨hr, hs, ho⟩ := put_reloc (l := l) (fun q hq => hmark ⟨q, hq⟩) henter
      (fun a b c hc => hleave ⟨a, b, c, hc⟩)
    rw [hr]
    exact ⟨⟨by rw [hr]; exact h.lt, by rw [hs]; exact h.ne, by rw [ho]; exact h.outer⟩, rfl⟩

theorem Left.puts (h : l.Left s) (items : List (Item UInt16)) :
    (l.puts items).reloc.scopes[s]? = l.reloc.scopes[s]? := by
  induction items generalizing l with
  | nil => rfl
  | cons item rest ih =>
    obtain ⟨hleft, hsame⟩ := h.put item
    rw [puts_cons, ih hleft, hsame]

end Layout

-- No instruction is lowered to the beginning of a copy.
theorem Shape.enter_not_mem {i : Instr} {next : Following} {fused : Bool}
    {own : List (Item UInt16)} (h : Shape i next fused own) : .enter ∉ own := by
  intro hmem
  cases h with
  | branch hb =>
    rw [List.mem_singleton] at hmem
    subst hmem
    unfold branchItem? at hb
    split at hb <;> cases hb
  | inert _ hi => cases hi _ hmem
  | fused _ _ hpre hbefore _ =>
    simp only [List.mem_append, List.mem_cons, List.not_mem_nil, or_false] at hmem
    obtain hmem | hmem | hmem | hmem := hmem
    · cases hpre _ hmem
    · cases hmem
    · cases hbefore _ hmem
    · cases hmem

-- The items of a copy in a body that goes from `first` to `last`: the instruction that asks for it is
-- `i`, the block ends at `stop`, and the position behind the instruction is noted next.
structure Copied (env : ClassEnv) (f : Frame) (code : Bytes) (first last : EmitState) (i : Instr)
    (stop : Nat) (inner : List Instr) (body post : List (Item UInt16)) : Prop where
  decodes : Instr.decodeAt code i.pos = .ok i
  op : i.op = .jumpFinally
  inline : env.config.finallyStrategy = .inline
  ends : finallyEnd f.name code i = .ok stop
  stream : Stream code stop (i.arg.toNat + 1) inner
  emission : ∃ e e', Emission env f code e inner body e' ∧ Onward env f first e ∧
    Onward env f e' last
  next : NotesNext (i.pos + i.size) post

theorem Copied.weaken {env : ClassEnv} {f : Frame} {code : Bytes} {first first' last last' : EmitState}
    {i : Instr} {stop : Nat} {inner : List Instr} {body post : List (Item UInt16)}
    (h : Copied env f code first last i stop inner body post) (hfirst : Onward env f first' first)
    (hlast : Onward env f last last') : Copied env f code first' last' i stop inner body post := by
  obtain ⟨e, e', hbody, hbefore, hbehind⟩ := h.emission
  exact { h with emission := ⟨e, e', hbody, hfirst.trans hbefore, hbehind.trans hlast⟩ }

-- Wherever a copy begins in a body stands the mark of the instruction that asks for it, and what
-- follows is the copy.
theorem Emission.copied {env : ClassEnv} {f : Frame} {code : Bytes} {e e' : EmitState}
    {instrs : List Instr} {its pre post tail : List (Item UInt16)} {start stop : Nat}
    (h : Emission env f code e instrs its e') (hs : Stream code stop start instrs)
    (htail : NotesNext (Stream.finish start instrs) tail)
    (hsplit : its = pre ++ Item.enter :: post) :
    ∃ before i stop' inner body more, pre = before ++ [Item.mark i.pos] ∧
      post = body ++ Item.leave i.pos i.arg.toNat stop' :: more ∧
      Copied env f code e e' i stop' inner body (more ++ tail) := by
  induction h generalizing pre post tail start stop with
  | nil => simp at hsplit
  | @one e e₁ e₂ i rest own more hi hrest ih =>
    cases hs with
    | step _ _ hs' =>
      cases pre with
      | nil => simp at hsplit
      | cons x pre =>
        rw [List.cons_append, List.cons.injEq] at hsplit
        obtain ⟨post', hown, -⟩ | ⟨pre', rfl, hmore⟩ := append_eq_append_cons hsplit.2
        · exact absurd (by simp [hown]) hi.shape.enter_not_mem
        · obtain ⟨before, k, stop', inner, body, more', rfl, rfl, hcopied⟩ := ih hs' htail hmore
          exact ⟨x :: (own ++ before), k, stop', inner, body, more', by simp, rfl,
            hcopied.weaken (.single ⟨_, _, _, _, hi⟩) .refl⟩
  | @fused e e₁ e₂ i j rest own more hi hrest ih =>
    cases hs with
    | step _ _ hs =>
      cases hs with
      | step _ _ hs' =>
        cases pre with
        | nil => simp at hsplit
        | cons x pre =>
          rw [List.cons_append, List.cons.injEq] at hsplit
          obtain ⟨post', hown, -⟩ | ⟨pre', rfl, hmore⟩ := append_eq_append_cons hsplit.2
          · exact absurd (by simp [hown]) hi.shape.enter_not_mem
          · obtain ⟨before, k, stop', inner, body, more', rfl, rfl, hcopied⟩ := ih hs' htail hmore
            exact ⟨x :: (own ++ before), k, stop', inner, body, more', by simp, rfl,
              hcopied.weaken (.single ⟨_, _, _, _, hi⟩) .refl⟩
  | @copy e e₁ e₂ i rest inner stop' body more hop hinline hstop hinner hbody hrest ihbody ihrest =>
    cases hs with
    | step _ hd hs' =>
      have hpos := Instr.decodeAt_pos hd
      subst hpos
      have hblock := (blockEnd_of_finallyEnd hstop).finish inner hinner
      have hnext := hrest.notesNext hs' htail
      match pre with
      | [] => simp at hsplit
      | [x] =>
        simp only [List.cons_append, List.nil_append, List.cons.injEq, true_and] at hsplit
        obtain ⟨rfl, rfl⟩ := hsplit
        exact ⟨[], i, stop', inner, body, more, rfl, rfl, hd, hop, hinline, hstop, hinner,
          ⟨e, e₁, hbody, .refl, hrest.onward⟩, hnext⟩
      | x :: y :: pre =>
        rw [List.cons_append, List.cons.injEq, List.cons_append, List.cons.injEq] at hsplit
        obtain ⟨post', hown, rfl⟩ | ⟨pre', rfl, hmore⟩ := append_eq_append_cons hsplit.2.2
        · obtain ⟨before, k, stop₂, inner₂, body₂, more', rfl, rfl, hcopied⟩ :=
            ihbody hinner ⟨.leave i.pos i.arg.toNat stop', more ++ tail, rfl,
              .inr ⟨_, _, by rw [hblock]⟩⟩ hown
          refine ⟨x :: y :: before, k, stop₂, inner₂, body₂, _, by simp, by simp; rfl, ?_⟩
          simpa using hcopied.weaken .refl hrest.onward
        · cases pre' with
          | nil => simp at hmore
          | cons z pre' =>
            rw [List.cons_append, List.cons.injEq] at hmore
            obtain ⟨before, k, stop₂, inner₂, body₂, more', rfl, rfl, hcopied⟩ :=
              ihrest hs' htail hmore.2
            exact ⟨x :: y :: (body ++ z :: before), k, stop₂, inner₂, body₂, more', by simp, rfl,
              hcopied.weaken hbody.onward .refl⟩

-- What a scope knows: the positions of the instructions of one stream and where it ends, in order.
structure Relocation.Notes (r : Relocation) (code : Bytes) (s start stop : Nat)
    (instrs : List Instr) : Prop where
  stream : Stream code stop start instrs
  finish : Stream.finish start instrs = stop
  known : ∀ q, (∃ java, r.getLocal s q = some java) ↔ q ∈ instrs.map Instr.pos ∨ q = stop
  monotone : ∀ {q q' java java' : Nat}, r.getLocal s q = some java →
    r.getLocal s q' = some java' → q ≤ q' → java ≤ java'

-- Notes in order, of which no two are of one position.
theorem notes_of_noted {r : Relocation} {code : Bytes} {s start stop : Nat} {instrs : List Instr}
    {ps : List (Nat × Nat)} (hstream : Stream code stop start instrs)
    (hfinish : Stream.finish start instrs = stop)
    (hfst : ps.map Prod.fst = instrs.map Instr.pos ++ [stop])
    (hsorted : ps.Pairwise fun a b => a.1 < b.1 ∧ a.2 ≤ b.2)
    (hnoted : ∀ q, r.getLocal s q = noted (fun _ => none) ps q) :
    r.Notes code s start stop instrs := by
  have hlt : (ps.map Prod.fst).Pairwise (· < ·) := List.pairwise_map.mpr (hsorted.imp fun h => h.1)
  have hmem : ∀ {q java}, r.getLocal s q = some java ↔ (q, java) ∈ ps := by
    intro q java
    rw [hnoted]
    constructor
    · intro hq
      by_cases hq' : q ∈ ps.map Prod.fst
      · obtain ⟨p, hp, rfl⟩ := List.mem_map.mp hq'
        rw [noted_of_mem hlt hp] at hq
        cases hq
        exact hp
      · rw [noted_of_not_mem hq'] at hq
        cases hq
    · exact noted_of_mem hlt
  refine ⟨hstream, hfinish, ?_, ?_⟩
  · intro q
    have hq : q ∈ instrs.map Instr.pos ∨ q = stop ↔ q ∈ ps.map Prod.fst := by
      rw [hfst, List.mem_append, List.mem_singleton]
    rw [hq, List.mem_map]
    simp only [hmem]
    constructor
    · rintro ⟨java, hp⟩
      exact ⟨_, hp, rfl⟩
    · rintro ⟨p, hp, rfl⟩
      exact ⟨p.2, hp⟩
  · intro q q' java java' hq hq' hle
    obtain heq | hR | hR := pairwise_trichotomy hsorted (hmem.mp hq) (hmem.mp hq')
    · exact Nat.le_of_eq (Prod.mk.inj heq).2
    · exact hR.2
    · have := hR.1
      omega

-- A scope of a copy: what it knows, and where the copy stands in the scope around it.
structure Relocation.CopyScope (r : Relocation) (code : Bytes) (s p : Nat) (copy : InlineCopy)
    (i : Instr) (inner : List Instr) : Prop where
  parent : r.parent s = some p
  copy_eq : r.copy s = some copy
  decodes : Instr.decodeAt code copy.site = .ok i
  op : i.op = .jumpFinally
  finallyStart : copy.finallyStart = i.arg.toNat
  start : copy.start = i.arg.toNat + 1
  ends : ∃ method, finallyEnd method code i = .ok copy.stop
  notes : r.Notes code s copy.start copy.stop inner
  enters : r.getLocal p copy.site = some copy.javaStart
  leaves : r.getLocal p (copy.site + i.size) = some copy.javaEnd

-- All positions of a copy are positions of the code.
theorem Relocation.CopyScope.bounds {r : Relocation} {code : Bytes} {s p : Nat} {copy : InlineCopy}
    {i : Instr} {inner : List Instr} (h : r.CopyScope code s p copy i inner) :
    copy.site < code.size ∧ copy.finallyStart < copy.start ∧ copy.start ≤ copy.stop ∧
      copy.stop < code.size := by
  obtain ⟨method, hends⟩ := h.ends
  obtain ⟨hle, ⟨last, hlast, -⟩, -⟩ := blockEnd_of_finallyEnd hends
  have hstart := h.start
  have hbegins := h.finallyStart
  have hsite := Instr.decodeAt_size_le h.decodes
  have hstop := Instr.decodeAt_size_le hlast
  have hsize := i.size_pos
  have hsizeLast := last.size_pos
  omega

section Body

variable {env : ClassEnv} {f : Frame} {code : Bytes} {c c₁ : OpenClass} {body : BodyState}

-- The main scope knows the instructions of the method and its end.
theorem layout_mainNotes (out : CodeBuffer) (h : emitBody f code {} env c = .ok ((), body) c₁) :
    ∃ instrs, Instr.disassemble code = .ok instrs ∧
      (body.layout code out).reloc.Notes code Relocation.mainScope 0 code.size instrs := by
  obtain ⟨instrs, its, hstream, -, -⟩ := items_of_emitBody h
  obtain ⟨ps, hfst, hsorted, hnoted⟩ := layout_notes out h hstream
  exact ⟨instrs, Instr.disassemble_eq_ok_iff.mpr hstream,
    notes_of_noted hstream (hstream.finish_eq_size (Nat.zero_le _)) hfst hsorted hnoted⟩

-- What is left of the scope of a copy behind it.
theorem Copied.copyScope {first last : EmitState} {i : Instr} {stop : Nat} {inner : List Instr}
    {own post : List (Item UInt16)} {l : Layout}
    (h : Copied env f code first last i stop inner own post)
    (hv : l.Valid code.size) {l' : Layout}
    (hl' : l' = ((l.put (.mark i.pos)).enter.puts own).put (.leave i.pos i.arg.toNat stop)) :
    l'.Left l.reloc.scopes.size ∧ l'.scope = l.scope ∧
      l'.out.pos = ((l.put (.mark i.pos)).enter.puts own).out.pos ∧
      l'.reloc.parent l.reloc.scopes.size = some l.scope ∧
      l'.reloc.copy l.reloc.scopes.size = some
        { site := i.pos, finallyStart := i.arg.toNat, start := i.arg.toNat + 1, stop,
          javaStart := l.out.pos, javaEnd := l'.out.pos } ∧
      l'.reloc.Notes code l.reloc.scopes.size (i.arg.toNat + 1) stop inner := by
  obtain ⟨e, e', hemission, -, -⟩ := h.emission
  have hsize := Instr.decodeAt_size_le h.decodes
  have hblock := blockEnd_of_finallyEnd h.ends
  obtain ⟨last, hlast, -⟩ := hblock.finallyEnd
  have hstop := Instr.decodeAt_size_le hlast
  have hv₁ := hv.put (.mark i.pos)
  have hmark : (l.put (.mark i.pos)).reloc.scopes.size = l.reloc.scopes.size :=
    Layout.size_put (by simp)
  obtain ⟨ps, hps, hpos⟩ := hemission.marked h.stream hv₁.enter
  have houter : ((l.put (.mark i.pos)).enter.puts own).outer =
      (l.scope, l.out.pos) :: l.outer := hps.outer
  have hscope : ((l.put (.mark i.pos)).enter.puts own).scope = l.reloc.scopes.size :=
    hps.scope.trans hmark
  have henter : (l.put (.mark i.pos)).enter.scope = l.reloc.scopes.size := hmark
  have hgrow := hps.grow
  have hentersize : (l.put (.mark i.pos)).enter.reloc.scopes.size = l.reloc.scopes.size + 1 := by
    rw [← hmark]
    simp [Layout.enter]
  have hvbody := hv₁.enter.puts own
  rw [Layout.put_leave, Layout.leave, houter] at hl'
  subst hl'
  dsimp only
  rw [hscope]
  have hin : l.reloc.scopes.size <
      ((l.put (.mark i.pos)).enter.puts own).reloc.scopes.size := by omega
  refine ⟨⟨?_, ?_, ?_⟩, rfl, rfl, ?_, ?_, ?_⟩
  · simpa using hin
  · have := hv.scope_lt
    dsimp only
    omega
  · intro p hp
    have := hv.outer_lt p hp
    omega
  · rw [Relocation.parent_closeScope, Relocation.parent_record, hps.parent _ (by omega)]
    simp [Layout.enter, Relocation.parent_pushScope, Layout.put]
  · unfold Relocation.copy
    rw [Relocation.getElem?_closeScope, if_pos rfl, Relocation.getElem?_record, if_pos rfl,
      Array.getElem?_eq_getElem hin]
    rfl
  · have hfst : (ps ++ [(stop, ((l.put (.mark i.pos)).enter.puts own).out.pos)]).map Prod.fst =
        inner.map Instr.pos ++ [stop] := by
      rw [List.map_append, hpos]
      rfl
    have hlt := Stream.pairwise_append_stop h.stream
    rw [← hfst] at hlt
    refine notes_of_noted h.stream (hblock.finish inner h.stream) hfst
      ((List.pairwise_map.mp hlt).and ?_) ?_
    · -- The copy ends behind all of its instructions.
      refine List.pairwise_append.mpr
        ⟨List.pairwise_map.mp hps.sorted, List.pairwise_singleton _ _, ?_⟩
      intro a ha b hb
      obtain rfl := List.mem_singleton.mp hb
      exact (hps.span a ha).2
    · have hnone : ∀ q, (l.put (.mark i.pos)).enter.reloc.getLocal l.reloc.scopes.size q = none := by
        intro q
        rw [Layout.enter, Relocation.getLocal_pushScope, Relocation.getLocal,
          Array.getElem?_eq_none (by omega)]
        rfl
      have hown := hps.own
      rw [henter, funext hnone] at hown
      intro q
      rw [Relocation.getLocal_closeScope, Relocation.getLocal_record hvbody.full hin
        (by rw [hvbody.size_eq]; omega), noted_append, ← funext hown, noted, noted]
      simp

-- Where the items of a copy are in those of the body.
structure BodyState.Holds (body : BodyState) (code : Bytes) (out : CodeBuffer) (s : Nat)
    (copy : InlineCopy) (pre own post : List (Item UInt16)) : Prop where
  items : body.items.toList = pre ++ .mark copy.site :: .enter ::
    (own ++ .leave copy.site copy.finallyStart copy.stop :: post)
  scope : ((Layout.start out code.size).puts pre).reloc.scopes.size = s
  javaStart : ((Layout.start out code.size).puts pre).out.pos = copy.javaStart
  javaEnd : ((((Layout.start out code.size).puts pre).put (.mark copy.site)).enter.puts own).out.pos =
    copy.javaEnd

-- Wherever a copy begins, a scope is opened that is that of the copy in the end.
theorem layout_copied (out : CodeBuffer) (h : emitBody f code {} env c = .ok ((), body) c₁)
    {before after : List (Item UInt16)}
    (hsplit : body.items.toList = before ++ Item.enter :: after) :
    ∃ pre copy i inner own post, before = pre ++ [Item.mark copy.site] ∧
      (body.layout code out).reloc.CopyScope code
        ((Layout.start out code.size).puts pre).reloc.scopes.size
        ((Layout.start out code.size).puts pre).scope copy i inner ∧
      body.Holds code out ((Layout.start out code.size).puts pre).reloc.scopes.size copy pre own
        post ∧
      Copied env f code ⟨{}, c⟩ ⟨body.finallies, c₁⟩ i copy.stop inner own post := by
  obtain ⟨instrs, its, hstream, hder, hitems⟩ := items_of_emitBody h
  have hfinish := hstream.finish_eq_size (Nat.zero_le _)
  obtain ⟨pre, i, stop, inner, own, post, rfl, hafter, hcopied⟩ : ∃ pre i stop inner own post,
      before = pre ++ [Item.mark i.pos] ∧ after = own ++ Item.leave i.pos i.arg.toNat stop :: post ∧
      Copied env f code ⟨{}, c⟩ ⟨body.finallies, c₁⟩ i stop inner own post := by
    have hfull := hsplit
    rw [hitems] at hfull
    obtain ⟨after', hits, rfl⟩ | ⟨pre', rfl, hlast⟩ := append_eq_append_cons hfull
    · obtain ⟨pre, i, stop, inner, own, more, hpre, rfl, hcopied⟩ :=
        hder.copied hstream ⟨.mark code.size, [], rfl, .inl (by rw [hfinish])⟩ hits
      exact ⟨pre, i, stop, inner, own, _, hpre, by simp, hcopied⟩
    · cases pre' with
      | nil => simp at hlast
      | cons x pre' => simp at hlast
  rw [hafter, List.append_assoc, List.singleton_append] at hsplit
  have hv := (Layout.valid_start out code.size).puts pre
  obtain ⟨hleft, hscope, hpos, hparent, hcopy, hnotes⟩ := hcopied.copyScope hv rfl
  -- Behind the copy its scope stays as it is.
  have hsplit' : body.items.toList =
      (pre ++ Item.mark i.pos :: .enter ::
        (own ++ [Item.leave i.pos i.arg.toNat stop])) ++ post := by
    simp [hsplit]
  have hputs : (Layout.start out code.size).puts
      (pre ++ Item.mark i.pos :: .enter :: (own ++ [Item.leave i.pos i.arg.toNat stop])) =
        (((((Layout.start out code.size).puts pre).put (.mark i.pos)).enter.puts own).put
          (.leave i.pos i.arg.toNat stop)) := by
    rw [Layout.puts_append, Layout.puts_cons, Layout.puts_cons, Layout.puts_append]
    rfl
  have hkept := hleft.puts post
  rw [← hputs] at hkept hscope hparent hcopy hnotes hpos
  rw [← Layout.puts_append, ← hsplit', ← body.layout_eq] at hkept
  have hlocal : ∀ q, (body.layout code out).reloc.getLocal _ q = _ :=
    fun q => congrArg (fun sc => sc.bind fun s : Scope => (s.map[q]?).join) hkept
  obtain ⟨item, more, hpost, hitem⟩ := hcopied.next
  rw [hpost] at hsplit'
  have hparent' := (congrArg (fun sc => sc.bind Scope.parent) hkept).trans hparent
  have hcopy' := (congrArg (fun sc => sc.bind Scope.copy) hkept).trans hcopy
  refine ⟨pre, _, i, inner, own, post, rfl, ⟨hparent', hcopy', hcopied.decodes, hcopied.op, rfl, rfl,
    ⟨f.name, hcopied.ends⟩, ?_, ?_, ?_⟩, ⟨hsplit, rfl, rfl, hpos.symm⟩, hcopied⟩
  · refine ⟨hnotes.stream, hnotes.finish, ?_, ?_⟩
    · intro q
      rw [hlocal]
      exact hnotes.known q
    · intro q q' java java' hq hq'
      rw [hlocal] at hq hq'
      exact hnotes.monotone hq hq'
  · exact layout_note out h hsplit (.inl rfl)
  · have hnote := layout_note out h hsplit' hitem
    rw [hscope] at hnote
    exact hnote

-- Every scope but the main one is that of a copy.
theorem layout_copyItems (out : CodeBuffer) (h : emitBody f code {} env c = .ok ((), body) c₁)
    {s : Nat} (hmain : s ≠ Relocation.mainScope)
    (hs : s < (body.layout code out).reloc.scopes.size) :
    ∃ p copy i inner pre own post, (body.layout code out).reloc.CopyScope code s p copy i inner ∧
      body.Holds code out s copy pre own post ∧ ∃ e e', Emission env f code e inner own e' := by
  have hstart : (Layout.start out code.size).reloc.scopes.size = 1 := rfl
  have hzero : Relocation.mainScope = 0 := rfl
  rw [body.layout_eq] at hs
  obtain ⟨before, after, hsplit, hbefore⟩ := Layout.exists_enter (by omega) hs
  obtain ⟨pre, copy, i, inner, own, post, rfl, hscope, hholds, hcopied⟩ :=
    layout_copied out h hsplit
  have hmark :
      ((Layout.start out code.size).puts (pre ++ [Item.mark copy.site])).reloc.scopes.size =
        ((Layout.start out code.size).puts pre).reloc.scopes.size := by
    have hne : .mark copy.site ≠ (.enter : Item UInt16) := by simp
    rw [Layout.puts_append]
    exact Layout.size_put hne
  rw [← hmark, hbefore] at hscope hholds
  obtain ⟨e, e', hemission, -, -⟩ := hcopied.emission
  exact ⟨_, copy, i, inner, pre, own, post, hscope, hholds, e, e', hemission⟩

-- The loader takes no more code than a length of two bytes counts, so in a method that is read all
-- positions of a copy have sixteen bits.
theorem copy_positions_of_read {symbols : Pod.Symbols} {m : Pod.MethodDef} {cur cur' : Pod.Cursor}
    (hread : Pod.MethodDef.read symbols cur = .ok m cur') (out : CodeBuffer)
    (h : emitBody f m.code {} env c = .ok ((), body) c₁) {s : Nat}
    (hmain : s ≠ Relocation.mainScope) (hs : s < (body.layout m.code out).reloc.scopes.size) :
    ∃ copy, (body.layout m.code out).reloc.copy s = some copy ∧ copy.site ≤ 0xFFFF ∧
      copy.finallyStart ≤ 0xFFFF ∧ copy.start ≤ 0xFFFF ∧ copy.stop ≤ 0xFFFF := by
  obtain ⟨p, copy, i, inner, pre, own, post, hscope, -⟩ := layout_copyItems out h hmain hs
  obtain ⟨hsite, hbegins, hstart, hstop⟩ := hscope.bounds
  have hsize := Pod.MethodDef.size_code_of_read hread
  exact ⟨copy, hscope.copy_eq, by omega, by omega, by omega, by omega⟩

-- So is every copy in a scope.
theorem layout_child (out : CodeBuffer) (h : emitBody f code {} env c = .ok ((), body) c₁)
    {scope s : Nat} {copy : InlineCopy} (hparent : (body.layout code out).reloc.parent s = some scope)
    (hcopy : (body.layout code out).reloc.copy s = some copy) :
    ∃ i inner pre own post, (body.layout code out).reloc.CopyScope code s scope copy i inner ∧
      body.Holds code out s copy pre own post ∧ ∃ e e', Emission env f code e inner own e' := by
  have hv := body.layout_valid code out
  have hmain : s ≠ Relocation.mainScope := by
    rintro rfl
    exact absurd (hv.parent_lt _ _ hparent) (Nat.not_lt_zero _)
  have hlt : s < (body.layout code out).reloc.scopes.size := by
    obtain ⟨sc, hsc, -⟩ := Option.bind_eq_some_iff.mp hcopy
    exact (Array.getElem?_eq_some_iff.mp hsc).1
  obtain ⟨p, copy', i, inner, pre, own, post, hscope, hholds⟩ := layout_copyItems out h hmain hlt
  have hsame := hscope.copy_eq
  rw [hcopy] at hsame
  cases hsame
  have hsame := hscope.parent
  rw [hparent] at hsame
  cases hsame
  exact ⟨i, inner, pre, own, post, hscope, hholds⟩

end Body

namespace Layout

variable {l l' m m' n n' : Layout} {s t t' : Nat}

-- Items that open and close no scope.
theorem scope_puts {items : List (Item UInt16)} (l : Layout) (henter : .enter ∉ items)
    (hleave : ∀ a b q, .leave a b q ∉ items) : (l.puts items).scope = l.scope := by
  induction items generalizing l with
  | nil => rfl
  | cons x rest ih =>
    rw [List.mem_cons, not_or] at henter
    simp only [List.mem_cons, not_or] at hleave
    rw [puts_cons, ih _ henter.2 fun a b q => (hleave a b q).2]
    by_cases hmark : ∃ q, x = .mark q
    · obtain ⟨q, rfl⟩ := hmark
      rfl
    · exact (put_reloc (fun q hq => hmark ⟨q, hq⟩) (Ne.symm henter.1)
        fun a b q => Ne.symm (hleave a b q).1).2.1

-- Scopes that stand for each other behind two layouts: those that are open, and those that are
-- opened next, one by one.
inductive Twins (l l' : Layout) : Nat → Nat → Prop where
  | open_ : Twins l l' l.scope l'.scope
  | next (k : Nat) : Twins l l' (l.reloc.scopes.size + k) (l'.reloc.scopes.size + k)

theorem Twins.symm (h : Twins l l' s t) : Twins l' l t s := by
  cases h with
  | open_ => exact .open_
  | next k => exact .next k

theorem Twins.unique (hl : l.scope < l.reloc.scopes.size) (h : Twins l l' s t)
    (h' : Twins l l' s t') : t = t' := by
  cases h with
  | open_ =>
    generalize hs : l.scope = s at h'
    cases h' with
    | open_ => rfl
    | next k => omega
  | next k =>
    generalize hs : l.reloc.scopes.size + k = s at h'
    cases h' with
    | open_ => omega
    | next k' =>
      obtain rfl : k = k' := by omega
      rfl

theorem Twins.eq_or_le (h : Twins l l' s t) :
    s = l.scope ∧ t = l'.scope ∨ l.reloc.scopes.size ≤ s := by
  cases h with
  | open_ => exact .inl ⟨rfl, rfl⟩
  | next k => exact .inr (Nat.le_add_right _ _)

-- Two layouts went on from `l` and `l'` with the same scopes.
structure Abreast (l l' m m' : Layout) : Prop where
  opened : ∃ k, m.reloc.scopes.size = l.reloc.scopes.size + k ∧
    m'.reloc.scopes.size = l'.reloc.scopes.size + k
  scope : Twins l l' m.scope m'.scope

theorem Abreast.refl (l l' : Layout) : Abreast l l' l l' :=
  ⟨⟨0, rfl, rfl⟩, .open_⟩

theorem Abreast.trans (h : Abreast l l' m m') (h' : Abreast m m' n n') : Abreast l l' n n' := by
  obtain ⟨k, hk, hk'⟩ := h.opened
  obtain ⟨j, hj, hj'⟩ := h'.opened
  refine ⟨⟨k + j, by omega, by omega⟩, ?_⟩
  have hscope := h'.scope
  generalize n.scope = s at hscope ⊢
  generalize n'.scope = t at hscope ⊢
  cases hscope with
  | open_ => exact h.scope
  | next i =>
    rw [hk, hk', Nat.add_assoc, Nat.add_assoc]
    exact .next (k + i)

-- Items that open and close no scope.
theorem Abreast.flat {items : List (Item UInt16)} (henter : .enter ∉ items)
    (hleave : ∀ a b q, .leave a b q ∉ items) : Abreast l l' (l.puts items) (l'.puts items) := by
  refine ⟨⟨0, size_puts henter, size_puts henter⟩, ?_⟩
  rw [scope_puts l henter hleave, scope_puts l' henter hleave]
  exact .open_

theorem Abreast.mark (q : Nat) : Abreast l l' (l.put (.mark q)) (l'.put (.mark q)) := by
  have hflat : Abreast l l' (l.puts [.mark q]) (l'.puts [.mark q]) := .flat (by simp) (by simp)
  exact hflat

theorem Abreast.enter (l l' : Layout) : Abreast l l' l.enter l'.enter := by
  refine ⟨⟨1, Relocation.size_pushScope, Relocation.size_pushScope⟩, ?_⟩
  exact .next 0

end Layout

open Layout (Abreast Twins)

-- Among the items of an instruction and those behind them.
theorem Shape.abreast_of_append {i : Instr} {next : Following} {fused : Bool}
    {own more xs ys : List (Item UInt16)} {l l' : Layout} (h : Shape i next fused own)
    (hsplit : own ++ more = xs ++ ys)
    (hmore : ∀ zs, more = zs ++ ys → Abreast (l.puts own) (l'.puts own) ((l.puts own).puts zs)
      ((l'.puts own).puts zs)) :
    Abreast l l' (l.puts xs) (l'.puts xs) := by
  obtain ⟨zs, rfl, hzs⟩ | ⟨zs, rfl, -⟩ := List.append_eq_append_iff.mp hsplit
  · rw [Layout.puts_append, Layout.puts_append]
    exact (Abreast.flat h.enter_not_mem h.leave_not_mem).trans (hmore zs hzs)
  · refine .flat ?_ ?_
    · intro hmem
      exact h.enter_not_mem (List.mem_append_left _ hmem)
    · intro a b q hmem
      exact h.leave_not_mem a b q (List.mem_append_left _ hmem)

theorem Emission.abreast_of_append {env : ClassEnv} {f : Frame} {code : Bytes} {e e' : EmitState}
    {instrs : List Instr} {its xs ys : List (Item UInt16)} {start stop : Nat} {l l' : Layout}
    (h : Emission env f code e instrs its e') (hs : Stream code stop start instrs)
    (hv : l.Valid code.size) (hv' : l'.Valid code.size) (hsplit : its = xs ++ ys) :
    Abreast l l' (l.puts xs) (l'.puts xs) := by
  induction h generalizing xs ys start stop l l' with
  | nil =>
    rw [(List.append_eq_nil_iff.mp hsplit.symm).1]
    exact .refl l l'
  | @one e e₁ e₂ i rest own more hi hrest ih =>
    cases xs with
    | nil => exact .refl l l'
    | cons x xs =>
      rw [List.cons_append, List.cons.injEq] at hsplit
      obtain ⟨rfl, hsplit⟩ := hsplit
      cases hs with
      | step _ _ hs' =>
        have hmark : ∀ {l : Layout}, l.Valid code.size →
            ((l.put (.mark i.pos)).puts own).Valid code.size :=
          fun hv => (hv.put (.mark i.pos)).puts own
        refine (Abreast.mark i.pos).trans (hi.shape.abreast_of_append hsplit ?_)
        exact fun zs hzs => ih hs' (hmark hv) (hmark hv') hzs
  | @fused e e₁ e₂ i j rest own more hi hrest ih =>
    cases xs with
    | nil => exact .refl l l'
    | cons x xs =>
      rw [List.cons_append, List.cons.injEq] at hsplit
      obtain ⟨rfl, hsplit⟩ := hsplit
      cases hs with
      | step _ _ hs =>
        cases hs with
        | step _ _ hs' =>
          have hmark : ∀ {l : Layout}, l.Valid code.size →
              ((l.put (.mark i.pos)).puts own).Valid code.size :=
            fun hv => (hv.put (.mark i.pos)).puts own
          refine (Abreast.mark i.pos).trans (hi.shape.abreast_of_append hsplit ?_)
          exact fun zs hzs => ih hs' (hmark hv) (hmark hv') hzs
  | @copy e e₁ e₂ i rest inner stop' own more hop _ hstop hinner hbody hrest ihbody ihrest =>
    cases xs with
    | nil => exact .refl l l'
    | cons x xs =>
      rw [List.cons_append, List.cons.injEq] at hsplit
      obtain ⟨rfl, hsplit⟩ := hsplit
      refine (Abreast.mark i.pos).trans ?_
      rw [Layout.puts_cons, Layout.puts_cons]
      have hv₁ := hv.put (.mark i.pos)
      have hv₁' := hv'.put (.mark i.pos)
      generalize l.put (.mark i.pos) = m at hv₁ ⊢
      generalize l'.put (.mark i.pos) = m' at hv₁' ⊢
      cases xs with
      | nil => exact .refl m m'
      | cons x xs =>
        rw [List.cons_append, List.cons.injEq] at hsplit
        obtain ⟨rfl, hsplit⟩ := hsplit
        rw [Layout.puts_cons, Layout.puts_cons, Layout.put_enter, Layout.put_enter]
        have hinside : ∀ zs ws, own = zs ++ ws →
            Abreast m m' (m.enter.puts zs) (m'.enter.puts zs) :=
          fun zs ws hown => (Abreast.enter m m').trans (ihbody hinner hv₁.enter hv₁'.enter hown)
        obtain ⟨zs, rfl, hbehind⟩ | ⟨zs, hown, -⟩ := List.append_eq_append_iff.mp hsplit
        · cases zs with
          | nil =>
            rw [List.append_nil]
            exact hinside own [] (List.append_nil own).symm
          | cons z zs =>
            rw [List.cons_append, List.cons.injEq] at hbehind
            obtain ⟨rfl, hmore⟩ := hbehind
            rw [Layout.puts_append, Layout.puts_append, Layout.puts_cons, Layout.puts_cons]
            -- Behind the copy the scope around it is open again.
            have hleave : Abreast m m'
                ((m.enter.puts own).put (.leave i.pos i.arg.toNat stop'))
                ((m'.enter.puts own).put (.leave i.pos i.arg.toNat stop')) := by
              obtain ⟨ps, hps, -⟩ := hbody.marked hinner hv₁.enter
              obtain ⟨qs, hqs, -⟩ := hbody.marked hinner hv₁'.enter
              have hne : (.leave i.pos i.arg.toNat stop' : Item UInt16) ≠ .enter := by simp
              refine ⟨?_, ?_⟩
              · rw [Layout.size_put hne, Layout.size_put hne]
                exact (hinside own [] (List.append_nil own).symm).opened
              · rw [(hps.copy hv₁ _ _ _).scope, (hqs.copy hv₁' _ _ _).scope]
                exact .open_
            cases hs with
            | step _ _ hs' =>
              exact hleave.trans (ihrest hs' ((hv₁.enter.puts own).put _)
                ((hv₁'.enter.puts own).put _) hmore)
        · exact hinside xs zs hown

-- The scope that is open among the items of a run of instructions is that of the run, or one that
-- was opened in it.
theorem Emission.scope_of_append {env : ClassEnv} {f : Frame} {code : Bytes} {e e' : EmitState}
    {instrs : List Instr} {its xs ys : List (Item UInt16)} {start stop : Nat} {l : Layout}
    (h : Emission env f code e instrs its e') (hs : Stream code stop start instrs)
    (hv : l.Valid code.size) (hsplit : its = xs ++ ys) :
    (l.puts xs).scope = l.scope ∨ l.reloc.scopes.size ≤ (l.puts xs).scope :=
  (h.abreast_of_append hs hv hv hsplit).scope.eq_or_le.imp_left And.left

end PodCompiler.Lowering
