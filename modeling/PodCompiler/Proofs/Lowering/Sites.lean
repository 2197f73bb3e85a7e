import PodCompiler.Proofs.Lowering.Scopes

namespace PodCompiler.Lowering

open Instr (Stream)

-- A finally block from `pos` on ends at `stop`: the instruction that ends it stands there, and every
-- stream up to it ends there.
structure BlockEnd (code : Bytes) (stop pos : Nat) : Prop where
  le : pos ≤ stop
  finallyEnd : ∃ i, Instr.decodeAt code stop = .ok i ∧ i.op = .finallyEnd
  finish : ∀ instrs, Stream code stop pos instrs → Stream.finish pos instrs = stop

-- One instruction before the end.
theorem BlockEnd.step {code : Bytes} {stop pos : Nat} {i : Instr}
    (hi : Instr.decodeAt code pos = .ok i) (h : BlockEnd code stop (pos + i.size)) :
    BlockEnd code stop pos where
  le := Nat.le_trans (Nat.le_add_right _ _) h.le
  finallyEnd := h.finallyEnd
  finish := by
    intro instrs hs
    have hsize := i.size_pos
    have hle := h.le
    cases hs with
    | done hdone => omega
    | step _ hj hrest =>
      rw [hi] at hj
      cases hj
      exact h.finish _ hrest

-- The scan for the end of a block decodes at the positions of the stream.
theorem blockEnd_of_findFinallyEnd {code : Bytes} {depth pos stop : Nat}
    (h : Instr.findFinallyEnd code depth pos = .ok (some stop)) : BlockEnd code stop pos := by
  fun_induction Instr.findFinallyEnd code depth pos with
  | case1 => cases h
  | case2 pos hlt i hi _ _ hop ih => exact (ih h).step hi
  | case3 pos hlt i hi _ hop =>
    cases h
    refine ⟨Nat.le_refl _, ⟨i, hi, hop⟩, ?_⟩
    intro instrs hs
    cases hs with
    | done _ => rfl
    | step hlt' _ _ => omega
  | case4 pos hlt i hi _ hop _ ih => exact (ih h).step hi
  | case5 pos hlt i hi _ _ _ _ _ ih => exact (ih h).step hi
  | case6 => cases h

-- The block that an instruction runs begins where the instruction says, and its end was looked for.
theorem finallyEnd_eq_ok {method : String} {code : Bytes} {i : Instr} {stop : Nat}
    (h : finallyEnd method code i = .ok stop) :
    (∃ first, Instr.decodeAt code (min i.arg.toNat code.size) = .ok first ∧
      first.op = .finallyStart) ∧
      Instr.findFinallyEnd code 0 (i.arg.toNat + 1) = .ok (some stop) := by
  simp only [finallyEnd] at h
  split at h
  · cases h
  · rename_i first hfirst
    split at h
    · rename_i hop
      split at h
      · cases h
      · cases h
      · rename_i stop' hfind
        cases h
        exact ⟨⟨first, hfirst, hop⟩, hfind⟩
    · cases h

theorem blockEnd_of_finallyEnd {method : String} {code : Bytes} {i : Instr} {stop : Nat}
    (h : finallyEnd method code i = .ok stop) : BlockEnd code stop (i.arg.toNat + 1) :=
  blockEnd_of_findFinallyEnd (finallyEnd_eq_ok h).2

-- The position `q` is noted next.
def NotesNext (q : Nat) (items : List (Item UInt16)) : Prop :=
  ∃ item rest, items = item :: rest ∧ (item = .mark q ∨ ∃ a b, item = .leave a b q)

-- The states of the class between the instructions of a body.
def Later (env : ClassEnv) (f : Frame) : OpenClass → OpenClass → Prop :=
  Relation.ReflTransGen fun c c' => ∃ i next slots fused its slots',
    Emits env f i next ⟨slots, c⟩ fused its ⟨slots', c'⟩

-- The states of lowering between them, with the slots of finally blocks.
def Onward (env : ClassEnv) (f : Frame) : EmitState → EmitState → Prop :=
  Relation.ReflTransGen fun e e' => ∃ i next fused its, Emits env f i next e fused its e'

theorem Onward.later {env : ClassEnv} {f : Frame} {e e' : EmitState} (h : Onward env f e e') :
    Later env f e.cls e'.cls :=
  h.lift EmitState.cls fun _ _ ⟨i, next, fused, its, hi⟩ => ⟨i, next, _, fused, its, _, hi⟩

-- What an instruction is told that stands before `pos`: that a conditional jump follows, if there is
-- one, and else that none does.
structure Follows (code : Bytes) (pos : Nat) (next : Following) : Prop where
  jump : ∀ j sense, Instr.decodeAt code pos = .ok j → Following.sense? j.op = some sense →
    next = .jump j.pos sense j.arg
  other : (∀ j, Instr.decodeAt code pos = .ok j → Following.sense? j.op = none) → next = .other

-- What follows the mark of the position `q` behind `before`, in a body that takes the class from
-- `first` to `last`: the items of an instruction; those of a comparison with the jump behind it; of
-- these the ones behind the mark of the jump; or a copy.
inductive Site (env : ClassEnv) (f : Frame) (code : Bytes) (first last : EmitState) (q : Nat) :
    List (Item UInt16) → List (Item UInt16) → Prop where
  | one {i : Instr} {next : Following} {e e₁ : EmitState} {before own more : List (Item UInt16)}
      (hi : Instr.decodeAt code q = .ok i) (hown : Emits env f i next e false own e₁)
      (hnext : Follows code (q + i.size) next) (hmore : NotesNext (q + i.size) more)
      (hfirst : Onward env f first e) (hlast : Onward env f e₁ last) :
      Site env f code first last q before (own ++ more)
  | fused {i j : Instr} {rest : List Instr} {e e₁ : EmitState}
      {before own more : List (Item UInt16)} (hi : Instr.decodeAt code q = .ok i)
      (hj : Instr.decodeAt code (q + i.size) = .ok j)
      (hown : Emits env f i (.ofRest (j :: rest) none) e true own e₁)
      (hmore : NotesNext (q + i.size + j.size) more) (hfirst : Onward env f first e)
      (hlast : Onward env f e₁ last) : Site env f code first last q before (own ++ more)
  | swallowed {p : Nat} {i j : Instr} {rest : List Instr} {e e₁ : EmitState}
      {before pre own more : List (Item UInt16)} (hi : Instr.decodeAt code p = .ok i)
      (hq : q = p + i.size) (hj : Instr.decodeAt code q = .ok j)
      (hown : Emits env f i (.ofRest (j :: rest) none) e true (pre ++ .mark q :: own) e₁)
      (hmore : NotesNext (q + j.size) more) :
      Site env f code first last q (before ++ .mark p :: pre) (own ++ more)
  | copy {i : Instr} {before more : List (Item UInt16)} (hi : Instr.decodeAt code q = .ok i)
      (hop : i.op = .jumpFinally) (hinline : env.config.finallyStrategy = .inline) :
      Site env f code first last q before (.enter :: more)

theorem Emission.onward {env : ClassEnv} {f : Frame} {code : Bytes} {e e' : EmitState}
    {instrs : List Instr} {its : List (Item UInt16)} (h : Emission env f code e instrs its e') :
    Onward env f e e' := by
  induction h with
  | nil => exact .refl
  | one hi _ ih => exact ih.head ⟨_, _, _, _, hi⟩
  | fused hi _ ih => exact ih.head ⟨_, _, _, _, hi⟩
  | copy _ _ _ _ _ _ ihbody ihrest => exact ihbody.trans ihrest

theorem Emission.later {env : ClassEnv} {f : Frame} {code : Bytes} {e e' : EmitState}
    {instrs : List Instr} {its : List (Item UInt16)} (h : Emission env f code e instrs its e') :
    Later env f e.cls e'.cls :=
  h.onward.later

theorem Site.weaken {env : ClassEnv} {f : Frame} {code : Bytes} {first first' last last' : EmitState}
    {q : Nat} {before items : List (Item UInt16)} (h : Site env f code first last q before items)
    (hfirst : Onward env f first' first) (hlast : Onward env f last last')
    (earlier : List (Item UInt16)) : Site env f code first' last' q (earlier ++ before) items := by
  cases h with
  | one hi hown hnext hmore hf hl =>
    exact .one hi hown hnext hmore (hfirst.trans hf) (hl.trans hlast)
  | fused hi hj hown hmore hf hl => exact .fused hi hj hown hmore (hfirst.trans hf) (hl.trans hlast)
  | swallowed hi hq hj hown hmore =>
    rw [← List.append_assoc]
    exact .swallowed hi hq hj hown hmore
  | copy hi hop hinline => exact .copy hi hop hinline

-- Instructions say what follows an instruction before them, if no conditional jump stands behind
-- them.
theorem Stream.follows {code : Bytes} {stop pos : Nat} {instrs : List Instr}
    (hs : Stream code stop pos instrs)
    (hend : ∀ j, Instr.decodeAt code (Stream.finish pos instrs) = .ok j →
      Following.sense? j.op = none) : Follows code pos (.ofRest instrs none) := by
  cases hs with
  | done _ =>
    refine ⟨?_, fun _ => rfl⟩
    intro j sense hj hsense
    rw [hend j hj] at hsense
    cases hsense
  | @step _ i _ _ hi _ =>
    refine ⟨?_, ?_⟩
    · intro j sense hj hsense
      rw [hj] at hi
      cases hi
      rw [Following.ofRest, hsense]
    · intro hother
      rw [Following.ofRest, hother i hi]

-- Behind the items of an instruction the rest of the body begins.
theorem Emission.notesNext {env : ClassEnv} {f : Frame} {code : Bytes} {e e' : EmitState}
    {instrs : List Instr} {its tail : List (Item UInt16)} {pos stop : Nat}
    (h : Emission env f code e instrs its e') (hs : Stream code stop pos instrs)
    (htail : NotesNext (Stream.finish pos instrs) tail) : NotesNext pos (its ++ tail) := by
  cases h with
  | nil => exact htail
  | one _ _ | fused _ _ | copy _ _ _ _ _ _ =>
    cases hs with
    | step _ hi _ => exact ⟨_, _, rfl, .inl (by rw [Instr.decodeAt_pos hi])⟩

-- One place in two lists behind each other is a place in one of them.
theorem append_eq_append_cons {α : Type} {xs ys pre post : List α} {x : α}
    (h : xs ++ ys = pre ++ x :: post) :
    (∃ post', xs = pre ++ x :: post' ∧ post = post' ++ ys) ∨
      ∃ pre', pre = xs ++ pre' ∧ ys = pre' ++ x :: post := by
  obtain ⟨as, hpre, hys⟩ | ⟨cs, hxs, hpost⟩ := List.append_eq_append_iff.mp h
  · exact .inr ⟨as, hpre, hys⟩
  · cases cs with
    | nil =>
      refine .inr ⟨[], ?_, ?_⟩
      · simpa using hxs.symm
      · simpa using hpost.symm
    | cons c cs =>
      rw [List.cons_append, List.cons.injEq] at hpost
      obtain ⟨rfl, rfl⟩ := hpost
      exact .inl ⟨cs, hxs, rfl⟩

-- Inert items, a jump and a switch hold no mark.
theorem Shape.mark_not_mem {i : Instr} {next : Following} {own : List (Item UInt16)}
    (h : Shape i next false own) (q : Nat) : .mark q ∉ own := by
  cases h with
  | branch hb =>
    rw [List.mem_singleton]
    unfold branchItem? at hb
    split at hb <;> cases hb <;> simp
  | inert _ hi =>
    intro hmem
    cases hi _ hmem

-- No instruction is lowered to the end of a copy.
theorem Shape.leave_not_mem {i : Instr} {next : Following} {fused : Bool}
    {own : List (Item UInt16)} (h : Shape i next fused own) (a b q : Nat) :
    .leave a b q ∉ own := by
  intro hmem
  cases h with
  | branch hb =>
    rw [List.mem_singleton] at hmem
    subst hmem
    unfold branchItem? at hb
    split at hb <;> cases hb
  | inert _ hi => cases hi _ hmem
  | fused _ _ hpre hbefore _ =>
    simp only [List.mem_append, List.mem_cons, List.not_mem_nil, or_false] at hmem
    obtain hmem | hmem | hmem | hmem := hmem
    · cases hpre _ hmem
    · cases hmem
    · cases hbefore _ hmem
    · cases hmem

-- A comparison with the jump behind it holds one mark, that of the jump.
theorem Shape.of_mark {i : Instr} {next : Following} {pre post : List (Item UInt16)} {q : Nat}
    (h : Shape i next true (pre ++ Item.mark q :: post)) :
    ∃ sense target before op, next = .jump q sense target ∧ Item.Inert pre ∧ Item.Inert before ∧
      post = before ++ [Item.jump .branch op target] := by
  generalize hown : pre ++ Item.mark q :: post = own at h
  cases h with
  | @fused pos sense target first before op hc hnext hpre hbefore hop =>
    obtain ⟨post', hpre', -⟩ | ⟨pre', rfl, hrest⟩ := append_eq_append_cons hown.symm
    · rw [hpre'] at hpre
      cases (Item.inert_cons.mp (Item.inert_append.mp hpre).2).1
    · cases pre' with
      | nil =>
        rw [List.nil_append, List.cons.injEq, Item.mark.injEq] at hrest
        obtain ⟨rfl, rfl⟩ := hrest
        exact ⟨sense, target, before, op, hnext, by simpa using hpre, hbefore, rfl⟩
      | cons x pre' =>
        rw [List.cons_append, List.cons.injEq] at hrest
        obtain ⟨post', hbefore', -⟩ | ⟨pre'', -, hjump⟩ := append_eq_append_cons hrest.2
        · rw [hbefore'] at hbefore
          cases (Item.inert_cons.mp (Item.inert_append.mp hbefore).2).1
        · cases pre'' with
          | nil => simp at hjump
          | cons y pre'' => simp at hjump

theorem Emission.site {env : ClassEnv} {f : Frame} {code : Bytes} {e e' : EmitState}
    {instrs : List Instr} {its pre post tail : List (Item UInt16)} {start stop q : Nat}
    (h : Emission env f code e instrs its e') (hs : Stream code stop start instrs)
    (htail : NotesNext (Stream.finish start instrs) tail)
    (hend : ∀ j, Instr.decodeAt code (Stream.finish start instrs) = .ok j →
      Following.sense? j.op = none)
    (hsplit : its = pre ++ Item.mark q :: post) :
    Site env f code e e' q pre (post ++ tail) := by
  induction h generalizing pre post tail start stop with
  | nil => simp at hsplit
  | @one e e₁ e₂ i rest own more hi hrest ih =>
    cases hs with
    | step _ hd hs' =>
      have hpos := Instr.decodeAt_pos hd
      cases pre with
      | nil =>
        rw [List.nil_append, List.cons.injEq, Item.mark.injEq] at hsplit
        obtain ⟨rfl, rfl⟩ := hsplit
        rw [List.append_assoc]
        subst hpos
        exact .one hd hi (Stream.follows hs' hend) (hrest.notesNext hs' htail) .refl hrest.onward
      | cons x pre =>
        rw [List.cons_append, List.cons.injEq] at hsplit
        obtain ⟨post', hown, -⟩ | ⟨pre', rfl, hmore⟩ := append_eq_append_cons hsplit.2
        · have hmem : Item.mark q ∈ own := by simp [hown]
          exact absurd hmem (hi.shape.mark_not_mem q)
        · exact (ih hs' htail hend hmore).weaken (.single ⟨_, _, _, _, hi⟩) .refl (x :: own)
  | @fused e e₁ e₂ i j rest own more hi hrest ih =>
    cases hs with
    | step _ hd hs =>
      cases hs with
      | step _ hj hs' =>
        have hpos := Instr.decodeAt_pos hd
        have hjpos := Instr.decodeAt_pos hj
        cases pre with
        | nil =>
          rw [List.nil_append, List.cons.injEq, Item.mark.injEq] at hsplit
          obtain ⟨rfl, rfl⟩ := hsplit
          rw [List.append_assoc]
          subst hpos
          exact .fused hd hj hi (hrest.notesNext hs' htail) .refl hrest.onward
        | cons x pre =>
          rw [List.cons_append, List.cons.injEq] at hsplit
          obtain ⟨rfl, hsplit⟩ := hsplit
          obtain ⟨post', hown, rfl⟩ | ⟨pre', rfl, hmore⟩ := append_eq_append_cons hsplit
          · -- The mark among the items of the comparison is that of the jump.
            subst hown
            obtain ⟨sense, target, before, op, hnext, -, -, -⟩ := hi.shape.of_mark
            obtain ⟨j', rest', hj', hq, -, -⟩ := ofRest_eq_jump hnext
            cases hj'
            rw [List.append_assoc]
            have hq : q = start + i.size := hq.trans hjpos
            subst hq hpos
            change Site env f code e e₂ _ ([] ++ Item.mark i.pos :: pre) _
            exact .swallowed hd rfl hj hi (hrest.notesNext hs' htail)
          · exact (ih hs' htail hend hmore).weaken (.single ⟨_, _, _, _, hi⟩) .refl
              (.mark i.pos :: own)
  | @copy e e₁ e₂ i rest inner stop' body more hop hinline hstop hinner hbody hrest ihbody ihrest =>
    cases hs with
    | step _ hd hs' =>
      have hpos := Instr.decodeAt_pos hd
      cases pre with
      | nil =>
        rw [List.nil_append, List.cons.injEq, Item.mark.injEq] at hsplit
        obtain ⟨rfl, rfl⟩ := hsplit
        subst hpos
        exact .copy hd hop hinline
      | cons x pre =>
        rw [List.cons_append, List.cons.injEq] at hsplit
        cases pre with
        | nil => simp at hsplit
        | cons y pre =>
          rw [List.cons_append, List.cons.injEq] at hsplit
          have hblock := blockEnd_of_finallyEnd hstop
          obtain ⟨post', hbody', rfl⟩ | ⟨pre', rfl, hmore⟩ := append_eq_append_cons hsplit.2.2
          · rw [List.append_assoc]
            have hfinish := hblock.finish inner hinner
            refine (ihbody hinner ?_ ?_ hbody').weaken .refl hrest.onward [x, y]
            · exact ⟨_, _, rfl, .inr ⟨_, _, by rw [hfinish]⟩⟩
            · intro j hj
              obtain ⟨last, hlast, hop⟩ := hblock.finallyEnd
              rw [hfinish, hlast] at hj
              cases hj
              rw [hop]
              rfl
          · cases pre' with
            | nil => simp at hmore
            | cons z pre' =>
              rw [List.cons_append, List.cons.injEq] at hmore
              have hsite := (ihrest hs' htail hend hmore.2).weaken hbody.onward .refl
                (x :: y :: body ++ [z])
              simpa using hsite

-- The scope `s` keeps the note of `q` from a layout inside `l`, up to the layout `l'`: it is the scope
-- that is open in `l` or one that was opened since.
structure Kept (l l' : Layout) (lo hi s q java : Nat) : Prop where
  note : l'.reloc.getLocal s q = some java
  scope_lt : s < l'.reloc.scopes.size
  cases : s = l.scope ∧ lo ≤ q ∧ q < hi ∨ l.reloc.scopes.size ≤ s

-- A position that is not noted again stays where it is.
theorem Marked.kept {l l' : Layout} {ps : List (Nat × Nat)} {q : Nat} (h : Marked l l' ps)
    (hq : q ∉ ps.map Prod.fst) : l'.reloc.getLocal l.scope q = l.reloc.getLocal l.scope q := by
  rw [h.own, noted_of_not_mem hq]

theorem Stream.not_mem {code : Bytes} {stop pos q : Nat} {instrs : List Instr}
    (h : Stream code stop pos instrs) (hq : q < pos) : q ∉ instrs.map Instr.pos := by
  intro hmem
  obtain ⟨i, hi, rfl⟩ := List.mem_map.mp hmem
  have := (h.decodeAt_of_mem hi).2.1
  omega

-- The mark of an instruction holds until the end of the body.
theorem Kept.mark {l l' : Layout} {ps : List (Nat × Nat)} {size start stop q : Nat}
    (hv : l.Valid size) (hq : q < size) (hstart : start ≤ q) (hstop : q < stop)
    (h : Marked (l.put (.mark q)) l' ps) (hps : q ∉ ps.map Prod.fst) :
    Kept l l' start stop l.scope q l.out.pos where
  note := by
    have hkept := h.kept hps
    rw [(Marked.mark hv (Nat.le_of_lt hq)).scope] at hkept
    rw [hkept, (Marked.mark hv (Nat.le_of_lt hq)).own]
    simp [noted]
  scope_lt := by
    have := hv.scope_lt
    have := (Marked.mark hv (Nat.le_of_lt hq)).grow
    have := h.grow
    omega
  cases := .inl ⟨rfl, hstart, hstop⟩

-- What holds behind some of the items holds of all of them.
theorem Kept.of_marked {l l₁ l' : Layout} {ps : List (Nat × Nat)} {lo lo' hi s q java : Nat}
    (h : Kept l₁ l' lo' hi s q java) (hm : Marked l l₁ ps) (hlo : lo ≤ lo') :
    Kept l l' lo hi s q java where
  note := h.note
  scope_lt := h.scope_lt
  cases := by
    have := hm.grow
    obtain ⟨hs, hq, hhi⟩ | hs := h.cases
    · exact .inl ⟨hs.trans hm.scope, by omega, hhi⟩
    · exact .inr (by omega)

-- What a copy knows stays as it is behind the copy.
theorem Marked.copy_note {l l' : Layout} {body : List (Item UInt16)} {ps qs : List (Nat × Nat)}
    {size a b stop s q : Nat} (hv : l.Valid size)
    (hbody : Marked l.enter (l.enter.puts body) qs)
    (hrest : Marked ((l.enter.puts body).put (.leave a b stop)) l' ps)
    (hs : l.reloc.scopes.size ≤ s) (hlt : s < (l.enter.puts body).reloc.scopes.size) :
    s < l'.reloc.scopes.size ∧ l'.reloc.getLocal s q =
      ((l.enter.puts body).reloc.record l.reloc.scopes.size stop
        (l.enter.puts body).out.pos).getLocal s q := by
  have houter : (l.enter.puts body).outer = (l.scope, l.out.pos) :: l.outer := hbody.outer
  have hscope : (l.enter.puts body).scope = l.reloc.scopes.size := hbody.scope
  have hopen := hv.scope_lt
  rw [Layout.put_leave, Layout.leave, houter] at hrest
  have hsize := hrest.grow
  simp only [Relocation.size_closeScope, Relocation.size_record] at hsize
  refine ⟨by omega, ?_⟩
  rw [hrest.others s (by simpa using hlt) (by simp only [ne_eq]; omega),
    Relocation.getLocal_closeScope, hscope]

-- The mark of the jump that a comparison takes with it stands behind inert items, and holds as long.
theorem Kept.jump {i : Instr} {next : Following} {l l' : Layout} {pre post : List (Item UInt16)}
    {ps : List (Nat × Nat)} {size lo hi q : Nat} (h : Shape i next true (pre ++ .mark q :: post))
    (hv : l.Valid size) (hq : q < size) (hlo : lo ≤ q) (hhi : q < hi)
    (hrest : Marked (l.puts (pre ++ .mark q :: post)) l' ps) (hps : q ∉ ps.map Prod.fst) :
    Kept l l' lo hi (l.puts pre).scope q (l.puts pre).out.pos := by
  obtain ⟨sense, target, before, op, -, hpre, hbefore, rfl⟩ := h.of_mark
  have hpre := Marked.inert hpre l
  have hbefore := Marked.inert hbefore ((l.puts pre).put (.mark q))
  have hjump := Marked.jump (((l.puts pre).put (.mark q)).puts before) .branch op target
  rw [Layout.puts_append, Layout.puts_cons, Layout.puts_append] at hrest
  have hkept := Kept.mark (hv.puts pre) hq hlo hhi ((hbefore.trans hjump).trans hrest) hps
  exact hkept.of_marked hpre (Nat.le_refl _)

-- What is kept inside a copy is kept behind it: its end notes another position, or another scope.
theorem Kept.in_copy {l l' : Layout} {body : List (Item UInt16)} {ps qs : List (Nat × Nat)}
    {size a b stop lo lo' hi s q java : Nat} (h : Kept l.enter (l.enter.puts body) lo stop s q java)
    (hv : l.Valid size) (hbody : Marked l.enter (l.enter.puts body) qs)
    (hrest : Marked ((l.enter.puts body).put (.leave a b stop)) l' ps) :
    Kept l l' lo' hi s q java := by
  have hscope : l.enter.scope = l.reloc.scopes.size := rfl
  have hscopes : l.enter.reloc.scopes.size = l.reloc.scopes.size + 1 := by simp [Layout.enter]
  have hcases := h.cases
  obtain ⟨hlt, hnote⟩ := hbody.copy_note (q := q) hv hrest (by omega) h.scope_lt
  rw [Relocation.getLocal_record_of_ne (by omega), h.note] at hnote
  exact ⟨hnote, hlt, .inr (by omega)⟩

-- The scope of a copy keeps the note of its end.
theorem Kept.leave {l l' : Layout} {body : List (Item UInt16)} {ps qs : List (Nat × Nat)}
    {size a b stop lo hi : Nat} (hv : l.Valid size) (hstop : stop ≤ size)
    (hbody : Marked l.enter (l.enter.puts body) qs)
    (hrest : Marked ((l.enter.puts body).put (.leave a b stop)) l' ps) :
    Kept l l' lo hi (l.enter.puts body).scope stop (l.enter.puts body).out.pos := by
  have hvbody := hv.enter.puts body
  have hscope : (l.enter.puts body).scope = l.reloc.scopes.size := hbody.scope
  have hlt := hvbody.scope_lt
  rw [hscope] at hlt ⊢
  obtain ⟨hlt', hnote⟩ := hbody.copy_note (q := stop) hv hrest (Nat.le_refl _) hlt
  rw [Relocation.getLocal_record hvbody.full hlt (by rw [hvbody.size_eq]; omega),
    if_pos ⟨rfl, rfl⟩] at hnote
  exact ⟨hnote, hlt', .inr (Nat.le_refl _)⟩

-- A scope keeps what a mark or the end of a copy notes in it.
theorem Emission.kept {env : ClassEnv} {f : Frame} {code : Bytes} {e e' : EmitState}
    {instrs : List Instr} {its pre post : List (Item UInt16)} {item : Item UInt16}
    {start stop q : Nat} {l : Layout} (h : Emission env f code e instrs its e')
    (hs : Stream code stop start instrs) (hv : l.Valid code.size)
    (hsplit : its = pre ++ item :: post) (hitem : item = .mark q ∨ ∃ a b, item = .leave a b q) :
    Kept l (l.puts its) start stop (l.puts pre).scope q (l.puts pre).out.pos := by
  induction h generalizing pre post start stop l with
  | nil => simp at hsplit
  | @one e e₁ e₂ i rest own more hi hrest ih =>
    cases hs with
    | step hlt hd hs' =>
      have hpos := Instr.decodeAt_pos hd
      have hsize := Instr.decodeAt_size_le hd
      have hsize' := i.size_pos
      subst hpos
      have hv₁ := hv.put (.mark i.pos)
      have hown := hi.shape.marked (l.put (.mark i.pos))
      obtain ⟨ps, hps, hps'⟩ := hrest.marked hs' (hv₁.puts own)
      rw [Layout.puts_cons, Layout.puts_append]
      cases pre with
      | nil =>
        rw [List.nil_append, List.cons.injEq] at hsplit
        obtain ⟨rfl, rfl⟩ := hsplit
        obtain hitem | ⟨a, b, hitem⟩ := hitem <;> cases hitem
        refine Kept.mark hv (by omega) (Nat.le_refl _) hlt (hown.trans hps) ?_
        rw [List.nil_append, hps']
        exact Stream.not_mem hs' (by omega)
      | cons x pre =>
        rw [List.cons_append, List.cons.injEq] at hsplit
        obtain ⟨rfl, hsplit⟩ := hsplit
        obtain ⟨post', rfl, -⟩ | ⟨pre', rfl, hmore⟩ := append_eq_append_cons hsplit
        · obtain rfl | ⟨a, b, rfl⟩ := hitem
          · exact absurd (by simp) (hi.shape.mark_not_mem q)
          · exact absurd (by simp) (hi.shape.leave_not_mem a b q)
        · have hkept := ih hs' (hv₁.puts own) hmore
          rw [Layout.puts_cons, Layout.puts_append]
          refine hkept.of_marked ((Marked.mark hv ?_).trans hown) ?_ <;> omega
  | @fused e e₁ e₂ i j rest own more hi hrest ih =>
    cases hs with
    | step hlt hd hs =>
      cases hs with
      | step hltj hj hs' =>
        have hpos := Instr.decodeAt_pos hd
        have hjpos := Instr.decodeAt_pos hj
        have hsize := Instr.decodeAt_size_le hd
        have hjsize := Instr.decodeAt_size_le hj
        have hisize := i.size_pos
        have hjsize' := j.size_pos
        subst hpos
        have hv₁ := hv.put (.mark i.pos)
        have hmark := Marked.mark hv (by omega : i.pos ≤ code.size)
        obtain ⟨java, hown⟩ := hi.shape.marked_fused hv₁ (by omega)
        obtain ⟨ps, hps, hps'⟩ := hrest.marked hs' (hv₁.puts own)
        rw [Layout.puts_cons, Layout.puts_append]
        cases pre with
        | nil =>
          rw [List.nil_append, List.cons.injEq] at hsplit
          obtain ⟨rfl, rfl⟩ := hsplit
          obtain hitem | ⟨a, b, hitem⟩ := hitem <;> cases hitem
          refine Kept.mark hv (by omega) (Nat.le_refl _) hlt (hown.trans hps) ?_
          rw [List.map_append, hps', List.mem_append, not_or]
          refine ⟨?_, Stream.not_mem hs' (by omega)⟩
          simp
          omega
        | cons x pre =>
          rw [List.cons_append, List.cons.injEq] at hsplit
          obtain ⟨rfl, hsplit⟩ := hsplit
          obtain ⟨post', rfl, -⟩ | ⟨pre', rfl, hmore⟩ := append_eq_append_cons hsplit
          · obtain rfl | ⟨a, b, rfl⟩ := hitem
            · obtain ⟨sense, target, -, -, hnext, -, -, -⟩ := hi.shape.of_mark
              obtain ⟨j', rest', hj', hq, -, -⟩ := ofRest_eq_jump hnext
              cases hj'
              have hlater : q ∉ ps.map Prod.fst := by
                rw [hps']
                exact Stream.not_mem hs' (by omega)
              have hkept := Kept.jump hi.shape hv₁ (by omega) (by omega : i.pos ≤ q)
                (by omega : q < stop) hps hlater
              rw [Layout.puts_cons]
              exact hkept.of_marked hmark (Nat.le_refl _)
            · exact absurd (by simp) (hi.shape.leave_not_mem a b q)
          · have hkept := ih hs' (hv₁.puts own) hmore
            rw [Layout.puts_cons, Layout.puts_append]
            exact hkept.of_marked (hmark.trans hown) (by omega)
  | @copy e e₁ e₂ i rest inner stop' body more hop hinline hstop hinner hbody hrest ihbody ihrest =>
    cases hs with
    | step hlt hd hs' =>
      have hpos := Instr.decodeAt_pos hd
      have hsize := Instr.decodeAt_size_le hd
      have hisize := i.size_pos
      subst hpos
      have hv₁ := hv.put (.mark i.pos)
      have hmark := Marked.mark hv (by omega : i.pos ≤ code.size)
      obtain ⟨qs, hqs, -⟩ := hbody.marked hinner hv₁.enter
      have hcopy := hqs.copy hv₁ i.pos i.arg.toNat stop'
      have hvcopy := (hv₁.enter.puts body).put (.leave i.pos i.arg.toNat stop')
      obtain ⟨ps, hps, hps'⟩ := hrest.marked hs' hvcopy
      rw [Layout.puts_cons, Layout.puts_cons, Layout.puts_append, Layout.puts_cons]
      cases pre with
      | nil =>
        rw [List.nil_append, List.cons.injEq] at hsplit
        obtain ⟨rfl, rfl⟩ := hsplit
        obtain hitem | ⟨a, b, hitem⟩ := hitem <;> cases hitem
        refine Kept.mark hv (by omega) (Nat.le_refl _) hlt (hcopy.trans hps) ?_
        rw [List.nil_append, hps']
        exact Stream.not_mem hs' (by omega)
      | cons x pre =>
        rw [List.cons_append, List.cons.injEq] at hsplit
        obtain ⟨rfl, hsplit⟩ := hsplit
        cases pre with
        | nil =>
          rw [List.nil_append, List.cons.injEq] at hsplit
          obtain ⟨rfl, -⟩ := hsplit
          obtain hitem | ⟨a, b, hitem⟩ := hitem <;> cases hitem
        | cons x pre =>
          rw [List.cons_append, List.cons.injEq] at hsplit
          obtain ⟨rfl, hsplit⟩ := hsplit
          rw [Layout.puts_cons, Layout.puts_cons]
          obtain ⟨post', hbody', -⟩ | ⟨pre', rfl, hmore⟩ := append_eq_append_cons hsplit
          · have hkept := ihbody hinner hv₁.enter hbody'
            exact (hkept.in_copy hv₁ hqs hps).of_marked hmark (Nat.le_refl _)
          · cases pre' with
            | nil =>
              rw [List.nil_append, List.cons.injEq] at hmore
              obtain ⟨rfl, -⟩ := hmore
              obtain hitem | ⟨a, b, hitem⟩ := hitem <;> cases hitem
              obtain ⟨last, hlast, -⟩ := (blockEnd_of_finallyEnd hstop).finallyEnd
              have hlast := Instr.decodeAt_size_le hlast
              rw [List.append_nil]
              exact (Kept.leave hv₁ (by omega) hqs hps).of_marked hmark (Nat.le_refl _)
            | cons y pre' =>
              rw [List.cons_append, List.cons.injEq] at hmore
              obtain ⟨rfl, hmore⟩ := hmore
              have hkept := ihrest hs' hvcopy hmore
              rw [Layout.puts_append, Layout.puts_cons]
              exact hkept.of_marked (hmark.trans hcopy) (by omega)

end PodCompiler.Lowering
