import PodCompiler.Proofs.Lowering.Repetition

namespace PodCompiler.Lowering

open Instr (Stream)

-- How many finally blocks are begun behind instructions before which `depth` are. No block may end
-- that was not begun.
def openBlocks : Nat → List Instr → Option Nat
  | depth, [] => some depth
  | depth, i :: rest =>
    match i.op, depth with
    | .finallyStart, depth => openBlocks (depth + 1) rest
    | .finallyEnd, 0 => none
    | .finallyEnd, depth + 1 => openBlocks depth rest
    | _, depth => openBlocks depth rest

theorem openBlocks_finallyStart {depth : Nat} {i : Instr} {rest : List Instr}
    (hop : i.op = .finallyStart) :
    openBlocks depth (i :: rest) = openBlocks (depth + 1) rest := by
  simp [openBlocks, hop]

theorem openBlocks_finallyEnd {depth : Nat} {i : Instr} {rest : List Instr}
    (hop : i.op = .finallyEnd) :
    openBlocks (depth + 1) (i :: rest) = openBlocks depth rest := by
  simp [openBlocks, hop]

theorem openBlocks_of_ne {depth : Nat} {i : Instr} {rest : List Instr}
    (hstart : i.op ≠ .finallyStart) (hend : i.op ≠ .finallyEnd) :
    openBlocks depth (i :: rest) = openBlocks depth rest := by
  conv_lhs => unfold openBlocks
  split <;> simp_all

-- A stream up to the end of a block goes through the instruction that the search looks at.
theorem Stream.of_blockEnd {code : Bytes} {pos stop : Nat} {i : Instr} {instrs : List Instr}
    (hi : Instr.decodeAt code pos = .ok i) (h : BlockEnd code stop (pos + i.size))
    (hs : Stream code stop pos instrs) :
    ∃ rest, instrs = i :: rest ∧ Stream code stop (pos + i.size) rest := by
  have hle := h.le
  have hsize := i.size_pos
  cases hs with
  | done hdone => omega
  | step _ hj hrest =>
    rw [hi] at hj
    cases hj
    exact ⟨_, rfl, hrest⟩

-- The search for the end of a block counts the blocks that it goes through.
theorem openBlocks_of_findFinallyEnd {code : Bytes} {depth pos stop : Nat} {instrs : List Instr}
    (h : Instr.findFinallyEnd code depth pos = .ok (some stop)) (hs : Stream code stop pos instrs) :
    openBlocks depth instrs = some 0 := by
  fun_induction Instr.findFinallyEnd code depth pos generalizing instrs with
  | case1 => cases h
  | case2 pos hlt i hi _ _ hop ih =>
    obtain ⟨rest, rfl, hrest⟩ := Stream.of_blockEnd hi (blockEnd_of_findFinallyEnd h) hs
    rw [openBlocks_finallyStart hop]
    exact ih h hrest
  | case3 pos hlt i hi _ hop =>
    cases h
    cases hs with
    | done _ => rfl
    | step hlt' _ _ => omega
  | case4 pos hlt i hi _ d hop ih =>
    obtain ⟨rest, rfl, hrest⟩ := Stream.of_blockEnd hi (blockEnd_of_findFinallyEnd h) hs
    rw [openBlocks_finallyEnd hop]
    exact ih h hrest
  | case5 pos hlt i hi _ depth hstart hend hend' ih =>
    obtain ⟨rest, rfl, hrest⟩ := Stream.of_blockEnd hi (blockEnd_of_findFinallyEnd h) hs
    have hne : i.op ≠ .finallyEnd := by
      intro hop
      cases depth with
      | zero => exact hend hop rfl
      | succ d => exact hend' d hop rfl
    rw [openBlocks_of_ne hstart hne]
    exact ih h hrest
  | case6 => cases h

-- What is lowered with a comparison is a conditional jump.
theorem Emits.sense {env : ClassEnv} {f : Frame} {i j : Instr} {rest : List Instr} {e e' : EmitState}
    {its : List (Item UInt16)} (h : Emits env f i (.ofRest (j :: rest) none) e true its e') :
    ∃ sense, Following.sense? j.op = some sense := by
  cases h.shape with
  | fused _ hnext _ _ _ =>
    obtain ⟨j', rest', hj, -, -, hsense⟩ := ofRest_eq_jump hnext
    cases hj
    exact ⟨_, hsense⟩

section Agree

variable {env : ClassEnv} {f : Frame} {code : Bytes} {e e' d d' ω : EmitState}
  {begun base base' : List Nat} {depth : Nat}

-- One instruction, lowered twice. Behind `base` and `base'` the same blocks are begun.
theorem Emits.agree {i : Instr} {next : Following} {rest : List Instr} {fused fused' : Bool}
    {its its' : List (Item UInt16)} (h : Emits env f i next e fused its e')
    (h' : Emits env f i next d fused' its' d') (hinline : env.config.finallyStrategy = .inline)
    (hω : e'.Below ω) (hω' : d'.Below ω)
    (hopen : openBlocks begun.length (i :: rest) = some depth)
    (hp : e.slots.pending = begun ++ base) (hp' : d.slots.pending = begun ++ base') :
    fused = fused' ∧ its = its' ∧ ∃ begun', openBlocks begun'.length rest = some depth ∧
      e'.slots.pending = begun' ++ base ∧ d'.slots.pending = begun' ++ base' := by
  have hslot : ∀ {pos : Nat} {slot slot' : UInt16}, e'.slots.exceptions[pos]? = some slot →
      d'.slots.exceptions[pos]? = some slot' → slot = slot' := by
    intro pos slot slot' hs hs'
    have hsame := hω.exceptions pos slot hs
    rw [hω'.exceptions pos slot' hs'] at hsame
    exact (Option.some.inj hsame).symm
  by_cases hstart : i.op = .finallyStart
  · obtain ⟨rfl, hpending, -, slot, hs, rfl⟩ := h.finallyStart hstart hinline
    obtain ⟨rfl, hpending', -, slot', hs', rfl⟩ := h'.finallyStart hstart hinline
    rw [hslot hs hs']
    refine ⟨rfl, rfl, i.pos :: begun, ?_, by rw [hpending, hp]; rfl, by rw [hpending', hp']; rfl⟩
    rwa [openBlocks_finallyStart hstart] at hopen
  by_cases hend : i.op = .finallyEnd
  · obtain ⟨rfl, -, pos, slot, hpending, hs, rfl⟩ := h.finallyEnd hend hinline
    obtain ⟨rfl, -, pos', slot', hpending', hs', rfl⟩ := h'.finallyEnd hend hinline
    cases begun with
    | nil =>
      simp [openBlocks, hend] at hopen
    | cons b begun =>
      rw [hp, List.cons_append, List.cons.injEq] at hpending
      rw [hp', List.cons_append, List.cons.injEq] at hpending'
      obtain ⟨rfl, hpending⟩ := hpending
      obtain ⟨rfl, hpending'⟩ := hpending'
      rw [hslot hs hs']
      refine ⟨rfl, rfl, begun, ?_, hpending.symm, hpending'.symm⟩
      rwa [List.length_cons, openBlocks_finallyEnd hend] at hopen
  · obtain ⟨hslots, -, hagain⟩ := h.steady (h.op_ne hinline) hstart hend
    obtain ⟨hslots', -, hagain'⟩ := h'.steady (h.op_ne hinline) hstart hend
    obtain ⟨cls, hrun⟩ := hagain ω hω.cls
    obtain ⟨cls', hrun'⟩ := hagain' ω hω'.cls
    unfold Emits at hrun hrun'
    rw [hrun] at hrun'
    simp only [EStateM.Result.ok.injEq, Prod.mk.injEq, BodyState.mk.injEq, and_true] at hrun'
    obtain ⟨⟨hfused, hits⟩, -⟩ := hrun'
    refine ⟨hfused, by simpa using congrArg Array.toList hits, begun, ?_, ?_, ?_⟩
    · rwa [openBlocks_of_ne hstart hend] at hopen
    · rw [hslots, hp]
    · rw [hslots', hp']

-- A run of instructions, lowered twice.
theorem Emission.agree {instrs : List Instr} {its its' : List (Item UInt16)}
    (h : Emission env f code e instrs its e') (h' : Emission env f code d instrs its' d')
    (hinline : env.config.finallyStrategy = .inline) (hω : e'.Below ω) (hω' : d'.Below ω)
    (hopen : openBlocks begun.length instrs = some depth)
    (hp : e.slots.pending = begun ++ base) (hp' : d.slots.pending = begun ++ base') :
    its = its' ∧ ∃ begun', begun'.length = depth ∧ e'.slots.pending = begun' ++ base ∧
      d'.slots.pending = begun' ++ base' := by
  induction h generalizing d d' its' begun base base' depth with
  | nil =>
    cases h'
    exact ⟨rfl, begun, Option.some.inj hopen, hp, hp'⟩
  | @one e e₁ e₂ i rest own more hi hrest ih =>
    have hω₁ := (hrest.onward.below hinline).trans hω
    cases h' with
    | @one _ d₁ _ _ _ own' more' hi' hrest' =>
      obtain ⟨-, rfl, begun', hopen', hq, hq'⟩ :=
        hi.agree hi' hinline hω₁ ((hrest'.onward.below hinline).trans hω') hopen hp hp'
      obtain ⟨rfl, hbehind⟩ := ih hrest' hω hω' hopen' hq hq'
      exact ⟨rfl, hbehind⟩
    | fused hi' hrest' =>
      obtain ⟨hfused, -⟩ :=
        hi.agree hi' hinline hω₁ ((hrest'.onward.below hinline).trans hω') hopen hp hp'
      cases hfused
    | copy hop => exact absurd hop (hi.op_ne hinline)
  | @fused e e₁ e₂ i j rest own more hi hrest ih =>
    have hω₁ := (hrest.onward.below hinline).trans hω
    cases h' with
    | one hi' hrest' =>
      obtain ⟨hfused, -⟩ :=
        hi.agree hi' hinline hω₁ ((hrest'.onward.below hinline).trans hω') hopen hp hp'
      cases hfused
    | @fused _ d₁ _ _ _ _ own' more' hi' hrest' =>
      obtain ⟨-, rfl, begun', hopen', hq, hq'⟩ :=
        hi.agree hi' hinline hω₁ ((hrest'.onward.below hinline).trans hω') hopen hp hp'
      -- The jump behind a comparison is no part of a finally block.
      have hjump : openBlocks begun'.length rest = some depth := by
        obtain ⟨sense, hsense⟩ := hi.sense
        rwa [openBlocks_of_ne] at hopen' <;> rintro hop <;> rw [hop] at hsense <;> cases hsense
      obtain ⟨rfl, hbehind⟩ := ih hrest' hω hω' hjump hq hq'
      exact ⟨rfl, hbehind⟩
    | copy hop => exact absurd hop (hi.op_ne hinline)
  | @copy e e₁ e₂ i rest inner stop body more hop hstrategy hstop hinner hbody hrest ihbody ihrest =>
    cases h' with
    | one hi' => exact absurd hop (hi'.op_ne hinline)
    | fused hi' => exact absurd hop (hi'.op_ne hinline)
    | @copy _ d₁ _ _ _ inner' stop' body' more' _ _ hstop' hinner' hbody' hrest' =>
      rw [hstop, Except.ok.injEq] at hstop'
      subst hstop'
      obtain rfl := Stream.unique hinner hinner'
      -- Inside the copy nothing is looked at that was begun before.
      have hblock : openBlocks ([] : List Nat).length inner = some 0 :=
        openBlocks_of_findFinallyEnd (finallyEnd_eq_ok hstop).2 hinner
      obtain ⟨rfl, closed, hclosed, hq, hq'⟩ :=
        ihbody hbody' ((hrest.onward.below hinline).trans hω)
          ((hrest'.onward.below hinline).trans hω') hblock hp hp'
      obtain rfl := List.eq_nil_of_length_eq_zero hclosed
      have hjump : openBlocks begun.length rest = some depth := by
        rwa [openBlocks_of_ne (by simp [hop]) (by simp [hop])] at hopen
      obtain ⟨rfl, hbehind⟩ := ihrest hrest' hω hω' hjump hq hq'
      exact ⟨rfl, hbehind⟩

-- The same for a run that ends all blocks that it begins: it leaves those before it.
theorem Emission.agree_of_closed {instrs : List Instr} {its its' : List (Item UInt16)}
    (h : Emission env f code e instrs its e') (h' : Emission env f code d instrs its' d')
    (hinline : env.config.finallyStrategy = .inline) (hω : e'.Below ω) (hω' : d'.Below ω)
    (hopen : openBlocks 0 instrs = some 0) :
    its = its' ∧ e'.slots.pending = e.slots.pending := by
  have hblock : openBlocks ([] : List Nat).length instrs = some 0 := hopen
  obtain ⟨hits, closed, hclosed, hq, -⟩ := h.agree h' hinline hω hω' hblock rfl rfl
  obtain rfl := List.eq_nil_of_length_eq_zero hclosed
  exact ⟨hits, hq⟩

end Agree

section Split

variable {env : ClassEnv} {f : Frame} {code : Bytes} {e e' : EmitState}

-- What follows an instruction does not depend on what is behind, if that is no conditional jump.
theorem ofRest_append {xs ys : List Instr} {y : Instr} (hy : Following.sense? y.op = none) :
    Following.ofRest (xs ++ y :: ys) none = Following.ofRest xs none := by
  cases xs with
  | nil =>
    rw [List.nil_append, Following.ofRest, hy]
    rfl
  | cons x xs => rfl

-- A derivation is cut before an instruction that is no conditional jump.
theorem Emission.split {xs ys : List Instr} {y : Instr} {its : List (Item UInt16)}
    (h : Emission env f code e (xs ++ y :: ys) its e') (hy : Following.sense? y.op = none) :
    ∃ own more e₁, its = own ++ more ∧ Emission env f code e xs own e₁ ∧
      Emission env f code e₁ (y :: ys) more e' := by
  generalize hinstrs : xs ++ y :: ys = instrs at h
  induction h generalizing xs with
  | nil => simp at hinstrs
  | @one e e₁ e₂ i rest its more hi hrest ih =>
    cases xs with
    | nil =>
      cases hinstrs
      exact ⟨[], _, e, rfl, .nil, .one hi hrest⟩
    | cons x xs =>
      rw [List.cons_append, List.cons.injEq] at hinstrs
      obtain ⟨rfl, hrest'⟩ := hinstrs
      obtain ⟨own, more', e₃, rfl, hown, hmore⟩ := ih hrest'
      rw [← hrest', ofRest_append hy] at hi
      exact ⟨_, more', e₃, by simp, .one hi hown, hmore⟩
  | @fused e e₁ e₂ i j rest its more hi hrest ih =>
    match xs with
    | [] =>
      cases hinstrs
      exact ⟨[], _, e, rfl, .nil, .fused hi hrest⟩
    | [x] =>
      -- The jump behind a comparison is a conditional one.
      cases hinstrs
      obtain ⟨sense, hsense⟩ := hi.sense
      rw [hy] at hsense
      cases hsense
    | x :: x' :: xs =>
      rw [List.cons_append, List.cons.injEq, List.cons_append, List.cons.injEq] at hinstrs
      obtain ⟨rfl, rfl, hrest'⟩ := hinstrs
      obtain ⟨own, more', e₃, rfl, hown, hmore⟩ := ih hrest'
      have hi' : Emits env f x (.ofRest (x' :: xs) none) e true its e₁ := hi
      exact ⟨_, more', e₃, by simp, .fused hi' hown, hmore⟩
  | @copy e e₁ e₂ i rest inner stop body more hop hstrategy hstop hinner hbody hrest _ ihrest =>
    cases xs with
    | nil =>
      cases hinstrs
      exact ⟨[], _, e, rfl, .nil, .copy hop hstrategy hstop hinner hbody hrest⟩
    | cons x xs =>
      rw [List.cons_append, List.cons.injEq] at hinstrs
      obtain ⟨rfl, hrest'⟩ := hinstrs
      obtain ⟨own, more', e₃, rfl, hown, hmore⟩ := ihrest hrest'
      exact ⟨_, more', e₃, by simp, .copy hop hstrategy hstop hinner hbody hown, hmore⟩

-- What is neither a comparison nor a copy stands there alone.
theorem Emission.split_one {xs ys : List Instr} {y : Instr} {its : List (Item UInt16)}
    (h : Emission env f code e (xs ++ y :: ys) its e') (hy : Following.sense? y.op = none)
    (hc : isComparison y.op = false)
    (hcopy : y.op ≠ .jumpFinally ∨ env.config.finallyStrategy = .subroutine) :
    ∃ before first more e₁ e₂, its = before ++ .mark y.pos :: (first ++ more) ∧
      Emission env f code e xs before e₁ ∧ Emits env f y (.ofRest ys none) e₁ false first e₂ ∧
      Emission env f code e₂ ys more e' := by
  obtain ⟨before, rest, e₁, rfl, hbefore, hrest⟩ := h.split hy
  cases hrest with
  | one hfirst hmore => exact ⟨before, _, _, e₁, _, rfl, hbefore, hfirst, hmore⟩
  | fused hfirst =>
    rw [hfirst.isComparison] at hc
    cases hc
  | copy hop hinline =>
    obtain hne | hcalls := hcopy
    · exact absurd hop hne
    · cases hcalls.symm.trans hinline

-- A stream goes through the instruction that ends a block.
theorem Stream.split_of_findFinallyEnd {depth pos stop : Nat} {instrs : List Instr}
    (h : Instr.findFinallyEnd code depth pos = .ok (some stop))
    (hs : Stream code code.size pos instrs) :
    ∃ inner k rest, instrs = inner ++ k :: rest ∧ k.pos = stop ∧ k.op = .finallyEnd ∧
      Stream code stop pos inner := by
  fun_induction Instr.findFinallyEnd code depth pos generalizing instrs with
  | case1 => cases h
  | case3 pos hlt i hi _ hop =>
    cases h
    cases hs with
    | done hdone => omega
    | step _ hj hrest =>
      rw [hi] at hj
      cases hj
      exact ⟨[], i, _, rfl, Instr.decodeAt_pos hi, hop, .done (Nat.le_refl _)⟩
  | case6 => cases h
  | case2 pos hlt i hi _ _ _ ih | case4 pos hlt i hi _ _ _ ih | case5 pos hlt i hi _ _ _ _ _ ih =>
    cases hs with
    | done hdone => omega
    | step _ hj hrest =>
      rw [hi] at hj
      cases hj
      obtain ⟨inner, k, rest, rfl, hk, hop, hinner⟩ := ih h hrest
      have hle := (blockEnd_of_findFinallyEnd h).le
      have hsize := i.size_pos
      exact ⟨i :: inner, k, rest, rfl, hk, hop, .step (by omega) hi hinner⟩

-- The instructions before one of a stream.
theorem Stream.before {start stop : Nat} {xs ys : List Instr} {y : Instr}
    (h : Stream code stop start (xs ++ y :: ys)) : Stream code y.pos start xs := by
  induction xs generalizing start with
  | nil =>
    cases h with
    | step _ hi _ => exact .done (Nat.le_of_eq (Instr.decodeAt_pos hi))
  | cons x xs ih =>
    cases h with
    | step _ hi hrest =>
      have hlt := (hrest.decodeAt_of_split).2.1
      have hle := Stream.le_finish (start + x.size) xs
      have hsize := x.size_pos
      exact .step (by omega) hi (ih hrest)

-- What ends a block takes one byte.
theorem size_of_finally {i : Instr} (hop : i.op = .finallyStart ∨ i.op = .finallyEnd) :
    i.size = 1 := by
  unfold Instr.size
  obtain hop | hop := hop <;> rw [hop] <;> rfl

-- A derivation that is cut at an instruction and at one behind it.
inductive Emission.Cut (env : ClassEnv) (f : Frame) (code : Bytes) (e e' : EmitState)
    (xs : List Instr) (j : Instr) (inner : List Instr) (k : Instr) (zs : List Instr) :
    List (Item UInt16) → Prop where
  | intro {before first own last behind : List (Item UInt16)} {e₁ e₂ e₃ e₄ : EmitState} (hbefore : Emission env f code e xs before e₁)
      (hfirst : Emits env f j (.ofRest (inner ++ k :: zs) none) e₁ false first e₂)
      (hown : Emission env f code e₂ inner own e₃)
      (hlast : Emits env f k (.ofRest zs none) e₃ false last e₄)
      (hbehind : Emission env f code e₄ zs behind e') :
      Cut env f code e e' xs j inner k zs
        (before ++ .mark j.pos :: (first ++ (own ++ .mark k.pos :: (last ++ behind))))

-- Where neither end takes a jump along, there is such a cut.
theorem Emission.cut {xs inner zs : List Instr} {j k : Instr} {its : List (Item UInt16)}
    (h : Emission env f code e (xs ++ j :: (inner ++ k :: zs)) its e')
    (hj : j.op = .finallyStart) (hk : k.op = .finallyEnd) :
    Cut env f code e e' xs j inner k zs its := by
  obtain ⟨before, first, more, e₁, e₂, rfl, hbefore, hfirst, hmore⟩ :=
    h.split_one (by rw [hj]; rfl) (by rw [hj]; rfl) (.inl (by simp [hj]))
  obtain ⟨own, last, behind, e₃, e₄, rfl, hown, hlast, hbehind⟩ :=
    hmore.split_one (by rw [hk]; rfl) (by rw [hk]; rfl) (.inl (by simp [hk]))
  exact .intro hbefore hfirst hown hlast hbehind

-- The instructions of a body, cut at the ends of a block.
theorem Stream.exists_block {instrs : List Instr} {j : Instr} {stop : Nat}
    (hs : Stream code code.size 0 instrs) (hj : j ∈ instrs) (hop : j.op = .finallyStart)
    (hend : Instr.findFinallyEnd code 0 (j.pos + 1) = .ok (some stop)) :
    ∃ xs inner k zs, instrs = xs ++ j :: (inner ++ k :: zs) ∧ k.pos = stop ∧
      k.op = .finallyEnd ∧ stop < code.size ∧ Stream code j.pos 0 xs ∧
      Stream code stop (j.pos + 1) inner ∧ Stream code code.size (stop + 1) zs := by
  obtain ⟨xs, ys, rfl⟩ := List.append_of_mem hj
  have hys : Stream code code.size (j.pos + 1) ys := by
    obtain ⟨-, hpos, -⟩ := hs.decodeAt_of_split
    cases hs.split with
    | step _ _ hrest => rwa [← hpos, size_of_finally (.inl hop)] at hrest
  obtain ⟨inner, k, zs, rfl, hk, hkop, hinner⟩ := Stream.split_of_findFinallyEnd hend hys
  have hlt := (hys.decodeAt_of_split).2.2
  refine ⟨xs, inner, k, zs, rfl, hk, hkop, by omega, Stream.before hs, hinner, ?_⟩
  cases hys.split with
  | step _ _ hrest =>
    rwa [size_of_finally (.inr hkop), (blockEnd_of_findFinallyEnd hend).finish inner hinner]
      at hrest

-- A finally block of a body, lowered where it stands: what is before it, what is in it, and what is
-- behind it. The exception is kept in `slot`.
structure Stationed (env : ClassEnv) (f : Frame) (code : Bytes) (first last : EmitState)
    (pos stop : Nat) (its : List (Item UInt16)) (slot : UInt16) (before : List (Item UInt16))
    (inner : List Instr) (own behind : List (Item UInt16)) : Prop where
  items : its = before ++ .mark pos :: .store .obj slot ::
    (own ++ .mark stop :: .load .obj slot :: .op ClassFile.Op.athrow :: behind)
  scope : ∀ l : Layout, l.Valid code.size → (l.puts before).scope = l.scope
  stream : Stream code stop (pos + 1) inner
  emission : ∃ d d', Emission env f code d inner own d' ∧ Onward env f first d ∧
    Onward env f d' last
  next : ∀ tail, NotesNext code.size tail → NotesNext (stop + 1) (behind ++ tail)

-- Every block of a body stands there, with the same slot at its start and its end.
theorem Emission.exists_block {instrs : List Instr} {its : List (Item UInt16)} {j : Instr}
    {stop : Nat} (h : Emission env f code e instrs its e') (hs : Stream code code.size 0 instrs)
    (hinline : env.config.finallyStrategy = .inline) (hj : j ∈ instrs)
    (hop : j.op = .finallyStart)
    (hend : Instr.findFinallyEnd code 0 (j.pos + 1) = .ok (some stop)) :
    ∃ slot before inner own behind,
      Stationed env f code e e' j.pos stop its slot before inner own behind := by
  obtain ⟨xs, inner, k, zs, rfl, rfl, hkop, hlt, hxs, hinner, hzs⟩ :=
    Stream.exists_block hs hj hop hend
  have hblock := openBlocks_of_findFinallyEnd hend hinner
  cases h.cut hop hkop with
  | @intro before _ own _ behind e₁ e₂ e₃ e₄ hbefore hfirst hown hlast hbehind =>
    obtain ⟨-, hpending, -, slot, hslot, rfl⟩ := hfirst.finallyStart hop hinline
    -- Behind the block the blocks that are begun are those before it.
    obtain ⟨-, hkept⟩ := hown.agree_of_closed hown hinline (.refl _) (.refl _) hblock
    obtain ⟨-, -, pos, slot', hpos, hslot', rfl⟩ := hlast.finallyEnd hkop hinline
    rw [hkept, hpending, List.cons.injEq] at hpos
    obtain ⟨rfl, -⟩ := hpos
    have hsame : slot' = slot := by
      have hlater := ((hown.onward.below hinline).trans (hlast.below hinline)).exceptions _ _ hslot
      rw [hslot'] at hlater
      exact Option.some.inj hlater
    subst hsame
    refine ⟨slot', before, inner, own, behind, by simp, ?_, hinner, ?_, ?_⟩
    · intro l hv
      obtain ⟨ps, hps, -⟩ := hbefore.marked hxs hv
      exact hps.scope
    · refine ⟨e₂, e₃, hown, hbefore.onward.trans (.single ⟨_, _, _, _, hfirst⟩), ?_⟩
      exact hbehind.onward.head ⟨_, _, _, _, hlast⟩
    · intro tail htail
      refine hbehind.notesNext hzs ?_
      rw [hzs.finish_eq_size hlt]
      exact htail

end Split

end PodCompiler.Lowering
