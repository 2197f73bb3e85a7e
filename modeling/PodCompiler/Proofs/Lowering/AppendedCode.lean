import PodCompiler.Proofs.ClassFile.ControlFlow
import PodCompiler.Proofs.Lowering.DefaultFragments

namespace PodCompiler.Lowering

open ClassFile (CodeBuffer ExceptionEntry LineEntry)
open ClassFile.Op
open Pod (MethodDef VarDef)

-- A position in what a buffer adds to another one, or at its end.
def Adds (out b : CodeBuffer) (pc : Nat) : Prop :=
  out.pos ≤ pc ∧ pc ≤ b.pos

-- A buffer that goes on behind another one. What is new is instructions, whose jumps stay among
-- them, and so do the handlers and the lines that are new.
structure Appended (out b : CodeBuffer) : Prop where
  code : out.code.toList <+: b.code.toList
  own : ∃ starts, Segment (Adds out b) b.code out.pos starts b.pos
  exceptions : ∃ es : List ExceptionEntry, b.exceptions.toList = out.exceptions.toList ++ es ∧
    ∀ e ∈ es, ∀ pc ∈ [e.startPc, e.endPc, e.handlerPc], Adds out b pc.toNat
  lines : ∃ ls : List LineEntry, b.lines.toList = out.lines.toList ++ ls ∧
    ∀ l ∈ ls, Adds out b l.startPc.toNat
  maxStack : out.maxStack ≤ b.maxStack
  maxLocals : out.maxLocals ≤ b.maxLocals

namespace Appended

variable {out mid b : CodeBuffer}

theorem refl : Appended out out where
  code := List.prefix_rfl
  own := ⟨[], .done⟩
  exceptions := ⟨[], by simp, by simp⟩
  lines := ⟨[], by simp, by simp⟩
  maxStack := Std.le_refl _
  maxLocals := Std.le_refl _

theorem pos_le (h : Appended out b) : out.pos ≤ b.pos := by
  obtain ⟨starts, hown⟩ := h.own
  exact hown.walk.le

theorem trans (h : Appended out mid) (h' : Appended mid b) : Appended out b := by
  have hle := h.pos_le
  have hle' := h'.pos_le
  have hleft : ∀ pc, Adds out mid pc → Adds out b pc := fun pc hpc =>
    ⟨hpc.1, Nat.le_trans hpc.2 hle'⟩
  have hright : ∀ pc, Adds mid b pc → Adds out b pc := fun pc hpc =>
    ⟨Nat.le_trans hle hpc.1, hpc.2⟩
  constructor
  case code => exact h.code.trans h'.code
  case own =>
    obtain ⟨starts, hown⟩ := h.own
    obtain ⟨more, hmore⟩ := h'.own
    have hown := hown.of_isPrefix h'.code (Nat.le_refl _)
    exact ⟨_, (hown.imp hleft).append (hmore.imp hright)⟩
  case exceptions =>
    obtain ⟨es, hes, hin⟩ := h.exceptions
    obtain ⟨es', hes', hin'⟩ := h'.exceptions
    refine ⟨es ++ es', by rw [hes', hes, List.append_assoc], ?_⟩
    refine List.forall_mem_append.mpr ⟨?_, ?_⟩
    · exact fun e he pc hpc => hleft _ (hin e he pc hpc)
    · exact fun e he pc hpc => hright _ (hin' e he pc hpc)
  case lines =>
    obtain ⟨ls, hls, hin⟩ := h.lines
    obtain ⟨ls', hls', hin'⟩ := h'.lines
    refine ⟨ls ++ ls', by rw [hls', hls, List.append_assoc], ?_⟩
    refine List.forall_mem_append.mpr ⟨?_, ?_⟩
    · exact fun l hl => hleft _ (hin l hl)
    · exact fun l hl => hright _ (hin' l hl)
  case maxStack => exact Std.le_trans h.maxStack h'.maxStack
  case maxLocals => exact Std.le_trans h.maxLocals h'.maxLocals

end Appended

section Room

variable {env : ClassEnv} {f : Frame} {code : Bytes} {out : CodeBuffer} {c c' : OpenClass}
  {mc : MethodCode} {attrs : Pod.Attributes}

theorem le_max_left_uint16 (a b : UInt16) : a ≤ max a b := by
  change a ≤ if a ≤ b then b else a
  split
  · assumption
  · exact UInt16.le_refl a

-- Code is finished with at least the room that it has.
theorem PlacedCode.room_le_of_finish {p : PlacedCode} (h : p.finish f = .ok mc) :
    p.out.maxStack ≤ mc.code.maxStack ∧ p.out.maxLocals ≤ mc.code.maxLocals := by
  obtain ⟨locals, -, h⟩ := except_bind_eq_ok.mp h
  cases h
  exact ⟨le_max_left_uint16 _ _, le_max_left_uint16 _ _⟩

theorem room_le_of_lowerCode (h : lowerCode f code attrs out env c = .ok mc c') :
    out.maxStack ≤ mc.code.maxStack ∧ out.maxLocals ≤ mc.code.maxLocals := by
  obtain ⟨p, c₁, exceptions, lines, hp, hfinish⟩ := finish_of_lowerCode h
  have hroom := PlacedCode.room_le_of_finish hfinish
  rw [placeCode_out hp] at hroom
  exact hroom

theorem room_le_of_lowerFragment (h : lowerFragment f code out env c = .ok mc c') :
    out.maxStack ≤ mc.code.maxStack ∧ out.maxLocals ≤ mc.code.maxLocals := by
  obtain ⟨p, c₁, hp, h₁⟩ := ClassM.bind_eq_ok.mp h
  have hroom := PlacedCode.room_le_of_finish (ClassM.ofExcept_eq_ok.mp h₁).1
  rw [placeCode_out hp] at hroom
  exact hroom

-- A fragment has no tables.
theorem tables_of_lowerFragment (h : lowerFragment f code out env c = .ok mc c') :
    mc.code.exceptions = out.exceptions ∧ mc.code.lines = out.lines := by
  obtain ⟨p, c₁, hp, h₁⟩ := ClassM.bind_eq_ok.mp h
  have htables := tables_of_finish (ClassM.ofExcept_eq_ok.mp h₁).1
  rw [placeCode_out hp] at htables
  exact htables

end Room

section Behind

variable {env : ClassEnv} {f : Frame} {code : Bytes} {out : CodeBuffer} {c c₁ c' : OpenClass}
  {body : BodyState} {mc : MethodCode} {attrs : Pod.Attributes}

-- The new code is instructions, whose jumps go to where one of them starts, or to the end.
theorem Lowered.own_segment (hl : Lowered env f code out c c₁ body mc) (hc : c.WellFormed env)
    (hsize : mc.code.code.size ≤ CodeBuffer.maxSize) :
    ∃ starts, Segment (fun pc => pc ∈ starts ∨ pc = mc.code.pos) mc.code.code out.pos starts
      mc.code.pos := by
  have htidy := tidy_of_emitBody hl.emits hc
  have hown := hl.segment hsize ⟨[], rfl, rfl, rfl⟩ htidy
  exact ⟨_, hown.imp fun pc hpc => hl.boundary_cases hsize htidy hpc⟩

-- Where an item begins is in the new code.
theorem Lowered.adds (hl : Lowered env f code out c c₁ body mc) {pc : Nat}
    (h : body.Boundary code out pc) : Adds out mc.code pc := by
  obtain ⟨s, rest, hx⟩ := h
  refine ⟨?_, hl.le_size hx⟩
  obtain ⟨pre, -, -, rfl⟩ := hx
  exact Layout.pos_le_puts (Layout.start out code.size) pre

-- The code without its tables.
theorem Lowered.exists_segment_adds (hl : Lowered env f code out c c₁ body mc) (hc : c.WellFormed env)
    (hsize : mc.code.code.size ≤ CodeBuffer.maxSize) :
    ∃ starts, Segment (Adds out mc.code) mc.code.code out.pos starts mc.code.pos := by
  have hown := hl.segment hsize ⟨[], rfl, rfl, rfl⟩ (tidy_of_emitBody hl.emits hc)
  exact ⟨_, hown.imp fun pc hpc => hl.adds hpc⟩

theorem appended_of_lowerFragment (hc : c.WellFormed env)
    (h : lowerFragment f code out env c = .ok mc c')
    (hsize : mc.code.code.size ≤ CodeBuffer.maxSize) : Appended out mc.code := by
  obtain ⟨body, hl⟩ := lowered_of_lowerFragment h
  obtain ⟨hstack, hlocals⟩ := room_le_of_lowerFragment h
  obtain ⟨hexceptions, hlines⟩ := tables_of_lowerFragment h
  exact ⟨hl.isPrefix, hl.exists_segment_adds hc hsize, ⟨[], by simp [hexceptions], by simp⟩,
    ⟨[], by simp [hlines], by simp⟩, hstack, hlocals⟩

theorem appended_of_lowerCode (hc : c.WellFormed env)
    (h : lowerCode f code attrs out env c = .ok mc c')
    (hsize : mc.code.code.size ≤ CodeBuffer.maxSize) : Appended out mc.code := by
  obtain ⟨body, c₁, errs, exceptions, lines, hl, -, htable, hexceptions, hlines⟩ :=
    lowered_tables h
  obtain ⟨hstack, hlocals⟩ := room_le_of_lowerCode h
  refine ⟨hl.isPrefix, hl.exists_segment_adds hc hsize, ⟨exceptions, hexceptions, ?_⟩,
    ⟨_, hlines, ?_⟩, hstack, hlocals⟩
  · intro e he pc hpc
    obtain ⟨rows, rfl, hderives, -⟩ := Protection.table_rows htable
    obtain ⟨row, hrow, rfl⟩ := List.mem_map.mp he
    obtain ⟨err, c₂, c₃, found, -, -, hfound, hentry⟩ := hderives row hrow
    obtain ⟨java, hboundary, rfl⟩ := boundary_of_entry hl.emits hfound hentry pc hpc
    rw [hl.toNat_toUInt16 hsize hboundary]
    exact hl.adds hboundary
  · intro l hmem
    obtain ⟨n, -, hn⟩ := List.mem_filterMap.mp hmem
    obtain ⟨java, hjava, rfl⟩ := Option.map_eq_some_iff.mp hn
    have hboundary := boundary_of_getLocal hjava
    dsimp only
    rw [hl.toNat_toUInt16 hsize hboundary]
    exact hl.adds hboundary

end Behind

-- A path goes over the code of defaults in their order: over instructions of each, from its first
-- one on, and then to the first one of the next.
def RunsInOrder (env : ClassEnv) (f : Frame) (bytes : Bytes) :
    CodeBuffer → OpenClass → List VarDef → List Nat → Prop
  | out, _, [], path => ∀ p ∈ path.head?, p = out.pos
  | out, c, p :: rest, path => ∃ code mc c₁ starts own more, p.default? = some code ∧
      lowerFragment f code out env c = .ok mc c₁ ∧ Walk bytes out.pos starts mc.code.pos ∧
      path = own ++ more ∧ (∀ p ∈ path.head?, p = out.pos) ∧ (∀ p ∈ own, p ∈ starts) ∧
      RunsInOrder env f bytes mc.code c₁ rest more

section Defaults

variable {env : ClassEnv} {f : Frame} {d : MethodDef} {out all : CodeBuffer} {index : Nat}
  {params : List VarDef} {c c' : OpenClass} {bytes : Bytes} {path : List Nat}

-- The code so far is not longer than all of it.
theorem size_le_of_lowerDefaults (h : lowerDefaults d f out index params env c = .ok all c') :
    out.code.size ≤ all.code.size := by
  simpa using (isPrefix_of_lowerDefaults h).length_le

theorem appended_of_lowerDefaults (hc : c.WellFormed env)
    (h : lowerDefaults d f out index params env c = .ok all c')
    (hsize : all.code.size ≤ CodeBuffer.maxSize) : Appended out all := by
  induction params generalizing out index c with
  | nil =>
    obtain ⟨rfl, -⟩ := ClassM.pure_eq_ok.mp h
    exact .refl
  | cons p rest ih =>
    obtain ⟨code, mc, c₁, -, hfragment, hrest⟩ := lowerDefaults_cons h
    have hle := size_le_of_lowerDefaults hrest
    have hc₁ := (advancing_lowerFragment _ _ _ _ _ _ _ hfragment hc).1
    exact (appended_of_lowerFragment hc hfragment (Nat.le_trans hle hsize)).trans (ih hc₁ hrest)

-- By induction on the defaults: a path leaves the code of one for that of the next.
theorem runsInOrder_of_lowerDefaults (hc : c.WellFormed env)
    (h : lowerDefaults d f out index params env c = .ok all c')
    (hsize : all.code.size ≤ CodeBuffer.maxSize) (hbytes : all.code.toList <+: bytes.toList)
    (hpath : path.IsChain (Goes bytes)) (hfirst : ∀ p ∈ path.head?, p = out.pos) :
    RunsInOrder env f bytes out c params path := by
  induction params generalizing out index c path with
  | nil => exact hfirst
  | cons p rest ih =>
    obtain ⟨code, mc, c₁, hdefault, hfragment, hrest⟩ := lowerDefaults_cons h
    have hc₁ := (advancing_lowerFragment _ _ _ _ _ _ _ hfragment hc).1
    have hle := size_le_of_lowerDefaults hrest
    obtain ⟨body, hl⟩ := lowered_of_lowerFragment hfragment
    obtain ⟨starts, hown⟩ := hl.own_segment hc (Nat.le_trans hle hsize)
    have hown := hown.of_isPrefix ((isPrefix_of_lowerDefaults hrest).trans hbytes) (Nat.le_refl _)
    obtain ⟨own, more, rfl, hin, hmore⟩ := hown.exists_split hpath fun p hp => by
      rw [hfirst p hp]
      exact hown.walk.mem_or_eq
    exact ⟨code, mc, c₁, starts, own, more, hdefault, hfragment, hown.walk, rfl, hfirst, hin,
      ih hc₁ hrest (hpath.right_of_append) hmore⟩

end Defaults

-- Lowering goes on behind the code that is there and leaves it as it is; the jumps, the handlers
-- and the lines of what is new stay in what is new. So whatever path is taken through the code of
-- the defaults of parameters, it is through one after the other, each from its first instruction.
theorem lowered_behind {env : ClassEnv} {f : Frame} {out : CodeBuffer} {c : OpenClass}
    (hc : c.WellFormed env) :
    (∀ code attrs mc c', lowerCode f code attrs out env c = .ok mc c' →
      mc.code.code.size ≤ CodeBuffer.maxSize → Appended out mc.code) ∧
    (∀ code mc c', lowerFragment f code out env c = .ok mc c' →
      mc.code.code.size ≤ CodeBuffer.maxSize → Appended out mc.code) ∧
    ∀ d index params all c', lowerDefaults d f out index params env c = .ok all c' →
      all.code.size ≤ CodeBuffer.maxSize → Appended out all ∧
      ∀ (bytes : Bytes) (path : List Nat), all.code.toList <+: bytes.toList →
        path.IsChain (Goes bytes) → (∀ p ∈ path.head?, p = out.pos) →
        RunsInOrder env f bytes out c params path :=
  ⟨fun _ _ _ _ h hsize => appended_of_lowerCode hc h hsize,
    fun _ _ _ h hsize => appended_of_lowerFragment hc h hsize,
    fun _ _ _ _ _ h hsize => ⟨appended_of_lowerDefaults hc h hsize,
      fun _ _ hbytes hpath hfirst => runsInOrder_of_lowerDefaults hc h hsize hbytes hpath hfirst⟩⟩

-- Code with an instruction, a handler and a line.
def initialCode : CodeBuffer where
  code := #[nop]
  maxStack := 7
  maxLocals := 9
  exceptions := #[⟨0, 1, 0, 0⟩]
  lines := #[⟨0, 3⟩]

-- Two parameters that are true and false if they are left out.
def twoDefaults : List VarDef :=
  [⟨"a", 0, Pod.Flag.param, ⟨#[("ParamDefault", #[3])]⟩⟩,
    ⟨"b", 0, Pod.Flag.param, ⟨#[("ParamDefault", #[2])]⟩⟩]

-- A loop in which the load of the condition is protected, with a line, and the two defaults, behind
-- the code above:
--    0 LoadTrue     1 JumpFalse 7     4 Jump 0
theorem lowered_behind_initialCode : ∃ mc c₁ all c₂,
    lowerCode bareFrame #[3, 30, 0, 7, 28, 0, 0]
      { items := #[("ErrTable", #[0, 1, 0, 0, 0, 1, 0, 4, 0, 0]),
        ("LineNumbers", #[0, 1, 0, 0, 0, 1])] } initialCode errEnv bareClass = .ok mc c₁ ∧
    Appended initialCode mc.code ∧
    lowerDefaults minMethod bareFrame initialCode 0 twoDefaults errEnv bareClass = .ok all c₂ ∧
    Appended initialCode all ∧
    RunsInOrder errEnv bareFrame all.code initialCode bareClass twoDefaults [1, 2, 3] := by
  have hrun : (result? (lowerCode bareFrame #[3, 30, 0, 7, 28, 0, 0]
      { items := #[("ErrTable", #[0, 1, 0, 0, 0, 1, 0, 4, 0, 0]),
        ("LineNumbers", #[0, 1, 0, 0, 0, 1])] } initialCode errEnv bareClass)).map
        (fun mc => mc.code.code.size) = some 8 := by
    decide +kernel
  have hdefaults : (result? (lowerDefaults minMethod bareFrame initialCode 0 twoDefaults errEnv
      bareClass)).map (fun all => all.code) = some #[nop, iconst1, iconst0] := by
    decide +kernel
  obtain ⟨mc, hmc, hsize⟩ := Option.map_eq_some_iff.mp hrun
  obtain ⟨mc', c₁, h⟩ := exists_of_result? (Option.isSome_of_eq_some hmc)
  rw [h] at hmc
  cases hmc
  obtain ⟨all, hall, hcode⟩ := Option.map_eq_some_iff.mp hdefaults
  obtain ⟨all', c₂, h'⟩ := exists_of_result? (Option.isSome_of_eq_some hall)
  rw [h'] at hall
  cases hall
  obtain ⟨hlower, -, hfragments⟩ :=
    @lowered_behind errEnv bareFrame initialCode bareClass (wellFormed_bare errEnv)
  obtain ⟨happended, horder⟩ := hfragments _ _ _ _ _ h' (by rw [hcode]; decide)
  refine ⟨mc, c₁, all, c₂, h, hlower _ _ _ _ h (by rw [hsize]; decide), h', happended,
    horder _ _ List.prefix_rfl ?_ (by decide)⟩
  have hone : ∀ p < 3, Goes #[nop, iconst1, iconst0] p (p + 1) := by
    intro p hp
    interval_cases p <;> exact .on (by decide) (by decide)
  rw [hcode]
  exact .cons_cons (hone 1 (by decide)) (.cons_cons (hone 2 (by decide)) (.singleton _))

end PodCompiler.Lowering
