import PodCompiler.Proofs.Lowering.CodeStream

namespace PodCompiler.Lowering

open ClassFile (CodeBuffer Constants ExceptionEntry)
open Instr (Reaches Stream)
open Pod (ErrEntry)

-- Finally blocks are run where an instruction of the method begins one.
def RunsBlocks (code : Bytes) : Prop :=
  ∀ instrs, Instr.disassemble code = .ok instrs → ∀ i ∈ instrs, i.op = .jumpFinally →
    ∃ j ∈ instrs, j.pos = i.arg.toNat ∧ j.op = .finallyStart

-- A scope knows the instructions of the method from `lo` to `hi`, in order.
structure Relocation.Spans (r : Relocation) (code : Bytes) (s lo hi : Nat) : Prop where
  known : ∀ q, (∃ java, r.getLocal s q = some java) ↔ Reaches code 0 q ∧ lo ≤ q ∧ q ≤ hi
  monotone : ∀ {q q' java java' : Nat}, r.getLocal s q = some java →
    r.getLocal s q' = some java' → q ≤ q' → java ≤ java'

-- The instruction at a position that is reached is one of the method.
theorem Stream.mem_of_reaches {code : Bytes} {instrs : List Instr} {q : Nat} {i : Instr}
    (h : Stream code code.size 0 instrs) (hq : Reaches code 0 q)
    (hi : Instr.decodeAt code q = .ok i) : i ∈ instrs := by
  have hsize := Instr.decodeAt_size_le hi
  have hpos := i.size_pos
  obtain hmem | hend := (h.position_iff (h.finish_eq_size (Nat.zero_le _)) q).mpr ⟨hq, by omega⟩
  · obtain ⟨j, hj, rfl⟩ := List.mem_map.mp hmem
    have hdecodes := (h.decodeAt_of_mem hj).1
    rw [hi] at hdecodes
    cases hdecodes
    exact hj
  · omega

section Spans

variable {env : ClassEnv} {f : Frame} {code : Bytes} {out : CodeBuffer} {c c₁ : OpenClass}
  {body : BodyState} {s : Nat}

theorem layout_spans_main (out : CodeBuffer) (h : emitBody f code {} env c = .ok ((), body) c₁) :
    (body.layout code out).reloc.Spans code Relocation.mainScope 0 code.size := by
  obtain ⟨instrs, -, hnotes⟩ := layout_mainNotes out h
  refine ⟨?_, hnotes.monotone⟩
  intro q
  rw [hnotes.known, hnotes.stream.position_iff hnotes.finish]
  simp

-- The scope around a copy knows only instructions of the method, so the copy begins where one does.
theorem layout_spans (out : CodeBuffer) (h : emitBody f code {} env c = .ok ((), body) c₁)
    (hblocks : RunsBlocks code) (hs : s < (body.layout code out).reloc.scopes.size) :
    ∃ lo hi, (body.layout code out).reloc.Spans code s lo hi ∧
      (s = Relocation.mainScope ∧ lo = 0 ∧ hi = code.size ∨ s ≠ Relocation.mainScope ∧
        ∃ copy, (body.layout code out).reloc.copy s = some copy ∧ lo = copy.start ∧
          hi = copy.stop) := by
  induction s using Nat.strongRecOn with
  | ind s ih =>
    by_cases hmain : s = Relocation.mainScope
    · subst hmain
      exact ⟨0, code.size, layout_spans_main out h, .inl ⟨rfl, rfl, rfl⟩⟩
    obtain ⟨p, copy, i, inner, pre, own, post, hscope, -⟩ := layout_copyItems out h hmain hs
    have hv := body.layout_valid code out
    have hp := hv.parent_lt _ _ hscope.parent
    obtain ⟨lo, hi, hspans, -⟩ := ih p hp (by omega)
    -- The instruction that asks for the copy is one of the method, and so is the block.
    obtain ⟨instrs, hdis, hnotes⟩ := layout_mainNotes out h
    have hstream := Instr.disassemble_eq_ok_iff.mp hdis
    have hsite : Reaches code 0 copy.site := ((hspans.known _).mp ⟨_, hscope.enters⟩).1
    obtain ⟨j, hj, hpos, hop⟩ :=
      hblocks instrs hdis i (Stream.mem_of_reaches hstream hsite hscope.decodes) hscope.op
    have hjdecodes := (hstream.decodeAt_of_mem hj).1
    have hjreach : Reaches code 0 j.pos :=
      ((hstream.position_iff hnotes.finish j.pos).mp (.inl (List.mem_map_of_mem hj))).1
    have hjsize : j.size = 1 := by
      unfold Instr.size
      rw [hop]
      rfl
    have hstart : Reaches code 0 copy.start := by
      rw [hscope.start, ← hpos, ← hjsize]
      exact hjreach.trans (.step hjdecodes .refl)
    refine ⟨copy.start, copy.stop, ⟨?_, hscope.notes.monotone⟩, .inr ⟨hmain, copy,
      hscope.copy_eq, rfl, rfl⟩⟩
    intro q
    rw [hscope.notes.known, hscope.notes.stream.position_iff hscope.notes.finish]
    constructor
    · rintro ⟨hq, hle⟩
      exact ⟨hstart.trans hq, hq.le, hle⟩
    · rintro ⟨hq, hlo, hle⟩
      exact ⟨hstart.between hq hlo, hle⟩

-- A position in the range of a scope is looked up in the scope itself.
theorem getLocal_of_finds (h : emitBody f code {} env c = .ok ((), body) c₁)
    (hblocks : RunsBlocks code) {lo hi q java : Nat}
    (hs : (body.layout code out).reloc.Spans code s lo hi)
    (hfinds : (body.layout code out).reloc.Finds q s java) (hlo : lo ≤ q) (hhi : q ≤ hi) :
    (body.layout code out).reloc.getLocal s q = some java := by
  have hreach : ∀ {s java}, (body.layout code out).reloc.Finds q s java → Reaches code 0 q := by
    intro s java hfinds
    induction hfinds with
    | @here s java hlocal =>
      have hlt : s < (body.layout code out).reloc.scopes.size := by
        obtain ⟨sc, hsc, -⟩ := Option.bind_eq_some_iff.mp hlocal
        exact (Array.getElem?_eq_some_iff.mp hsc).1
      obtain ⟨lo, hi, hspans, -⟩ := layout_spans out h hblocks hlt
      exact ((hspans.known q).mp ⟨java, hlocal⟩).1
    | outer _ _ _ ih => exact ih
  cases hfinds with
  | here hlocal => exact hlocal
  | outer hnone _ hrest =>
    obtain ⟨java', hlocal⟩ := (hs.known q).mpr ⟨hreach hrest, hlo, hhi⟩
    rw [hnone] at hlocal
    cases hlocal

end Spans

-- An item of the body is written to a position of the code while the scope is open.
def BodyState.Writes (body : BodyState) (code : Bytes) (out : CodeBuffer) (s pc : Nat) : Prop :=
  ∃ pos x rest, body.Stands code out s pos (x :: rest) ∧ pos ≤ pc ∧ pc < pos + (x.raw pos).length

-- What is written in a scope is in no copy inside it.
theorem BodyState.Writes.outside {env : ClassEnv} {f : Frame} {code : Bytes} {out : CodeBuffer}
    {c c₁ : OpenClass} {body : BodyState} {s pc : Nat}
    (h : emitBody f code {} env c = .ok ((), body) c₁) (hw : body.Writes code out s pc)
    {copy : InlineCopy} (hcopy : copy ∈ (body.layout code out).reloc.children s) :
    ¬(copy.javaStart ≤ pc ∧ pc < copy.javaEnd) := by
  rintro ⟨hlo, hhi⟩
  obtain ⟨pos, x, rest, ⟨before, hitems, hscope, hpos⟩, hle, hlt⟩ := hw
  obtain ⟨s', hparent, hs'⟩ := Protection.mem_children.mp hcopy
  obtain ⟨i, inner, pre, own, post, hcopyscope, hholds, e, e', hemission⟩ :=
    layout_child out h hparent hs'
  have hsplit := hholds.items
  rw [hitems] at hsplit
  have hv := (Layout.valid_start out code.size).puts pre
  have hlt' : s < s' := (body.layout_valid code out).parent_lt _ _ hparent
  have hend : pos + (x.raw pos).length =
      ((Layout.start out code.size).puts (before ++ [x])).out.pos := by
    rw [Layout.puts_append, ← hpos]
    exact (Layout.pos_put _ x).symm
  obtain ⟨zs, hpre, hzs⟩ | ⟨zs, rfl, hzs⟩ := List.append_eq_append_iff.mp hsplit
  · -- The item is before the copy, or is the mark before it.
    cases zs with
    | nil =>
      cases hzs
      simp [Item.raw] at hlt
      omega
    | cons z zs =>
      rw [List.cons_append, List.cons.injEq] at hzs
      obtain ⟨rfl, -⟩ := hzs
      have hle := ((Layout.start out code.size).puts (before ++ [x])).pos_le_puts zs
      rw [← Layout.puts_append, List.append_assoc, List.singleton_append, ← hpre,
        hholds.javaStart] at hle
      omega
  · cases zs with
    | nil =>
      cases hzs
      simp [Item.raw] at hlt
      omega
    | cons z zs =>
      rw [List.cons_append, List.cons.injEq] at hzs
      obtain ⟨rfl, hzs⟩ := hzs
      cases zs with
      | nil =>
        cases hzs
        simp [Item.raw] at hlt
        omega
      | cons z zs =>
        rw [List.cons_append, List.cons.injEq] at hzs
        obtain ⟨rfl, hzs⟩ := hzs
        rw [Layout.puts_append, Layout.puts_cons, Layout.puts_cons, Layout.put_enter] at hscope hpos
        obtain ⟨post', hown, -⟩ | ⟨pre', rfl, -⟩ := append_eq_append_cons hzs
        · -- It is in the copy, where another scope is open.
          have hmark : (((Layout.start out code.size).puts pre).put
              (.mark copy.site)).reloc.scopes.size = s' :=
            (Layout.size_put (by simp)).trans hholds.scope
          have hscopes := hemission.scope_of_append hcopyscope.notes.stream
            (hv.put (.mark copy.site)).enter hown
          rw [hscope] at hscopes
          simp only [Layout.enter, Relocation.nextScope, Relocation.size_pushScope, hmark]
            at hscopes
          omega
        · -- It is behind the copy.
          have hle := (((((Layout.start out code.size).puts pre).put
            (.mark copy.site)).enter).puts own).pos_le_puts pre'
          rw [← Layout.puts_append, hpos, hholds.javaEnd] at hle
          omega

namespace Protection

-- The index of the class that is thrown for errors of a type; zero if they are all errors.
def Carries (k : Constants) (t : TypeRef) (carrier : UInt16) : Prop :=
  carrier? t = none ∧ carrier = 0 ∨ ∃ cls, carrier? t = some cls ∧ k.className? carrier = some cls

-- The indices of the classes that catch errors of a type: the one that is thrown for them, and for
-- some errors of `sys` the exception of the machine too.
inductive Catches (k : Constants) (t : TypeRef) : List UInt16 → Prop where
  | one {carrier : UInt16} (hcarrier : Carries k t carrier) (hhost : hostException? t = none) :
      Catches k t [carrier]
  | two {carrier host : UInt16} {cls : String} (hcarrier : Carries k t carrier)
      (hhost : hostException? t = some cls) (hcls : k.className? host = some cls) :
      Catches k t [carrier, host]

theorem Carries.extends {k k' : Constants} {t : TypeRef} {carrier : UInt16} (h : Carries k t carrier)
    (hk : Constants.Extends k' k) : Carries k' t carrier := by
  obtain h | ⟨cls, hcls, hname⟩ := h
  · exact .inl h
  · exact .inr ⟨cls, hcls, hk.className? hname⟩

theorem Catches.extends {k k' : Constants} {t : TypeRef} {types : List UInt16}
    (h : Catches k t types) (hk : Constants.Extends k' k) : Catches k' t types := by
  cases h with
  | one hcarrier hhost => exact .one (hcarrier.extends hk) hhost
  | two hcarrier hhost hcls => exact .two (hcarrier.extends hk) hhost (hk.className? hcls)

theorem internClass_eq_ok {env : ClassEnv} {c c' : OpenClass} {cls : String} {i : UInt16}
    (hc : c.WellFormed env) (h : Ref.intern (.class_ cls) env c = .ok i c') :
    Constants.className? c'.draft.pool.get? i = some cls ∧ c'.WellFormed env ∧
      Constants.Extends c'.draft.pool.get? c.draft.pool.get? := by
  obtain ⟨hc', hgrows⟩ := ClassM.advancing_intern _ _ _ _ _ h hc
  obtain ⟨p, hp, rfl⟩ := ClassM.onPool_eq_ok.mp h
  obtain ⟨-, -, hname⟩ := ClassFile.Pool.class_eq_ok hc.pool hp
  exact ⟨hname, hc', hgrows.extends hc'.pool⟩

theorem catchTypes_eq_ok {env : ClassEnv} {c c' : OpenClass} {t : TypeRef} {types : List UInt16}
    (hc : c.WellFormed env) (h : catchTypes t env c = .ok types c') :
    Catches c'.draft.pool.get? t types := by
  unfold catchTypes at h
  cases hcarrier : carrier? t with
  | none =>
    rw [hcarrier] at h
    obtain ⟨carrier, c₁, hfirst, hrest⟩ := ClassM.bind_eq_ok.mp h
    obtain ⟨rfl, rfl⟩ := ClassM.pure_eq_ok.mp hfirst
    cases hhost : hostException? t with
    | none =>
      rw [hhost] at hrest
      obtain ⟨rfl, rfl⟩ := ClassM.pure_eq_ok.mp hrest
      exact .one (.inl ⟨hcarrier, rfl⟩) hhost
    | some cls =>
      rw [hhost] at hrest
      obtain ⟨host, c₂, hintern, hpure⟩ := ClassM.bind_eq_ok.mp hrest
      obtain ⟨rfl, rfl⟩ := ClassM.pure_eq_ok.mp hpure
      exact .two (.inl ⟨hcarrier, rfl⟩) hhost (internClass_eq_ok hc hintern).1
  | some cls =>
    rw [hcarrier] at h
    obtain ⟨carrier, c₁, hfirst, hrest⟩ := ClassM.bind_eq_ok.mp h
    obtain ⟨hname, hc₁, -⟩ := internClass_eq_ok hc hfirst
    cases hhost : hostException? t with
    | none =>
      rw [hhost] at hrest
      obtain ⟨rfl, rfl⟩ := ClassM.pure_eq_ok.mp hrest
      exact .one (.inr ⟨cls, hcarrier, hname⟩) hhost
    | some cls' =>
      rw [hhost] at hrest
      obtain ⟨host, c₂, hintern, hpure⟩ := ClassM.bind_eq_ok.mp hrest
      obtain ⟨rfl, rfl⟩ := ClassM.pure_eq_ok.mp hpure
      obtain ⟨hname', -, hext⟩ := internClass_eq_ok hc₁ hintern
      exact .two (.inr ⟨cls, hcarrier, hext.className? hname⟩) hhost hname'

-- What an entry of the method became in a scope: the pieces that it protects, where errors are
-- handled, and the classes that are caught.
structure Guard where
  scope : Nat
  index : Nat
  handler : Nat
  types : List UInt16
  pieces : List (Nat × Nat)

namespace Guard

-- The entries of the table that stand for it: for each piece as many as classes are caught.
def entries (g : Guard) : List ExceptionEntry :=
  Protection.entries g.handler g.types g.pieces

def Covers (g : Guard) (pc : Nat) : Prop :=
  ∃ x ∈ g.entries, x.startPc.toNat ≤ pc ∧ pc < x.endPc.toNat

-- The order of the table, in which no two are alike.
def Before (a b : Guard) : Prop :=
  a.scope < b.scope ∨ a.scope = b.scope ∧ a.index < b.index

-- It stands for an entry of the method that is in the scope.
def Derives (env : ClassEnv) (r : Relocation) (es : List ErrEntry) (k : Constants) (g : Guard) :
    Prop :=
  ∃ e start stop t, es[g.index]? = some e ∧ e ∈ inScope r g.scope es ∧
    r.get g.scope e.start.toNat = some start ∧ r.get g.scope e.stop.toNat = some stop ∧
    r.get g.scope e.handler.toNat = some g.handler ∧
    typeRefAt env.pod.symbols e.type = .ok t ∧ Catches k t g.types ∧
    g.pieces = Protection.pieces stop start (holes r g.scope e)

theorem Derives.extends {env : ClassEnv} {r : Relocation} {es : List ErrEntry} {k k' : Constants}
    {g : Guard} (h : g.Derives env r es k) (hk : Constants.Extends k' k) :
    g.Derives env r es k' := by
  obtain ⟨e, start, stop, t, hentry, hscope, hstart, hstop, hhandler, ht, hcatches, hpieces⟩ := h
  exact ⟨e, start, stop, t, hentry, hscope, hstart, hstop, hhandler, ht, hcatches.extends hk,
    hpieces⟩

end Guard

variable {env : ClassEnv} {r : Relocation} {method : String} {es : List ErrEntry}
  {c c' : OpenClass}

-- The guards of one scope, one for each entry in it.
theorem exists_guards {s : Nat} {found : List (List ExceptionEntry)} (hc : c.WellFormed env)
    (h : (inScope r s es).mapM (ofEntry r method s) env c = .ok found c') :
    ∃ guards : List Guard, guards.map Guard.entries = found ∧
      guards.map Guard.index = (indexed r s es).map Prod.snd ∧
      ∀ g ∈ guards, g.scope = s ∧ g.Derives env r es c'.draft.pool.get? := by
  have hall := ClassM.forall₂_of_advancing (advancing_ofEntry r method s) h
  have hc' := (ClassM.advancing_mapM (advancing_ofEntry r method s) _ _ _ _ _ h hc).1
  have hindexed : ∀ p ∈ indexed r s es, es[p.2]? = some p.1 ∧ p.1 ∈ inScope r s es := by
    intro p hp
    refine ⟨List.mem_zipIdx_iff_getElem?.mp (indexed_sublist.subset hp), ?_⟩
    rw [← map_fst_indexed]
    exact List.mem_map_of_mem hp
  rw [← map_fst_indexed, List.forall₂_map_left_iff] at hall
  clear h
  generalize indexed r s es = ps at hall hindexed
  induction hall with
  | nil => exact ⟨[], rfl, rfl, by simp⟩
  | @cons p ys ps yss hp _ ih =>
    obtain ⟨c₁, c₂, hbefore, hentry, hafter⟩ := hp
    obtain ⟨hfirst, hrest⟩ := List.forall_mem_cons.mp hindexed
    obtain ⟨guards, hfound, hindices, hguards⟩ := ih hrest
    obtain ⟨start, stop, handler, t, types, hstart, hstop, hhandler, ht, htypes, rfl⟩ :=
      ofEntry_eq_ok hentry
    have hc₁ := (hbefore hc).1
    have hc₂ := (advancing_ofEntry r method s p.1 _ _ _ _ hentry hc₁).1
    have hcatches := (catchTypes_eq_ok hc₁ htypes).extends ((hafter hc₂).2.extends hc'.pool)
    refine ⟨⟨s, p.2, handler, types, pieces stop start (holes r s p.1)⟩ :: guards, ?_, ?_, ?_⟩
    · rw [List.map_cons, hfound]
      rfl
    · rw [List.map_cons, hindices, List.map_cons]
    · refine List.forall_mem_cons.mpr ⟨⟨rfl, p.1, start, stop, t, ?_⟩, hguards⟩
      exact ⟨hfirst.1, hfirst.2, hstart, hstop, hhandler, ht, hcatches, rfl⟩

theorem mem_indexed {s i : Nat} {e : ErrEntry} (hi : es[i]? = some e) (he : e ∈ inScope r s es) :
    (e, i) ∈ indexed r s es := by
  have hmem : (e, i) ∈ es.zipIdx := List.mem_zipIdx_iff_getElem?.mpr hi
  unfold indexed
  unfold inScope at he
  split
  · exact hmem
  · rename_i hs
    rw [if_neg hs] at he
    cases hcopy : r.copy s with
    | none =>
      rw [hcopy] at he
      cases he
    | some copy =>
      rw [hcopy] at he
      exact List.mem_filter.mpr ⟨hmem, (List.mem_filter.mp he).2⟩

-- The guards of several scopes, in the order of the table.
theorem exists_all_guards {scopes : List Nat} {found : List (List (List ExceptionEntry))}
    (hc : c.WellFormed env) (hscopes : scopes.Pairwise (· < ·))
    (h : scopes.mapM (fun s => (inScope r s es).mapM (ofEntry r method s)) env c = .ok found c') :
    ∃ guards : List Guard, guards.flatMap Guard.entries = found.flatten.flatten ∧
      guards.Pairwise Guard.Before ∧
      (∀ g ∈ guards, g.scope ∈ scopes ∧ g.Derives env r es c'.draft.pool.get?) ∧
      ∀ s ∈ scopes, ∀ i e, es[i]? = some e → e ∈ inScope r s es →
        ∃ g ∈ guards, g.scope = s ∧ g.index = i := by
  have hstep : ∀ s, ClassM.Advancing ((inScope r s es).mapM (ofEntry r method s)) :=
    fun s => ClassM.advancing_mapM (advancing_ofEntry r method s) _
  have hc' := (ClassM.advancing_mapM hstep _ _ _ _ _ h hc).1
  have hall := ClassM.forall₂_of_advancing hstep h
  clear h
  induction hall with
  | nil => exact ⟨[], rfl, List.Pairwise.nil, by simp, by simp⟩
  | @cons s ys scopes yss hs _ ih =>
    obtain ⟨c₁, c₂, hbefore, hentries, hafter⟩ := hs
    obtain ⟨hfirst, hrest⟩ := List.pairwise_cons.mp hscopes
    obtain ⟨guards, hguards, hsorted, hderives, hexists⟩ := ih hrest
    have hc₁ := (hbefore hc).1
    have hc₂ := (hstep s _ _ _ _ hentries hc₁).1
    have hext := (hafter hc₂).2.extends hc'.pool
    obtain ⟨own, hown, hindices, hderives'⟩ := exists_guards hc₁ hentries
    refine ⟨own ++ guards, ?_, ?_, ?_, ?_⟩
    · rw [List.flatMap_append, hguards, ← hown]
      simp [List.flatMap]
    · refine List.pairwise_append.mpr ⟨?_, hsorted, ?_⟩
      · have hlt : (own.map Guard.index).Pairwise (· < ·) := by
          rw [hindices]
          exact List.pairwise_map.mpr indexed_pairwise
        refine (List.pairwise_map.mp hlt).imp_of_mem ?_
        intro a b ha hb hab
        exact .inr ⟨(hderives' a ha).1.trans (hderives' b hb).1.symm, hab⟩
      · intro a ha b hb
        rw [Guard.Before, (hderives' a ha).1]
        exact .inl (hfirst _ (hderives b hb).1)
    · intro g hg
      obtain hg | hg := List.mem_append.mp hg
      · obtain ⟨rfl, hd⟩ := hderives' g hg
        exact ⟨List.mem_cons_self, hd.extends hext⟩
      · obtain ⟨hmem, hd⟩ := hderives g hg
        exact ⟨List.mem_cons_of_mem _ hmem, hd⟩
    · intro s' hs' i e hi he
      obtain rfl | hs' := List.mem_cons.mp hs'
      · have hmem : i ∈ own.map Guard.index := by
          rw [hindices]
          exact List.mem_map_of_mem (f := Prod.snd) (mem_indexed hi he)
        obtain ⟨g, hg, rfl⟩ := List.mem_map.mp hmem
        exact ⟨g, List.mem_append_left _ hg, (hderives' g hg).1, rfl⟩
      · obtain ⟨g, hg, hkey⟩ := hexists s' hs' i e hi he
        exact ⟨g, List.mem_append_right _ hg, hkey⟩

end Protection

-- Whether an entry is mapped in a scope: in the main scope every entry is, and in a copy those whose
-- range, with both of its ends, and handler lie in the instructions of the copy.
def Relocation.Maps (r : Relocation) (s : Nat) (e : ErrEntry) : Prop :=
  s = mainScope ∨ s ≠ mainScope ∧ ∃ copy, r.copy s = some copy ∧
    copy.start ≤ e.start.toNat ∧ e.start.toNat ≤ copy.stop ∧
    copy.start ≤ e.stop.toNat ∧ e.stop.toNat ≤ copy.stop ∧
    copy.start ≤ e.handler.toNat ∧ e.handler.toNat < copy.stop

theorem Relocation.Maps.inScope {r : Relocation} {s : Nat} {e : ErrEntry} {es : List ErrEntry}
    (h : r.Maps s e) (he : e ∈ es) : e ∈ Protection.inScope r s es := by
  unfold Protection.inScope
  obtain rfl | ⟨hmain, copy, hcopy, hrange⟩ := h
  · rw [if_pos rfl]
    exact he
  · rw [if_neg hmain, hcopy]
    refine List.mem_filter.mpr ⟨he, ?_⟩
    simp only [Protection.inside, Bool.and_eq_true, decide_eq_true_eq]
    omega

theorem Relocation.Maps.lt_size {r : Relocation} {s : Nat} {e : ErrEntry} (h : r.Maps s e)
    (hmain : mainScope < r.scopes.size) : s < r.scopes.size := by
  obtain rfl | ⟨-, copy, hcopy, -⟩ := h
  · exact hmain
  · obtain ⟨sc, hsc, -⟩ := Option.bind_eq_some_iff.mp hcopy
    exact (Array.getElem?_eq_some_iff.mp hsc).1

-- In a scope the code from one position to the next is that of one instruction: other positions are
-- before it or behind it.
theorem Relocation.Spans.le_iff {r : Relocation} {code : Bytes} {s lo hi q a b x java pc : Nat}
    {i : Instr} (hs : r.Spans code s lo hi) (hi : Instr.decodeAt code q = .ok i)
    (ha : r.getLocal s q = some a) (hb : r.getLocal s (q + i.size) = some b) (hlo : a ≤ pc)
    (hhi : pc < b) (hx : r.getLocal s x = some java) : java ≤ pc ↔ x ≤ q := by
  constructor
  · intro hle
    by_contra hlt
    have hreach := ((hs.known q).mp ⟨a, ha⟩).1
    have hreach' := ((hs.known x).mp ⟨java, hx⟩).1
    have hnext := (hreach.between hreach' (by omega)).size_le hi (by omega)
    have := hs.monotone hb hx hnext
    omega
  · intro hle
    exact Nat.le_trans (hs.monotone hx ha hle) hlo

namespace Protection.Guard

-- What a guard covers is what its entry does: the code that is written in the scope for the
-- instructions of the range, and of the copies in the scope those that the entry covers with their
-- block.
structure Exact (body : BodyState) (code : Bytes) (out : CodeBuffer) (e : ErrEntry) (g : Guard) :
    Prop where
  handler : (body.layout code out).reloc.getLocal g.scope e.handler.toNat = some g.handler
  handles : ∀ x ∈ g.entries, x.handlerPc.toNat = g.handler
  forward : ∀ p ∈ g.pieces, p.1 < p.2 ∧ p.2 ≤ CodeBuffer.maxSize
  disjoint : g.pieces.Pairwise fun p q => p.2 ≤ q.1
  direct : ∀ q i a b pc, Instr.decodeAt code q = .ok i →
    (body.layout code out).reloc.getLocal g.scope q = some a →
    (body.layout code out).reloc.getLocal g.scope (q + i.size) = some b →
    body.Writes code out g.scope pc → a ≤ pc → pc < b →
    (g.Covers pc ↔ e.start.toNat ≤ q ∧ q < e.stop.toNat)
  copies : ∀ copy ∈ (body.layout code out).reloc.children g.scope, ∀ pc, copy.javaStart ≤ pc →
    pc < copy.javaEnd → (g.Covers pc ↔
      (e.start.toNat ≤ copy.site ∧ copy.site < e.stop.toNat) ∧
        e.start.toNat ≤ copy.finallyStart ∧ copy.finallyStart < e.stop.toNat)

-- The entries of a guard are its pieces.
theorem covers_iff {g : Guard} (htypes : g.types ≠ [])
    (hpieces : ∀ p ∈ g.pieces, p.1.toUInt16.toNat = p.1 ∧ p.2.toUInt16.toNat = p.2) (pc : Nat) :
    g.Covers pc ↔ ∃ p ∈ g.pieces, p.1 ≤ pc ∧ pc < p.2 := by
  constructor
  · rintro ⟨x, hx, hlo, hhi⟩
    obtain ⟨p, hp, hx⟩ := List.mem_flatMap.mp hx
    obtain ⟨type, -, rfl⟩ := List.mem_map.mp hx
    dsimp only at hlo hhi
    rw [(hpieces p hp).1] at hlo
    rw [(hpieces p hp).2] at hhi
    exact ⟨p, hp, hlo, hhi⟩
  · rintro ⟨p, hp, hlo, hhi⟩
    obtain ⟨type, htype⟩ := List.exists_mem_of_ne_nil _ htypes
    refine ⟨_, List.mem_flatMap.mpr ⟨p, hp, List.mem_map_of_mem htype⟩, ?_, ?_⟩
    · dsimp only
      rw [(hpieces p hp).1]
      exact hlo
    · dsimp only
      rw [(hpieces p hp).2]
      exact hhi

end Protection.Guard

theorem Protection.Catches.ne_nil {k : Constants} {t : TypeRef} {types : List UInt16}
    (h : Catches k t types) : types ≠ [] := by
  cases h <;> simp

section Ranges

variable {env : ClassEnv} {f : Frame} {code : Bytes} {out : CodeBuffer} {c c₁ c' : OpenClass}
  {body : BodyState} {mc : MethodCode} {attrs : Pod.Attributes} {s : Nat} {e : ErrEntry}

-- The scope of a mapped entry knows its ends and its handler.
theorem layout_mapped (h : emitBody f code {} env c = .ok ((), body) c₁)
    (hblocks : RunsBlocks code) (hmaps : (body.layout code out).reloc.Maps s e) :
    ∃ lo hi, (body.layout code out).reloc.Spans code s lo hi ∧
      ∀ pos ∈ [e.start, e.stop, e.handler], ∀ java,
        (body.layout code out).reloc.get s pos.toNat = some java →
        (body.layout code out).reloc.getLocal s pos.toNat = some java := by
  have hv := body.layout_valid code out
  obtain rfl | ⟨hmain, copy, hcopy, hrange⟩ := hmaps
  · refine ⟨0, code.size, layout_spans_main out h, ?_⟩
    intro pos _ java hget
    cases Relocation.finds_of_getWithin hget with
    | here hlocal => exact hlocal
    | outer _ hparent _ => exact absurd (hv.parent_lt _ _ hparent) (Nat.not_lt_zero _)
  · have hlt : s < (body.layout code out).reloc.scopes.size :=
      Relocation.Maps.lt_size (.inr ⟨hmain, copy, hcopy, hrange⟩)
        (Nat.zero_lt_of_lt hv.scope_lt)
    obtain ⟨lo, hi, hspans, hends⟩ := layout_spans out h hblocks hlt
    obtain ⟨hzero, -⟩ | ⟨-, copy', hcopy', rfl, rfl⟩ := hends
    · exact absurd hzero hmain
    rw [hcopy] at hcopy'
    cases hcopy'
    refine ⟨_, _, hspans, ?_⟩
    intro pos hpos java hget
    refine getLocal_of_finds h hblocks hspans (Relocation.finds_of_getWithin hget) ?_ ?_
    · simp only [List.mem_cons, List.not_mem_nil, or_false] at hpos
      obtain rfl | rfl | rfl := hpos <;> omega
    · simp only [List.mem_cons, List.not_mem_nil, or_false] at hpos
      obtain rfl | rfl | rfl := hpos <;> omega

-- In a scope a range holds the code of an instruction exactly if the entry has the instruction.
theorem Relocation.Spans.mem_range_iff {r : Relocation} {lo hi q a b start stop pc : Nat} {i : Instr}
    (hs : r.Spans code s lo hi) (hi : Instr.decodeAt code q = .ok i)
    (ha : r.getLocal s q = some a) (hb : r.getLocal s (q + i.size) = some b) (hlo : a ≤ pc)
    (hhi : pc < b) (hstart : r.getLocal s e.start.toNat = some start)
    (hstop : r.getLocal s e.stop.toNat = some stop) :
    start ≤ pc ∧ pc < stop ↔ e.start.toNat ≤ q ∧ q < e.stop.toNat := by
  have hfirst := hs.le_iff hi ha hb hlo hhi hstart
  have hlast := hs.le_iff hi ha hb hlo hhi hstop
  omega

-- Copies in a scope that share code are of one instruction, and so of one block.
theorem finallyStart_of_common (h : emitBody f code {} env c = .ok ((), body) c₁) {lo hi : Nat}
    (hs : (body.layout code out).reloc.Spans code s lo hi) {copy copy' : InlineCopy}
    (hcopy : copy ∈ (body.layout code out).reloc.children s)
    (hcopy' : copy' ∈ (body.layout code out).reloc.children s) {pc : Nat}
    (hpc : copy.javaStart ≤ pc ∧ pc < copy.javaEnd)
    (hpc' : copy'.javaStart ≤ pc ∧ pc < copy'.javaEnd) :
    copy'.finallyStart = copy.finallyStart := by
  obtain ⟨i, hi, hblock, henters, hleaves⟩ := exists_site h hcopy
  obtain ⟨i', hi', hblock', henters', hleaves'⟩ := exists_site h hcopy'
  have hle := (hs.le_iff hi henters hleaves hpc.1 hpc.2 henters').mp hpc'.1
  have hge := (hs.le_iff hi' henters' hleaves' hpc'.1 hpc'.2 henters).mp hpc.1
  have hsite : copy'.site = copy.site := Nat.le_antisymm hle hge
  rw [hsite, hi] at hi'
  cases hi'
  rw [hblock', hblock]

-- A guard of a mapped entry covers what it should.
theorem Protection.Guard.Derives.exact {g : Guard} {es : List ErrEntry} {k : Constants}
    (hl : Lowered env f code out c c₁ body mc) (hblocks : RunsBlocks code)
    (hsize : mc.code.code.size ≤ CodeBuffer.maxSize)
    (hg : g.Derives env (body.layout code out).reloc es k) (he : es[g.index]? = some e)
    (hmaps : (body.layout code out).reloc.Maps g.scope e) : g.Exact body code out e := by
  obtain ⟨e', start, stop, t, hentry, -, hstart, hstop, hhandler, -, hcatches, hpieces⟩ := hg
  rw [he] at hentry
  cases hentry
  obtain ⟨lo, hi, hspans, hlocal⟩ := layout_mapped hl.emits hblocks hmaps
  have hstart := hlocal e.start (by simp) _ hstart
  have hstop := hlocal e.stop (by simp) _ hstop
  have hhandler := hlocal e.handler (by simp) _ hhandler
  have hforward : ∀ copy ∈ (body.layout code out).reloc.children g.scope,
      copy.javaStart ≤ copy.javaEnd := by
    intro copy hcopy
    obtain ⟨i, -, -, henters, hleaves⟩ := exists_site hl.emits hcopy
    exact hspans.monotone henters hleaves (Nat.le_add_right _ _)
  have hcut := cut_holes (e := e) hforward
  have hends : ∀ p ∈ g.pieces, body.Boundary code out p.1 ∧ body.Boundary code out p.2 := by
    intro p hp
    rw [hpieces] at hp
    exact boundary_of_piece hl.emits (boundary_of_getLocal hstart) (boundary_of_getLocal hstop) hp
  have hcovers : ∀ pc, g.Covers pc ↔ (start ≤ pc ∧ pc < stop) ∧
      ∀ hole ∈ holes (body.layout code out).reloc g.scope e, ¬(hole.1 ≤ pc ∧ pc < hole.2) := by
    intro pc
    rw [covers_iff hcatches.ne_nil fun p hp => ⟨hl.toNat_toUInt16 hsize (hends p hp).1,
      hl.toNat_toUInt16 hsize (hends p hp).2⟩, hpieces, exists_piece_iff hcut, and_assoc]
  constructor
  case handler => exact hhandler
  case handles =>
    intro x hx
    obtain ⟨p, -, hx⟩ := List.mem_flatMap.mp hx
    obtain ⟨type, -, rfl⟩ := List.mem_map.mp hx
    exact hl.toNat_toUInt16 hsize (boundary_of_getLocal hhandler)
  case forward =>
    intro p hp
    obtain ⟨s, rest, hx⟩ := (hends p hp).2
    rw [hpieces] at hp
    exact ⟨(bounds_of_mem_pieces hp).2.1, (hl.le_size hx).trans hsize⟩
  case disjoint =>
    rw [hpieces]
    exact pairwise_pieces hcut
  case direct =>
    intro q i a b pc hi ha hb hwrites hlo hhi
    rw [hcovers, hspans.mem_range_iff hi ha hb hlo hhi hstart hstop]
    refine and_iff_left ?_
    intro hole hhole
    obtain ⟨copy, hcopy, -, -, rfl⟩ := mem_holes.mp hhole
    exact hwrites.outside hl.emits hcopy
  case copies =>
    intro copy hcopy pc hlo hhi
    obtain ⟨i, hi, -, henters, hleaves⟩ := exists_site hl.emits hcopy
    rw [hcovers, hspans.mem_range_iff hi henters hleaves hlo hhi hstart hstop]
    refine and_congr_right fun hsite => ?_
    have hblock : e.start.toNat ≤ copy.finallyStart ∧ copy.finallyStart < e.stop.toNat ↔
        covers e copy.finallyStart = true := by simp [covers]
    rw [hblock]
    constructor
    · -- If the block were outside, the copy itself would be a hole.
      intro hholes
      by_contra hout
      refine hholes _ (mem_holes.mpr ⟨copy, hcopy, ?_, by simpa using hout, rfl⟩) ⟨hlo, hhi⟩
      simpa [covers] using hsite
    · intro hcovered hole hhole hpc
      obtain ⟨copy', hcopy', -, hout, rfl⟩ := mem_holes.mp hhole
      rw [finallyStart_of_common hl.emits hspans hcopy hcopy' ⟨hlo, hhi⟩ hpc, hcovered] at hout
      cases hout

-- The table of a method is one guard for each of its entries in each scope that has it; the guard of
-- an entry that the scope maps is exact.
theorem protected_ranges_exact (hc : c.WellFormed env) (hblocks : RunsBlocks code)
    (h : lowerCode f code attrs out env c = .ok mc c')
    (hsize : mc.code.code.size ≤ CodeBuffer.maxSize) :
    ∃ body c₁ errs, ∃ guards : List Protection.Guard,
      emitBody f code {} env c = .ok ((), body) c₁ ∧ attrs.errTable = .ok errs ∧
      mc.code.exceptions.toList =
        out.exceptions.toList ++ guards.flatMap Protection.Guard.entries ∧
      guards.Pairwise Protection.Guard.Before ∧
      (∀ g ∈ guards, g.Derives env (body.layout code out).reloc errs.toList c'.draft.pool.get?) ∧
      ∀ s i e, errs[i]? = some e → (body.layout code out).reloc.Maps s e →
        ∃ g ∈ guards, g.scope = s ∧ g.index = i ∧ g.Exact body code out e ∧
          ∃ t, typeRefAt env.pod.symbols e.type = .ok t ∧
            Protection.Catches c'.draft.pool.get? t g.types := by
  obtain ⟨body, c₁, errs, exceptions, lines, hl, herrs, htable, hexceptions, -⟩ := lowered_tables h
  obtain ⟨instrs, its, -, hder, -⟩ := items_of_emitBody hl.emits
  have hc₁ : c₁.WellFormed env := (hder.later.advances hc).1
  obtain ⟨found, c₂, hfound, hpure⟩ := ClassM.bind_eq_ok.mp htable
  obtain ⟨rfl, rfl⟩ := ClassM.pure_eq_ok.mp hpure
  obtain ⟨guards, hguards, hsorted, hderives, hexists⟩ :=
    Protection.exists_all_guards hc₁ List.pairwise_lt_range hfound
  rw [← hguards] at hexceptions
  refine ⟨body, c₁, errs, guards, hl.emits, herrs, hexceptions, hsorted,
    fun g hg => (hderives g hg).2, ?_⟩
  intro s i e hi hmaps
  rw [← Array.getElem?_toList] at hi
  have hlt := hmaps.lt_size (Nat.zero_lt_of_lt (body.layout_valid code out).scope_lt)
  obtain ⟨g, hg, rfl, rfl⟩ := hexists s (List.mem_range.mpr hlt) i e hi
    (hmaps.inScope (List.mem_of_getElem? hi))
  have hd := (hderives g hg).2
  refine ⟨g, hg, rfl, rfl, hd.exact hl hblocks hsize hi hmaps, ?_⟩
  obtain ⟨e', start, stop, t, hentry, -, -, -, -, ht, hcatches, -⟩ := hd
  rw [hi] at hentry
  cases hentry
  exact ⟨t, ht, hcatches⟩

end Ranges

theorem runsBlocks_nestedTry : RunsBlocks nestedTry := by
  have hdecoded : (Instr.disassemble nestedTry).toOption.map (fun instrs => instrs.all fun i =>
      i.op != .jumpFinally || instrs.any fun j =>
        j.pos = i.arg.toNat && j.op = .finallyStart) = some true := by
    decide +kernel
  intro instrs hinstrs i hi hop
  rw [hinstrs] at hdecoded
  have hall := List.all_eq_true.mp (Option.some.inj hdecoded) i hi
  simpa [hop] using hall

-- The try in the finally block is there once more in the copy of the block.
theorem protected_ranges_exact_nestedTry : RunsBlocks nestedTry ∧
    ∃ mc c', lowerCode bareFrame nestedTry nestedAttrs {} errEnv bareClass = .ok mc c' ∧
      mc.code.code.size ≤ CodeBuffer.maxSize ∧
      (nestedBody.layout nestedTry {}).reloc.Maps 1 ⟨8, 10, 13, 0⟩ ∧
      ∃ guards : List Protection.Guard,
        mc.code.exceptions.toList = [] ++ guards.flatMap Protection.Guard.entries ∧
        guards.Pairwise Protection.Guard.Before ∧
        ∃ g ∈ guards, g.scope = 1 ∧ g.index = 0 ∧ g.Exact nestedBody nestedTry {} ⟨8, 10, 13, 0⟩ := by
  have hblocks := runsBlocks_nestedTry
  obtain ⟨mc, c', h, hsize, -⟩ := exists_lowerCode_nestedTry
  have hmaps : (nestedBody.layout nestedTry {}).reloc.Maps 1 ⟨8, 10, 13, 0⟩ := by
    refine .inr ⟨by decide, ?_⟩
    have hcopy : ((nestedBody.layout nestedTry {}).reloc.copy 1).map (fun copy =>
        (copy.start, copy.stop)) = some (8, 14) := by
      decide +kernel
    obtain ⟨copy, hcopy, heq⟩ := Option.map_eq_some_iff.mp hcopy
    obtain ⟨hstart, hstop⟩ := Prod.mk.inj heq
    refine ⟨copy, hcopy, ?_⟩
    rw [hstart, hstop]
    decide
  obtain ⟨body, c₁, errs, guards, hbody, herrs, hexceptions, hsorted, -, hall⟩ :=
    protected_ranges_exact (wellFormed_bare _) hblocks h hsize
  rw [emitBody_nestedTry] at hbody
  cases hbody
  cases errTable_nestedTry.symm.trans herrs
  have herr : nestedErrs[0]? = some ⟨8, 10, 13, 0⟩ := rfl
  obtain ⟨g, hg, hscope, hindex, hexact, -⟩ := hall 1 0 _ herr hmaps
  exact ⟨hblocks, mc, c', h, hsize, hmaps, guards, hexceptions, hsorted, g, hg, hscope, hindex,
    hexact⟩

end PodCompiler.Lowering
