import PodCompiler.Proofs.Lowering.AskedTypes
import PodCompiler.Proofs.Lowering.CountedCalls
import PodCompiler.Proofs.Lowering.LiteralFields
import PodCompiler.Proofs.Lowering.Room

namespace PodCompiler.Lowering

open ClassFile (CodeBuffer Constants Draft FieldInfo MethodInfo)
open ClassFile.Op
open Pod (MethodDef TypeDef VarDef)

-- Instructions, or those of a default, that were lowered behind `out` to the items of `body` and to
-- the code of `result`.
structure Piece where
  frame : Frame
  code : Bytes
  out : CodeBuffer
  body : BodyState
  result : MethodCode

namespace Piece

-- The types that the class is asked for by a piece, and by several.
def asked (s : Pod.Symbols) (p : Piece) : List String :=
  askedBy s p.code p.body.items.toList

def askedAll (s : Pod.Symbols) (ps : List Piece) : List String :=
  ps.flatMap (asked s)

-- A piece was lowered into a class on the way to a later state of it.
structure On (env : ClassEnv) (c' : OpenClass) (p : Piece) : Prop where
  lowered : ∃ c c₁ before sigs, c.WellFormed env ∧ c.Keeps before ∧
    Lowered env p.frame p.code p.out c c₁ p.body p.result ∧ c.draft.name = c'.draft.name ∧
    c₁.Asked sigs c' ∧ Constants.Extends c'.draft.pool.get? c₁.draft.pool.get?

end Piece

-- Code that consists of pieces, in this order, and of plain items.
inductive Composed (env : ClassEnv) : Bytes → List Piece → Prop where
  | empty : Composed env #[] []
  | items {b b' : Bytes} {ps : List Piece} {its : List (Item UInt16)} (h : Composed env b ps)
      (hits : Item.Straight its) (hcode : b'.toList = b.toList ++ itemBytes its) : Composed env b' ps
  | piece {p : Piece} {ps : List Piece} (h : Composed env p.out.code ps)
      (hp : ∃ c c₁, Lowered env p.frame p.code p.out c c₁ p.body p.result) :
      Composed env p.result.code.code (ps ++ [p])

-- The code of each piece is the beginning of the whole up to the end of the piece.
theorem Composed.isPrefix {env : ClassEnv} {b : Bytes} {ps : List Piece} (h : Composed env b ps) :
    ∀ p ∈ ps, p.result.code.code.toList <+: b.toList := by
  induction h with
  | empty => simp
  | items _ _ hcode ih =>
    intro p hp
    rw [hcode]
    exact (ih p hp).trans (List.prefix_append _ _)
  | piece _ hlowered ih =>
    intro p hp
    obtain ⟨c, c₁, hl⟩ := hlowered
    obtain hp | hp := List.mem_append.mp hp
    · exact (ih p hp).trans hl.isPrefix
    · rw [List.mem_singleton.mp hp]

-- Each piece was lowered.
theorem Composed.lowered {env : ClassEnv} {b : Bytes} {ps : List Piece} (h : Composed env b ps) :
    ∀ p ∈ ps, ∃ c c₁, Lowered env p.frame p.code p.out c c₁ p.body p.result := by
  induction h with
  | empty => simp
  | items _ _ _ ih => exact ih
  | piece _ hp ih => exact List.forall_mem_append.mpr ⟨ih, List.forall_mem_singleton.mpr hp⟩

-- A method with the pieces of its code.
structure MadeOf (env : ClassEnv) (w : MethodInfo) (ps : List Piece) : Prop where
  none : w.code = none → ps = []
  some : ∀ b, w.code = some b → Composed env b.code ps

namespace OpenClass

-- Code was put together from pieces on the way to a later state of a class.
structure Composes (env : ClassEnv) (c : OpenClass) (b : Bytes) (ps : List Piece) (c' : OpenClass) :
    Prop where
  advances : Advances env c c'
  composed : Composed env b ps
  pieces : ∀ p ∈ ps, p.On env c'
  asked : c.Asked (Piece.askedAll env.pod.symbols ps) c'

-- The fields and the methods, with their pieces, that were put behind those of a class. `codes` is
-- what the pieces were lowered from.
structure Makes (env : ClassEnv) (c : OpenClass) (fields : List String) (codes : List Bytes)
    (ms : List (MethodInfo × List Piece)) (c' : OpenClass) : Prop where
  codes : (ms.flatMap Prod.snd).map Piece.code = codes
  declares : c.Declares env (ms.map Prod.fst) c'
  made : ∀ m ∈ ms, MadeOf env m.1 m.2
  pieces : ∀ p ∈ ms.flatMap Prod.snd, p.On env c'
  asked : c.Asked (Piece.askedAll env.pod.symbols (ms.flatMap Prod.snd)) c'
  fields : ∃ fs, c'.draft.fields = c.draft.fields ++ fs ∧
    fs.toList.map FieldInfo.name = fields ∧ ∀ f ∈ fs, f.Named c'.draft.pool.get?

-- A class that steps start from.
def Ready (env : ClassEnv) (c : OpenClass) : Prop :=
  c.WellFormed env ∧ ∃ before, c.Keeps before

variable {env : ClassEnv} {c c₁ c' : OpenClass} {b b' : Bytes} {ps : List Piece}
  {fields fields' : List String} {codes codes' : List Bytes}
  {ms ms' : List (MethodInfo × List Piece)}

end OpenClass

theorem Piece.On.later {env : ClassEnv} {c c' : OpenClass} {p : Piece} {sigs : List String}
    (h : p.On env c) (hname : c'.draft.name = c.draft.name) (hasked : c.Asked sigs c')
    (hk : Constants.Extends c'.draft.pool.get? c.draft.pool.get?) : p.On env c' := by
  obtain ⟨d, d₁, before, sigs', hd, hkeeps, hl, hsame, hafter, hextends⟩ := h.lowered
  exact ⟨d, d₁, before, _, hd, hkeeps, hl, hsame.trans hname.symm, hafter.trans hasked,
    hk.trans hextends⟩

namespace OpenClass

variable {env : ClassEnv} {c c₁ c' : OpenClass} {b b' : Bytes} {ps : List Piece}
  {fields fields' : List String} {codes codes' : List Bytes}
  {ms ms' : List (MethodInfo × List Piece)}

theorem Ready.asked (h : c.Ready env) {sigs : List String} (hasked : c.Asked sigs c')
    (hc' : c'.WellFormed env) : c'.Ready env := by
  obtain ⟨-, before, hkeeps⟩ := h
  exact ⟨hc', _, hasked _ hkeeps⟩

theorem Makes.ready (h : c.Makes env fields codes ms c') (hc : c.Ready env) : c'.Ready env :=
  hc.asked h.asked h.declares.formed

theorem Makes.trans (h : c.Makes env fields codes ms c₁)
    (h' : c₁.Makes env fields' codes' ms' c') :
    c.Makes env (fields ++ fields') (codes ++ codes') (ms ++ ms') c' where
  codes := by
    rw [List.flatMap_append, List.map_append, h.codes, h'.codes]
  declares := by
    rw [List.map_append]
    exact h.declares.trans h'.declares
  made := List.forall_mem_append.mpr ⟨h.made, h'.made⟩
  pieces := by
    rw [List.flatMap_append]
    refine List.forall_mem_append.mpr ⟨fun p hp => ?_, h'.pieces⟩
    exact (h.pieces p hp).later h'.declares.draft.name h'.asked h'.declares.extends
  asked := by
    rw [List.flatMap_append, Piece.askedAll, List.flatMap_append]
    exact h.asked.trans h'.asked
  fields := by
    obtain ⟨fs, hfs, rfl, hnamed⟩ := h.fields
    obtain ⟨fs', hfs', rfl, hnamed'⟩ := h'.fields
    refine ⟨fs ++ fs', by rw [hfs', hfs, Array.append_assoc], by simp, fun f hf => ?_⟩
    obtain hf | hf := Array.mem_append.mp hf
    · exact (hnamed f hf).extends h'.declares.extends
    · exact hnamed' f hf

-- A step that puts nothing and asks for nothing.
theorem Advances.makes (h : Advances env c c') (hc : c.WellFormed env)
    (hasked : c'.literals = c.literals) : c.Makes env [] [] [] c' where
  codes := rfl
  declares := h.declares hc
  made := by simp
  pieces := by simp
  asked := .of_eq hasked
  fields := by
    refine ⟨#[], ?_, rfl, by simp⟩
    rw [(h hc).2.members, Array.append_empty]

section Composes

theorem Composes.empty (c : OpenClass) : c.Composes env #[] [] c where
  advances := .refl c
  composed := .empty
  pieces := by simp
  asked := .refl c

theorem Composes.ready (h : c.Composes env b ps c₁) (hc : c.Ready env) : c₁.Ready env :=
  hc.asked h.asked (h.advances hc.1).1

-- Plain items behind code.
theorem Composes.items (h : c.Composes env b ps c₁) (hc : c.WellFormed env)
    {l : List (Item UInt16)} (hits : Item.Straight l)
    (hcode : b'.toList = b.toList ++ itemBytes l) (hstep : Advances env c₁ c')
    (hasked : c'.literals = c₁.literals) : c.Composes env b' ps c' where
  advances := h.advances.trans hstep
  composed := h.composed.items hits hcode
  pieces p hp := by
    have hc₁ := (h.advances hc).1
    refine (h.pieces p hp).later ?_ (.of_eq hasked) (hstep.extends hc₁)
    rw [(hstep hc₁).2.members]
  asked := by
    have hboth := h.asked.trans (.of_eq hasked)
    rwa [List.append_nil] at hboth

-- A piece behind code.
theorem Composes.piece {p : Piece} {c₂ : OpenClass} (h : c.Composes env p.out.code ps c₁)
    (hc : c.Ready env) (hp : Lowered env p.frame p.code p.out c₁ c₂ p.body p.result)
    (hstep : Advances env c₂ c') (hasked : c'.literals = c₂.literals) :
    c.Composes env p.result.code.code (ps ++ [p]) c' := by
  obtain ⟨hc₁, before, hkeeps⟩ := h.ready hc
  have hbody : Advances env c₁ c₂ := emitBody_advances hp.emits
  have hc₂ := (hbody hc₁).1
  have hboth := hbody.trans hstep
  have hname : c'.draft.name = c₁.draft.name := by
    rw [(hboth hc₁).2.members]
  have hown : c₁.Asked (p.asked env.pod.symbols ++ []) c' :=
    (emitBody_asked hp.emits hc₁).trans (.of_eq hasked)
  rw [List.append_nil] at hown
  refine ⟨h.advances.trans hboth, h.composed.piece ⟨c₁, c₂, hp⟩, ?_, ?_⟩
  · refine List.forall_mem_append.mpr ⟨fun q hq => ?_, List.forall_mem_singleton.mpr ?_⟩
    · exact (h.pieces q hq).later hname hown (hboth.extends hc₁)
    · exact ⟨c₁, c₂, before, [], hc₁, hkeeps, hp, hname.symm, .of_eq hasked, hstep.extends hc₂⟩
  · have hall := h.asked.trans hown
    rwa [Piece.askedAll, List.flatMap_append, List.flatMap_singleton]

end Composes

end OpenClass

section Tables

open ClassM (AsksNone)

theorem asksNone_catchTypes (t : TypeRef) : AsksNone (Protection.catchTypes t) := by
  unfold Protection.catchTypes
  dsimp only
  split <;> split <;> simp [Ref.intern]

-- The tables of a method ask for no types.
theorem asksNone_table (r : Relocation) (method : String) (es : List Pod.ErrEntry) :
    AsksNone (Protection.table r method es) := by
  unfold Protection.table
  refine ClassM.asksNone_bind (ClassM.asksNone_mapM fun scope _ => ?_) fun _ =>
    ClassM.asksNone_pure _
  refine ClassM.asksNone_mapM fun e _ => ?_
  unfold Protection.ofEntry
  refine ClassM.asksNone_bind (ClassM.asksNone_ofExcept _) fun _ => ?_
  refine ClassM.asksNone_bind (ClassM.asksNone_ofExcept _) fun _ => ?_
  refine ClassM.asksNone_bind (ClassM.asksNone_ofExcept _) fun _ => ?_
  refine ClassM.asksNone_bind (ClassM.asksNone_typeRef _) fun t => ?_
  exact ClassM.asksNone_bind (asksNone_catchTypes t) fun _ => ClassM.asksNone_pure _

end Tables

-- Items that write one plain instruction each and name no type that is kept.
structure Item.Bare (items : List (Item Ref)) : Prop where
  straight : Item.Straight items
  typeless : Item.Typeless items

theorem Item.Bare.append {x y : List (Item Ref)} (hx : Bare x) (hy : Bare y) : Bare (x ++ y) :=
  ⟨straight_append.mpr ⟨hx.straight, hy.straight⟩,
    typeless_append.mpr ⟨hx.typeless, hy.typeless⟩⟩

theorem bare_loadLocals (ls : List Local) : Item.Bare (loadLocals ls) :=
  ⟨straight_loadLocals ls, by simp [Item.Typeless, loadLocals, Item.isTypeless]⟩

theorem bare_returnOp (t : StackType) : Item.Bare [.op (returnOp t)] :=
  ⟨by simp [Item.Straight, Item.isStraight, fixedLength?_returnOp], rfl⟩

-- What an initializer runs.
def initCode : Option MethodDef → List Bytes
  | none => []
  | some m => if m.hasCode then [m.code] else []

namespace ClassM

variable {α β : Type} {b : CodeBuffer}

-- A step that goes on with the code of a method, by pieces that are lowered from `codes`.
def Writes (b : CodeBuffer) (codes : List Bytes) (x : ClassM CodeBuffer) : Prop :=
  ∀ env c c₁ ps out' c', c.Ready env → OpenClass.Composes env c b.code ps c₁ →
    x env c₁ = .ok out' c' → ∃ ps', OpenClass.Composes env c out'.code (ps ++ ps') c' ∧
      ps'.map Piece.code = codes

-- A step that only reads: it puts no members and asks for no types.
structure Quiet (m : ClassM α) : Prop where
  advancing : Advancing m
  asksNone : AsksNone m

theorem Quiet.bind {m : ClassM α} {k : α → ClassM β} (hm : Quiet m) (hk : ∀ a, Quiet (k a)) :
    Quiet (m >>= k) :=
  ⟨advancing_bind hm.advancing fun a => (hk a).advancing,
    asksNone_bind hm.asksNone fun a => (hk a).asksNone⟩

section Quiet

theorem quiet_pure (a : α) : Quiet (pure a) := ⟨advancing_pure a, asksNone_pure a⟩

theorem quiet_ofExcept (x : Except LoweringError α) : Quiet (ofExcept x : ClassM α) :=
  ⟨advancing_ofExcept x, asksNone_ofExcept x⟩

theorem quiet_ofFormat (x : Except Pod.FormatError α) : Quiet (ofFormat x) :=
  ⟨advancing_ofFormat x, asksNone_ofFormat x⟩

theorem quiet_read : Quiet (read : ClassM ClassEnv) := ⟨advancing_read, asksNone_read⟩

theorem quiet_get : Quiet (get : ClassM OpenClass) := ⟨advancing_get, asksNone_get⟩

theorem quiet_className : Quiet className := ⟨advancing_className, asksNone_className⟩

theorem quiet_symbols : Quiet symbols := ⟨advancing_symbols, asksNone_symbols⟩

theorem quiet_typeRef (i : UInt16) : Quiet (typeRef i) := ⟨advancing_typeRef i, asksNone_typeRef i⟩

theorem quiet_desc (m : MethodDef) (self : Option String) (n : Nat) (result : Result) :
    Quiet (desc m self n result) :=
  quiet_symbols.bind fun _ => quiet_ofExcept _

theorem quiet_frame (m : MethodDef) (mode : SelfMode) : Quiet (frame m mode) :=
  quiet_symbols.bind fun _ => quiet_className.bind fun _ => quiet_ofExcept _

theorem quiet_resultStack (m : MethodDef) : Quiet (resultStack m) :=
  (quiet_typeRef _).bind fun _ => quiet_pure _

theorem quiet_method (sig : String) : Quiet (Ref.method sig).intern :=
  ⟨advancing_intern _, asksNone_onPool _⟩

end Quiet

section Writes

variable {codes codes' : List Bytes}

theorem Writes.bind {x : ClassM CodeBuffer} {k : CodeBuffer → ClassM CodeBuffer}
    (hx : Writes b codes x) (hk : ∀ b', Writes b' codes' (k b')) :
    Writes b (codes ++ codes') (x >>= k) := by
  intro env c c₁ ps b' c' hc hcode h
  obtain ⟨out₁, c₂, h₁, h₂⟩ := bind_eq_ok.mp h
  obtain ⟨ps₁, hcode₁, rfl⟩ := hx env c c₁ ps out₁ c₂ hc hcode h₁
  obtain ⟨ps₂, hcode₂, rfl⟩ := hk out₁ env c c₂ _ b' c' hc hcode₁ h₂
  rw [List.append_assoc] at hcode₂
  exact ⟨_, hcode₂, List.map_append⟩

theorem Writes.bind_quiet {m : ClassM α} {k : α → ClassM CodeBuffer} (hm : Quiet m)
    (hk : ∀ a, Writes b codes (k a)) : Writes b codes (m >>= k) := by
  intro env c c₁ ps b' c' hc hcode h
  obtain ⟨a, c₂, h₁, h₂⟩ := bind_eq_ok.mp h
  refine hk a env c c₂ ps b' c' hc ?_ h₂
  exact hcode.items hc.1 (l := []) rfl (by simp [itemBytes]) (hm.advancing _ _ _ _ h₁)
    (hm.asksNone _ _ _ _ h₁)

-- The same code in another buffer.
theorem Writes.of_code {b' : CodeBuffer} {x : ClassM CodeBuffer} (h : Writes b' codes x)
    (hcode : b'.code = b.code) : Writes b codes x := by
  intro env c c₁ ps d c' hc hout
  rw [← hcode] at hout
  exact h env c c₁ ps d c' hc hout

theorem writes_assemble {items : List (Item Ref)} (hitems : Item.Bare items) :
    Writes b [] (assemble b items) := by
  intro env c c₁ ps b' c' hc hcode h
  obtain ⟨its, hits, rfl⟩ := assemble_eq_ok h
  have hstraight := straight_of_interned hits hitems.straight
  have hinert : Item.Inert its := fun x hx =>
    Item.isInert_of_isStraight (List.all_eq_true.mp hstraight x hx)
  refine ⟨[], ?_, rfl⟩
  rw [List.append_nil]
  exact hcode.items hc.1 hstraight (code_puts_inert hinert _) hits.advances
    (hits.literals_eq hitems.typeless)

-- Plain instructions behind code.
theorem writes_append {b' : CodeBuffer} {l : List (Item UInt16)} (hits : Item.Straight l)
    (hcode : b'.code.toList = b.code.toList ++ itemBytes l) :
    Writes b [] (pure b') := by
  intro env c c₁ ps d c' hc hout h
  obtain ⟨rfl, rfl⟩ := pure_eq_ok.mp h
  refine ⟨[], ?_, rfl⟩
  rw [List.append_nil]
  exact hout.items hc.1 hits hcode (.refl _) rfl

theorem writes_pure (b : CodeBuffer) : Writes b [] (pure b) :=
  writes_append (l := []) rfl (List.append_nil _).symm

theorem writes_lowerFragment (f : Frame) (code : Bytes) :
    Writes b [code] (MethodCode.code <$> lowerFragment f code b) := by
  intro env c c₁ ps b' c' hc hcode h
  obtain ⟨mc, hlower, rfl⟩ := map_eq_ok.mp h
  obtain ⟨body, hlowered⟩ := lowered_of_lowerFragment hlower
  exact ⟨_, hcode.piece (p := ⟨f, code, b, body, mc⟩) hc hlowered (.refl _) rfl, rfl⟩

theorem writes_lowerCode (f : Frame) (code : Bytes) (attrs : Pod.Attributes) :
    Writes b [code] (MethodCode.code <$> lowerCode f code attrs b) := by
  intro env c c₁ ps b' c' hc hcode h
  obtain ⟨mc, hlower, rfl⟩ := map_eq_ok.mp h
  obtain ⟨body, c₂, errs, exceptions, lines, hlowered, -, htable, -⟩ := lowered_tables hlower
  exact ⟨_, hcode.piece (p := ⟨f, code, b, body, mc⟩) hc hlowered
    (advancing_table _ _ _ _ _ _ _ htable) (asksNone_table _ _ _ _ _ _ _ htable), rfl⟩

theorem writes_lowerPlainBody (m : MethodDef) (f : Frame) :
    Writes (CodeBuffer.sized f.maxStack f.maxLocals) [m.code] (lowerPlainBody m f) := by
  have hbody := writes_lowerCode (b := CodeBuffer.sized f.maxStack f.maxLocals) f m.code m.attrs
  rwa [map_eq_pure_bind] at hbody

theorem writes_lowerDefaults (m : MethodDef) (f : Frame) (index : Nat) (params : List VarDef) :
    Writes b (params.filterMap VarDef.default?) (lowerDefaults m f b index params) := by
  induction params generalizing b index with
  | nil => exact writes_pure b
  | cons p rest ih =>
    intro env c c₁ ps b' c' hc hcode h
    obtain ⟨code, fragment, c₂, hdefault, hfragment, hrest⟩ := lowerDefaults_cons h
    obtain ⟨ps₁, hcode₁, hfirst⟩ := writes_lowerFragment f code env c c₁ ps _ c₂ hc hcode
      (map_eq_ok.mpr ⟨fragment, hfragment, rfl⟩)
    obtain ⟨ps₂, hcode₂, hothers⟩ := ih _ env c c₂ _ b' c' hc hcode₁ hrest
    rw [List.append_assoc] at hcode₂
    refine ⟨_, hcode₂, ?_⟩
    rw [List.map_append, hfirst, hothers, List.filterMap_cons, hdefault]
    rfl

theorem writes_lowerInit (body : Option MethodDef) :
    Writes b (initCode body) (lowerInit b body) := by
  have hreturn : Writes b [] (pure (b.op returnVoid)) :=
    writes_append (l := [.op returnVoid]) rfl (by simp [itemBytes, Item.raw])
  cases body with
  | none => exact hreturn
  | some m =>
    dsimp only [lowerInit, initCode]
    split
    · refine .bind_quiet (quiet_frame m .bound) fun f => ?_
      have hbody := writes_lowerCode (b := { b with
        maxStack := max b.maxStack f.maxStack.toUInt16
        maxLocals := max b.maxLocals f.maxLocals.toUInt16 }) f m.code m.attrs
      rw [map_eq_pure_bind] at hbody
      exact hbody.of_code rfl
    · exact hreturn

end Writes

-- A step that makes methods from `codes`, and fields of these names.
def Making (fields : List String) (codes : List Bytes) (m : ClassM α) : Prop :=
  ∀ env c a c', c.Ready env → m env c = .ok a c' → ∃ ms, OpenClass.Makes env c fields codes ms c'

section Making

variable {fields fields' : List String} {codes codes' : List Bytes}

theorem Quiet.making {m : ClassM α} (hm : Quiet m) : Making [] [] m :=
  fun env c a c' hc h =>
    ⟨[], (hm.advancing env c a c' h).makes hc.1 (hm.asksNone env c a c' h)⟩

theorem Making.bind {m : ClassM α} {k : α → ClassM β} (hm : Making fields codes m)
    (hk : ∀ a, Making fields' codes' (k a)) :
    Making (fields ++ fields') (codes ++ codes') (m >>= k) := by
  intro env c b c' hc h
  obtain ⟨a, c₁, ha, hb⟩ := bind_eq_ok.mp h
  obtain ⟨ms, hms⟩ := hm env c a c₁ hc ha
  obtain ⟨ms', hms'⟩ := hk a env c₁ b c' (hms.ready hc) hb
  exact ⟨ms ++ ms', hms.trans hms'⟩

-- Methods before others.
theorem Making.before {m : ClassM α} {k : α → ClassM β} (hm : Making [] codes m)
    (hk : ∀ a, Making [] codes' (k a)) : Making [] (codes ++ codes') (m >>= k) :=
  hm.bind hk

-- A step of no account before others.
theorem Making.after {m : ClassM α} {k : α → ClassM β} (hm : Making [] [] m)
    (hk : ∀ a, Making fields codes (k a)) : Making fields codes (m >>= k) :=
  hm.bind hk

theorem Making.read {m : ClassM α} {k : α → ClassM β} (hm : Quiet m)
    (hk : ∀ a, Making fields codes (k a)) : Making fields codes (m >>= k) :=
  hm.making.after hk

-- A step before one of no account.
theorem Making.then {m : ClassM α} {k : α → ClassM β} (hm : Making fields codes m)
    (hk : ∀ a, Quiet (k a)) : Making fields codes (m >>= k) := by
  have hboth := hm.bind fun a => (hk a).making
  rwa [List.append_nil, List.append_nil] at hboth

-- Steps of which each makes fields and methods of its own.
theorem making_forM {l : List α} {g : α → ClassM PUnit} {s : α → List String}
    {t : α → List Bytes} (hg : ∀ x, Making (s x) (t x) (g x)) :
    Making (l.flatMap s) (l.flatMap t) (l.forM g) := by
  induction l with
  | nil => exact (quiet_pure _).making
  | cons x rest ih => exact (hg x).bind fun _ => ih

-- A step on the draft that puts fields behind those of the class.
theorem making_onDraft {m : ClassFile.DraftM α}
    (hm : ∀ d a d', d.pool.Built → m d = .ok a d' → d.Declares [] d' ∧
      ∃ fs, d'.fields = d.fields ++ fs ∧ fs.toList.map FieldInfo.name = fields ∧
        ∀ f ∈ fs, f.Named d'.pool.get?) : Making fields [] (onDraft m) := by
  intro env c a c' hc h
  obtain ⟨d, hd, rfl⟩ := onDraft_eq_ok h
  obtain ⟨hdeclares, hfields⟩ := hm _ _ _ hc.1.pool hd
  exact ⟨[], rfl, declares_onDraft hc.1 hdeclares, by simp, by simp, .of_eq rfl, hfields⟩

theorem making_addField (access : UInt16) (name desc : String) :
    Making [name] [] (onDraft (Draft.addField access name desc)) := by
  refine making_onDraft fun d a d' hd h => ⟨Draft.addField_declares hd h, ?_⟩
  obtain ⟨f, hfields, hsig, hnamed⟩ := Draft.addField_eq_ok hd h
  cases hsig
  exact ⟨#[f], hfields, rfl, by simpa using hnamed⟩

theorem making_addInterface (name : String) :
    Making [] [] (onDraft (Draft.addInterface name)) := by
  refine making_onDraft fun d a d' hd h => ⟨Draft.addInterface_declares hd h, #[], ?_, rfl, by simp⟩
  obtain ⟨d₀, d₁, hget, hrest⟩ := Draft.bind_eq_ok.mp h
  cases hget
  rw [Array.append_empty]
  split at hrest
  · cases hrest
    rfl
  · obtain ⟨i, d₂, hname, hpush⟩ := Draft.bind_eq_ok.mp hrest
    obtain ⟨p, hp, rfl⟩ := Draft.onPool_eq_ok hname
    cases hpush
    rfl

-- A method is put behind the others, and the fields stay.
theorem makes_addMethod {env : ClassEnv} {c c₁ c' : OpenClass} {access : UInt16}
    {name desc : String} {code : Option CodeBuffer} {u : Unit} {ps : List Piece}
    (hc : c.WellFormed env) (hsteps : OpenClass.Advances env c c₁)
    (hcode : code = none → ps = []) (hpieces : ∀ b, code = some b → Composed env b.code ps)
    (hon : ∀ p ∈ ps, p.On env c₁) (hasked : c.Asked (Piece.askedAll env.pod.symbols ps) c₁)
    (h : addMethod access name desc code env c₁ = .ok u c') :
    ∃ w, OpenClass.Makes env c [] (ps.map Piece.code) [(w, ps)] c' := by
  obtain ⟨hc₁, hgrows⟩ := hsteps hc
  obtain ⟨w, hw, -, -, -, rfl⟩ := addMethod_eq_ok hc₁ h
  obtain ⟨d, hd, rfl⟩ := onDraft_eq_ok h
  have hfields : d.fields = c.draft.fields := by
    rw [Draft.addMethod_frame hd, hgrows.members]
  refine ⟨w, by simp, (hsteps.declares hc).trans hw, by simpa using ⟨hcode, hpieces⟩, ?_, ?_, #[],
    ?_, rfl, by simp⟩
  · intro p hp
    have hp' : p ∈ ps := by simpa using hp
    exact (hon p hp').later hw.draft.name (.of_eq rfl) hw.extends
  · have hsame : OpenClass.Asked c₁ [] { c₁ with draft := d } := .of_eq rfl
    simpa using hasked.trans hsame
  · rw [hfields, Array.append_empty]

-- A method without code.
theorem making_declaration (access : UInt16) (name desc : String) :
    Making [] [] (addMethod access name desc none) := by
  intro env c u c' hc h
  obtain ⟨w, hw⟩ := makes_addMethod hc.1 (.refl c) (fun _ => rfl) (by simp) (by simp)
    (.refl c) h
  exact ⟨_, hw⟩

-- A method with the code that was written for it.
theorem making_method {x : ClassM CodeBuffer} (hx : Writes b codes x) (hb : b.code = #[])
    (access : UInt16) (name desc : String) :
    Making [] codes (x >>= fun out => addMethod access name desc (some out)) := by
  intro env c u c' hc h
  obtain ⟨out, c₁, hrun, hadd⟩ := bind_eq_ok.mp h
  obtain ⟨ps, hcode, rfl⟩ := hx env c c [] out c₁ hc (hb ▸ .empty c) hrun
  rw [List.nil_append] at hcode
  obtain ⟨w, hw⟩ := makes_addMethod hc.1 hcode.advances (by simp) (by simp [hcode.composed])
    hcode.pieces hcode.asked hadd
  exact ⟨_, hw⟩

end Making

end ClassM

-- What wrappers compute: for each number of arguments the defaults of the other parameters.
def wrapperCode (m : MethodDef) : List Bytes :=
  match m.firstDefault? with
  | none => []
  | some first => ((List.range m.params.length).drop first).flatMap fun n =>
      (m.params.drop n).filterMap VarDef.default?

-- What the methods of a class are lowered from that a method becomes.
def methodCode (m : MethodDef) : List Bytes :=
  if m.isCtor then m.code :: (wrapperCode m ++ wrapperCode m)
  else if m.isNative then wrapperCode m
  else if m.isAbstract || !m.hasCode then wrapperCode m
  else m.code :: wrapperCode m

-- The same for the body of a method of a mixin.
def mixinBodyCode (m : MethodDef) : List Bytes :=
  if m.hasCode then m.code :: wrapperCode m else []

theorem flatMap_nil_right {α β : Type} (l : List α) : (l.flatMap fun _ => ([] : List β)) = [] :=
  List.flatMap_eq_nil_iff.mpr fun _ _ => rfl

theorem flatMap_ite_nil {α β : Type} (l : List α) (p : α → Bool) (g : α → List β) :
    (l.flatMap fun x => if p x = true then g x else []) = (l.filter p).flatMap g := by
  induction l with
  | nil => rfl
  | cons x rest ih =>
    rw [List.flatMap_cons, ih, List.filter_cons]
    split <;> simp

section Methods

open ClassM (Making Quiet Writes)

variable {m : MethodDef} {f : Frame}

theorem making_lowerWrapper (t : Target) (access : UInt16) (ref : UInt16) (n : Nat) :
    Making [] ((m.params.drop n).filterMap VarDef.default?) (lowerWrapper m t access f ref n) := by
  unfold lowerWrapper
  refine .read (ClassM.quiet_desc _ _ _ _) fun desc => ?_
  have hreceiver : Item.Bare (if (t.self.isSome || !t.isStatic) = true then [.op aload0] else []) := by
    split <;> exact ⟨rfl, rfl⟩
  have hcall : ∀ out : CodeBuffer, Writes out [] (pure ((out.op2 (if t.isStatic = true then
      invokeStatic else invokeVirtual) ref).returnOp t.resultStack)) := by
    intro out
    refine ClassM.writes_append (l := [.const (if t.isStatic = true then invokeStatic
      else invokeVirtual) ref, .op (returnOp t.resultStack)]) ?_ ?_
    · refine Item.straight_cons.mpr ⟨?_, ?_⟩
      · split <;> rfl
      · simp [Item.Straight, Item.isStraight, fixedLength?_returnOp]
    · simp [itemBytes, Item.raw, CodeBuffer.returnOp]
  have hcode := ((ClassM.writes_assemble (b := CodeBuffer.sized
    (max f.maxStack 16 + 2 * m.params.length) f.maxLocals)
    (hreceiver.append (bare_loadLocals (f.params n)))).bind fun out =>
      ClassM.writes_lowerDefaults m f n (m.params.drop n)).bind hcall
  have hmaking := ClassM.making_method hcode rfl access t.name desc
  simpa only [bind_assoc, pure_bind, List.nil_append, List.append_nil] using hmaking

theorem making_lowerWrappers (t : Target) (access : UInt16) (mode : SelfMode) :
    Making [] (wrapperCode m) (lowerWrappers m t access mode) := by
  unfold lowerWrappers wrapperCode
  cases m.firstDefault? with
  | none => exact (ClassM.quiet_pure _).making
  | some first =>
    refine .read (ClassM.quiet_frame _ _) fun f => ?_
    refine .read ClassM.quiet_className fun cls => ?_
    refine .read (ClassM.quiet_method _) fun ref => ?_
    have hloop := ClassM.making_forM (l := (List.range m.params.length).drop first)
      (s := fun _ => []) fun n => making_lowerWrapper (m := m) (f := f) t access ref n
    rwa [flatMap_nil_right] at hloop

-- The instructions of a method.
theorem making_body (access : UInt16) (name desc : String) :
    Making [] [m.code] (lowerPlainBody m f >>= fun out =>
      ClassM.addMethod access name desc (some out)) :=
  ClassM.making_method (ClassM.writes_lowerPlainBody m f) rfl access name desc

-- Items that stand for a whole method.
theorem making_items {maxStack maxLocals : Nat} {items : List (Item Ref)} (hitems : Item.Bare items)
    (access : UInt16) (name desc : String) :
    Making [] [] (ClassM.assemble (CodeBuffer.sized maxStack maxLocals) items >>= fun out =>
      ClassM.addMethod access name desc (some out)) :=
  ClassM.making_method (ClassM.writes_assemble hitems) rfl access name desc

theorem making_lowerStandard : Making [] (if (m.isAbstract || !m.hasCode) = true then wrapperCode m
    else m.code :: wrapperCode m) (lowerStandard m) := by
  unfold lowerStandard
  refine .read (ClassM.quiet_desc _ _ _ _) fun desc => ?_
  dsimp only
  split
  · refine (ClassM.making_declaration _ _ _).after fun _ => ?_
    exact .read (ClassM.quiet_resultStack _) fun stack => making_lowerWrappers _ _ _
  · refine .read (ClassM.quiet_frame _ _) fun f => ?_
    rw [← bind_assoc]
    refine (making_body _ _ _).before fun _ => ?_
    exact .read (ClassM.quiet_resultStack _) fun stack => making_lowerWrappers _ _ _

theorem making_lowerCtorBody (access : UInt16) :
    Making [] (m.code :: wrapperCode m) (lowerCtorBody m access) := by
  unfold lowerCtorBody
  refine .read ClassM.quiet_read fun env => ?_
  refine .read (ClassM.quiet_desc _ _ _ _) fun desc => ?_
  refine .read (ClassM.quiet_frame _ _) fun f => ?_
  rw [← bind_assoc]
  refine (making_body _ _ _).before fun _ => ?_
  exact (making_lowerWrappers _ _ _).then fun _ => ClassM.quiet_pure _

theorem bare_factoryItems (self : String) (body : Target) (params : List Local) :
    Item.Bare (factoryItems self body params) :=
  Item.Bare.append (Item.Bare.append (by exact ⟨rfl, rfl⟩) (bare_loadLocals params))
    (by exact ⟨rfl, rfl⟩)

theorem making_lowerCtor :
    Making [] (m.code :: (wrapperCode m ++ wrapperCode m)) (lowerCtor m) := by
  unfold lowerCtor
  refine .read ClassM.quiet_read fun env => ?_
  refine (making_lowerCtorBody _).before fun body => ?_
  refine .read (ClassM.quiet_desc _ _ _ _) fun desc => ?_
  refine .read (ClassM.quiet_frame _ _) fun f => ?_
  rw [← bind_assoc]
  exact (making_items (bare_factoryItems _ _ _) _ _ _).after fun _ => making_lowerWrappers _ _ _

theorem bare_nativeItems (self desc : String) (params : List Local) (result : StackType) :
    Item.Bare (nativeItems self m desc params result) := by
  unfold nativeItems
  refine Item.Bare.append ?_ (bare_returnOp result)
  split
  · exact (bare_loadLocals params).append (by exact ⟨rfl, rfl⟩)
  · exact Item.Bare.append (Item.Bare.append (by exact ⟨rfl, rfl⟩) (bare_loadLocals params))
      (by exact ⟨rfl, rfl⟩)

theorem making_lowerNative : Making [] (wrapperCode m) (lowerNative m) := by
  unfold lowerNative
  refine .read ClassM.quiet_read fun env => ?_
  refine .read (ClassM.quiet_desc _ _ _ _) fun desc => ?_
  refine .read (ClassM.quiet_resultStack _) fun stack => ?_
  refine .read (ClassM.quiet_frame _ _) fun f => ?_
  have hrest : ∀ peerDesc, Making [] (wrapperCode m) (ClassM.assemble
      (CodeBuffer.sized (f.paramSlots m.params.length + 2) f.maxLocals)
      (nativeItems env.selfName m peerDesc (f.params m.params.length) stack) >>= fun out =>
        ClassM.addMethod (withoutAbstract (accessOf m.flags)) m.name desc (some out) >>= fun _ =>
          lowerWrappers m { name := m.name, desc, isStatic := m.isStatic, resultStack := stack }
            (withoutAbstract (accessOf m.flags)) .bound) := by
    intro peerDesc
    rw [← bind_assoc]
    exact (making_items (bare_nativeItems _ _ _ _) _ _ _).after fun _ => making_lowerWrappers _ _ _
  split
  · exact .read (ClassM.quiet_pure _) hrest
  · exact .read (ClassM.quiet_desc _ _ _ _) hrest

theorem making_lowerMethod (m : MethodDef) : Making [] (methodCode m) (lowerMethod m) := by
  unfold lowerMethod methodCode
  split
  · exact making_lowerCtor
  · split
    · exact making_lowerNative
    · exact making_lowerStandard

theorem making_lowerMixinBody (m : MethodDef) : Making [] (mixinBodyCode m) (lowerMixinBody m) := by
  unfold lowerMixinBody mixinBodyCode
  cases hcode : m.hasCode with
  | false => exact (ClassM.quiet_pure _).making
  | true =>
    refine .read ClassM.quiet_read fun env => ?_
    refine .read (ClassM.quiet_desc _ _ _ _) fun desc => ?_
    refine .read (ClassM.quiet_frame _ _) fun f => ?_
    rw [← bind_assoc]
    refine (making_body _ _ _).before fun _ => ?_
    exact .read (ClassM.quiet_resultStack _) fun stack => making_lowerWrappers _ _ _

-- Steps of which none makes fields or lowers code.
theorem making_plain_forM {α : Type} {xs : List α} {g : α → ClassM PUnit}
    (hg : ∀ x, Making [] [] (g x)) : Making [] [] (xs.forM g) := by
  have hloop := ClassM.making_forM (l := xs) (s := fun _ => []) (t := fun _ => []) hg
  rwa [flatMap_nil_right, flatMap_nil_right] at hloop

theorem making_lowerMixinInterface : Making [] [] (lowerMixinInterface m) := by
  unfold lowerMixinInterface
  split
  · exact (ClassM.quiet_pure _).making
  · refine .read (ClassM.quiet_desc _ _ _ _) fun desc => ?_
    refine (ClassM.making_declaration _ _ _).after fun _ => ?_
    refine Making.then ?_ fun _ => ClassM.quiet_pure _
    rw [ClassM.forIn_eq_forM (g := declareUpTo m
      (ClassFile.Access.public_ ||| ClassFile.Access.abstract_)) (by
        rintro ⟨p, n⟩
        unfold declareUpTo
        dsimp only
        split <;> simp)]
    refine making_plain_forM fun p => ?_
    unfold declareUpTo
    split
    · exact .read (ClassM.quiet_desc _ _ _ _) fun desc => ClassM.making_declaration _ _ _
    · exact (ClassM.quiet_pure _).making

theorem bare_routerItems (mixin name bodyDesc : String) (kinds : List StackType)
    (result : StackType) : Item.Bare (routerItems mixin name bodyDesc kinds result) := by
  have hloads : Item.Bare (.op aload0 :: loadLocals (routerLocals 1 kinds)) :=
    Item.Bare.append (x := [.op aload0]) ⟨rfl, rfl⟩ (bare_loadLocals _)
  exact hloads.append (Item.Bare.append (x := [.callStatic _]) ⟨rfl, rfl⟩ (bare_returnOp result))

theorem making_lowerRouterFor (pod : Pod) (mixin : String) (access : UInt16) (result : StackType)
    (n : Nat) : Making [] [] (lowerRouterFor pod mixin m access result n) := by
  unfold lowerRouterFor
  refine .read (ClassM.quiet_ofExcept _) fun desc => ?_
  refine .read ClassM.quiet_get fun c => ?_
  split
  · exact (ClassM.quiet_pure _).making
  · refine .read (ClassM.quiet_ofExcept _) fun bodyDesc => ?_
    refine .read (ClassM.quiet_ofExcept _) fun kinds => ?_
    exact making_items (bare_routerItems _ _ _ _ _) _ _ _

theorem making_lowerRouter (pod : Pod) (mixin : TypeDef) :
    Making [] [] (lowerRouter pod mixin m) := by
  unfold lowerRouter
  refine .read (ClassM.quiet_ofExcept _) fun self => ?_
  refine .read (ClassM.quiet_ofExcept _) fun ret => ?_
  exact making_plain_forM fun n => making_lowerRouterFor _ _ _ _ _

end Methods

-- The fields that a type has of its own.
def storedFields (t : TypeDef) (keep : Pod.FieldDef → Bool) : List String :=
  (t.fields.toList.filter fun f => f.isStorage && keep f).map Pod.FieldDef.name

-- The fields that the class of a type has before those of the types that it keeps.
def classFields (t : TypeDef) : List String :=
  "$Type" :: ((if t.hasNativePeer then ["peer"] else []) ++ storedFields t fun _ => true)

-- What the class of a type is lowered from.
def classCode (t : TypeDef) : List Bytes :=
  (t.methods.toList.filter isListed).flatMap methodCode ++
    (initCode (lastNamed? t staticInit) ++ initCode (lastNamed? t instanceInit))

-- What the class of the bodies of a mixin is lowered from.
def mixinCode (t : TypeDef) : List Bytes :=
  (t.methods.toList.filter isMixinListed).flatMap mixinBodyCode ++ initCode (lastNamed? t staticInit)

section Members

open ClassM (Making Quiet)

theorem making_addInterfaces (t : TypeDef) : Making [] [] (addInterfaces t) := by
  unfold addInterfaces
  refine Making.then ?_ fun _ => ClassM.quiet_pure _
  rw [ClassM.forIn_eq_forM (g := fun m => ClassM.typeRef m >>= fun r =>
    ClassM.onDraft (Draft.addInterface r.jname)) (by intro m; simp)]
  exact making_plain_forM fun m =>
    .read (ClassM.quiet_typeRef m) fun r => ClassM.making_addInterface _

theorem making_addSource (t : TypeDef) : Making [] [] (addSource t) := by
  unfold addSource
  refine .read ClassM.quiet_read fun env => ?_
  split
  · refine .read (ClassM.quiet_ofFormat _) fun file => ?_
    intro env c u c' hc h
    cases h
    have hd := Draft.Declares.refl hc.1.pool
    exact ⟨[], rfl, ⟨⟨hc.1.pool, hc.1.calls⟩, hd.built, hd.grows, rfl, rfl, hd.methods, hd.named⟩,
      by simp, by simp, .of_eq rfl, #[], Array.append_empty.symm, rfl, by simp⟩
  · exact (ClassM.quiet_pure _).making

theorem making_addTypeOf : Making ["$Type"] [] addTypeOf := by
  unfold addTypeOf
  refine .read ClassM.quiet_className fun cls => ?_
  exact (ClassM.making_addField _ _ _).bind fun _ => making_items (by exact ⟨rfl, rfl⟩) _ _ _

theorem making_addFields (t : TypeDef) (keep : Pod.FieldDef → Bool)
    (access : Pod.FieldDef → UInt16) :
    Making (storedFields t keep) [] (addFields t keep access) := by
  unfold addFields storedFields
  refine Making.then ?_ fun _ => ClassM.quiet_pure _
  rw [ClassM.forIn_eq_forM (g := fun f => if (f.isStorage && keep f) = true then
    ClassM.typeRef f.type >>= fun r =>
      ClassM.onDraft (Draft.addField (access f) f.name r.jsig) else pure ()) (by
        intro f
        split <;> simp)]
  have hloop := ClassM.making_forM (l := t.fields.toList)
    (s := fun f => if (f.isStorage && keep f) = true then [f.name] else [])
    (t := fun _ => []) (g := fun f => if (f.isStorage && keep f) = true then
      ClassM.typeRef f.type >>= fun r =>
        ClassM.onDraft (Draft.addField (access f) f.name r.jsig) else pure ()) fun f => by
      split
      · exact .read (ClassM.quiet_typeRef _) fun r => ClassM.making_addField _ _ _
      · exact (ClassM.quiet_pure _).making
  rwa [flatMap_nil_right, flatMap_ite_nil, ← List.map_eq_flatMap] at hloop

theorem making_lowerClassInit (self : Option TypeRef) (body : Option MethodDef) :
    Making [] (initCode body) (lowerClassInit self body) := by
  unfold lowerClassInit
  refine .read ClassM.quiet_className fun cls => ?_
  rw [← bind_assoc]
  refine ClassM.making_method ((ClassM.writes_assemble ?_).bind fun out =>
    ClassM.writes_lowerInit body) rfl _ _ _
  cases self <;> exact ⟨rfl, rfl⟩

theorem making_lowerObjectInit (superName desc : String) {args : List (Item Ref)}
    (hargs : Item.Bare args) (maxLocals : Nat) (native : Bool) (body : Option MethodDef) :
    Making [] (initCode body) (lowerObjectInit superName desc args maxLocals native body) := by
  unfold lowerObjectInit
  refine .read ClassM.quiet_read fun env => ?_
  rw [← bind_assoc]
  refine ClassM.making_method ((ClassM.writes_assemble ?_).bind fun out =>
    ClassM.writes_lowerInit body) rfl _ _ _
  have hfirst : Item.Bare (.op aload0 :: args) :=
    Item.Bare.append (x := [.op aload0]) ⟨rfl, rfl⟩ hargs
  refine hfirst.append (Item.Bare.append (x := [.const invokeSpecial _]) ⟨rfl, rfl⟩ ?_)
  cases native <;> exact ⟨rfl, rfl⟩

theorem making_lowerErrInit (superName : String) (native : Bool) (body : Option MethodDef) :
    Making [] (initCode body) (lowerErrInit superName native body) := by
  unfold lowerErrInit
  refine .read ClassM.quiet_className fun cls => ?_
  rw [← bind_assoc]
  refine (making_items (by exact ⟨rfl, rfl⟩) _ _ _).after fun _ => ?_
  exact making_lowerObjectInit _ _ (by exact ⟨rfl, rfl⟩) _ _ _

theorem making_lowerSomeInit (superName : String) (isErr native : Bool) (body : Option MethodDef) :
    Making [] (initCode body) (if isErr = true then lowerErrInit superName native body
      else lowerObjectInit superName "()V" [] 1 native body) := by
  split
  · exact making_lowerErrInit _ _ _
  · exact making_lowerObjectInit _ _ (by exact ⟨rfl, rfl⟩) _ _ _

-- The methods that are picked, in their order.
theorem making_forPicked {l : List MethodDef} {p : MethodDef → Bool} {k : MethodDef → ClassM Unit}
    {coded : MethodDef → List Bytes} (hk : ∀ m, Making [] (coded m) (k m)) :
    Making [] ((l.filter p).flatMap coded) (ClassM.forPicked l p k) := by
  rw [ClassM.forPicked_eq_forM]
  have hloop := ClassM.making_forM (l := l) (s := fun _ => [])
    (t := fun m => if p m = true then coded m else [])
    (g := fun m => if p m = true then k m else pure ()) fun m => by
      split
      · exact hk m
      · exact (ClassM.quiet_pure _).making
  rwa [flatMap_nil_right, flatMap_ite_nil] at hloop

theorem making_lowerMembers (self : TypeRef) (t : TypeDef) (superName : String) (isErr : Bool) :
    Making (classFields t) (classCode t) (lowerMembers self t superName isErr) := by
  have hmethods : Making [] (classCode t)
      (ClassM.forPicked t.methods.toList isListed lowerMethod >>= fun _ =>
      lowerClassInit (some self) (lastNamed? t staticInit) >>= fun _ =>
        if isErr = true then lowerErrInit superName t.hasNativePeer (lastNamed? t instanceInit)
        else lowerObjectInit superName "()V" [] 1 t.hasNativePeer (lastNamed? t instanceInit)) :=
    (making_forPicked making_lowerMethod).before fun _ =>
      (making_lowerClassInit _ _).before fun _ => making_lowerSomeInit _ _ _ _
  have hfields := (making_addFields t (fun _ => true) fun f => withoutAbstract (accessOf f.flags)).bind
    fun _ => hmethods
  rw [List.append_nil, List.nil_append] at hfields
  unfold lowerMembers classFields
  refine (making_addInterfaces t).after fun _ => ?_
  refine (making_addSource t).after fun _ => ?_
  refine making_addTypeOf.bind fun _ => ?_
  refine .read ClassM.quiet_className fun cls => ?_
  dsimp only
  split
  · exact (ClassM.making_addField _ _ _).bind fun _ => hfields
  · exact hfields

-- Routers neither make fields nor lower code.
theorem making_lowerRouted (self : TypeRef) (t : TypeDef) (superName : String) (isErr : Bool)
    (routes : Except LoweringError (List (LoadedType × MethodDef))) :
    Making (classFields t) (classCode t) (lowerMembers self t superName isErr >>= fun _ =>
      ofExcept routes >>= fun routes =>
        routes.forM fun p => lowerRouter p.1.pod p.1.type p.2) := by
  rw [← List.append_nil (classFields t), ← List.append_nil (classCode t)]
  refine (making_lowerMembers self t superName isErr).bind fun _ => ?_
  exact .read (ClassM.quiet_ofExcept _) fun routes =>
    making_plain_forM fun p => making_lowerRouter _ _

theorem making_lowerInterface (t : TypeDef) :
    Making [] [] (addInterfaces t >>= fun _ => addSource t >>= fun _ =>
      t.methods.toList.forM lowerMixinInterface) :=
  (making_addInterfaces t).after fun _ => (making_addSource t).after fun _ =>
    making_plain_forM fun _ => making_lowerMixinInterface

theorem making_lowerBodies (t : TypeDef) (access : Pod.FieldDef → UInt16) {last : ClassM Unit}
    (hlast : Making [] (initCode (lastNamed? t staticInit)) last) :
    Making (storedFields t (·.isStatic)) (mixinCode t) (addSource t >>= fun _ =>
      addFields t (·.isStatic) access >>= fun _ =>
        ClassM.forPicked t.methods.toList isMixinListed lowerMixinBody >>= fun _ => last) := by
  refine (making_addSource t).after fun _ => ?_
  rw [← List.append_nil (storedFields t _)]
  refine (making_addFields t _ access).bind fun _ => ?_
  exact (making_forPicked making_lowerMixinBody).before fun _ => hlast

end Members

end PodCompiler.Lowering
