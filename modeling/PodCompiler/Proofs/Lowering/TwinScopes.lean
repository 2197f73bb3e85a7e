import PodCompiler.Proofs.Lowering.ProtectedRanges

namespace PodCompiler.Lowering

open ClassFile (CodeBuffer)
open Instr (Stream)

open Layout (Abreast Twins)

-- The body goes on with these items behind a layout.
def BodyState.Goes (body : BodyState) (code : Bytes) (out : CodeBuffer) (l : Layout)
    (items : List (Item UInt16)) : Prop :=
  ∃ pre, body.items.toList = pre ++ items ∧ (Layout.start out code.size).puts pre = l

namespace BodyState.Goes

variable {env : ClassEnv} {f : Frame} {code : Bytes} {out : CodeBuffer} {c c₁ : OpenClass}
  {body : BodyState} {l l' : Layout} {items xs ys own after after' : List (Item UInt16)}
  {s t p q java d d' : Nat} {e e' : EmitState} {instrs : List Instr} {start stop : Nat}

theorem valid (h : body.Goes code out l items) : l.Valid code.size := by
  obtain ⟨pre, -, rfl⟩ := h
  exact (Layout.valid_start out code.size).puts pre

theorem stands (h : body.Goes code out l items) :
    body.Stands code out l.scope l.out.pos items := by
  obtain ⟨pre, hitems, rfl⟩ := h
  exact ⟨pre, hitems, rfl, rfl⟩

theorem behind (h : body.Goes code out l (xs ++ ys)) : body.Goes code out (l.puts xs) ys := by
  obtain ⟨pre, hitems, rfl⟩ := h
  exact ⟨pre ++ xs, by simp [hitems], Layout.puts_append _ _ _⟩

theorem next {x : Item UInt16} (h : body.Goes code out l (x :: items)) :
    body.Goes code out (l.put x) items := by
  have hone : body.Goes code out l ([x] ++ items) := h
  exact hone.behind

theorem layout_eq (h : body.Goes code out l items) : body.layout code out = l.puts items := by
  obtain ⟨pre, hitems, rfl⟩ := h
  rw [body.layout_eq, hitems, Layout.puts_append]

-- What is noted next is known in the end.
theorem note (h : body.Goes code out l items)
    (hbody : emitBody f code {} env c = .ok ((), body) c₁) (hnext : NotesNext q items) :
    (body.layout code out).reloc.getLocal l.scope q = some l.out.pos := by
  obtain ⟨pre, hitems, rfl⟩ := h
  obtain ⟨item, more, rfl, hitem⟩ := hnext
  exact layout_note out hbody hitems hitem

-- The scope that is opened next is inside the one that is open.
theorem parent (h : body.Goes code out l (.enter :: items))
    (hbody : emitBody f code {} env c = .ok ((), body) c₁) :
    (body.layout code out).reloc.parent l.reloc.scopes.size = some l.scope := by
  obtain ⟨pre, hitems, rfl⟩ := h
  obtain ⟨before, copy, i, inner, own, post, rfl, hscope, -⟩ := layout_copied out hbody hitems
  have hsize := (Layout.start out code.size).puts_append before [.mark copy.site]
  have hmark : ∀ l : Layout, (l.put (.mark copy.site)).reloc.scopes.size = l.reloc.scopes.size :=
    fun l => Layout.size_put (by simp)
  rw [hsize, Layout.puts_cons, Layout.puts_nil, hmark]
  exact hscope.parent

-- What a scope knows that was opened among some items is noted among them.
theorem exists_note (h : body.Goes code out l (own ++ after))
    (hown : Emission env f code e instrs own e') (hs : Stream code stop start instrs)
    (hlo : l.reloc.scopes.size ≤ s) (hhi : s < (l.puts own).reloc.scopes.size)
    (hknown : (body.layout code out).reloc.getLocal s q = some java) :
    ∃ xs ys, own = xs ++ ys ∧ NotesNext q ys ∧ (l.puts xs).scope = s ∧
      (l.puts xs).out.pos = java := by
  have hv := h.valid
  obtain ⟨ps, hps, -⟩ := hown.marked hs hv
  have hleft : (l.puts own).Left s := by
    have hopen := hv.scope_lt
    refine ⟨hhi, ?_, ?_⟩
    · rw [hps.scope]
      omega
    · intro p hp
      rw [hps.outer] at hp
      have := hv.outer_lt p hp
      omega
  have hkept : (body.layout code out).reloc.getLocal s q =
      (l.puts own).reloc.getLocal s q := by
    rw [h.layout_eq, Layout.puts_append]
    exact congrArg (fun sc => sc.bind fun s : Scope => (s.map[q]?).join) (hleft.puts after)
  rw [hkept] at hknown
  obtain hbefore | ⟨xs, item, ys, rfl, hscope, hjava, hitem⟩ := Layout.exists_note hknown
  · rw [Relocation.getLocal, Array.getElem?_eq_none hlo] at hbefore
    cases hbefore
  · exact ⟨xs, _, rfl, ⟨item, ys, rfl, hitem⟩, hscope, hjava.symm⟩

-- A scope that was opened among some items was opened inside its parent.
theorem exists_parent (h : body.Goes code out l (own ++ after))
    (hbody : emitBody f code {} env c = .ok ((), body) c₁)
    (hlo : l.reloc.scopes.size ≤ s) (hhi : s < (l.puts own).reloc.scopes.size) :
    ∃ xs ys, own = xs ++ .enter :: ys ∧ (l.puts xs).reloc.scopes.size = s ∧
      (body.layout code out).reloc.parent s = some (l.puts xs).scope := by
  obtain ⟨xs, ys, rfl, rfl⟩ := Layout.exists_enter hlo hhi
  rw [List.append_assoc] at h
  exact ⟨xs, ys, rfl, rfl, h.behind.parent hbody⟩

end BodyState.Goes

-- The items of a run of instructions stand behind two layouts of a body.
structure BodyState.Twice (body : BodyState) (code : Bytes) (out : CodeBuffer) (env : ClassEnv)
    (f : Frame) (own : List (Item UInt16)) (l l' : Layout) (after after' : List (Item UInt16)) :
    Prop where
  emission : ∃ e e' instrs start stop, Emission env f code e instrs own e' ∧
    Stream code stop start instrs
  first : body.Goes code out l (own ++ after)
  second : body.Goes code out l' (own ++ after')

-- Positions behind the same prefix of some items.
def Layout.Beside (l l' : Layout) (own : List (Item UInt16)) (d d' : Nat) : Prop :=
  ∃ xs ys, own = xs ++ ys ∧ (l.puts xs).out.pos = d ∧ (l'.puts xs).out.pos = d'

namespace BodyState.Twice

variable {env : ClassEnv} {f : Frame} {code : Bytes} {out : CodeBuffer} {c c₁ : OpenClass}
  {body : BodyState} {l l' : Layout} {xs ys own after after' : List (Item UInt16)}
  {s t p q java d d' : Nat}

theorem symm (h : body.Twice code out env f own l l' after after') :
    body.Twice code out env f own l' l after' after :=
  ⟨h.emission, h.second, h.first⟩

theorem abreast (h : body.Twice code out env f own l l' after after') (hown : own = xs ++ ys) :
    Abreast l l' (l.puts xs) (l'.puts xs) := by
  obtain ⟨e, e', instrs, start, stop, hemission, hs⟩ := h.emission
  exact hemission.abreast_of_append hs h.first.valid h.second.valid hown

-- The twin of a scope that was opened among the items was opened among them too.
theorem bounds (h : body.Twice code out env f own l l' after after') (htwins : Twins l l' s t)
    (hlo : l.reloc.scopes.size ≤ s) (hhi : s < (l.puts own).reloc.scopes.size) :
    l'.reloc.scopes.size ≤ t ∧ t < (l'.puts own).reloc.scopes.size := by
  obtain ⟨n, hn, hn'⟩ := (h.abreast (List.append_nil own).symm).opened
  have hopen := h.first.valid.scope_lt
  cases htwins with
  | open_ => omega
  | next k => omega

-- What a scope knows that was opened among the items its twin knows too, at the same item.
theorem exists_beside (h : body.Twice code out env f own l l' after after')
    (hbody : emitBody f code {} env c = .ok ((), body) c₁) (htwins : Twins l l' s t)
    (hlo : l.reloc.scopes.size ≤ s) (hhi : s < (l.puts own).reloc.scopes.size)
    (hknown : (body.layout code out).reloc.getLocal s q = some java) :
    ∃ java', (body.layout code out).reloc.getLocal t q = some java' ∧
      l.Beside l' own java java' := by
  obtain ⟨e, e', instrs, start, stop, hemission, hs⟩ := h.emission
  obtain ⟨xs, ys, rfl, hnext, hscope, hjava⟩ := h.first.exists_note hemission hs hlo hhi hknown
  have hsame := (h.abreast rfl).scope
  rw [hscope] at hsame
  obtain rfl := htwins.unique h.first.valid.scope_lt hsame
  have hsecond := h.second
  rw [List.append_assoc] at hsecond
  obtain ⟨item, more, rfl, hitem⟩ := hnext
  exact ⟨_, hsecond.behind.note hbody ⟨item, more ++ after', rfl, hitem⟩, xs, _, rfl, hjava, rfl⟩

-- Twins are inside twins.
theorem parents (h : body.Twice code out env f own l l' after after')
    (hbody : emitBody f code {} env c = .ok ((), body) c₁) (htwins : Twins l l' s t)
    (hlo : l.reloc.scopes.size ≤ s) (hhi : s < (l.puts own).reloc.scopes.size) :
    ∃ p p', (body.layout code out).reloc.parent s = some p ∧
      (body.layout code out).reloc.parent t = some p' ∧ Twins l l' p p' := by
  obtain ⟨xs, ys, rfl, hsize, hparent⟩ := h.first.exists_parent hbody hlo hhi
  have hside := h.abreast rfl
  obtain ⟨k, hk, hk'⟩ := hside.opened
  have hopened : Twins l l' (l.reloc.scopes.size + k) (l'.reloc.scopes.size + k) := .next k
  rw [← hk, ← hk', hsize] at hopened
  obtain rfl := htwins.unique h.first.valid.scope_lt hopened
  have hsecond := h.second
  rw [List.append_assoc] at hsecond
  exact ⟨_, _, hparent, hsecond.behind.parent hbody, hside.scope⟩

-- If the items are a copy at the second place, what its scope knows is known at the same item of the
-- first place, in the scope that is open there.
theorem exists_beside_of_copy {a b stop : Nat} {m : Layout}
    (h : body.Twice code out env f own l m.enter (.mark stop :: after)
      (.leave a b stop :: after'))
    (hbody : emitBody f code {} env c = .ok ((), body) c₁)
    (hleft : ((m.enter.puts own).put (.leave a b stop)).Left m.enter.scope)
    (hknown : (body.layout code out).reloc.getLocal m.enter.scope q = some java) :
    ∃ java', (body.layout code out).reloc.getLocal l.scope q = some java' ∧
      l.Beside m.enter own java' java := by
  have hkept : (body.layout code out).reloc.getLocal m.enter.scope q =
      (m.enter.puts (own ++ [.leave a b stop])).reloc.getLocal m.enter.scope q := by
    rw [h.second.layout_eq, Layout.puts_append, Layout.puts_append]
    exact congrArg (fun sc => sc.bind fun s : Scope => (s.map[q]?).join) (hleft.puts after')
  rw [hkept] at hknown
  have hsame : ∀ {xs ys : List (Item UInt16)}, own = xs ++ ys →
      (m.enter.puts xs).scope = m.enter.scope → (l.puts xs).scope = l.scope := by
    intro xs ys hown hscope
    have htwins := (h.abreast hown).scope
    rw [hscope] at htwins
    exact htwins.symm.unique h.second.valid.scope_lt .open_
  obtain hbefore | ⟨xs, item, ys, hsplit, hscope, rfl, hitem⟩ := Layout.exists_note hknown
  · have hfresh : m.reloc.scopes.size ≤ m.enter.scope := Nat.le_refl _
    have hnone : m.enter.reloc.getLocal m.enter.scope q = none := by
      refine (Relocation.getLocal_pushScope _ q).trans ?_
      rw [Relocation.getLocal, Array.getElem?_eq_none hfresh]
      rfl
    rw [hnone] at hbefore
    cases hbefore
  obtain ⟨post', rfl, -⟩ | ⟨pre', rfl, hlast⟩ := append_eq_append_cons hsplit
  · have hfirst := h.first
    rw [List.append_assoc] at hfirst
    have hnote := hfirst.behind.note hbody ⟨item, post' ++ _, rfl, hitem⟩
    rw [hsame rfl hscope] at hnote
    exact ⟨_, hnote, xs, _, rfl, rfl, rfl⟩
  · -- The copy ends where the block does.
    cases pre' with
    | cons y pre' => simp at hlast
    | nil =>
      cases hlast
      rw [List.append_nil] at hscope ⊢
      obtain hitem | ⟨a', b', hitem⟩ := hitem
      · cases hitem
      cases hitem
      have hnote := h.first.behind.note hbody ⟨_, _, rfl, .inl rfl⟩
      rw [hsame (List.append_nil own).symm hscope] at hnote
      exact ⟨_, hnote, own, [], (List.append_nil own).symm, rfl, rfl⟩

end BodyState.Twice

theorem Relocation.Finds.unique {r : Relocation} {q s d d' : Nat} (h : r.Finds q s d)
    (h' : r.Finds q s d') : d = d' := by
  induction h with
  | here hlocal =>
    cases h' with
    | here hlocal' =>
      rw [hlocal, Option.some.injEq] at hlocal'
      exact hlocal'
    | outer hnone _ _ =>
      rw [hlocal] at hnone
      cases hnone
  | outer hnone hp _ ih =>
    cases h' with
    | here hlocal =>
      rw [hnone] at hlocal
      cases hlocal
    | outer _ hp' hrest =>
      rw [hp, Option.some.injEq] at hp'
      subst hp'
      exact ih hrest

-- A position that is looked up from twins is found at the same item, or from the scopes that were
-- open before the items. What the open scope of the second place knows has its place among the items.
theorem BodyState.Twice.finds {env : ClassEnv} {f : Frame} {code : Bytes} {out : CodeBuffer}
    {c c₁ : OpenClass} {body : BodyState} {l l' : Layout} {own after after' : List (Item UInt16)}
    {s t q d d' : Nat} (h : body.Twice code out env f own l l' after after')
    (hbody : emitBody f code {} env c = .ok ((), body) c₁)
    (hopen : ∀ java', (body.layout code out).reloc.getLocal l'.scope q = some java' →
      ∃ java, (body.layout code out).reloc.getLocal l.scope q = some java ∧
        l.Beside l' own java java')
    (htwins : Twins l l' s t) (hhi : s < (l.puts own).reloc.scopes.size)
    (hfinds : (body.layout code out).reloc.Finds q s d)
    (hfinds' : (body.layout code out).reloc.Finds q t d') :
    l.Beside l' own d d' ∨ (body.layout code out).reloc.getLocal l'.scope q = none ∧
      (body.layout code out).reloc.Finds q l.scope d ∧
      (body.layout code out).reloc.Finds q l'.scope d' := by
  have houtside : ∀ {d d' : Nat}, (body.layout code out).reloc.Finds q l.scope d →
      (body.layout code out).reloc.Finds q l'.scope d' →
      l.Beside l' own d d' ∨ (body.layout code out).reloc.getLocal l'.scope q = none ∧
        (body.layout code out).reloc.Finds q l.scope d ∧
        (body.layout code out).reloc.Finds q l'.scope d' := by
    intro d d' hd hd'
    cases hlocal : (body.layout code out).reloc.getLocal l'.scope q with
    | none => exact .inr ⟨rfl, hd, hd'⟩
    | some java' =>
      obtain ⟨java, hjava, hbeside⟩ := hopen java' hlocal
      obtain rfl := hd.unique (.here hjava)
      obtain rfl := hd'.unique (.here hlocal)
      exact .inl hbeside
  induction hfinds generalizing t with
  | @here s d hknown =>
    obtain ⟨rfl, rfl⟩ | hlo := htwins.eq_or_le
    · exact houtside (.here hknown) hfinds'
    · obtain ⟨java', hknown', hbeside⟩ := h.exists_beside hbody htwins hlo hhi hknown
      obtain rfl := hfinds'.unique (.here hknown')
      exact .inl hbeside
  | @outer s p d hnone hp hrest ih =>
    obtain ⟨rfl, rfl⟩ | hlo := htwins.eq_or_le
    · exact houtside (.outer hnone hp hrest) hfinds'
    obtain ⟨hlo', hhi'⟩ := h.bounds htwins hlo hhi
    obtain ⟨p₁, p', hp₁, hp', htwins'⟩ := h.parents hbody htwins hlo hhi
    rw [hp, Option.some.injEq] at hp₁
    subst hp₁
    have hlt := (body.layout_valid code out).parent_lt s p hp
    cases hfinds' with
    | here hknown' =>
      -- What the twin knows the scope knows too.
      obtain ⟨java, hknown, -⟩ := h.symm.exists_beside hbody htwins.symm hlo' hhi' hknown'
      rw [hnone] at hknown
      cases hknown
    | outer _ hp₂ hrest' =>
      rw [hp', Option.some.injEq] at hp₂
      subst hp₂
      exact ih htwins' (by omega) hrest'

end PodCompiler.Lowering
