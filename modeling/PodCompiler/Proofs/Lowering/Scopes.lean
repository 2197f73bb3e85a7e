import PodCompiler.Proofs.Lowering.Emission
import PodCompiler.Proofs.Lowering.Placement

namespace PodCompiler.Lowering

namespace Relocation

variable {r : Relocation} {scope pos java : Nat}

@[simp] theorem size_record : (r.record scope pos java).scopes.size = r.scopes.size := by
  simp [record]

@[simp] theorem size_pushScope : (r.pushScope scope).scopes.size = r.scopes.size + 1 := by
  simp [pushScope]

@[simp] theorem size_closeScope {c : InlineCopy} :
    (r.closeScope scope c).scopes.size = r.scopes.size := by
  simp [closeScope]

-- Every scope knows of all positions of the buffer.
def Full (r : Relocation) : Prop :=
  ∀ (s : Nat) (sc : Scope), r.scopes[s]? = some sc → sc.map.size = r.size + 1

theorem getElem?_record (s : Nat) :
    (r.record scope pos java).scopes[s]? =
      if scope = s then (r.scopes[s]?).map fun sc =>
        { sc with map := sc.map.setIfInBounds pos (some java) }
      else r.scopes[s]? := by
  simp only [record, Array.getElem?_modify]

theorem getElem?_closeScope {c : InlineCopy} (s : Nat) :
    (r.closeScope scope c).scopes[s]? =
      if scope = s then (r.scopes[s]?).map fun sc => { sc with copy := some c }
      else r.scopes[s]? := by
  simp only [closeScope, Array.getElem?_modify]

theorem getElem?_pushScope (s : Nat) :
    (r.pushScope scope).scopes[s]? =
      if s = r.scopes.size then some ⟨some scope, emptyMap r.size, none⟩ else r.scopes[s]? := by
  simp only [pushScope, Array.getElem?_push]

theorem getLocal_record (hfull : r.Full) (hscope : scope < r.scopes.size) (hpos : pos ≤ r.size)
    (s q : Nat) :
    (r.record scope pos java).getLocal s q =
      if s = scope ∧ q = pos then some java else r.getLocal s q := by
  unfold getLocal
  rw [getElem?_record]
  by_cases hs : scope = s
  · subst hs
    have hsc : r.scopes[scope]? = some r.scopes[scope] := Array.getElem?_eq_getElem hscope
    have hmap := hfull scope _ hsc
    rw [if_pos rfl, hsc]
    simp only [Option.map_some, Option.bind_some]
    by_cases hq : q = pos
    · subst hq
      rw [Array.getElem?_setIfInBounds_self_of_lt (by omega)]
      simp
    · rw [Array.getElem?_setIfInBounds_ne (Ne.symm hq)]
      simp [hq]
  · rw [if_neg hs, if_neg (by omega)]

theorem getLocal_record_of_ne {s q : Nat} (h : s ≠ scope ∨ q ≠ pos) :
    (r.record scope pos java).getLocal s q = r.getLocal s q := by
  unfold getLocal
  rw [getElem?_record]
  split
  · rename_i hs
    have hq : pos ≠ q := by omega
    cases r.scopes[s]? with
    | none => rfl
    | some sc =>
      simp only [Option.map_some, Option.bind_some]
      rw [Array.getElem?_setIfInBounds_ne hq]
  · rfl

-- A position that is known after a note is the noted one, or was known before.
theorem getLocal_record_eq_some {s q j : Nat}
    (h : (r.record scope pos java).getLocal s q = some j) :
    (s = scope ∧ q = pos ∧ j = java) ∨ r.getLocal s q = some j := by
  unfold getLocal at h ⊢
  rw [getElem?_record] at h
  by_cases hs : scope = s
  · rw [if_pos hs] at h
    cases hsc : r.scopes[s]? with
    | none =>
      rw [hsc] at h
      cases h
    | some sc =>
      rw [hsc] at h
      simp only [Option.map_some, Option.bind_some] at h ⊢
      by_cases hq : pos = q
      · subst hq
        rw [Array.getElem?_setIfInBounds_self] at h
        split at h
        · exact .inl ⟨hs.symm, rfl, (Option.some.inj h).symm⟩
        · cases h
      · rw [Array.getElem?_setIfInBounds_ne hq] at h
        exact .inr h
  · rw [if_neg hs] at h
    exact .inr h

theorem getLocal_pushScope (s q : Nat) :
    (r.pushScope scope).getLocal s q = r.getLocal s q := by
  unfold getLocal
  rw [getElem?_pushScope]
  split
  · rename_i h
    subst h
    rw [Array.getElem?_eq_none (Nat.le_refl _)]
    simp only [emptyMap, Option.bind_some, Option.bind_none, Array.getElem?_replicate]
    split <;> rfl
  · rfl

theorem getLocal_closeScope {c : InlineCopy} (s q : Nat) :
    (r.closeScope scope c).getLocal s q = r.getLocal s q := by
  unfold getLocal
  rw [getElem?_closeScope]
  split
  · cases r.scopes[s]? <;> rfl
  · rfl

theorem parent_record (s : Nat) : (r.record scope pos java).parent s = r.parent s := by
  unfold parent
  rw [getElem?_record]
  split
  · cases r.scopes[s]? <;> rfl
  · rfl

theorem parent_closeScope {c : InlineCopy} (s : Nat) :
    (r.closeScope scope c).parent s = r.parent s := by
  unfold parent
  rw [getElem?_closeScope]
  split
  · cases r.scopes[s]? <;> rfl
  · rfl

theorem parent_pushScope (s : Nat) :
    (r.pushScope scope).parent s = if s = r.scopes.size then some scope else r.parent s := by
  unfold parent
  rw [getElem?_pushScope]
  split <;> rfl

theorem full_record (h : r.Full) : (r.record scope pos java).Full := by
  intro s sc hs
  rw [getElem?_record] at hs
  split at hs
  · obtain ⟨sc', hsc', rfl⟩ := Option.map_eq_some_iff.mp hs
    simpa [record] using h s sc' hsc'
  · exact h s sc hs

theorem full_closeScope {c : InlineCopy} (h : r.Full) : (r.closeScope scope c).Full := by
  intro s sc hs
  rw [getElem?_closeScope] at hs
  split at hs
  · obtain ⟨sc', hsc', rfl⟩ := Option.map_eq_some_iff.mp hs
    exact h s sc' hsc'
  · exact h s sc hs

theorem full_pushScope (h : r.Full) : (r.pushScope scope).Full := by
  intro s sc hs
  rw [getElem?_pushScope] at hs
  split at hs
  · cases hs
    simp [emptyMap, pushScope]
  · exact h s sc hs

end Relocation

namespace Layout

variable {l : Layout} {size : Nat}

-- What always holds of a layout for a buffer of `size` bytes. A scope is inside an earlier one, and
-- no instruction begins behind the code.
structure Valid (size : Nat) (l : Layout) : Prop where
  size_eq : l.reloc.size = size
  full : l.reloc.Full
  scope_lt : l.scope < l.reloc.scopes.size
  outer_lt : ∀ p ∈ l.outer, p.1 < l.reloc.scopes.size
  parent_lt : ∀ s p, l.reloc.parent s = some p → p < s
  java_le : ∀ s q java, l.reloc.getLocal s q = some java → java ≤ l.out.pos

theorem valid_start (out : ClassFile.CodeBuffer) (size : Nat) : (start out size).Valid size := by
  have hscope : ∀ (s : Nat) (sc : Scope), (start out size).reloc.scopes[s]? = some sc →
      sc = ⟨none, Relocation.emptyMap size, none⟩ := by
    intro s sc hs
    simp only [start, Relocation.ofSize] at hs
    rw [List.getElem?_toArray, List.getElem?_singleton] at hs
    split at hs
    · exact (Option.some.inj hs).symm
    · cases hs
  refine ⟨rfl, ?_, by simp [start, Relocation.ofSize, Relocation.mainScope], by simp [start], ?_, ?_⟩
  · intro s sc hs
    rw [hscope s sc hs]
    simp [Relocation.emptyMap, start, Relocation.ofSize]
  · intro s p hp
    obtain ⟨sc, hs, hp⟩ := Option.bind_eq_some_iff.mp hp
    rw [hscope s sc hs] at hp
    cases hp
  · intro s q java hj
    obtain ⟨sc, hs, hj⟩ := Option.bind_eq_some_iff.mp hj
    rw [hscope s sc hs, Relocation.emptyMap, Array.getElem?_replicate] at hj
    split at hj <;> cases hj

-- An item that is neither a mark nor the edge of a copy leaves the scopes as they are.
theorem put_reloc {item : Item UInt16} (hmark : ∀ q, item ≠ .mark q) (henter : item ≠ .enter)
    (hleave : ∀ a b c, item ≠ .leave a b c) :
    (l.put item).reloc = l.reloc ∧ (l.put item).scope = l.scope ∧
      (l.put item).outer = l.outer := by
  cases item with
  | mark q => exact absurd rfl (hmark q)
  | enter => exact absurd rfl henter
  | leave a b c => exact absurd rfl (hleave a b c)
  | switch targets =>
    simp only [put, putSwitch]
    split <;> exact ⟨rfl, rfl, rfl⟩
  | _ => exact ⟨rfl, rfl, rfl⟩

-- A note of the present position in any scope.
theorem Valid.record (h : l.Valid size) (scope pos : Nat) :
    Valid size { l with reloc := l.reloc.record scope pos l.out.pos } where
  size_eq := h.size_eq
  full := Relocation.full_record h.full
  scope_lt := by simpa using h.scope_lt
  outer_lt := by simpa using h.outer_lt
  parent_lt := by
    intro s p hp
    rw [Relocation.parent_record] at hp
    exact h.parent_lt s p hp
  java_le := by
    intro s q java hj
    obtain ⟨-, -, rfl⟩ | hj := Relocation.getLocal_record_eq_some hj
    · exact Nat.le_refl _
    · exact h.java_le s q java hj

theorem Valid.enter (h : l.Valid size) : l.enter.Valid size where
  size_eq := h.size_eq
  full := Relocation.full_pushScope h.full
  scope_lt := by simp [Layout.enter, Relocation.nextScope]
  outer_lt := by
    intro p hp
    simp only [Layout.enter, Relocation.size_pushScope] at hp ⊢
    obtain rfl | hp := List.mem_cons.mp hp
    · exact Nat.lt_succ_of_lt h.scope_lt
    · exact Nat.lt_succ_of_lt (h.outer_lt p hp)
  parent_lt := by
    intro s p hp
    simp only [Layout.enter, Relocation.parent_pushScope] at hp
    split at hp
    · cases hp
      rename_i hs
      exact hs ▸ h.scope_lt
    · exact h.parent_lt s p hp
  java_le := by
    intro s q java hj
    simp only [Layout.enter, Relocation.getLocal_pushScope] at hj
    exact h.java_le s q java hj

theorem Valid.leave (h : l.Valid size) (site finallyStart stop : Nat) :
    (l.leave site finallyStart stop).Valid size := by
  unfold Layout.leave
  split
  · exact h
  · rename_i parent javaStart outer houter
    have hr := h.record l.scope stop
    exact {
      size_eq := h.size_eq
      full := Relocation.full_closeScope hr.full
      scope_lt := by simpa using h.outer_lt (parent, javaStart) (by simp [houter])
      outer_lt := by
        intro p hp
        simpa using h.outer_lt p (by simp [houter, hp])
      parent_lt := by
        intro s p hp
        simp only [Relocation.parent_closeScope] at hp
        exact hr.parent_lt s p hp
      java_le := by
        intro s q java hj
        simp only [Relocation.getLocal_closeScope] at hj
        exact hr.java_le s q java hj }

theorem Valid.put (h : l.Valid size) (item : Item UInt16) : (l.put item).Valid size := by
  by_cases hmark : ∃ q, item = .mark q
  · obtain ⟨q, rfl⟩ := hmark
    exact h.record l.scope q
  by_cases henter : item = .enter
  · subst henter
    exact h.enter
  by_cases hleave : ∃ a b c, item = .leave a b c
  · obtain ⟨a, b, c, rfl⟩ := hleave
    exact h.leave a b c
  -- Every other item writes code and leaves the rest.
  have hpos := l.pos_put item
  obtain ⟨hr, hs, ho⟩ := put_reloc (l := l) (fun q hq => hmark ⟨q, hq⟩) henter
    (fun a b c hc => hleave ⟨a, b, c, hc⟩)
  exact {
    size_eq := by rw [hr]; exact h.size_eq
    full := by rw [hr]; exact h.full
    scope_lt := by rw [hr, hs]; exact h.scope_lt
    outer_lt := by rw [hr, ho]; exact h.outer_lt
    parent_lt := by rw [hr]; exact h.parent_lt
    java_le := by
      intro s q java hj
      rw [hr] at hj
      have := h.java_le s q java hj
      omega }

theorem Valid.puts (h : l.Valid size) (items : List (Item UInt16)) :
    (l.puts items).Valid size := by
  induction items generalizing l with
  | nil => exact h
  | cons item rest ih => exact ih (h.put item)

end Layout

-- What a scope knows of a position after notes, of which the last wins.
def noted (known : Nat → Option Nat) : List (Nat × Nat) → Nat → Option Nat
  | [], q => known q
  | (pos, java) :: rest, q => noted (fun q => if q = pos then some java else known q) rest q

theorem noted_append (known : Nat → Option Nat) (ps qs : List (Nat × Nat)) :
    noted known (ps ++ qs) = noted (noted known ps) qs := by
  induction ps generalizing known with
  | nil => rfl
  | cons p ps ih => exact ih _

theorem noted_of_not_mem {known : Nat → Option Nat} {ps : List (Nat × Nat)} {q : Nat}
    (h : q ∉ ps.map Prod.fst) : noted known ps q = known q := by
  induction ps generalizing known with
  | nil => rfl
  | cons p ps ih =>
    rw [List.map_cons, List.mem_cons, not_or] at h
    rw [noted, ih h.2, if_neg h.1]

-- If no position is noted twice, each note stands.
theorem noted_of_mem {known : Nat → Option Nat} {ps : List (Nat × Nat)} {q java : Nat}
    (hnodup : (ps.map Prod.fst).Pairwise (· < ·)) (h : (q, java) ∈ ps) :
    noted known ps q = some java := by
  induction ps generalizing known with
  | nil => cases h
  | cons p ps ih =>
    rw [List.map_cons, List.pairwise_cons] at hnodup
    obtain rfl | h := List.mem_cons.mp h
    · have hlater : q ∉ ps.map Prod.fst := by
        intro hq
        exact Nat.lt_irrefl q (hnodup.1 q hq)
      rw [noted, noted_of_not_mem hlater, if_pos rfl]
    · exact ih hnodup.2 h

-- The notes `ps` of the open scope take a layout to another: with them the code only grew, and no
-- scope that was there but the open one has new notes.
structure Marked (l l' : Layout) (ps : List (Nat × Nat)) : Prop where
  scope : l'.scope = l.scope
  outer : l'.outer = l.outer
  pos_le : l.out.pos ≤ l'.out.pos
  grow : l.reloc.scopes.size ≤ l'.reloc.scopes.size
  parent : ∀ s < l.reloc.scopes.size, l'.reloc.parent s = l.reloc.parent s
  others : ∀ s < l.reloc.scopes.size, s ≠ l.scope →
    ∀ q, l'.reloc.getLocal s q = l.reloc.getLocal s q
  own : ∀ q, l'.reloc.getLocal l.scope q = noted (l.reloc.getLocal l.scope) ps q
  span : ∀ p ∈ ps, l.out.pos ≤ p.2 ∧ p.2 ≤ l'.out.pos
  sorted : (ps.map Prod.snd).Pairwise (· ≤ ·)

namespace Marked

variable {l l₁ l₂ : Layout} {ps qs : List (Nat × Nat)}

theorem refl (l : Layout) : Marked l l [] where
  scope := rfl
  outer := rfl
  pos_le := Nat.le_refl _
  grow := Nat.le_refl _
  parent _ _ := rfl
  others _ _ _ _ := rfl
  own _ := rfl
  span := by simp
  sorted := List.Pairwise.nil

theorem trans (h₁ : Marked l l₁ ps) (h₂ : Marked l₁ l₂ qs) : Marked l l₂ (ps ++ qs) where
  scope := h₂.scope.trans h₁.scope
  outer := h₂.outer.trans h₁.outer
  pos_le := Nat.le_trans h₁.pos_le h₂.pos_le
  grow := Nat.le_trans h₁.grow h₂.grow
  parent s hs := (h₂.parent s (Nat.lt_of_lt_of_le hs h₁.grow)).trans (h₁.parent s hs)
  others s hs hne q := by
    have hs₁ := Nat.lt_of_lt_of_le hs h₁.grow
    rw [h₂.others s hs₁ (by rw [h₁.scope]; exact hne), h₁.others s hs hne]
  own q := by
    have h := h₂.own q
    rw [h₁.scope] at h
    rw [h, noted_append, funext h₁.own]
  span p hp := by
    have := h₁.pos_le
    have := h₂.pos_le
    obtain hp | hp := List.mem_append.mp hp
    · have := h₁.span p hp
      omega
    · have := h₂.span p hp
      omega
  sorted := by
    rw [List.map_append, List.pairwise_append]
    refine ⟨h₁.sorted, h₂.sorted, ?_⟩
    intro a ha b hb
    obtain ⟨p, hp, rfl⟩ := List.mem_map.mp ha
    obtain ⟨q, hq, rfl⟩ := List.mem_map.mp hb
    have := h₁.span p hp
    have := h₂.span q hq
    omega

theorem mark {size pos : Nat} (hv : l.Valid size) (hpos : pos ≤ size) :
    Marked l (l.put (.mark pos)) [(pos, l.out.pos)] where
  scope := rfl
  outer := rfl
  pos_le := Nat.le_refl _
  grow := by simp [Layout.put]
  parent s _ := Relocation.parent_record s
  others s _ hne q := by
    rw [Layout.put, Relocation.getLocal_record hv.full hv.scope_lt (hv.size_eq ▸ hpos),
      if_neg (fun h => hne h.1)]
  own q := by
    rw [Layout.put, Relocation.getLocal_record hv.full hv.scope_lt (hv.size_eq ▸ hpos)]
    simp [noted]
  span := by simp [Layout.put]
  sorted := List.pairwise_singleton _ _

-- An item that is no mark and no edge of a copy.
theorem item {item : Item UInt16} (hmark : ∀ q, item ≠ .mark q) (henter : item ≠ .enter)
    (hleave : ∀ a b c, item ≠ .leave a b c) : Marked l (l.put item) [] := by
  obtain ⟨hr, hs, ho⟩ := Layout.put_reloc (l := l) hmark henter hleave
  exact {
    scope := hs
    outer := ho
    pos_le := by rw [Layout.pos_put]; exact Nat.le_add_right _ _
    grow := Nat.le_of_eq (congrArg (·.scopes.size) hr.symm)
    parent := by rw [hr]; simp
    others := by rw [hr]; simp
    own := by rw [hr]; exact fun _ => rfl
    span := by simp
    sorted := List.Pairwise.nil }

theorem inert {items : List (Item UInt16)} (hi : Item.Inert items) (l : Layout) :
    Marked l (l.puts items) [] := by
  induction items generalizing l with
  | nil => exact refl l
  | cons x xs ih =>
    rw [Item.inert_cons] at hi
    have hx : Marked l (l.put x) [] := by
      refine item ?_ ?_ ?_ <;> intros <;> rintro rfl <;> simp [Item.isInert] at hi
    exact hx.trans (ih hi.2 (l.put x))

-- A copy notes what it holds in a scope of its own.
theorem copy {size : Nat} {body : List (Item UInt16)} (hv : l.Valid size)
    (h : Marked l.enter (l.enter.puts body) ps) (site finallyStart stop : Nat) :
    Marked l ((l.enter.puts body).put (.leave site finallyStart stop)) [] := by
  have houter : (l.enter.puts body).outer = (l.scope, l.out.pos) :: l.outer := h.outer
  have hscope : (l.enter.puts body).scope = l.reloc.scopes.size := h.scope
  have hgrow : l.reloc.scopes.size + 1 ≤ (l.enter.puts body).reloc.scopes.size := by
    simpa [Layout.enter] using h.grow
  -- The scopes before the copy are those before its own.
  have hlocal : ∀ s < l.reloc.scopes.size, ∀ q,
      (l.enter.puts body).reloc.getLocal s q = l.reloc.getLocal s q := by
    intro s hs q
    rw [h.others s (by simp [Layout.enter]; omega)
      (by simp [Layout.enter, Relocation.nextScope]; omega)]
    exact Relocation.getLocal_pushScope s q
  rw [Layout.put_leave, Layout.leave, houter]
  exact {
    scope := rfl
    outer := rfl
    pos_le := h.pos_le
    grow := by
      simp only [Relocation.size_closeScope, Relocation.size_record]
      omega
    parent := by
      intro s hs
      rw [Relocation.parent_closeScope, Relocation.parent_record,
        h.parent s (by simp [Layout.enter]; omega)]
      simp only [Layout.enter, Relocation.parent_pushScope]
      rw [if_neg (by omega)]
    others := by
      intro s hs _ q
      rw [Relocation.getLocal_closeScope, Relocation.getLocal_record_of_ne (.inl (by omega)), hlocal s hs]
    own := by
      intro q
      have hs := hv.scope_lt
      rw [Relocation.getLocal_closeScope, Relocation.getLocal_record_of_ne (.inl (by omega)), hlocal _ hs]
      rfl
    span := by simp
    sorted := List.Pairwise.nil }

end Marked

-- The item of a jump or a switch is neither a mark nor the edge of a copy.
theorem Marked.branch {i : Instr} {b : Item UInt16} (hb : branchItem? i = some b) (l : Layout) :
    Marked l (l.put b) [] := by
  unfold branchItem? at hb
  refine Marked.item ?_ ?_ ?_ <;> intros <;> rintro rfl <;> split at hb <;> cases hb

theorem Marked.jump (l : Layout) (kind : JumpKind) (op : UInt8) (target : UInt16) :
    Marked l (l.put (.jump kind op target)) [] := by
  refine Marked.item ?_ ?_ ?_ <;> intros <;> rintro ⟨⟩

-- What follows a comparison is the next instruction.
theorem ofRest_eq_jump {rest : List Instr} {fault : Option DecodeFault} {pos : Nat} {sense : Bool}
    {target : UInt16} (h : Following.ofRest rest fault = .jump pos sense target) :
    ∃ j rest', rest = j :: rest' ∧ pos = j.pos ∧ target = j.arg ∧
      Following.sense? j.op = some sense := by
  cases rest with
  | nil =>
    simp only [Following.ofRest] at h
    split at h <;> cases h
  | cons j rest =>
    simp only [Following.ofRest] at h
    split at h
    · rename_i sense' hs
      cases h
      exact ⟨j, rest, rfl, rfl, rfl, hs⟩
    · cases h

theorem Shape.marked {i : Instr} {next : Following} {own : List (Item UInt16)}
    (h : Shape i next false own) (l : Layout) : Marked l (l.puts own) [] := by
  cases h with
  | branch hb => exact Marked.branch hb l
  | inert _ hi => exact Marked.inert hi l

-- A comparison with the jump behind it notes the position of the jump.
theorem Shape.marked_fused {i j : Instr} {rest : List Instr} {own : List (Item UInt16)}
    {l : Layout} {size : Nat} (h : Shape i (.ofRest (j :: rest) none) true own)
    (hv : l.Valid size) (hj : j.pos ≤ size) : ∃ java, Marked l (l.puts own) [(j.pos, java)] := by
  cases h with
  | @fused pos sense target pre before op hc hnext hpre hbefore hop =>
    obtain ⟨j', rest', hrest', rfl, -, -⟩ := ofRest_eq_jump hnext
    cases hrest'
    have hpre := Marked.inert hpre l
    have hmark := Marked.mark (hv.puts pre) hj
    have hbefore := Marked.inert hbefore ((l.puts pre).put (.mark j.pos))
    have hjump := Marked.jump (((l.puts pre).put (.mark j.pos)).puts before) .branch op target
    have hall := ((hpre.trans hmark).trans hbefore).trans hjump
    rw [Layout.puts_append, Layout.puts_cons, Layout.puts_append]
    exact ⟨_, hall⟩

-- The instructions of a body note their positions in order, each where its code begins.
theorem Emission.marked {env : ClassEnv} {f : Frame} {code : Bytes} {e e' : EmitState}
    {instrs : List Instr} {its : List (Item UInt16)} (h : Emission env f code e instrs its e')
    {start stop : Nat} (hs : Instr.Stream code stop start instrs) {l : Layout}
    (hv : l.Valid code.size) :
    ∃ ps, Marked l (l.puts its) ps ∧ ps.map Prod.fst = instrs.map Instr.pos := by
  have hsize : ∀ {start stop instrs}, Instr.Stream code stop start instrs →
      ∀ i ∈ instrs, i.pos ≤ code.size := by
    intro start stop instrs hs i hi
    have hd := Instr.decodeAt_size_le (hs.decodeAt_of_mem hi).1
    omega
  induction h generalizing l start stop with
  | nil => exact ⟨[], .refl l, rfl⟩
  | @one e e₁ e₂ i rest its more hi hrest ih =>
    have hmark := Marked.mark hv (hsize hs i List.mem_cons_self)
    have hits := hi.shape.marked (l.put (.mark i.pos))
    cases hs with
    | step _ _ hs =>
      obtain ⟨ps, hps, hpos⟩ := ih hs ((hv.put (.mark i.pos)).puts its)
      have hall := (hmark.trans hits).trans hps
      rw [← Layout.puts_append, ← Layout.puts_cons] at hall
      exact ⟨_, hall, by simp [hpos]⟩
  | @fused e e₁ e₂ i j rest its more hi hrest ih =>
    have hmark := Marked.mark hv (hsize hs i List.mem_cons_self)
    have hv₁ := hv.put (.mark i.pos)
    obtain ⟨java, hits⟩ := hi.shape.marked_fused hv₁ (hsize hs j (by simp))
    cases hs with
    | step _ _ hs =>
      cases hs with
      | step _ _ hs =>
        obtain ⟨ps, hps, hpos⟩ := ih hs (hv₁.puts its)
        have hall := (hmark.trans hits).trans hps
        rw [← Layout.puts_append, ← Layout.puts_cons] at hall
        exact ⟨_, hall, by simp [hpos]⟩
  | @copy e e₁ e₂ i rest inner stop' body more hop hstrategy hstop hinner hbody hrest ihbody ihrest =>
    have hmark := Marked.mark hv (hsize hs i List.mem_cons_self)
    have hv₁ := hv.put (.mark i.pos)
    obtain ⟨qs, hqs, -⟩ := ihbody hinner hv₁.enter
    have hcopy := hqs.copy hv₁ i.pos i.arg.toNat stop'
    cases hs with
    | step _ _ hs =>
      obtain ⟨ps, hps, hpos⟩ := ihrest hs
        ((hv₁.enter.puts body).put (.leave i.pos i.arg.toNat stop'))
      have hall := (hmark.trans hcopy).trans hps
      rw [Layout.puts_cons, Layout.puts_cons, Layout.puts_append]
      exact ⟨_, hall, by simp [hpos]⟩

-- All jumps of a body are made by jump instructions.
theorem Emission.regular {env : ClassEnv} {f : Frame} {code : Bytes} {e e' : EmitState}
    {instrs : List Instr} {its : List (Item UInt16)} (h : Emission env f code e instrs its e') :
    ∀ x ∈ its, x.Regular := by
  have hinert : ∀ {xs : List (Item UInt16)}, Item.Inert xs → ∀ x ∈ xs, x.Regular := by
    intro xs hxs x hx
    have hi := hxs x hx
    cases x <;> trivial
  induction h with
  | nil => simp
  | one hi _ ih =>
    intro x hx
    obtain rfl | hx := List.mem_cons.mp hx
    · trivial
    obtain hx | hx := List.mem_append.mp hx
    · cases hi.shape with
      | branch hb =>
        obtain rfl := List.mem_singleton.mp hx
        unfold branchItem? at hb
        split at hb <;> cases hb <;> trivial
      | inert _ hi => exact hinert hi x hx
    · exact ih x hx
  | fused hi _ ih =>
    intro x hx
    obtain rfl | hx := List.mem_cons.mp hx
    · trivial
    obtain hx | hx := List.mem_append.mp hx
    · cases hi.shape with
      | fused _ _ hpre hbefore hop =>
        obtain hx | hx := List.mem_append.mp hx
        · exact hinert hpre x hx
        obtain rfl | hx := List.mem_cons.mp hx
        · trivial
        obtain hx | hx := List.mem_append.mp hx
        · exact hinert hbefore x hx
        · obtain rfl := List.mem_singleton.mp hx
          exact ⟨by decide, hop⟩
    · exact ih x hx
  | copy _ _ _ _ _ _ ihbody ihrest =>
    intro x hx
    obtain rfl | hx := List.mem_cons.mp hx
    · trivial
    obtain rfl | hx := List.mem_cons.mp hx
    · trivial
    obtain hx | hx := List.mem_append.mp hx
    · exact ihbody x hx
    obtain rfl | hx := List.mem_cons.mp hx
    · trivial
    · exact ihrest x hx

namespace Layout

variable {l : Layout} {s q java : Nat}

-- An item notes the present position in the open scope, if it is a mark or the end of a copy.
theorem getLocal_put {item : Item UInt16} (h : (l.put item).reloc.getLocal s q = some java) :
    l.reloc.getLocal s q = some java ∨
      l.scope = s ∧ java = l.out.pos ∧ (item = .mark q ∨ ∃ a b, item = .leave a b q) := by
  by_cases hmark : ∃ q, item = .mark q
  · obtain ⟨q', rfl⟩ := hmark
    obtain ⟨rfl, rfl, rfl⟩ | h := Relocation.getLocal_record_eq_some h
    · exact .inr ⟨rfl, rfl, .inl rfl⟩
    · exact .inl h
  by_cases henter : item = .enter
  · subst henter
    rw [put, enter, Relocation.getLocal_pushScope] at h
    exact .inl h
  by_cases hleave : ∃ a b c, item = .leave a b c
  · obtain ⟨a, b, q', rfl⟩ := hleave
    simp only [put, leave] at h
    split at h
    · exact .inl h
    · rw [Relocation.getLocal_closeScope] at h
      obtain ⟨rfl, rfl, rfl⟩ | h := Relocation.getLocal_record_eq_some h
      · exact .inr ⟨rfl, rfl, .inr ⟨a, b, rfl⟩⟩
      · exact .inl h
  · obtain ⟨hr, -, -⟩ := put_reloc (l := l) (fun q hq => hmark ⟨q, hq⟩) henter
      (fun a b c hc => hleave ⟨a, b, c, hc⟩)
    rw [hr] at h
    exact .inl h

-- Where a note comes from: a mark, or the end of a copy, that was written when its scope was open.
theorem exists_note {items : List (Item UInt16)}
    (h : (l.puts items).reloc.getLocal s q = some java) :
    l.reloc.getLocal s q = some java ∨
      ∃ pre item post, items = pre ++ item :: post ∧ (l.puts pre).scope = s ∧
        java = (l.puts pre).out.pos ∧ (item = .mark q ∨ ∃ a b, item = .leave a b q) := by
  induction items generalizing l with
  | nil => exact .inl h
  | cons item rest ih =>
    obtain h | ⟨pre, x, post, rfl, hscope, hjava, hx⟩ := ih h
    · obtain h | ⟨hscope, hjava, hx⟩ := getLocal_put h
      · exact .inl h
      · exact .inr ⟨[], item, rest, rfl, hscope, hjava, hx⟩
    · exact .inr ⟨item :: pre, x, post, rfl, hscope, hjava, hx⟩

end Layout

end PodCompiler.Lowering
