import PodCompiler.Proofs.ClassFile.Fields
import PodCompiler.Proofs.ClassFile.RoundTrip

namespace PodCompiler.ClassFile

-- The signature of the member that an insertion refers to.
def PoolEdit.memberSig? : PoolEdit → Option String
  | .field sig | .method sig | .interfaceMethod sig => some sig
  | _ => none

namespace Pool

variable {p p' : Pool} {i c n : UInt16} {m : Member}

theorem Filled.nameAndType_table (h : p.Filled) {names : String × String}
    (hn : Constants.nameAndType? p.get? n = some names) : p.table.nameAndType n = .ok names := by
  unfold Constants.nameAndType? at hn
  split at hn
  · rename_i a b hab
    obtain ⟨name, hname, hrest⟩ := Option.bind_eq_some_iff.mp hn
    obtain ⟨desc, hdesc, hpure⟩ := Option.bind_eq_some_iff.mp hrest
    cases hpure
    rw [ConstantTable.nameAndType, h.get_table hab]
    simp only [bind, Except.bind, h.utf8_table hname, h.utf8_table hdesc]
    rfl
  · cases hn

-- The parts of a member stand behind the two indices of its constant.
theorem Filled.member_table (h : p.Filled) (hm : Constants.member? p.get? c n = some m) :
    p.table.nameAndType n = .ok (m.name, m.desc) ∧ p.table.className c = .ok m.owner := by
  obtain ⟨owner, howner, hrest⟩ := Option.bind_eq_some_iff.mp hm
  obtain ⟨names, hnames, hpure⟩ := Option.bind_eq_some_iff.mp hrest
  cases hpure
  exact ⟨h.nameAndType_table hnames, h.className_table howner⟩

theorem Filled.describe_field (h : p.Filled) (hi : p.get? i = some (.fieldref c n))
    (hm : Constants.member? p.get? c n = some m) :
    p.table.describe i = .ok (m.owner ++ "." ++ m.name ++ ":" ++ m.desc) := by
  obtain ⟨hnames, howner⟩ := h.member_table hm
  rw [ConstantTable.describe, h.get_table hi]
  simp only [bind, Except.bind, hnames, howner]
  rfl

theorem Filled.describe_method (h : p.Filled)
    (hi : p.get? i = some (.methodref c n) ∨ p.get? i = some (.interfaceMethodref c n))
    (hm : Constants.member? p.get? c n = some m) :
    p.table.describe i = .ok (m.owner ++ "." ++ m.name ++ m.desc) := by
  obtain ⟨hnames, howner⟩ := h.member_table hm
  rcases hi with hi | hi
  · rw [ConstantTable.describe, h.get_table hi]
    simp only [bind, Except.bind, hnames, howner]
    rfl
  · rw [ConstantTable.describe, h.get_table hi]
    simp only [bind, Except.bind, hnames, howner]
    rfl

-- A reference is described by its signature in every pool that has what it was inserted with.
theorem describe_inserted {e : PoolEdit} {sig : String} (hsig : e.memberSig? = some sig)
    (hp : p.Built) (h : e.run p = .ok i p') {q : Pool} (hq : q.Filled)
    (hext : Constants.Extends q.get? p'.get?) : q.table.describe i = .ok sig := by
  unfold PoolEdit.memberSig? at hsig
  split at hsig
  · cases hsig
    obtain ⟨-, -, m, c, n, hm, hi, hmember⟩ := member_eq_ok hp h
    rw [hq.describe_field (hext _ _ hi) (hext.member? hmember), Member.ofField_eq_ok hm]
  · cases hsig
    obtain ⟨-, -, m, c, n, hm, hi, hmember⟩ := member_eq_ok hp h
    rw [hq.describe_method (.inl (hext _ _ hi)) (hext.member? hmember), Member.ofMethod_eq_ok hm]
  · cases hsig
    obtain ⟨-, -, m, c, n, hm, hi, hmember⟩ := member_eq_ok hp h
    rw [hq.describe_method (.inr (hext _ _ hi)) (hext.member? hmember), Member.ofMethod_eq_ok hm]
  · cases hsig

end Pool

namespace Draft

variable {α β : Type} {d d' : Draft}

-- Steps, also such as fail, leave the constants where they are.
def Filling (m : DraftM α) : Prop :=
  ∀ d : Draft, d.pool.Filled →
    (stateAfter (m d)).pool.Filled ∧ d.pool.Grows (stateAfter (m d)).pool

theorem filling_pure (a : α) : Filling (pure a) :=
  fun _ hd => ⟨hd, .refl _⟩

theorem filling_onPool {m : PoolM α} (hm : Pool.Filling m) : Filling (onPool m) := by
  intro d hd
  have hafter := hm d.pool hd
  unfold onPool
  dsimp only
  cases h : m d.pool with
  | ok a p =>
    rw [h] at hafter
    exact hafter
  | error e p =>
    rw [h] at hafter
    exact hafter

theorem filling_bind {m : DraftM α} {k : α → DraftM β} (hm : Filling m) (hk : ∀ a, Filling (k a)) :
    Filling (m >>= k) := by
  intro d hd
  change (stateAfter (EStateM.bind m k d)).pool.Filled ∧
    d.pool.Grows (stateAfter (EStateM.bind m k d)).pool
  obtain ⟨hfirst, hgrows⟩ := hm d hd
  unfold EStateM.bind
  cases h : m d with
  | ok a d₁ =>
    rw [h] at hfirst hgrows
    obtain ⟨hsecond, hgrows'⟩ := hk a d₁ hfirst
    exact ⟨hsecond, hgrows.trans hgrows'⟩
  | error e d₁ =>
    rw [h] at hfirst hgrows
    exact ⟨hfirst, hgrows⟩

theorem filling_modify {f : Draft → Draft} (hf : ∀ d, (f d).pool = d.pool) :
    Filling (modify f) := by
  intro d hd
  change (f d).pool.Filled ∧ d.pool.Grows (f d).pool
  rw [hf d]
  exact ⟨hd, .refl _⟩

theorem filling_run (e : Edit) : Filling e.run := by
  cases e with
  | «interface» name =>
    refine filling_bind (fun d hd => ⟨hd, .refl _⟩) fun _ => ?_
    split
    · exact filling_pure _
    · exact filling_bind (filling_onPool (Pool.filling_class name)) fun i =>
        filling_modify fun d => rfl
  | field access name desc =>
    exact filling_bind (filling_onPool (Pool.filling_add _)) fun i =>
      filling_bind (filling_onPool (Pool.filling_add _)) fun j => filling_modify fun d => rfl
  | method access name desc code =>
    change Filling (addMethod access name desc code)
    unfold addMethod
    split
    · exact fun d hd => ⟨hd, .refl _⟩
    · exact filling_bind (filling_onPool (Pool.filling_add _)) fun i =>
        filling_bind (filling_onPool (Pool.filling_add _)) fun j => filling_modify fun d => rfl
  | source file => exact filling_modify fun d => rfl
  | pool e => exact filling_bind (filling_onPool (Pool.filling_run e)) fun i => filling_pure _

theorem filled_edited (edits : List Edit) (hd : d.pool.Filled) :
    (d.edited edits).pool.Filled ∧ d.pool.Grows (d.edited edits).pool := by
  induction edits generalizing d with
  | nil => exact ⟨hd, .refl _⟩
  | cons e edits ih =>
    obtain ⟨hfirst, hgrows⟩ := filling_run e d hd
    obtain ⟨hrest, hgrows'⟩ := ih hfirst
    exact ⟨hrest, hgrows.trans hgrows'⟩

theorem edited_append (before after : List Edit) :
    d.edited (before ++ after) = (d.edited before).edited after :=
  List.foldl_append

theorem edited_cons (e : Edit) (after : List Edit) :
    d.edited (e :: after) = (stateAfter (e.run d)).edited after :=
  rfl

-- An insertion changes the pool only.
theorem edited_pool (ops : List PoolEdit) :
    ∃ p, d.edited (ops.map Edit.pool) = { d with pool := p } := by
  induction ops generalizing d with
  | nil => exact ⟨d.pool, rfl⟩
  | cons op ops ih =>
    have hone : ∃ p, stateAfter ((Edit.pool op).run d) = { d with pool := p } := by
      refine stateAfter_onPool_bind (P := fun d' => ∃ p, d' = { d with pool := p }) ?_ ?_
      · exact fun i p _ => ⟨p, rfl⟩
      · exact fun e p _ => ⟨p, rfl⟩
    obtain ⟨p, hp⟩ := hone
    obtain ⟨p', hp'⟩ := ih (d := { d with pool := p })
    refine ⟨p', ?_⟩
    rw [List.map_cons, edited_cons, hp, hp']

-- A class into whose pool something was inserted fits if its texts are short.
theorem fits_pool_iff {name superName : String} {access major : UInt16}
    (hcreate : create name superName access major = .ok d) (ops : List PoolEdit) :
    (d.edited (ops.map Edit.pool)).Fits ↔
      ∀ c ∈ (d.edited (ops.map Edit.pool)).pool.entries, c.Short := by
  refine ⟨Fits.texts, fun hshort => ?_⟩
  obtain ⟨p, hp⟩ := edited_pool (d := d) ops
  rw [hp] at hshort ⊢
  unfold create at hcreate
  dsimp only at hcreate
  split at hcreate
  · cases hcreate
    exact ⟨hshort, by simp, by simp, by simp, by simp, by simp⟩
  · cases hcreate

theorem stateAfter_pool {e : PoolEdit} {i : UInt16} {p : Pool} (h : e.run d.pool = .ok i p) :
    stateAfter ((Edit.pool e).run d) = { d with pool := p } := by
  refine stateAfter_onPool_bind (P := fun d' => d' = { d with pool := p }) ?_ ?_
  · intro j q hq
    cases h.symm.trans hq
    rfl
  · intro err q hq
    cases h.symm.trans hq

theorem describe_finished {name superName : String} {access major : UInt16}
    (hcreate : create name superName access major = .ok d) {before after : List Edit}
    {e : PoolEdit} {sig : String} {i : UInt16} {p : Pool} {bytes : Bytes}
    (hsig : e.memberSig? = some sig) (hrun : e.run (d.edited before).pool = .ok i p)
    (hfits : (d.edited (before ++ .pool e :: after)).Fits)
    (hfinish : (d.edited (before ++ .pool e :: after)).finish = .ok bytes) :
    ∃ cls, Parsed.parse bytes = .ok cls ∧ cls.pool.describe i = .ok sig := by
  have hd := coherent_create hcreate
  obtain ⟨hbefore, -⟩ := filled_edited before hd.pool
  obtain ⟨hfilled, hgrows⟩ := (Pool.filling_run e).of_ok hbefore hrun
  -- the pool grows from the insertion to the last step, and from there to the names of attributes
  have hafter : d.edited (before ++ .pool e :: after) =
      edited { d.edited before with pool := p } after := by
    rw [edited_append, edited_cons, stateAfter_pool hrun]
  obtain ⟨-, hgrowsAfter⟩ := filled_edited (d := { d.edited before with pool := p }) after hfilled
  rw [← hafter] at hgrowsAfter
  obtain ⟨attrs, q, hread⟩ := parse_finish hcreate hfits hfinish
  have hcompleted := completed_of_attrNames (coherent_edited _ hd) hfits hread.completed
  have hext := (hgrowsAfter.trans hcompleted.grows).extends hcompleted.filled.built
  exact ⟨_, hread.parsed, Pool.describe_inserted hsig hbefore.built hrun hcompleted.filled hext⟩

-- References to members survive the pool. Whatever is done to a class before a reference is inserted
-- and after, the finished class describes it by its signature; if all that is done are insertions
-- into the pool, the class fits as soon as its texts do. A signature is cut into the parts it is made
-- of.
theorem member_refs_survive {name superName : String} {access major : UInt16}
    (hcreate : create name superName access major = .ok d) :
    (∀ (before after : List Edit) (e : PoolEdit) (sig : String) (i : UInt16) (p : Pool)
        (bytes : Bytes), e.memberSig? = some sig → e.run (d.edited before).pool = .ok i p →
      (d.edited (before ++ .pool e :: after)).Fits →
      (d.edited (before ++ .pool e :: after)).finish = .ok bytes →
      ∃ cls, Parsed.parse bytes = .ok cls ∧ cls.pool.describe i = .ok sig) ∧
    (∀ ops : List PoolEdit, (d.edited (ops.map Edit.pool)).Fits ↔
      ∀ c ∈ (d.edited (ops.map Edit.pool)).pool.entries, c.Short) ∧
    (∀ owner name desc : String, owner ≠ "" → name ≠ "" → desc ≠ "" →
      ':' ∉ owner.toList ++ name.toList → '.' ∉ name.toList →
      Member.ofField (owner ++ "." ++ name ++ ":" ++ desc) = .ok ⟨owner, name, desc⟩) ∧
    (∀ owner name desc : String, owner ≠ "" → name ≠ "" →
      '(' ∉ owner.toList ++ name.toList → '.' ∉ name.toList →
      Member.ofMethod (owner ++ "." ++ name ++ ("(" ++ desc)) =
        .ok ⟨owner, name, "(" ++ desc⟩) := by
  refine ⟨?_, fits_pool_iff hcreate, ?_, ?_⟩
  · intro before after e sig i p bytes hsig hrun hfits hfinish
    exact describe_finished hcreate hsig hrun hfits hfinish
  · intro owner name desc howner hname hdesc hcolon hdot
    exact Member.ofField_append howner hname hdesc hcolon hdot
  · intro owner name desc howner hname hbracket hdot
    exact Member.ofMethod_append howner hname hbracket hdot

-- A number, a method and a field, inserted one after the other.
def memberInsertions : List PoolEdit :=
  [.add (.long 7), .method "C.m(J)V", .field "D.f:J"]

theorem member_refs_survive_insertions : ∃ d, create "A" "B" 0x21 49 = .ok d ∧
    ∃ i p bytes cls, PoolEdit.run (.method "C.m(J)V")
        (d.edited [.pool (.add (.long 7))]).pool = .ok i p ∧
      (d.edited (memberInsertions.map Edit.pool)).finish = .ok bytes ∧
      Parsed.parse bytes = .ok cls ∧ cls.pool.describe i = .ok "C.m(J)V" := by
  obtain ⟨d, hcreate, -⟩ := exists_create "A" "B" 0x21 49
  have hd := hcreate
  simp [create, Pool.class_, Pool.utf8, Pool.add, EStateM.run, bind, EStateM.bind, pure,
    EStateM.pure, Constant.width, Constant.isWide, Pool.limit] at hd
  have hmethod : Member.ofMethod "C.m(J)V" = .ok ⟨"C", "m", "(J)V"⟩ := rfl
  have hfield : Member.ofField "D.f:J" = .ok ⟨"D", "f", "J"⟩ := rfl
  have hrun : ∃ i p, PoolEdit.run (.method "C.m(J)V")
      (d.edited [.pool (.add (.long 7))]).pool = .ok i p := by
    subst hd
    simp [edited, Edit.run, PoolEdit.run, onPool, Pool.method, Pool.member, hmethod,
      Pool.nameAndType, Pool.class_, Pool.utf8, Pool.add, bind, EStateM.bind, pure, EStateM.pure,
      Constant.width, Constant.isWide, Pool.limit, stateAfter]
  have hall : (∀ c ∈ (d.edited (memberInsertions.map Edit.pool)).pool.entries, c.Short) ∧
      ∃ bytes, (d.edited (memberInsertions.map Edit.pool)).finish = .ok bytes := by
    generalize he : d.edited (memberInsertions.map Edit.pool) = e
    subst hd
    simp [memberInsertions, edited, Edit.run, PoolEdit.run, onPool, Pool.method, Pool.field,
      Pool.member, hmethod, hfield, Pool.nameAndType, Pool.class_, Pool.utf8, Pool.add, bind,
      EStateM.bind, pure, EStateM.pure, Constant.width, Constant.isWide, Pool.limit,
      stateAfter] at he
    subst he
    refine ⟨?_, ?_⟩
    · intro c hc s hs
      subst hs
      simp at hc
      obtain rfl | rfl | rfl | rfl | rfl | rfl | rfl | rfl := hc <;> decide
    · simp [finish, attrNames, Pool.utf8, Pool.add, bind, EStateM.bind, pure, EStateM.pure,
        EStateM.run, Constant.width, Constant.isWide, Pool.limit]
  obtain ⟨i, p, hrun⟩ := hrun
  obtain ⟨hshort, bytes, hfinish⟩ := hall
  obtain ⟨hsurvive, hfits, -⟩ := member_refs_survive hcreate
  obtain ⟨cls, hparse, hdescribe⟩ := hsurvive [.pool (.add (.long 7))] [.pool (.field "D.f:J")]
    (.method "C.m(J)V") "C.m(J)V" i p bytes rfl hrun ((hfits memberInsertions).mpr hshort) hfinish
  exact ⟨d, hcreate, i, p, bytes, cls, hrun, hfinish, hparse, hdescribe⟩

end Draft

end PodCompiler.ClassFile
