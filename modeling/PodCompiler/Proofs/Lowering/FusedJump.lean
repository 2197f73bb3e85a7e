import PodCompiler.Proofs.Lowering.FinalCode

namespace PodCompiler.Lowering

open ClassFile (CodeBuffer)
open ClassFile.Op
open Jvm (Form Instruction Machine Value)

-- The relations that the machine decides for two values of one type.
def Relation.Direct (rel : Relation) (t : StackType) : Prop :=
  t = .long ∨ t = .double ∨ t = .bool ∧ (rel = .eq ∨ rel = .ne)

-- The comparisons that the machine makes itself.
inductive DirectComparison (env : ClassEnv) (i : Instr) : Prop where
  | relation {rel : Relation} {t u : TypeRef} (hop : relation? i.op = some rel)
      (ht : typeRefAt env.pod.symbols i.arg = .ok t)
      (hu : typeRefAt env.pod.symbols (i.args.getD 1 0) = .ok u) (hsame : t.stack = u.stack)
      (hdirect : rel.Direct t.stack)
  | same (hop : i.op = .compareSame ∨ i.op = .compareNotSame)
  | null {t : TypeRef} (hop : i.op = .compareNull ∨ i.op = .compareNotNull)
      (ht : typeRefAt env.pod.symbols i.arg = .ok t) (hobject : t.isPrimitive = false)

-- The jumps that compare what they take.
def comparingJumps : List UInt8 :=
  [ifIcmpeq, ifIcmpne, ifAcmpeq, ifAcmpne, ifNull, ifNonNull]

-- Code that starts with a comparison: of two numbers, or by the jump itself.
def StartsComparing {ρ : Type} (before : List (Item ρ)) (op : UInt8) : Prop :=
  (∃ o ∈ [lcmp, dcmpl, dcmpg], before = [.op o]) ∨ before = [] ∧ op ∈ comparingJumps

theorem StartsComparing.inert {ρ : Type} {before : List (Item ρ)} {op : UInt8}
    (h : StartsComparing before op) : Item.Inert before := by
  obtain ⟨o, -, rfl⟩ | ⟨rfl, -⟩ := h
  · simp
  · simp

-- Such code holds no constant.
theorem StartsComparing.interned {env : ClassEnv} {c c' : OpenClass} {before : List (Item Ref)}
    {before' : List (Item UInt16)} {op : UInt8} (h : StartsComparing before op)
    (hits : Item.Interned env c before before' c') : StartsComparing before' op := by
  obtain ⟨o, ho, rfl⟩ | ⟨rfl, hop⟩ := h
  · cases hits with
    | cons hitem hnil =>
      cases hitem
      cases hnil
      exact .inl ⟨o, ho, rfl⟩
  · cases hits
    exact .inr ⟨rfl, hop⟩

-- The other sense of a jump compares too.
theorem StartsComparing.sense {before : List (Item Ref)} {op : UInt8}
    (h : StartsComparing before op) (sense : Bool) :
    StartsComparing before (if sense then op else negateBranch op) := by
  have hclosed : comparingJumps.all (negateBranch · ∈ comparingJumps) = true := by decide
  obtain h | ⟨hbefore, hop⟩ := h
  · exact .inl h
  · refine .inr ⟨hbefore, ?_⟩
    cases sense with
    | true => exact hop
    | false => exact of_decide_eq_true (List.all_eq_true.mp hclosed op hop)

theorem direct?_eq_some {rel : Relation} {t u : StackType} {before : List (Item Ref)} {op : UInt8}
    (h : Comparison.direct? rel t u = some (before, op)) :
    t = u ∧ rel.Direct t ∧ StartsComparing before op := by
  unfold Comparison.direct? at h
  split at h
  · rename_i htu
    subst htu
    unfold Relation.Direct StartsComparing comparingJumps
    split at h <;> cases h <;> simp
  · cases h

theorem direct?_eq_none {rel : Relation} {t : StackType} (h : Comparison.direct? rel t t = none) :
    ¬rel.Direct t := by
  unfold Comparison.direct? at h
  rw [if_pos rfl] at h
  rintro (rfl | rfl | ⟨rfl, rfl | rfl⟩)
  · cases h
  · cases rel <;> cases h
  · cases h
  · cases h

-- The code of a comparison before a conditional jump: with the jump in one, behind a call of the
-- runtime with the jump on its own, or without the jump.
inductive BeforeJump (q : Nat) (sense : Bool) (target : UInt16) (direct : Prop) : Compared → Prop where
  | together {before : List (Item Ref)} {op : UInt8} (hdirect : direct)
      (hbefore : StartsComparing before op) :
      BeforeJump q sense target direct (Comparison.fusedJump q before op sense target)
  | apart {call : Item Ref} {cmp : Compared} (hdirect : ¬direct) (hcall : call.isInert = true)
      (hitems : cmp.items = call :: (Comparison.fusedJump q [] ifne sense target).items)
      (hfused : cmp.fused = true) : BeforeJump q sense target direct cmp
  | without {cmp : Compared} (hdirect : ¬direct) (hfused : cmp.fused = false) :
      BeforeJump q sense target direct cmp

theorem Compares.beforeJump {env : ClassEnv} {i : Instr} {q : Nat} {sense : Bool} {target : UInt16}
    {cmp : Compared} (h : Compares env i (.jump q sense target) cmp) :
    BeforeJump q sense target (DirectComparison env i) cmp := by
  cases h with
  | @relation rel t u hop ht hu =>
    unfold Comparison.relation
    cases hd : Comparison.direct? rel t.stack u.stack with
    | some p =>
      obtain ⟨before, op⟩ := p
      obtain ⟨hsame, hdirect, hbefore⟩ := direct?_eq_some hd
      exact .together (.relation hop ht hu hsame hdirect) hbefore
    | none =>
      refine .apart ?_ rfl rfl rfl
      rintro (⟨hop', ht', hu', hsame, hdirect⟩ | hop' | ⟨hop', -, -⟩)
      · rw [hop] at hop'
        rw [ht] at ht'
        rw [hu] at hu'
        cases hop'
        cases ht'
        cases hu'
        rw [← hsame] at hd
        exact direct?_eq_none hd hdirect
      · obtain hop' | hop' := hop' <;> rw [hop'] at hop <;> cases hop
      · obtain hop' | hop' := hop' <;> rw [hop'] at hop <;> cases hop
  | same want hop =>
    refine .together (.same ?_) (.inr ⟨rfl, ?_⟩)
    · cases want <;> simp [hop]
    · cases want <;> decide
  | @null want t hop ht =>
    cases hprim : t.isPrimitive with
    | false =>
      unfold Comparison.null
      rw [hprim]
      refine .together (.null ?_ ht hprim) (.inr ⟨rfl, ?_⟩)
      · cases want <;> simp [hop]
      · cases want <;> decide
    | true =>
      refine .without ?_ (by rw [Comparison.null, if_pos hprim])
      rintro (⟨hop', -, -, -, -⟩ | hop' | ⟨-, ht', hobject⟩)
      · cases want <;> rw [hop] at hop' <;> cases hop'
      · cases want <;> rw [hop] at hop' <;> simp at hop'
      · rw [ht] at ht'
        cases ht'
        rw [hprim] at hobject
        cases hobject

theorem Compares.unique {env : ClassEnv} {i : Instr} {next : Following} {cmp cmp' : Compared}
    (h : Compares env i next cmp) (h' : Compares env i next cmp') : cmp = cmp' := by
  cases h with
  | relation hop ht hu =>
    cases h' with
    | relation hop' ht' hu' =>
      rw [hop] at hop'
      rw [ht] at ht'
      rw [hu] at hu'
      cases hop'
      cases ht'
      cases hu'
      rfl
    | same want hop' => cases want <;> rw [hop'] at hop <;> cases hop
    | null want hop' _ => cases want <;> rw [hop'] at hop <;> cases hop
  | same want hop =>
    cases h' with
    | relation hop' _ _ => cases want <;> rw [hop] at hop' <;> cases hop'
    | same want' hop' =>
      rw [hop] at hop'
      cases want <;> cases want' <;> first | rfl | cases hop'
    | null want' hop' _ =>
      rw [hop] at hop'
      cases want <;> cases want' <;> cases hop'
  | null want hop ht =>
    cases h' with
    | relation hop' _ _ => cases want <;> rw [hop] at hop' <;> cases hop'
    | same want' hop' =>
      rw [hop] at hop'
      cases want <;> cases want' <;> cases hop'
    | null want' hop' ht' =>
      rw [ht] at ht'
      cases ht'
      rw [hop] at hop'
      cases want <;> cases want' <;> first | rfl | cases hop'

-- What a conditional jump does that stands at `java`: it takes a bool and goes to `target` if that
-- is `sense`, and to `next` if not.
def BranchesOnBool (m : Machine) (java : Nat) (sense : Bool) (target next : Nat) : Prop :=
  ∀ b stack locals, m.step ⟨java, .ofBool b :: stack, locals⟩ =
    some (.next ⟨if b = sense then target else next, stack, locals⟩)

section Code

variable {env : ClassEnv} {f : Frame} {code : Bytes} {out : CodeBuffer} {c c₁ : OpenClass}
  {body : BodyState} {mc : MethodCode} {s pos q : Nat} {m : Machine}

-- A comparison does not start with a bool alone.
theorem Lowered.step_comparing (hl : Lowered env f code out c c₁ body mc)
    (hm : m.code = mc.code.code) {before rest : List (Item UInt16)} {op : UInt8} {target : UInt16}
    (hx : body.Stands code out s pos (before ++ Item.jump .branch op target :: rest))
    (hbefore : StartsComparing before op) (b : Bool) (locals : Jvm.Locals) :
    m.step ⟨pos, [.ofBool b], locals⟩ = none := by
  obtain ⟨o, ho, rfl⟩ | ⟨rfl, hop⟩ := hbefore
  · simp only [List.mem_cons, List.not_mem_nil, or_false] at ho
    obtain rfl | rfl | rfl := ho
    · exact Machine.step_of_fetch hm (hl.fetch_op hx rfl) _ _
    · exact Machine.step_of_fetch hm (hl.fetch_op hx rfl) _ _
    · exact Machine.step_of_fetch hm (hl.fetch_op hx rfl) _ _
  · simp only [comparingJumps, List.mem_cons, List.not_mem_nil, or_false] at hop
    obtain rfl | rfl | rfl | rfl | rfl | rfl := hop <;>
      obtain ⟨offset, dest, hfetch, -, -⟩ := hl.fetch_jump hx rfl <;>
      exact Machine.step_of_fetch hm hfetch _ _

-- A jump on its own takes the bool.
theorem Lowered.step_conditional (hl : Lowered env f code out c c₁ body mc)
    {rest : List (Item UInt16)} {sense : Bool} {target : UInt16} (hnext : NotesNext q rest)
    (hx : body.Stands code out s pos
      (.jump .branch (if sense then ifne else ifeq) target :: rest)) :
    ∃ dest next, (body.layout code out).reloc.Finds target.toNat s dest ∧
      (body.layout code out).reloc.getLocal s q = some next ∧
      ∀ m : Machine, m.code = mc.code.code → BranchesOnBool m pos sense dest next := by
  obtain ⟨offset, dest, hfetch, hfinds, hoffset⟩ :=
    hl.fetch_jump hx (i := .ifZero (if sense then .ne else .eq)) (by cases sense <;> rfl)
  have hbehind := hl.note_of_stands (hx.tail fun _ => rfl) hnext
  refine ⟨dest, pos + 3, hfinds, hbehind, ?_⟩
  intro m hm b stack locals
  have hbranch := Jvm.State.branch_eq (s := ⟨pos, .ofBool b :: stack, locals⟩) hoffset (pos + 3)
    (decide (b = sense)) stack
  rw [Machine.step_of_fetch hm hfetch]
  cases b <;> cases sense <;> exact hbranch

-- Items without marks and jumps lie between two positions of one scope.
theorem BodyState.Stands.inert {its rest : List (Item UInt16)}
    (h : body.Stands code out s pos (its ++ rest)) (hi : Item.Inert its) :
    ∃ pos', body.Stands code out s pos' rest := by
  obtain ⟨pre, hitems, hscope, -⟩ := h
  have hmoved := Marked.inert hi ((Layout.start out code.size).puts pre)
  refine ⟨_, pre ++ its, by simp [hitems], ?_, rfl⟩
  rw [Layout.puts_append, hmoved.scope, hscope]

-- The last mark of a list is the only one with nothing but inert items behind it.
theorem last_mark_unique {xs xs' ys ys' : List (Item UInt16)} {a b : Nat} (hys : Item.Inert ys)
    (hys' : Item.Inert ys') (h : xs ++ Item.mark a :: ys = xs' ++ Item.mark b :: ys') : a = b := by
  have hnone : ∀ {zs zs' : List (Item UInt16)} {p : Nat}, ¬Item.Inert (zs ++ Item.mark p :: zs') := by
    intro zs zs' p hi
    cases hi (.mark p) (by simp)
  obtain ⟨ys'', -, rfl⟩ | ⟨mid, rfl, hrest⟩ := append_eq_append_cons h
  · exact absurd hys' hnone
  · cases mid with
    | nil =>
      cases hrest
      rfl
    | cons x mid =>
      rw [List.cons_append, List.cons.injEq] at hrest
      rw [hrest.2] at hys
      exact absurd hys hnone

-- Behind a comparison that does not take the jump along, the jump stands on its own.
theorem Lowered.alone_of_unfused (hl : Lowered env f code out c c₁ body mc) {p : Nat} {i j : Instr}
    {sense : Bool} {pre own rest : List (Item UInt16)} (hi : Instr.decodeAt code p = .ok i)
    (hj : Instr.decodeAt code q = .ok j) (hsense : Following.sense? j.op = some sense)
    {cmp : Compared} (hcmp : Compares env i (.jump j.pos sense j.arg) cmp)
    (hunfused : cmp.fused = false) (hown : Item.Inert own)
    (hitems : body.items.toList = (pre ++ Item.mark p :: own) ++ Item.mark q :: rest) :
    ∃ more, rest = .jump .branch (if sense then ifne else ifeq) j.arg :: more ∧
      NotesNext (q + j.size) more := by
  have hbranch := branchItem?_of_sense hsense
  have hsite := site_of_mark hl.emits hitems hj
  generalize hbefore : pre ++ Item.mark p :: own = before at hsite
  cases hsite with
  | @one j' next e e₁ _ its more hj' hits _ hmore _ _ =>
    rw [hj] at hj'
    cases hj'
    cases hits.shape with
    | branch hb =>
      rw [hbranch] at hb
      cases hb
      exact ⟨more, rfl, hmore⟩
    | inert hb _ =>
      rw [hbranch] at hb
      cases hb
  | fused hj' _ hits _ _ _ =>
    rw [hj] at hj'
    cases hj'
    have hc := hits.isComparison
    rw [isComparison_of_sense hsense] at hc
    cases hc
  | @swallowed p' i' j' rest' e e₁ first pre' own' more hi' _ hj' hits _ =>
    -- The mark before the one of the jump is that of the comparison, which took no jump along.
    rw [hj] at hj'
    cases hj'
    obtain ⟨-, -, -, -, -, hpre', -, -⟩ := hits.shape.of_mark
    obtain rfl := last_mark_unique hown hpre' hbefore
    rw [hi] at hi'
    cases hi'
    obtain ⟨cmp', hcmp', -, hfused, -⟩ := hits.comparison hits.isComparison
    rw [Following.ofRest, hsense] at hcmp'
    rw [hcmp.unique hcmp', ← hfused] at hunfused
    cases hunfused
  | copy hj' hop _ =>
    rw [hj] at hj'
    cases hj'
    rw [hop] at hsense
    cases hsense

-- A comparison with the jump behind it, from the mark of the jump on.
theorem Lowered.stands_fused (hl : Lowered env f code out c c₁ body mc)
    (pre before : List (Item Ref)) {own more : List (Item UInt16)} {op : UInt8} {target : UInt16}
    {c₂ c₃ : OpenClass} (hx : body.Stands code out s pos (own ++ more))
    (hits : Item.Interned env c₂
      (pre ++ Item.mark q :: (before ++ [Item.jump .branch op target])) own c₃)
    (hpre : Item.Inert pre) (hbefore : Item.Inert before) :
    ∃ before' pos', (∃ c₄, Item.Interned env c₄ before before' c₃) ∧
      (body.layout code out).reloc.getLocal s q = some pos' ∧
      body.Stands code out s pos' (before' ++ Item.jump .branch op target :: more) := by
  obtain ⟨pre', before', rfl, hpre', -, c₄, -, hits⟩ := hits.fused hpre hbefore
  rw [List.append_assoc] at hx
  obtain ⟨pos', hx⟩ := hx.inert hpre'
  have hnote := hl.note_of_stands hx ⟨_, _, rfl, .inl rfl⟩
  exact ⟨before', pos', ⟨c₄, hits⟩, hnote, by simpa using hx.unmark⟩

-- Where a jump leads to, and what is behind it.
theorem Lowered.ends_of_jump (hl : Lowered env f code out c c₁ body mc)
    {before rest : List (Item UInt16)} {op : UInt8} {target : UInt16} (hnext : NotesNext q rest)
    (hbefore : Item.Inert before)
    (hx : body.Stands code out s pos (before ++ Item.jump .branch op target :: rest)) :
    ∃ dest next, (body.layout code out).reloc.Finds target.toNat s dest ∧
      (body.layout code out).reloc.getLocal s q = some next := by
  obtain ⟨pos', hx⟩ := hx.inert hbefore
  obtain ⟨-, dest, -, hfinds, -⟩ := hl.target hx (List.mem_singleton_self _) (by simp)
  exact ⟨dest, _, hfinds, hl.note_of_stands (hx.tail fun _ => rfl) hnext⟩

-- What stands where a comparison is before a conditional jump: what it becomes with the jump, or
-- without the jump, and then the jump on its own.
theorem Lowered.stands_compared (hl : Lowered env f code out c c₁ body mc) {p start : Nat}
    {i j : Instr} {sense : Bool} (hp : (body.layout code out).reloc.getLocal s p = some start)
    (hi : Instr.decodeAt code p = .ok i) (hc : isComparison i.op = true)
    (hj : Instr.decodeAt code (p + i.size) = .ok j) (hsense : Following.sense? j.op = some sense) :
    ∃ cmp d d₁ own more, Compares env i (.jump (p + i.size) sense j.arg) cmp ∧
      Item.Interned env d cmp.items own d₁ ∧ Later env f c d ∧ Later env f d₁ c₁ ∧
      NotesNext (p + i.size + j.size) more ∧
      (cmp.fused = true ∧ body.Stands code out s start (own ++ more) ∨
        cmp.fused = false ∧ Item.Inert own ∧ body.Stands code out s start (own ++
          Item.mark (p + i.size) :: .jump .branch (if sense then ifne else ifeq) j.arg :: more)) := by
  have hjpos := Instr.decodeAt_pos hj
  obtain hop | ⟨pre, post, hitems, hscope, hpos, hsite⟩ := layout_site out hl.emits hp hi
  · rw [hop] at hc
    cases hc
  have hx : body.Stands code out s start (.mark p :: post) := ⟨pre, hitems, hscope, hpos⟩
  have hx := hx.unmark
  generalize hbefore : pre = before at hsite
  cases hsite with
  | @one i' next e e₁ _ own more hi' hown hfollows hmore hfirst hlast =>
    rw [hi] at hi'
    cases hi'
    obtain ⟨cmp, hcmp, hits, hfused, -⟩ := hown.comparison hc
    rw [hfollows.jump j sense hj hsense] at hcmp
    have hinert : Item.Inert own := by
      cases hown.shape with
      | branch hb =>
        unfold branchItem? at hb
        split at hb <;> simp_all [isComparison, relation?]
      | inert _ hinert => exact hinert
    obtain ⟨item, rest, rfl, hitem⟩ := hmore
    obtain rfl | ⟨a, b, rfl⟩ := hitem
    · rw [← List.cons_append, ← List.append_assoc] at hitems
      obtain ⟨more, rfl, hmore⟩ :=
        hl.alone_of_unfused hi hj hsense hcmp hfused.symm hinert hitems
      rw [hjpos] at hcmp
      exact ⟨cmp, _, _, own, more, hcmp, hits, hfirst.later, hlast.later, hmore,
        .inr ⟨hfused.symm, hinert, hx⟩⟩
    · obtain ⟨j', hj', hop⟩ := finallyEnd_of_leave hl.emits (a := a) (b := b) (q := p + i.size)
        (by simp [hitems])
      rw [hj] at hj'
      cases hj'
      rw [hop] at hsense
      cases hsense
  | @fused i' j' rest e e₁ _ own more hi' hj' hown hmore hfirst hlast =>
    rw [hi] at hi'
    cases hi'
    rw [hj] at hj'
    cases hj'
    obtain ⟨cmp, hcmp, hits, hfused, -⟩ := hown.comparison hc
    rw [Following.ofRest, hsense, hjpos] at hcmp
    exact ⟨cmp, _, _, own, more, hcmp, hits, hfirst.later, hlast.later, hmore, .inl ⟨hfused.symm, hx⟩⟩
  | @swallowed p' i' j' rest e e₁ _ pre' own more _ _ hj' hown _ =>
    rw [hi] at hj'
    cases hj'
    obtain ⟨sense', target, -, -, hnext, -, -, -⟩ := hown.shape.of_mark
    obtain ⟨j', rest', hj', -, -, hsense'⟩ := ofRest_eq_jump hnext
    cases hj'
    rw [isComparison_of_sense hsense'] at hc
    cases hc
  | copy hi' hop _ =>
    rw [hi] at hi'
    cases hi'
    rw [hop] at hc
    cases hc

-- A conditional jump behind a comparison: either the machine makes the comparison and stops where
-- the jump is entered with a bool, or it does not and the jump takes the bool.
theorem Lowered.behind_comparison (hl : Lowered env f code out c c₁ body mc) {p start : Nat}
    {i j : Instr} {sense : Bool} (hp : (body.layout code out).reloc.getLocal s p = some start)
    (hi : Instr.decodeAt code p = .ok i) (hc : isComparison i.op = true)
    (hj : Instr.decodeAt code (p + i.size) = .ok j) (hsense : Following.sense? j.op = some sense) :
    ∃ java target next, (body.layout code out).reloc.getLocal s (p + i.size) = some java ∧
      (body.layout code out).reloc.Finds j.arg.toNat s target ∧
      (body.layout code out).reloc.getLocal s (p + i.size + j.size) = some next ∧
      (DirectComparison env i ∧ (∀ m : Machine, m.code = mc.code.code → ∀ b locals,
          m.step ⟨java, [.ofBool b], locals⟩ = none) ∨
        ¬DirectComparison env i ∧ ∀ m : Machine, m.code = mc.code.code →
          BranchesOnBool m java sense target next) := by
  obtain ⟨cmp, d, d₁, own, more, hcmp, hits, -, -, hmore, ⟨hfused, hx⟩ | ⟨hfused, hinert, hx⟩⟩ :=
    hl.stands_compared hp hi hc hj hsense
  · cases hcmp.beforeJump with
    | @together compare op hdirect hcompare =>
      obtain ⟨compare', pos', ⟨_, hcompare'⟩, hnote, hx⟩ :=
        hl.stands_fused [] compare hx hits Item.inert_nil hcompare.inert
      have hcompare' := (hcompare.sense sense).interned hcompare'
      obtain ⟨target, next, hfinds, hnext⟩ := hl.ends_of_jump hmore hcompare'.inert hx
      refine ⟨_, target, next, hnote, hfinds, hnext, .inl ⟨hdirect, ?_⟩⟩
      intro m hm b locals
      exact hl.step_comparing hm hx hcompare' b locals
    | @apart call _ hdirect hcall hitems' _ =>
      rw [hitems'] at hits
      obtain ⟨compare', pos', ⟨_, hcompare'⟩, hnote, hx⟩ :=
        hl.stands_fused [call] [] hx hits (by simpa using hcall) Item.inert_nil
      cases hcompare'
      have hop : negateBranch ifne = ifeq := rfl
      rw [hop] at hx
      obtain ⟨target, next, hfinds, hnext, hstep⟩ := hl.step_conditional hmore hx
      exact ⟨_, target, next, hnote, hfinds, hnext, .inr ⟨hdirect, hstep⟩⟩
    | without _ hunfused =>
      rw [hunfused] at hfused
      cases hfused
  · have hdirect : ¬DirectComparison env i := by
      cases hcmp.beforeJump with
      | together _ _ => cases hfused
      | apart _ _ _ hfused' =>
        rw [hfused'] at hfused
        cases hfused
      | without hdirect _ => exact hdirect
    obtain ⟨pos', hx⟩ := hx.inert hinert
    have hnote := hl.note_of_stands hx ⟨_, _, rfl, .inl rfl⟩
    obtain ⟨target, next, hfinds, hnext, hstep⟩ := hl.step_conditional hmore hx.unmark
    exact ⟨_, target, next, hnote, hfinds, hnext, .inr ⟨hdirect, hstep⟩⟩

-- A conditional jump directly behind a comparison may be entered from elsewhere, with a bool, exactly
-- if the machine does not make the comparison itself; if it does, the machine stops there.
theorem jump_takes_bool_iff {attrs : Pod.Attributes} {c' : OpenClass}
    (h : lowerCode f code attrs out env c = .ok mc c') :
    ∃ body c₁, emitBody f code {} env c = .ok ((), body) c₁ ∧
      mc.reloc = (body.layout code out).reloc.mainMap ∧
      ∀ (s p start java : Nat) (i j : Instr) (sense : Bool),
        (body.layout code out).reloc.getLocal s p = some start →
        Instr.decodeAt code p = .ok i → isComparison i.op = true →
        (body.layout code out).reloc.getLocal s (p + i.size) = some java →
        Instr.decodeAt code (p + i.size) = .ok j → Following.sense? j.op = some sense →
        ∃ target next, (body.layout code out).reloc.Finds j.arg.toNat s target ∧
          (body.layout code out).reloc.getLocal s (p + i.size + j.size) = some next ∧
          ∀ m : Machine, m.code = mc.code.code →
            (BranchesOnBool m java sense target next ↔ ¬DirectComparison env i) ∧
            (DirectComparison env i → ∀ b locals, m.step ⟨java, [.ofBool b], locals⟩ = none) := by
  obtain ⟨body, c₁, hl⟩ := lowered_of_lowerCode h
  refine ⟨body, c₁, hl.emits, hl.filled.main, ?_⟩
  intro s p start java i j sense hp hi hc hq hj hsense
  obtain ⟨java', target, next, hnote, hfinds, hnext, hcase⟩ :=
    hl.behind_comparison hp hi hc hj hsense
  obtain rfl : java' = java := Option.some.inj (hnote.symm.trans hq)
  refine ⟨target, next, hfinds, hnext, ?_⟩
  intro m hm
  obtain ⟨hdirect, hstuck⟩ | ⟨hdirect, hstep⟩ := hcase
  · refine ⟨⟨?_, fun h => absurd hdirect h⟩, fun _ => hstuck m hm⟩
    intro hbranches
    have htaken := hbranches true [] #[]
    rw [hstuck m hm true #[]] at htaken
    cases htaken
  · exact ⟨⟨fun _ => hdirect, fun _ => hstep m hm⟩, fun h => absurd h hdirect⟩

end Code

-- A pod that knows the type of bools.
def boolEnv : ClassEnv :=
  { bareEnv with pod := { bareEnv.pod with symbols := { typeRefs := #[⟨"sys", "Bool", ""⟩] } } }

-- Enters the jump behind a comparison that is none: a bool is never null.
--    0 LoadTrue    4 LoadTrue            8 JumpTrue 11
--    1 Jump 8      5 CompareNull Bool   11 ReturnVoid
theorem jump_takes_bool_iff_null : ∃ mc c',
    lowerCode bareFrame #[3, 28, 0, 8, 3, 40, 0, 0, 29, 0, 11, 42] {} {} boolEnv bareClass =
      .ok mc c' ∧
    mc.reloc[8]? = some (some 7) ∧ ∃ target next, ∀ m : Machine, m.code = mc.code.code →
      BranchesOnBool m 7 true target next := by
  obtain ⟨mc, c', h⟩ := exists_of_result? (by decide +kernel :
    (result? (lowerCode bareFrame #[3, 28, 0, 8, 3, 40, 0, 0, 29, 0, 11, 42] {} {} boolEnv
      bareClass)).isSome)
  have hmap : (result? (lowerCode bareFrame #[3, 28, 0, 8, 3, 40, 0, 0, 29, 0, 11, 42] {} {} boolEnv
      bareClass)).map MethodCode.reloc = some #[some 0, some 1, none, none, some 4, some 5, none,
        none, some 7, none, none, some 10, some 11] := by decide +kernel
  rw [h] at hmap
  have hreloc : mc.reloc = #[some 0, some 1, none, none, some 4, some 5, none, none, some 7, none,
    none, some 10, some 11] := Option.some.inj hmap
  refine ⟨mc, c', h, by rw [hreloc]; rfl, ?_⟩
  obtain ⟨body, c₁, -, hmain, hiff⟩ := jump_takes_bool_iff h
  have hnote : ∀ q java, mc.reloc[q]? = some (some java) → (body.layout
      #[3, 28, 0, 8, 3, 40, 0, 0, 29, 0, 11, 42] {}).reloc.getLocal 0 q = some java := by
    intro q java hq
    rw [hmain] at hq
    exact Relocation.mainMap_eq_some_iff.mp hq
  obtain ⟨target, next, -, -, hm⟩ := hiff 0 5 5 7 ⟨5, .compareNull, [0]⟩ ⟨8, .jumpTrue, [11]⟩ true
    (hnote 5 5 (by rw [hreloc]; rfl)) (by decide +kernel) rfl
    (hnote 8 7 (by rw [hreloc]; rfl)) (by decide +kernel) rfl
  have hdirect : ¬DirectComparison boolEnv ⟨5, .compareNull, [0]⟩ := by
    rintro (⟨hop, -, -, -, -⟩ | hop | ⟨-, ht, hobject⟩)
    · cases hop
    · simp at hop
    · cases ht
      revert hobject
      decide +kernel
  exact ⟨target, next, fun m hcode => (hm m hcode).1.mpr hdirect⟩

-- Two bools are compared by the jump itself, so that the jump to it stops with one.
--    0 LoadTrue    4 LoadTrue    6 CompareEQ Bool Bool   14 ReturnVoid
--    1 Jump 11     5 LoadTrue   11 JumpTrue 14
theorem jump_stops_compareEQ : ∃ mc c',
    lowerCode bareFrame #[3, 28, 0, 11, 3, 3, 31, 0, 0, 0, 0, 29, 0, 14, 42] {} {} boolEnv
      bareClass = .ok mc c' ∧
    mc.reloc[11]? = some (some 6) ∧ ∀ m : Machine, m.code = mc.code.code → ∀ locals,
      m.Reaches ⟨0, [], locals⟩ ⟨6, [.ofBool true], locals⟩ ∧
      m.step ⟨6, [.ofBool true], locals⟩ = none := by
  obtain ⟨mc, c', h⟩ := exists_of_result? (by decide +kernel :
    (result? (lowerCode bareFrame #[3, 28, 0, 11, 3, 3, 31, 0, 0, 0, 0, 29, 0, 14, 42] {} {} boolEnv
      bareClass)).isSome)
  have hcode : (result? (lowerCode bareFrame #[3, 28, 0, 11, 3, 3, 31, 0, 0, 0, 0, 29, 0, 14, 42]
      {} {} boolEnv bareClass)).map (fun mc => (mc.code.code, mc.reloc[11]?)) =
        some (#[4, 167, 0, 5, 4, 4, 159, 0, 3, 177], some (some 6)) := by decide +kernel
  rw [h] at hcode
  obtain ⟨hcode, hreloc⟩ := Prod.mk.inj (Option.some.inj hcode)
  refine ⟨mc, c', h, hreloc, ?_⟩
  intro m hm locals
  rw [hcode] at hm
  have hload : m.step ⟨0, [], locals⟩ = some (.next ⟨1, [.ofBool true], locals⟩) := by
    rw [Machine.step_of_fetch hm (i := .const 1) (n := 1) rfl]
    rfl
  have hjump : m.step ⟨1, [.ofBool true], locals⟩ = some (.next ⟨6, [.ofBool true], locals⟩) := by
    rw [Machine.step_of_fetch hm (i := .goto 5) (n := 4) rfl]
    rfl
  refine ⟨.tail (.single hload) hjump, ?_⟩
  rw [Machine.step_of_fetch hm (i := .ifInt true 3) (n := 9) rfl]
  rfl

end PodCompiler.Lowering
