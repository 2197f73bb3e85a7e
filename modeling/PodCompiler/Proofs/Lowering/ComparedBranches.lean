import PodCompiler.Proofs.Jvm.Calls
import PodCompiler.Proofs.Lowering.CoreSteps
import PodCompiler.Proofs.Lowering.FusedJump
import PodCompiler.Proofs.Lowering.TwinScopes

namespace PodCompiler.Lowering

open ClassFile (CodeBuffer)
open ClassFile.Op
open Jvm (CallMode Event Form Instruction Kind Linkage Locals Machine Value)

-- The order of two doubles, of which there is none if one of them is no number.
def orderOfDoubles (a b : UInt64) : Option Ordering :=
  let x := Float.ofBits a
  let y := Float.ofBits b
  if x < y then some .lt else if x == y then some .eq else if y < x then some .gt else none

-- Whether values in an order are in a relation. Without an order only `ne` holds.
def Relation.admits (rel : Relation) (o : Option Ordering) : Bool :=
  match rel with
  | .eq => o = some .eq
  | .ne => o ≠ some .eq
  | .lt => o = some .lt
  | .le => o = some .lt ∨ o = some .eq
  | .gt => o = some .gt
  | .ge => o = some .gt ∨ o = some .eq

-- The comparisons that are decided without the runtime: what each says of its operands, the first
-- one first.
inductive Decides (env : ClassEnv) (i : Instr) : List Value → Bool → Prop where
  | longs {rel : Relation} {t u : TypeRef} (hop : relation? i.op = some rel)
      (ht : typeRefAt env.pod.symbols i.arg = .ok t)
      (hu : typeRefAt env.pod.symbols (i.args.getD 1 0) = .ok u) (hts : t.stack = .long)
      (hus : u.stack = .long) (a b : Int64) :
      Decides env i [.long a, .long b] (Fcode.relatesInt rel a b)
  | doubles {rel : Relation} {t u : TypeRef} (hop : relation? i.op = some rel)
      (ht : typeRefAt env.pod.symbols i.arg = .ok t)
      (hu : typeRefAt env.pod.symbols (i.args.getD 1 0) = .ok u) (hts : t.stack = .double)
      (hus : u.stack = .double) (a b : UInt64) :
      Decides env i [.double a, .double b] (rel.admits (orderOfDoubles a b))
  | bools {rel : Relation} {t u : TypeRef} {a b r : Bool} (hop : relation? i.op = some rel)
      (ht : typeRefAt env.pod.symbols i.arg = .ok t)
      (hu : typeRefAt env.pod.symbols (i.args.getD 1 0) = .ok u) (hts : t.stack = .bool)
      (hus : u.stack = .bool) (hr : Fcode.relatesBool? rel a b = some r) :
      Decides env i [.ofBool a, .ofBool b] r
  | same (want : Bool) (hop : i.op = if want then .compareSame else .compareNotSame)
      (a b : Jvm.Ref) : Decides env i [.ref a, .ref b] (decide (a = b) == want)
  | null (want : Bool) {t : TypeRef} (hop : i.op = if want then .compareNull else .compareNotNull)
      (ht : typeRefAt env.pod.symbols i.arg = .ok t) (hobject : t.isPrimitive = false)
      (a : Jvm.Ref) : Decides env i [.ref a] (decide (a = .null) == want)
  -- A primitive is never null.
  | never (want : Bool) {t : TypeRef} (hop : i.op = if want then .compareNull else .compareNotNull)
      (ht : typeRefAt env.pod.symbols i.arg = .ok t) (hprimitive : t.isPrimitive = true) {v : Value}
      (hv : v.kind = .ofStack t.stack) : Decides env i [v] (!want)

-- The methods of the runtime that make comparisons.
def relationMethod (rel : Relation) (t u : TypeRef) : String :=
  s!"fanx/util/OpUtil.{rel.helper}({Comparison.operandDesc t}{Comparison.operandDesc u})Z"

def sameMethod (want : Bool) : String :=
  let name := if want then "compareSame" else "compareNotSame"
  s!"fanx/util/OpUtil.{name}(Ljava/lang/Object;Ljava/lang/Object;)Z"

def nullMethod (want : Bool) : String :=
  let name := if want then "compareNull" else "compareNotNull"
  s!"fanx/util/OpUtil.{name}(Ljava/lang/Object;)Z"

-- The method that makes a comparison where the machine does not.
inductive AsksRuntime (env : ClassEnv) (i : Instr) : String → Prop where
  | relation {rel : Relation} {t u : TypeRef} (hop : relation? i.op = some rel)
      (ht : typeRefAt env.pod.symbols i.arg = .ok t)
      (hu : typeRefAt env.pod.symbols (i.args.getD 1 0) = .ok u) :
      AsksRuntime env i (relationMethod rel t u)
  | same (want : Bool) (hop : i.op = if want then .compareSame else .compareNotSame) :
      AsksRuntime env i (sameMethod want)
  | null (want : Bool) {t : TypeRef} (hop : i.op = if want then .compareNull else .compareNotNull)
      (ht : typeRefAt env.pod.symbols i.arg = .ok t) (hobject : t.isPrimitive = false) :
      AsksRuntime env i (nullMethod want)

-- A three-way comparison of doubles as a number.
theorem orderDouble_eq (unordered : Int32) (a b : UInt64) :
    Jvm.orderDouble unordered a b =
      match orderOfDoubles a b with
      | some .lt => -1
      | some .eq => 0
      | some .gt => 1
      | none => unordered := by
  unfold Jvm.orderDouble orderOfDoubles
  dsimp only
  split
  · rfl
  · split
    · rfl
    · split <;> rfl

-- The comparison of doubles before the jump of a relation.
def doubleOp : Relation → UInt8
  | .lt | .le => dcmpg
  | _ => dcmpl

theorem direct?_double (rel : Relation) :
    Comparison.direct? rel .double .double = some ([.op (doubleOp rel)], rel.jumpOp) := by
  cases rel <;> rfl

-- The jump behind a comparison of doubles is taken if they are in the relation, or are not. If one of
-- them is no number the comparison comes out on the side where the relation fails.
theorem jumpOp_orderDouble (rel : Relation) (sense : Bool) :
    ∃ unordered cond, Form.ofOp? (doubleOp rel) = some (.plain (.compareDouble unordered)) ∧
      Form.ofOp? (if sense then rel.jumpOp else negateBranch rel.jumpOp) =
        some (.branch (.ifZero cond)) ∧
      ∀ a b, cond.holds (Jvm.orderDouble unordered a b) =
        decide (rel.admits (orderOfDoubles a b) = sense) := by
  cases rel <;> cases sense <;> refine ⟨_, _, rfl, rfl, ?_⟩ <;> intro a b <;>
    rw [orderDouble_eq] <;> obtain _ | _ | _ | _ := orderOfDoubles a b <;> decide

section Code

variable {env : ClassEnv} {f : Frame} {code : Bytes} {out : CodeBuffer} {c c₁ : OpenClass}
  {body : BodyState} {mc : MethodCode} {s pos q dest behind : Nat} {m : Machine} {l : Linkage}
  {rest : List (Item UInt16)} {stack stack' : List Value} {locals : Locals} {i : Instr}

-- One instruction without operands.
theorem Lowered.step_op (hl : Lowered env f code out c c₁ body mc) (hm : m.code = mc.code.code)
    {o : UInt8} (instr : Instruction) (hx : body.Stands code out s pos (.op o :: rest))
    (hform : Form.ofOp? o = some (.plain instr))
    (hexec : ∀ n, m.exec ⟨pos, stack, locals⟩ n instr = some (.next ⟨n, stack', locals⟩)) :
    m.step ⟨pos, stack, locals⟩ = some (.next ⟨pos + 1, stack', locals⟩) := by
  rw [Machine.step_of_fetch hm (hl.fetch_op hx hform), hexec]

-- A jump goes to its target, or on behind it.
theorem Lowered.step_jump (hl : Lowered env f code out c c₁ body mc) (hm : m.code = mc.code.code)
    {o : UInt8} {t : UInt16} (instr : Int → Instruction)
    (hx : body.Stands code out s pos (.jump .branch o t :: rest))
    (hform : Form.ofOp? o = some (.branch instr)) (hnext : NotesNext q rest)
    (hdest : (body.layout code out).reloc.Finds t.toNat s dest)
    (hbehind : (body.layout code out).reloc.getLocal s q = some behind) (taken : Bool)
    (hexec : ∀ n offset, m.exec ⟨pos, stack, locals⟩ n (instr offset) =
      Jvm.State.branch ⟨pos, stack, locals⟩ n taken offset stack') :
    m.step ⟨pos, stack, locals⟩ =
      some (.next ⟨if taken then dest else behind, stack', locals⟩) := by
  obtain ⟨offset, dest', hfetch, hfinds, hoffset⟩ := hl.fetch_jump hx hform
  obtain rfl := hdest.unique hfinds
  cases hbehind.symm.trans (hl.note_of_stands (hx.tail fun _ => rfl) hnext)
  rw [Machine.step_of_fetch hm hfetch, hexec]
  exact Jvm.State.branch_eq hoffset _ _ _

-- A call of the runtime.
theorem Lowered.comes_call (hl : Lowered env f code out c c₁ body mc) (hm : m.code = mc.code.code)
    {r : UInt16} {sig : String} {takes : List Kind} {gives : Option Kind} {args : List Value}
    (result : Option Value) (hx : body.Stands code out s pos (.const invokeStatic r :: rest))
    (hsig : m.constants.method? r = some sig) (hlink : l.method? sig = some ⟨takes, gives⟩)
    (hargs : args.map Value.kind = takes) (hresult : result.map Value.kind = gives) :
    m.Comes l ⟨pos, args.reverse ++ stack, locals⟩ [.call .static sig args result]
      ⟨pos + 3, result.toList ++ stack, locals⟩ := by
  have hspells := hl.spells hx rfl
  obtain ⟨hop, hr⟩ := Bytes.spells_cons.mp hspells
  rw [← hm] at hop hr
  have hop : m.code[pos]? = some CallMode.static.op := hop
  have hi := Bytes.be2?_of_spells hr
  exact .event (Machine.step_call hop hi hsig hlink (.inl .static) hargs rfl)
    (.call hop hi hsig hlink .static hargs hresult rfl) .refl

-- A jump on its own takes the bool.
theorem Lowered.branchesOnBool (hl : Lowered env f code out c c₁ body mc)
    (hm : m.code = mc.code.code) {sense : Bool} {t : UInt16}
    (hx : body.Stands code out s pos (.jump .branch (if sense then ifne else ifeq) t :: rest))
    (hnext : NotesNext q rest) (hdest : (body.layout code out).reloc.Finds t.toNat s dest)
    (hbehind : (body.layout code out).reloc.getLocal s q = some behind) :
    BranchesOnBool m pos sense dest behind := by
  intro b stack locals
  have hexec : ∀ n offset, m.exec ⟨pos, .ofBool b :: stack, locals⟩ n
      (.ifZero (if sense then .ne else .eq) offset) =
        Jvm.State.branch ⟨pos, .ofBool b :: stack, locals⟩ n (decide (b = sense)) offset stack := by
    intros
    cases b <;> cases sense <;> rfl
  have hstep := hl.step_jump hm (.ifZero (if sense then .ne else .eq)) hx (by cases sense <;> rfl)
    hnext hdest hbehind _ hexec
  simpa using hstep

-- A comparison with the jump behind it, from its mark on: `codes` compare, and the jump tests.
theorem Lowered.reaches_fused (hl : Lowered env f code out c c₁ body mc)
    (hm : m.code = mc.code.code) {d d₁ : OpenClass} (codes : List UInt8) (op : UInt8) {sense : Bool}
    {t : UInt16} {own more : List (Item UInt16)} (instr : Int → Instruction) {p : Nat}
    (hits : Item.Interned env d (Comparison.fusedJump p (codes.map .op) op sense t).items own d₁)
    (hx : body.Stands code out s pos (own ++ more)) (hmore : NotesNext q more)
    (hdest : (body.layout code out).reloc.Finds t.toNat s dest)
    (hbehind : (body.layout code out).reloc.getLocal s q = some behind)
    (hform : Form.ofOp? (if sense then op else negateBranch op) = some (.branch instr))
    {compared : List Value} (taken : Bool)
    (hcodes : ∀ pos rest, body.Stands code out s pos (codes.map .op ++ rest) →
      ∃ pos', m.Reaches ⟨pos, stack, locals⟩ ⟨pos', compared, locals⟩ ∧
        body.Stands code out s pos' rest)
    (hexec : ∀ pos n offset, m.exec ⟨pos, compared, locals⟩ n (instr offset) =
      Jvm.State.branch ⟨pos, compared, locals⟩ n taken offset stack') :
    m.Reaches ⟨pos, stack, locals⟩ ⟨if taken then dest else behind, stack', locals⟩ := by
  obtain rfl := hits.eq_fused codes
  rw [List.cons_append, List.append_assoc] at hx
  obtain ⟨pos', hreach, hx⟩ := hcodes _ _ hx.unmark
  exact hreach.tail (hl.step_jump hm instr hx hform hmore hdest hbehind taken (hexec pos'))

-- A comparison that the jump makes by itself.
theorem BodyState.Stands.nothing (m : Machine) (stack : List Value) (locals : Locals)
    (pos : Nat) (rest : List (Item UInt16))
    (hx : body.Stands code out s pos (([] : List UInt8).map .op ++ rest)) :
    ∃ pos', m.Reaches ⟨pos, stack, locals⟩ ⟨pos', stack, locals⟩ ∧
      body.Stands code out s pos' rest :=
  ⟨pos, .refl, hx⟩

-- A comparison that one instruction makes.
theorem Lowered.reaches_op (hl : Lowered env f code out c c₁ body mc) (hm : m.code = mc.code.code)
    {o : UInt8} (instr : Instruction) (hform : Form.ofOp? o = some (.plain instr))
    (hexec : ∀ pos n, m.exec ⟨pos, stack, locals⟩ n instr = some (.next ⟨n, stack', locals⟩))
    (pos : Nat) (rest : List (Item UInt16))
    (hx : body.Stands code out s pos ([o].map .op ++ rest)) :
    ∃ pos', m.Reaches ⟨pos, stack, locals⟩ ⟨pos', stack', locals⟩ ∧
      body.Stands code out s pos' rest :=
  ⟨pos + 1, .single (hl.step_op hm instr hx hform (hexec pos)), hx.tail fun _ => rfl⟩

-- A value of a primitive is wide if its type is.
theorem isWide_of_kind {v : Value} {t : TypeRef} (hv : v.kind = .ofStack t.stack) :
    v.isWide = t.isWide := by
  rw [Value.isWide, hv, TypeRef.isWide]
  cases t.stack <;> rfl

-- A test of a primitive for null takes the primitive and gives a constant.
theorem Lowered.reaches_never (hl : Lowered env f code out c c₁ body mc)
    (hm : m.code = mc.code.code) {t : TypeRef} {want : Bool} {v : Value}
    (hv : v.kind = .ofStack t.stack) (hx : body.Stands code out s pos
      (.op (if t.isWide then pop2 else ClassFile.Op.pop) ::
        .op (if want then iconst0 else iconst1) :: rest)) :
    ∃ pos', m.Reaches ⟨pos, v :: stack, locals⟩ ⟨pos', .ofBool (!want) :: stack, locals⟩ ∧
      body.Stands code out s pos' rest := by
  have hpop : m.step ⟨pos, v :: stack, locals⟩ = some (.next ⟨pos + 1, stack, locals⟩) := by
    rw [← isWide_of_kind hv] at hx
    cases hwide : v.isWide with
    | false =>
      rw [hwide] at hx
      refine hl.step_op hm .pop hx rfl fun n => ?_
      simp only [Machine.exec, hwide]
      rfl
    | true =>
      rw [hwide] at hx
      refine hl.step_op hm .pop2 hx rfl fun n => ?_
      simp only [Machine.exec, hwide]
      rfl
  have hx := hx.tail fun _ => rfl
  have hconst : m.step ⟨pos + 1, stack, locals⟩ =
      some (.next ⟨pos + 1 + 1, .ofBool (!want) :: stack, locals⟩) := by
    cases want with
    | false => exact hl.step_op hm (.const 1) hx rfl fun _ => rfl
    | true => exact hl.step_op hm (.const 0) hx rfl fun _ => rfl
  exact ⟨_, .tail (.single hpop) hconst, hx.tail fun _ => rfl⟩

-- The code of a test of a primitive for null, whatever follows it.
theorem Compares.items_never {next : Following} {cmp : Compared} {want : Bool} {t : TypeRef}
    (h : Compares env i next cmp) (hop : i.op = if want then .compareNull else .compareNotNull)
    (ht : typeRefAt env.pod.symbols i.arg = .ok t) (hprimitive : t.isPrimitive = true) :
    cmp = { items := [.op (if t.isWide then pop2 else ClassFile.Op.pop),
      .op (if want then iconst0 else iconst1)] } := by
  rw [h.unique (.null want hop ht), Comparison.null, if_pos hprimitive]

-- A comparison that is decided without the runtime, and the jump behind it: the machine goes where
-- the result sends it.
theorem Lowered.reaches_compared (hl : Lowered env f code out c c₁ body mc)
    (hm : m.code = mc.code.code) {p start : Nat} {j : Instr} {sense : Bool}
    (hp : (body.layout code out).reloc.getLocal s p = some start)
    (hi : Instr.decodeAt code p = .ok i) (hc : isComparison i.op = true)
    (hj : Instr.decodeAt code (p + i.size) = .ok j) (hsense : Following.sense? j.op = some sense)
    (hdest : (body.layout code out).reloc.Finds j.arg.toNat s dest)
    (hbehind : (body.layout code out).reloc.getLocal s (p + i.size + j.size) = some behind)
    {ops : List Value} {r : Bool} (hd : Decides env i ops r) :
    m.Reaches ⟨start, ops.reverse ++ stack, locals⟩
      ⟨if r = sense then dest else behind, stack, locals⟩ := by
  obtain ⟨cmp, d, d₁, own, more, hcmp, hits, -, -, hmore, hcase⟩ :=
    hl.stands_compared hp hi hc hj hsense
  -- All but the test of a primitive take the jump along.
  have hwhole : cmp.fused = true → body.Stands code out s start (own ++ more) := by
    intro hfused
    obtain ⟨-, hx⟩ | ⟨hunfused, -, -⟩ := hcase
    · exact hx
    · rw [hfused] at hunfused
      cases hunfused
  suffices hreach : m.Reaches ⟨start, ops.reverse ++ stack, locals⟩
      ⟨if decide (r = sense) then dest else behind, stack, locals⟩ by simpa using hreach
  cases hd with
  | @longs rel t u hop ht hu hts hus a b =>
    obtain rfl := hcmp.unique (.relation hop ht hu)
    rw [Comparison.relation, hts, hus] at hits hwhole
    obtain ⟨cond, hform, hholds⟩ := jumpOp_orderLong rel sense
    refine hl.reaches_fused hm [lcmp] _ _ hits (hwhole rfl) hmore hdest hbehind hform _
      (hl.reaches_op hm .compareLong rfl fun _ _ => rfl) ?_
    intro pos n offset
    rw [← hholds]
    rfl
  | @doubles rel t u hop ht hu hts hus a b =>
    obtain rfl := hcmp.unique (.relation hop ht hu)
    rw [Comparison.relation, hts, hus, direct?_double] at hits hwhole
    obtain ⟨unordered, cond, hcompare, hform, hholds⟩ := jumpOp_orderDouble rel sense
    refine hl.reaches_fused hm [doubleOp rel] _ _ hits (hwhole rfl) hmore hdest hbehind hform _
      (hl.reaches_op hm _ hcompare fun _ _ => rfl) ?_
    intro pos n offset
    rw [← hholds]
    rfl
  | @bools rel t u a b r hop ht hu hts hus hr =>
    obtain rfl := hcmp.unique (.relation hop ht hu)
    obtain ⟨op, equal, hdirect, hform, hexec⟩ := ifInt_ofBool hr sense
    rw [Comparison.relation, hts, hus, hdirect] at hits hwhole
    exact hl.reaches_fused hm [] _ _ hits (hwhole rfl) hmore hdest hbehind hform _
      (BodyState.Stands.nothing m _ _) fun pos => hexec m _ _ pos
  | same want hop a b =>
    obtain rfl := hcmp.unique (.same want hop)
    refine hl.reaches_fused hm [] (if want then ifAcmpeq else ifAcmpne) (.ifSame (want == sense))
      hits (hwhole rfl) hmore hdest hbehind
      (by cases want <;> cases sense <;> rfl) _ (BodyState.Stands.nothing m _ _) ?_
    intro pos n offset
    cases hab : decide (a = b) <;> cases want <;> cases sense <;> simp [Machine.exec, hab]
  | @null want t hop ht hobject a =>
    obtain rfl := hcmp.unique (.null want hop ht)
    rw [Comparison.null, hobject] at hits hwhole
    refine hl.reaches_fused hm [] (if want then ifNull else ifNonNull) (.ifNull (want == sense))
      hits (hwhole rfl) hmore hdest hbehind
      (by cases want <;> cases sense <;> rfl) _ (BodyState.Stands.nothing m _ _) ?_
    intro pos n offset
    cases ha : decide (a = .null) <;> cases want <;> cases sense <;> simp [Machine.exec, ha]
  | @never want t hop ht hprimitive v hv =>
    obtain rfl := hcmp.items_never hop ht hprimitive
    obtain ⟨hfused, -⟩ | ⟨-, -, hx⟩ := hcase
    · cases hfused
    obtain rfl := hits.eq_ops [if t.isWide then pop2 else ClassFile.Op.pop,
      if want then iconst0 else iconst1]
    obtain ⟨pos', hreach, hx⟩ := hl.reaches_never hm hv hx
    have hbranch := hl.branchesOnBool hm hx.unmark hmore hdest hbehind (!want) stack locals
    have hcomes : m.Reaches ⟨start, v :: stack, locals⟩
        ⟨if (!want) = sense then dest else behind, stack, locals⟩ := hreach.tail hbranch
    simpa using hcomes

-- A call of the runtime is an instruction on the constant of the method.
theorem interned_callStatic {d d₁ : OpenClass} {sig : String} {more : List (Item Ref)}
    {its : List (Item UInt16)} (hd : d.WellFormed env)
    (h : Item.Interned env d (.callStatic sig :: more) its d₁) :
    ∃ r its' d₂, its = .const invokeStatic r :: its' ∧ Item.Interned env d₂ more its' d₁ ∧
      ClassFile.Constants.method? d₁.draft.pool.get? r = some sig := by
  cases h with
  | cons hitem hrest =>
    obtain ⟨r, hr, rfl⟩ := ClassM.map_eq_ok.mp hitem
    have hd₂ := (ClassM.advancing_intern _ _ _ _ _ hr hd).1
    exact ⟨r, _, _, rfl, hrest,
      (hrest.advances.extends hd₂).method? (intern_method_eq_ok hd hr)⟩

-- What a comparison becomes that the runtime makes: a call, and behind it the test of a jump.
theorem Compares.items_runtime {cmp : Compared} {sense : Bool} {t : UInt16} {sig : String}
    (h : Compares env i (.jump q sense t) cmp) (hsig : AsksRuntime env i sig)
    (hdirect : ¬DirectComparison env i) :
    cmp.fused = true ∧
      cmp.items = .callStatic sig :: (Comparison.fusedJump q [] ifne sense t).items := by
  cases hsig with
  | @relation rel t' u hop ht hu =>
    have hnone : Comparison.direct? rel t'.stack u.stack = none := by
      rw [Option.eq_none_iff_forall_not_mem]
      rintro ⟨before, op⟩ hsome
      obtain ⟨hsame, hrel, -⟩ := direct?_eq_some hsome
      exact hdirect (.relation hop ht hu hsame hrel)
    rw [h.unique (.relation hop ht hu), Comparison.relation, hnone]
    exact ⟨rfl, rfl⟩
  | same want hop =>
    refine absurd (.same ?_) hdirect
    cases want <;> simp [hop]
  | null want hop ht hobject =>
    refine absurd (.null ?_ ht hobject) hdirect
    cases want <;> simp [hop]

-- Without a jump behind it every comparison that the runtime can make is such a call.
theorem Compares.items_alone {cmp : Compared} {sig : String} (h : Compares env i .other cmp)
    (hsig : AsksRuntime env i sig) : cmp = { items := [.callStatic sig] } := by
  cases hsig with
  | @relation rel t u hop ht hu =>
    rw [h.unique (.relation hop ht hu), Comparison.relation]
    split <;> rfl
  | same want hop =>
    rw [h.unique (.same want hop)]
    rfl
  | null want hop ht hobject =>
    rw [h.unique (.null want hop ht), Comparison.null, hobject]
    rfl

section Runtime

-- The class of the method: its constants are those that the machine has.
variable (hclass : c.WellFormed env) (hconstants : m.constants.Extends c₁.draft.pool.get?)
include hclass hconstants

-- A comparison that the runtime makes, and the jump behind it: the machine goes where the result of
-- the call sends it.
theorem Lowered.comes_compared (hl : Lowered env f code out c c₁ body mc)
    (hm : m.code = mc.code.code) {p start : Nat} {j : Instr} {sense : Bool}
    (hp : (body.layout code out).reloc.getLocal s p = some start)
    (hi : Instr.decodeAt code p = .ok i) (hc : isComparison i.op = true)
    (hj : Instr.decodeAt code (p + i.size) = .ok j) (hsense : Following.sense? j.op = some sense)
    (hdest : (body.layout code out).reloc.Finds j.arg.toNat s dest)
    (hbehind : (body.layout code out).reloc.getLocal s (p + i.size + j.size) = some behind)
    {sig : String} (hsig : AsksRuntime env i sig) (hdirect : ¬DirectComparison env i)
    {ops : List Value} (hlink : l.method? sig = some ⟨ops.map Value.kind, some .int⟩) (r : Bool) :
    m.Comes l ⟨start, ops.reverse ++ stack, locals⟩ [.call .static sig ops (some (.ofBool r))]
      ⟨if r = sense then dest else behind, stack, locals⟩ := by
  obtain ⟨cmp, d, d₁, own, more, hcmp, hits, hfirst, hlast, hmore, hcase⟩ :=
    hl.stands_compared hp hi hc hj hsense
  obtain ⟨hfused, hitems⟩ := hcmp.items_runtime hsig hdirect
  obtain ⟨-, hx⟩ | ⟨hunfused, -, -⟩ := hcase
  · rw [hitems] at hits
    have hd := (hfirst.advances hclass).1
    have hd₁ := (hits.advances hd).1
    obtain ⟨ref, its, d₂, rfl, hits, hmethod⟩ := interned_callStatic hd hits
    have hmethod := hconstants.method? ((hlast.advances.extends hd₁).method? hmethod)
    have hcall : m.Comes l ⟨start, ops.reverse ++ stack, locals⟩
        [.call .static sig ops (some (.ofBool r))] ⟨start + 3, .ofBool r :: stack, locals⟩ :=
      hl.comes_call hm (some (.ofBool r)) hx hmethod hlink rfl rfl
    obtain rfl := hits.eq_fused []
    have hx := (hx.tail fun _ => rfl).unmark
    have hbranch := hl.branchesOnBool hm hx hmore hdest hbehind r stack locals
    exact hcall.trans (.step hbranch .refl)
  · rw [hfused] at hunfused
    cases hunfused

end Runtime

-- A comparison before anything else than a conditional jump.
theorem Lowered.stands_result (hl : Lowered env f code out c c₁ body mc) {p start : Nat}
    (hp : (body.layout code out).reloc.getLocal s p = some start)
    (hi : Instr.decodeAt code p = .ok i) (hc : isComparison i.op = true)
    (hother : ∀ j, Instr.decodeAt code (p + i.size) = .ok j → Following.sense? j.op = none) :
    ∃ cmp d d₁ own more, Compares env i .other cmp ∧ Item.Interned env d cmp.items own d₁ ∧
      Later env f c d ∧ Later env f d₁ c₁ ∧ NotesNext (p + i.size) more ∧
      body.Stands code out s start (own ++ more) := by
  obtain hop | ⟨pre, post, hitems, hscope, hpos, hsite⟩ := layout_site out hl.emits hp hi
  · rw [hop] at hc
    cases hc
  have hx : body.Stands code out s start (.mark p :: post) := ⟨pre, hitems, hscope, hpos⟩
  have hx := hx.unmark
  cases hsite with
  | @one i' next e e₁ _ own more hi' hown hfollows hmore hfirst hlast =>
    rw [hi] at hi'
    cases hi'
    obtain ⟨cmp, hcmp, hits, -, -⟩ := hown.comparison hc
    rw [hfollows.other hother] at hcmp
    exact ⟨cmp, _, _, own, more, hcmp, hits, hfirst.later, hlast.later, hmore, hx⟩
  | @fused i' j' rest e e₁ _ own more hi' hj' hown _ _ _ =>
    rw [hi] at hi'
    cases hi'
    cases hown.shape with
    | fused _ hnext _ _ _ =>
      obtain ⟨j, rest, heq, -, -, hsense⟩ := ofRest_eq_jump hnext
      cases heq
      rw [hother _ hj'] at hsense
      cases hsense
  | swallowed _ _ hi' hown _ =>
    rw [hi] at hi'
    cases hi'
    obtain ⟨sense, target, _, _, hnext, -, -, -⟩ := hown.shape.of_mark
    obtain ⟨j, rest, hj, -, -, hsense⟩ := ofRest_eq_jump hnext
    cases hj
    rw [isComparison_of_sense hsense] at hc
    cases hc
  | copy hi' hop _ =>
    rw [hi] at hi'
    cases hi'
    rw [hop] at hc
    cases hc

-- The machine makes all comparisons itself that are decided without the runtime, but for the test of
-- a primitive.
theorem Decides.of_not_direct {ops : List Value} {r : Bool} (hd : Decides env i ops r)
    (hdirect : ¬DirectComparison env i) :
    ∃ want t v, i.op = (if want then .compareNull else .compareNotNull) ∧
      typeRefAt env.pod.symbols i.arg = .ok t ∧ t.isPrimitive = true ∧
      v.kind = .ofStack t.stack ∧ ops = [v] ∧ r = !want := by
  cases hd with
  | longs hop ht hu hts hus =>
    exact absurd (.relation hop ht hu (hts.trans hus.symm) (.inl hts)) hdirect
  | doubles hop ht hu hts hus =>
    exact absurd (.relation hop ht hu (hts.trans hus.symm) (.inr (.inl hts))) hdirect
  | @bools rel t u a b _ hop ht hu hts hus hr =>
    have hrel : rel = .eq ∨ rel = .ne := by
      cases rel <;> first | exact .inl rfl | exact .inr rfl | cases hr
    exact absurd (.relation hop ht hu (hts.trans hus.symm) (.inr (.inr ⟨hts, hrel⟩))) hdirect
  | same want hop =>
    refine absurd (.same ?_) hdirect
    cases want <;> simp [hop]
  | null want hop ht hobject =>
    refine absurd (.null ?_ ht hobject) hdirect
    cases want <;> simp [hop]
  | never want hop ht hprimitive hv => exact ⟨want, _, _, hop, ht, hprimitive, hv, rfl, rfl⟩

-- Before anything else than a conditional jump, the result of a comparison is on the stack: that of
-- the call, or the constant for a primitive.
theorem Lowered.comes_result (hl : Lowered env f code out c c₁ body mc) (hclass : c.WellFormed env)
    {p start : Nat} (hp : (body.layout code out).reloc.getLocal s p = some start)
    (hi : Instr.decodeAt code p = .ok i) (hc : isComparison i.op = true)
    (hother : ∀ j, Instr.decodeAt code (p + i.size) = .ok j → Following.sense? j.op = none) :
    ∃ behind, (body.layout code out).reloc.getLocal s (p + i.size) = some behind ∧
      ∀ m : Machine, m.code = mc.code.code →
        m.constants.Extends c₁.draft.pool.get? → ∀ ops r stack locals,
        (Decides env i ops r → ¬DirectComparison env i →
          m.Reaches ⟨start, ops.reverse ++ stack, locals⟩ ⟨behind, .ofBool r :: stack, locals⟩) ∧
        ∀ (l : Linkage) (sig : String), AsksRuntime env i sig →
          l.method? sig = some ⟨ops.map Value.kind, some .int⟩ →
          m.Comes l ⟨start, ops.reverse ++ stack, locals⟩
            [.call .static sig ops (some (.ofBool r))] ⟨behind, .ofBool r :: stack, locals⟩ := by
  obtain ⟨cmp, d, d₁, own, more, hcmp, hits, hfirst, hlast, hmore, hx⟩ :=
    hl.stands_result hp hi hc hother
  have hd := (hfirst.advances hclass).1
  have hd₁ := (hits.advances hd).1
  have hinert : Item.Inert own := by
    refine hits.inert ?_
    cases hcmp with
    | @relation rel t u =>
      rw [Comparison.relation]
      split <;> simp [Comparison.jumpOr, Comparison.byRuntime, Item.callStatic, Item.isInert]
    | same want => simp [Comparison.same, Comparison.jumpOr, Item.callStatic, Item.isInert]
    | null want =>
      rw [Comparison.null]
      split <;> simp [Comparison.jumpOr, Item.callStatic, Item.isInert]
  obtain ⟨behind, hx'⟩ := hx.inert hinert
  have hnote := hl.note_of_stands hx' hmore
  refine ⟨behind, hnote, ?_⟩
  intro m hm hconstants ops r stack locals
  constructor
  · intro hdecides hdirect
    obtain ⟨want, t, v, hop, ht, hprimitive, hv, rfl, rfl⟩ := hdecides.of_not_direct hdirect
    obtain rfl := hcmp.items_never hop ht hprimitive
    obtain rfl := hits.eq_ops [if t.isWide then pop2 else ClassFile.Op.pop,
      if want then iconst0 else iconst1]
    obtain ⟨pos', hreach, hend⟩ := hl.reaches_never hm hv hx
    cases hnote.symm.trans (hl.note_of_stands hend hmore)
    exact hreach
  · intro l sig hsig hlink
    obtain rfl := hcmp.items_alone hsig
    obtain ⟨ref, its, d₂, rfl, hnil, hmethod⟩ := interned_callStatic hd hits
    cases hnil
    have hmethod := hconstants.method? ((hlast.advances.extends hd₁).method? hmethod)
    have hend := hx.tail fun _ => rfl
    cases hnote.symm.trans (hl.note_of_stands hend hmore)
    exact hl.comes_call hm (some (.ofBool r)) hx hmethod hlink rfl rfl

-- A conditional jump that no comparison of the scope stands before is one on its own.
theorem Lowered.stands_conditional (hl : Lowered env f code out c c₁ body mc) {java : Nat}
    {j : Instr} {sense : Bool} (hq : (body.layout code out).reloc.getLocal s q = some java)
    (hj : Instr.decodeAt code q = .ok j) (hsense : Following.sense? j.op = some sense)
    (halone : ∀ p i start, (body.layout code out).reloc.getLocal s p = some start →
      Instr.decodeAt code p = .ok i → isComparison i.op = true → q ≠ p + i.size) :
    ∃ more, NotesNext (q + j.size) more ∧ body.Stands code out s java
      (.jump .branch (if sense then ifne else ifeq) j.arg :: more) := by
  obtain hop | ⟨pre, post, hitems, hscope, hpos, hsite⟩ := layout_site out hl.emits hq hj
  · rw [hop] at hsense
    cases hsense
  have hx : body.Stands code out s java (.mark q :: post) := ⟨pre, hitems, hscope, hpos⟩
  have hx := hx.unmark
  have hplain := isComparison_of_sense hsense
  generalize hbefore : pre = before at hsite
  cases hsite with
  | one hj' hown _ hmore _ _ =>
    rw [hj] at hj'
    cases hj'
    obtain rfl := hown.branch (branchItem?_of_sense hsense)
    exact ⟨_, hmore, hx⟩
  | fused hj' _ hown _ _ _ =>
    rw [hj] at hj'
    cases hj'
    rw [hown.isComparison] at hplain
    cases hplain
  | @swallowed p i j' rest e e₁ first pre' own more hi hp _ hown _ =>
    -- The comparison that took the jump along is noted in the same scope.
    obtain ⟨_, _, _, _, -, hinert, -, -⟩ := hown.shape.of_mark
    subst hbefore
    have hitems' : body.items.toList = first ++ .mark p :: (pre' ++ .mark q :: (own ++ more)) := by
      simp [hitems]
    have hnote := layout_note out hl.emits hitems' (.inl rfl)
    have hsame := (Marked.inert hinert (((Layout.start out code.size).puts first).put (.mark p))).scope
    rw [← Layout.puts_cons, ← Layout.puts_append, hscope] at hsame
    have hscope' : (((Layout.start out code.size).puts first).put (.mark p)).scope =
        ((Layout.start out code.size).puts first).scope := rfl
    rw [hsame, hscope'] at halone
    exact absurd hp (halone p i _ hnote hi hown.isComparison)
  | copy hj' hop _ =>
    rw [hj] at hj'
    cases hj'
    rw [hop] at hsense
    cases hsense

-- The end of a method keeps the constants that its instructions need.
theorem lowered_of_wellFormed {attrs : Pod.Attributes} {c' : OpenClass} (hclass : c.WellFormed env)
    (h : lowerCode f code attrs out env c = .ok mc c') :
    ∃ body c₁, Lowered env f code out c c₁ body mc ∧
      ClassFile.Constants.Extends c'.draft.pool.get? c₁.draft.pool.get? := by
  obtain ⟨p, c₁, hp, hcode, hreloc, hjumps⟩ := lowerCode_eq_ok h
  obtain ⟨body, hbody, hexact⟩ := exact_of_placed hp hcode hreloc hjumps
  obtain ⟨instrs, its, -, hder, -⟩ := items_of_emitBody hbody
  have hclass₁ := (hder.later.advances hclass).1
  exact ⟨body, c₁, ⟨hbody, hexact⟩, (lowerCode_advances h hp).extends hclass₁⟩

-- A comparison and the conditional jump directly behind it take the operands, and go to the target
-- of the jump if the comparison came out as the jump wants it and on behind the jump if not: by the
-- values, or by the bool that the runtime returns for them. A comparison that is not before such a
-- jump leaves that bool, and a conditional jump that is not behind a comparison takes one.
theorem compared_branches {attrs : Pod.Attributes} {c' : OpenClass} (hclass : c.WellFormed env)
    (h : lowerCode f code attrs out env c = .ok mc c') :
    ∃ body c₁, emitBody f code {} env c = .ok ((), body) c₁ ∧
      mc.reloc = (body.layout code out).reloc.mainMap ∧
      (∀ (s p start : Nat) (i j : Instr) (sense : Bool),
        (body.layout code out).reloc.getLocal s p = some start →
        Instr.decodeAt code p = .ok i → isComparison i.op = true →
        Instr.decodeAt code (p + i.size) = .ok j → Following.sense? j.op = some sense →
        ∃ dest behind, (body.layout code out).reloc.Finds j.arg.toNat s dest ∧
          (body.layout code out).reloc.getLocal s (p + i.size + j.size) = some behind ∧
          ∀ m : Machine, m.code = mc.code.code →
            m.constants.Extends c'.draft.pool.get? → ∀ ops r stack locals,
            (Decides env i ops r → m.Reaches ⟨start, ops.reverse ++ stack, locals⟩
              ⟨if r = sense then dest else behind, stack, locals⟩) ∧
            (¬DirectComparison env i → ∀ (l : Linkage) (sig : String), AsksRuntime env i sig →
              l.method? sig = some ⟨ops.map Value.kind, some .int⟩ →
              m.Comes l ⟨start, ops.reverse ++ stack, locals⟩
                [.call .static sig ops (some (.ofBool r))]
                ⟨if r = sense then dest else behind, stack, locals⟩)) ∧
      (∀ (s p start : Nat) (i : Instr), (body.layout code out).reloc.getLocal s p = some start →
        Instr.decodeAt code p = .ok i → isComparison i.op = true →
        (∀ j, Instr.decodeAt code (p + i.size) = .ok j → Following.sense? j.op = none) →
        ∃ behind, (body.layout code out).reloc.getLocal s (p + i.size) = some behind ∧
          ∀ m : Machine, m.code = mc.code.code →
            m.constants.Extends c'.draft.pool.get? → ∀ ops r stack locals,
            (Decides env i ops r → ¬DirectComparison env i →
              m.Reaches ⟨start, ops.reverse ++ stack, locals⟩
                ⟨behind, .ofBool r :: stack, locals⟩) ∧
            ∀ (l : Linkage) (sig : String), AsksRuntime env i sig →
              l.method? sig = some ⟨ops.map Value.kind, some .int⟩ →
              m.Comes l ⟨start, ops.reverse ++ stack, locals⟩
                [.call .static sig ops (some (.ofBool r))] ⟨behind, .ofBool r :: stack, locals⟩) ∧
      ∀ (s q java : Nat) (j : Instr) (sense : Bool),
        (body.layout code out).reloc.getLocal s q = some java →
        Instr.decodeAt code q = .ok j → Following.sense? j.op = some sense →
        (∀ p i start, (body.layout code out).reloc.getLocal s p = some start →
          Instr.decodeAt code p = .ok i → isComparison i.op = true → q ≠ p + i.size) →
        ∃ dest behind, (body.layout code out).reloc.Finds j.arg.toNat s dest ∧
          (body.layout code out).reloc.getLocal s (q + j.size) = some behind ∧
          ∀ m : Machine, m.code = mc.code.code → BranchesOnBool m java sense dest behind := by
  obtain ⟨body, c₁, hl, hextends⟩ := lowered_of_wellFormed hclass h
  refine ⟨body, c₁, hl.emits, hl.filled.main, ?_, ?_, ?_⟩
  · intro s p start i j sense hp hi hc hj hsense
    obtain ⟨-, dest, behind, -, hdest, hbehind, -⟩ := hl.behind_comparison hp hi hc hj hsense
    refine ⟨dest, behind, hdest, hbehind, ?_⟩
    intro m hm hconstants ops r stack locals
    refine ⟨hl.reaches_compared hm hp hi hc hj hsense hdest hbehind, ?_⟩
    intro hdirect l sig hsig hlink
    exact hl.comes_compared hclass (hconstants.trans hextends) hm hp hi hc hj hsense hdest hbehind
      hsig hdirect hlink r
  · intro s p start i hp hi hc hother
    obtain ⟨behind, hbehind, hresult⟩ := hl.comes_result hclass hp hi hc hother
    refine ⟨behind, hbehind, ?_⟩
    intro m hm hconstants
    exact hresult m hm (hconstants.trans hextends)
  · intro s q java j sense hq hj hsense halone
    obtain ⟨more, hmore, hx⟩ := hl.stands_conditional hq hj hsense halone
    obtain ⟨dest, behind, hdest, hbehind, hbranches⟩ := hl.step_conditional hmore hx
    exact ⟨dest, behind, hdest, hbehind, hbranches⟩

end Code

-- A method with two floats: it returns at one place if the first one is at most the second one, and
-- at another if not.
--    0 LoadVar 0    6 CompareLE Float Float    14 ReturnVoid
--    3 LoadVar 1   11 JumpFalse 15             15 ReturnVoid
def atMostFrame : Frame :=
  { bareFrame with regs := #[some ⟨0, .double⟩, some ⟨2, .double⟩], paramCount := 2, maxLocals := 4 }

def atMostCode : Bytes :=
  #[10, 0, 0, 10, 0, 1, 34, 0, 0, 0, 0, 30, 0, 15, 42, 42]

def floatEnv : ClassEnv :=
  { bareEnv with pod := { bareEnv.pod with symbols := { typeRefs := #[⟨"sys", "Float", ""⟩] } } }

-- Of two floats that have no order the first one is not at most the second one.
theorem compared_branches_atMost : ∃ mc c',
    lowerCode atMostFrame atMostCode {} {} floatEnv bareClass = .ok mc c' ∧
    mc.code.code = #[38, 40, 152, 157, 0, 4, 177, 177] ∧
    ∀ m : Machine, m.code = mc.code.code → m.constants.Extends c'.draft.pool.get? →
      ∀ a b stack locals, m.Reaches ⟨2, .double b :: .double a :: stack, locals⟩
        ⟨if Relation.le.admits (orderOfDoubles a b) then 6 else 7, stack, locals⟩ := by
  obtain ⟨mc, c', h⟩ := exists_of_result? (by decide +kernel :
    (result? (lowerCode atMostFrame atMostCode {} {} floatEnv bareClass)).isSome)
  have hcode : (result? (lowerCode atMostFrame atMostCode {} {} floatEnv bareClass)).map
      (fun mc => (mc.code.code, mc.reloc)) =
        some (#[38, 40, 152, 157, 0, 4, 177, 177], #[some 0, none, none, some 1, none, none, some 2,
          none, none, none, none, some 2, none, none, some 6, some 7, some 8]) := by
    decide +kernel
  rw [h] at hcode
  obtain ⟨hcode, hreloc⟩ := Prod.mk.inj (Option.some.inj hcode)
  refine ⟨mc, c', h, hcode, ?_⟩
  intro m hm hconstants a b stack locals
  obtain ⟨body, c₁, -, hmain, hfused, -⟩ := compared_branches (wellFormed_bare _) h
  have hnote : ∀ q java, mc.reloc[q]? = some (some java) →
      (body.layout atMostCode {}).reloc.getLocal 0 q = some java := by
    intro q java hq
    rw [hmain] at hq
    exact Relocation.mainMap_eq_some_iff.mp hq
  obtain ⟨dest, behind, hdest, hbehind, hrun⟩ := hfused 0 6 2 ⟨6, .compareLE, [0, 0]⟩
    ⟨11, .jumpFalse, [15]⟩ false (hnote 6 2 (by rw [hreloc]; rfl)) (by decide +kernel) rfl
    (by decide +kernel) rfl
  cases hbehind.symm.trans (hnote 14 6 (by rw [hreloc]; rfl))
  obtain rfl : dest = 7 := hdest.unique (.here (hnote 15 7 (by rw [hreloc]; rfl)))
  have hrel : relation? .compareLE = some .le := rfl
  have hreach := (hrun m hm hconstants [.double a, .double b] _ stack locals).1
    (.doubles hrel rfl rfl (by decide +kernel) (by decide +kernel) a b)
  revert hreach
  cases Relation.le.admits (orderOfDoubles a b) <;> exact id

end PodCompiler.Lowering
