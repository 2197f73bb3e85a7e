import PodCompiler.Proofs.Lowering.ComparedBranches
import PodCompiler.Proofs.Lowering.TypedConversions

namespace PodCompiler.Lowering

open ClassFile.Op
open Jvm (CallMode Kind Signature opKinds)

-- The kind under which the runtime takes a value.
def operandKind (t : TypeRef) : Kind :=
  match t.stack with
  | .bool => .int
  | .long => .long
  | .double => .double
  | _ => .ref

-- Whether a value is of the kind under which the runtime takes it.
def IsTaken (t : TypeRef) : Prop :=
  Kind.ofStack t.stack = operandKind t

instance (t : TypeRef) : Decidable (IsTaken t) :=
  inferInstanceAs (Decidable (_ = _))

-- Items that take some kinds off the stack and then go on behind themselves or jump to a target.
def Forks (cls : String) (xs : List (Item Ref)) (takes : List Kind) (target : UInt16) : Prop :=
  ∀ (r : Stretch) exits p base, r.cls = cls → r.Reads p xs →
    (∀ dest, r.leads target dest → r.Checks exits dest base) → r.Checks exits r.stop base →
      r.Checks exits p (takes ++ base)

namespace Forks

variable {cls : String} {xs ys : List (Item Ref)} {takes mid : List Kind} {op : UInt8}
  {target : UInt16}

theorem jump (hkinds : (op, takes, []) ∈ opKinds) (hbranch : isBranch op = true)
    (hjsr : op ≠ jsr) : Forks cls [.jump .branch op target] takes target := by
  intro r exits p base _ hreads htaken hon
  obtain ⟨⟨⟨hstart, hstop⟩, hop, dest, hleads, hdest⟩, hend⟩ := hreads
  refine .branch hstart hstop hop hbranch hjsr hkinds hdest (htaken dest hleads) fun _ => ?_
  have hend : p + 3 = r.stop := hend
  rw [hend]
  exact hon

theorem behind (h : Turns cls xs takes mid) (h' : Forks cls ys mid target) :
    Forks cls (xs ++ ys) takes target := by
  intro r exits p base hcls hreads htaken hon
  exact h r exits p base ys hcls hreads fun q hq => h' r exits q base hcls hq htaken hon

-- The opposite of a jump takes the same.
theorem mem_opKinds_negateBranch (hkinds : (op, takes, []) ∈ opKinds)
    (hbranch : isBranch op = true) : (negateBranch op, takes, []) ∈ opKinds ∧ op ≠ jsr := by
  have hall : ∀ x ∈ opKinds, isBranch x.1 = true →
      (negateBranch x.1, x.2) ∈ opKinds ∧ x.1 ≠ jsr := by
    decide +kernel
  exact hall _ hkinds hbranch

theorem fused {q : Nat} {sense : Bool} (hbefore : Turns cls xs takes mid)
    (hkinds : (op, mid, []) ∈ opKinds) (hbranch : isBranch op = true) :
    Forks cls (Comparison.fusedJump q xs op sense target).items takes target := by
  obtain ⟨hnegated, hjsr⟩ := mem_opKinds_negateBranch hkinds hbranch
  have hjump : Forks cls [.jump .branch (if sense then op else negateBranch op) target] mid
      target := by
    cases sense with
    | true => exact .jump hkinds hbranch hjsr
    | false =>
      have hbranch' := Comparison.isBranch_sense hbranch false
      exact .jump hnegated hbranch' (mem_opKinds_negateBranch hnegated hbranch').2
  exact .behind ((Turns.mark q).cons hbefore) hjump

end Forks

section Calls

variable {cls : String} {t u : TypeRef}

theorem exists_field?_operandDesc (t : TypeRef) (rest : List Char) :
    ∃ s, ClassFile.Descriptor.field? ((Comparison.operandDesc t).toList ++ rest) = some (s, rest) ∧
      Kind.ofStack s = operandKind t := by
  have hname : ClassFile.Descriptor.field? "Ljava/lang/Object;".toList = some (.obj, []) := by decide
  have hobject := ClassFile.Descriptor.field?_append hname rest
  unfold Comparison.operandDesc operandKind
  cases t.stack with
  | bool => exact ⟨.bool, rfl, rfl⟩
  | long => exact ⟨.long, rfl, rfl⟩
  | double => exact ⟨.double, rfl, rfl⟩
  | _ => exact ⟨.obj, hobject, rfl⟩

-- What a method takes that compares two values.
theorem ofSig?_compared (before : List Char) {letter : Char} {result : StackType} {sig : String}
    (hsig : sig.toList = before ++ '(' :: ((Comparison.operandDesc t).toList ++
      ((Comparison.operandDesc u).toList ++ [')', letter])))
    (hbefore : '(' ∉ before) (hresult : ClassFile.Descriptor.result? [letter] = some result) :
    Signature.ofSig? sig = some ⟨[operandKind t, operandKind u], Kind.returned result⟩ := by
  obtain ⟨a, ha, hat⟩ := exists_field?_operandDesc t
    ((Comparison.operandDesc u).toList ++ [')', letter])
  obtain ⟨b, hb, hbu⟩ := exists_field?_operandDesc u [')', letter]
  have hparams : ClassFile.Descriptor.params? ((Comparison.operandDesc t).toList ++
      ((Comparison.operandDesc u).toList ++ [')', letter])) = some ([a, b], [letter]) := by
    rw [ClassFile.Descriptor.params?_field ha, ClassFile.Descriptor.params?_field hb,
      ClassFile.Descriptor.params?_close]
    rfl
  rw [← hat, ← hbu]
  exact Signature.ofSig?_eq before hsig hbefore hparams hresult

theorem ofSig?_relationMethod (rel : Relation) :
    Signature.ofSig? (relationMethod rel t u) =
      some ⟨[operandKind t, operandKind u], some .int⟩ := by
  have hname : '(' ∉ "fanx/util/OpUtil.".toList ++ rel.helper.toList := by
    cases rel <;> decide
  have hsig : (relationMethod rel t u).toList = ("fanx/util/OpUtil.".toList ++ rel.helper.toList) ++
      '(' :: ((Comparison.operandDesc t).toList ++ ((Comparison.operandDesc u).toList ++
        [')', 'Z'])) := by
    unfold relationMethod
    simp [toString]
  have hresult : ClassFile.Descriptor.result? ['Z'] = some .bool := rfl
  exact ofSig?_compared _ hsig hname hresult

-- The method that puts two values in order.
def orderMethod (t u : TypeRef) : String :=
  s!"fanx/util/OpUtil.compare({Comparison.operandDesc t}{Comparison.operandDesc u})J"

theorem ofSig?_orderMethod :
    Signature.ofSig? (orderMethod t u) =
      some ⟨[operandKind t, operandKind u], some .long⟩ := by
  have hsig : (orderMethod t u).toList = "fanx/util/OpUtil.compare".toList ++
      '(' :: ((Comparison.operandDesc t).toList ++ ((Comparison.operandDesc u).toList ++
        [')', 'J'])) := by
    unfold orderMethod
    simp [toString]
  have hresult : ClassFile.Descriptor.result? ['J'] = some .long := rfl
  exact ofSig?_compared _ hsig (by decide) hresult

-- A call on two values is well typed if the runtime takes both of them, and is not if it does not take
-- one.
theorem turns_compared {sig : String} {result : Option Kind}
    (hsig : Signature.ofSig? sig = some ⟨[operandKind t, operandKind u], result⟩)
    (ht : IsTaken t) (hu : IsTaken u) :
    Turns cls [.callStatic sig] [.ofStack u.stack, .ofStack t.stack] result.toList := by
  rw [ht, hu]
  exact .call .static hsig

theorem stuck_compared {sig : String} {result : Option Kind}
    (hsig : Signature.ofSig? sig = some ⟨[operandKind t, operandKind u], result⟩)
    (h : ¬IsTaken t ∨ ¬IsTaken u) :
    Stuck cls [.callStatic sig] [.ofStack u.stack, .ofStack t.stack] := by
  refine .call .static hsig ?_
  intro base rest heq
  obtain ⟨hu, ht, -⟩ : Kind.ofStack u.stack = operandKind u ∧
      Kind.ofStack t.stack = operandKind t ∧ base = rest := by
    simpa [CallMode.arity] using heq
  exact h.elim (absurd ht) (absurd hu)

end Calls

section Relations

variable {cls : String} {rel : Relation} {t u : TypeRef} {q : Nat} {sense : Bool} {target : UInt16}

-- A comparison that the machine makes itself, before its jump.
theorem direct?_turns {a b : StackType} {before : List (Item Ref)} {op : UInt8}
    (h : Comparison.direct? rel a b = some (before, op)) :
    ∃ mid, Turns cls before [.ofStack b, .ofStack a] mid ∧ (op, mid, []) ∈ opKinds ∧
      isBranch op = true := by
  have hrel : (rel.jumpOp, [.int], []) ∈ opKinds ∧ isBranch rel.jumpOp = true := by
    cases rel <;> decide
  unfold Comparison.direct? at h
  split at h
  · rename_i hab
    subst hab
    split at h <;> cases h
    · exact ⟨[.int], .op (by decide) rfl, hrel⟩
    · exact ⟨[.int], .op (by decide) rfl, hrel⟩
    · exact ⟨[.int], .op (by decide) rfl, hrel⟩
    · exact ⟨[.int], .op (by decide) rfl, hrel⟩
    · exact ⟨[.int, .int], .nil, by decide, rfl⟩
    · exact ⟨[.int, .int], .nil, by decide, rfl⟩
  · cases h

-- Such values the runtime takes too.
theorem isTaken_of_direct {a : StackType} (h : rel.Direct a) (ht : t.stack = a) : IsTaken t := by
  unfold IsTaken operandKind
  obtain rfl | rfl | ⟨rfl, -⟩ := h <;> rw [ht] <;> rfl

-- The test of the bool that the runtime returns.
theorem forks_tested :
    Forks cls (Comparison.fusedJump q [] ifne sense target).items [.int] target :=
  .fused .nil (by decide) rfl

theorem forks_relation (ht : IsTaken t) (hu : IsTaken u) :
    Forks cls (Comparison.relation rel t u (.jump q sense target)).items
      [.ofStack u.stack, .ofStack t.stack] target := by
  unfold Comparison.relation
  split
  · rename_i before op hdirect
    obtain ⟨mid, hbefore, hkinds, hbranch⟩ := direct?_turns hdirect
    exact .fused hbefore hkinds hbranch
  · have hcall : Turns cls [.callStatic (relationMethod rel t u)]
        [.ofStack u.stack, .ofStack t.stack] [.int] :=
      turns_compared (ofSig?_relationMethod rel) ht hu
    exact .behind hcall forks_tested

theorem turns_relation (ht : IsTaken t) (hu : IsTaken u) :
    Turns cls (Comparison.relation rel t u .other).items [.ofStack u.stack, .ofStack t.stack]
      [.int] := by
  have hcall : Turns cls [.callStatic (relationMethod rel t u)]
      [.ofStack u.stack, .ofStack t.stack] [.int] :=
    turns_compared (ofSig?_relationMethod rel) ht hu
  unfold Comparison.relation
  split <;> exact hcall

-- A value that the runtime does not take goes to the runtime nevertheless, whatever follows.
theorem stuck_relation (h : ¬IsTaken t ∨ ¬IsTaken u) (next : Following) :
    Stuck cls (Comparison.relation rel t u next).items [.ofStack u.stack, .ofStack t.stack] ∧
      0 < Stretch.sizes (Comparison.relation rel t u next).items := by
  have hnone : Comparison.direct? rel t.stack u.stack = none := by
    rw [Option.eq_none_iff_forall_not_mem]
    rintro ⟨before, op⟩ hsome
    obtain ⟨hsame, hdirect, -⟩ := direct?_eq_some hsome
    exact h.elim (absurd (isTaken_of_direct hdirect rfl))
      (absurd (isTaken_of_direct hdirect hsame.symm))
  have hcall : Stuck cls [.callStatic (relationMethod rel t u)]
      [.ofStack u.stack, .ofStack t.stack] :=
    stuck_compared (ofSig?_relationMethod rel) h
  have hsize : ∀ xs, 0 < Stretch.sizes (.callStatic (relationMethod rel t u) :: xs) := by
    intro xs
    exact Nat.add_pos_left (Nat.succ_pos 2) _
  unfold Comparison.relation
  rw [hnone]
  cases next with
  | jump q sense target => exact ⟨hcall.append _, hsize _⟩
  | cutOff => exact ⟨hcall, hsize _⟩
  | other => exact ⟨hcall, hsize _⟩

theorem forks_same (want : Bool) :
    Forks cls (Comparison.same want (.jump q sense target)).items [.ref, .ref] target := by
  cases want <;> exact .fused .nil (by decide) rfl

theorem turns_same (want : Bool) :
    Turns cls (Comparison.same want .other).items [.ref, .ref] [.int] := by
  have hsig : Signature.ofSig? (sameMethod want) = some ⟨[.ref, .ref], some .int⟩ := by
    cases want <;> decide +kernel
  exact .call .static hsig

theorem forks_null {want : Bool} (h : t.isPrimitive = false) :
    Forks cls (Comparison.null want t (.jump q sense target)).items [.ref] target := by
  unfold Comparison.null
  rw [h]
  cases want <;> exact .fused .nil (by decide) rfl

theorem turns_null {want : Bool} (h : t.isPrimitive = false) :
    Turns cls (Comparison.null want t .other).items [.ref] [.int] := by
  have hsig : Signature.ofSig? (nullMethod want) = some ⟨[.ref], some .int⟩ := by
    cases want <;> decide +kernel
  unfold Comparison.null
  rw [h]
  exact .call .static hsig

-- A primitive is dropped, whatever follows.
theorem turns_never {want : Bool} (h : t.isPrimitive = true) (next : Following) :
    Turns cls (Comparison.null want t next).items [.ofStack t.stack] [.int] := by
  have hpop : Turns cls [.op (if t.isWide then pop2 else ClassFile.Op.pop)] [.ofStack t.stack]
      [] := by
    unfold TypeRef.isWide
    cases t.stack <;> exact .op (by decide) rfl
  have hconst : Turns cls [.op (if want then iconst0 else iconst1)] [] [.int] := by
    cases want <;> exact .op (by decide) rfl
  unfold Comparison.null
  rw [if_pos h]
  exact hpop.cons hconst

end Relations

end PodCompiler.Lowering
