import PodCompiler.Proofs.ClassFile.ControlFlow
import PodCompiler.Proofs.ClassFile.Descriptor
import PodCompiler.Proofs.ClassFile.Fields
import PodCompiler.Proofs.Jvm.Calls

namespace PodCompiler.Jvm

open ClassFile
open ClassFile.Op

-- The kind of a field, by its descriptor.
def Kind.ofDesc? (desc : String) : Option Kind :=
  match Descriptor.field? desc.toList with
  | some (t, []) => some (.ofStack t)
  | _ => none

-- What a method takes and returns, by its descriptor.
def Signature.ofDesc? (desc : String) : Option Signature := do
  let takes ← Descriptor.arguments? desc
  let result ← Descriptor.returned? desc
  return ⟨takes.map Kind.ofStack, Kind.returned result⟩

-- The same of members by their signatures.
def Kind.ofSig? (sig : String) : Option Kind :=
  Kind.ofDesc? (String.ofList (sig.toList.dropWhile (· ≠ ':')).tail)

def Signature.ofSig? (sig : String) : Option Signature :=
  Signature.ofDesc? (String.ofList (sig.toList.dropWhile (· ≠ '(')))

-- The opcodes that make something, convert, compare, jump or throw, each with the kinds that it takes
-- off the stack and those that it leaves in their place.
def fixedKinds : List (UInt8 × List Kind × List Kind) :=
  [(aconstNull, [], [.ref]), (iconst0, [], [.int]), (iconst1, [], [.int]),
    (i2l, [.int], [.long]), (i2f, [.int], [.float]), (i2d, [.int], [.double]),
    (l2i, [.long], [.int]), (l2f, [.long], [.float]), (l2d, [.long], [.double]),
    (f2i, [.float], [.int]), (f2l, [.float], [.long]), (f2d, [.float], [.double]),
    (d2i, [.double], [.int]), (d2l, [.double], [.long]), (d2f, [.double], [.float]),
    (i2b, [.int], [.int]), (i2c, [.int], [.int]), (i2s, [.int], [.int]),
    (lcmp, [.long, .long], [.int]), (dcmpl, [.double, .double], [.int]),
    (dcmpg, [.double, .double], [.int]),
    (ifeq, [.int], []), (ifne, [.int], []), (iflt, [.int], []), (ifge, [.int], []),
    (ifgt, [.int], []), (ifle, [.int], []), (ifIcmpeq, [.int, .int], []),
    (ifIcmpne, [.int, .int], []), (ifAcmpeq, [.ref, .ref], []), (ifAcmpne, [.ref, .ref], []),
    (ifNull, [.ref], []), (ifNonNull, [.ref], []), (goto, [], []), (athrow, [.ref], [])]

-- Those that drop or copy an operand of any kind of one width. Two narrow operands go together as a
-- wide one does.
def movedKinds : List (UInt8 × List Kind × List Kind) :=
  let narrow : List Kind := [.int, .float, .ref]
  let wide : List Kind := [.long, .double]
  let both : List (List Kind) := wide.map ([·]) ++ narrow.flatMap fun t => narrow.map ([t, ·])
  narrow.map (fun t => (pop, [t], [])) ++ narrow.map (fun t => (dup, [t], [t, t])) ++
    both.map (fun ts => (pop2, ts, [])) ++ both.map (fun ts => (dup2, ts, ts ++ ts))

-- The opcodes that work on the stack alone.
def opKinds : List (UInt8 × List Kind × List Kind) :=
  fixedKinds ++ movedKinds

-- What the instruction at a position takes off the stack, and what it leaves there.
inductive Effect (k : Constants) (code : Bytes) (p : Nat) : List Kind → List Kind → Prop where
  | op {o : UInt8} {takes gives : List Kind} (hop : code[p]? = some o)
      (hkinds : (o, takes, gives) ∈ opKinds) : Effect k code p takes gives
  | getStatic {i : UInt16} {m : Member} {t : Kind} (hop : code[p]? = some Op.getStatic)
      (hi : code.be2? (p + 1) = some i) (hm : k.fieldMember? i = some m)
      (ht : Kind.ofDesc? m.desc = some t) : Effect k code p [] [t]
  | putStatic {i : UInt16} {m : Member} {t : Kind} (hop : code[p]? = some Op.putStatic)
      (hi : code.be2? (p + 1) = some i) (hm : k.fieldMember? i = some m)
      (ht : Kind.ofDesc? m.desc = some t) : Effect k code p [t] []
  | getField {i : UInt16} {m : Member} {t : Kind} (hop : code[p]? = some Op.getField)
      (hi : code.be2? (p + 1) = some i) (hm : k.fieldMember? i = some m)
      (ht : Kind.ofDesc? m.desc = some t) : Effect k code p [.ref] [t]
  | call {mode : CallMode} {i : UInt16} {m : Member} {s : Signature}
      (hop : code[p]? = some mode.op) (hi : code.be2? (p + 1) = some i)
      (hm : k.methodMember? i = some m) (hs : Signature.ofDesc? m.desc = some s) :
      Effect k code p (s.takes.reverse ++ List.replicate mode.arity .ref) s.gives.toList
  | string {i : UInt16} {text : String} (hop : code[p]? = some ldcW)
      (hi : code.be2? (p + 1) = some i) (htext : k.string? i = some text) :
      Effect k code p [] [.ref]
  | instanceOf {i : UInt16} {cls : String} (hop : code[p]? = some Op.instanceOf)
      (hi : code.be2? (p + 1) = some i) (hcls : k.className? i = some cls) :
      Effect k code p [.ref] [.int]
  | checkCast {i : UInt16} {cls : String} (hop : code[p]? = some Op.checkCast)
      (hi : code.be2? (p + 1) = some i) (hcls : k.className? i = some cls) :
      Effect k code p [.ref] [.ref]

-- The code from `start` to `stop` is well typed, on each path from a position and a stack: it goes on
-- until it throws or leaves by one of `exits`, which are positions with the stacks there.
inductive TypeChecks (k : Constants) (code : Bytes) (start stop : Nat)
    (exits : List (Nat × List Kind)) : Nat → List Kind → Prop where
  | exit {p : Nat} {stack : List Kind} (h : (p, stack) ∈ exits) :
      TypeChecks k code start stop exits p stack
  | step {p : Nat} {takes gives rest : List Kind} (hstart : start ≤ p) (hstop : p < stop)
      (heffect : Effect k code p takes gives) (htargets : ∀ t ∈ targets code p, 0 ≤ t)
      (hnext : ∀ q, Goes code p q → TypeChecks k code start stop exits q (gives ++ rest)) :
      TypeChecks k code start stop exits p (takes ++ rest)

section Descriptors

variable {sig desc : String} {m : Member} {t : Kind}

theorem Kind.ofDesc?_of_ofField (h : Member.ofField sig = .ok m) :
    Kind.ofDesc? m.desc = Kind.ofSig? sig := by
  rw [Kind.ofSig?, ← Member.desc_of_ofField h, String.ofList_toList]

theorem Signature.ofDesc?_of_ofMethod (h : Member.ofMethod sig = .ok m) :
    Signature.ofDesc? m.desc = Signature.ofSig? sig := by
  rw [Signature.ofSig?, ← Member.desc_of_ofMethod h, String.ofList_toList]

-- The descriptor of a method is read from its parts.
theorem Signature.ofSig?_eq (before : List Char) {cs rest : List Char} {ts : List StackType}
    {result : StackType} (hsig : sig.toList = before ++ '(' :: cs) (hbefore : '(' ∉ before)
    (hparams : Descriptor.params? cs = some (ts, rest))
    (hresult : Descriptor.result? rest = some result) :
    Signature.ofSig? sig = some ⟨ts.map Kind.ofStack, Kind.returned result⟩ := by
  have hall : ∀ c ∈ before, decide (c ≠ '(') = true := by
    intro c hc
    refine decide_eq_true ?_
    rintro rfl
    exact hbefore hc
  have hchars : sig.toList.dropWhile (· ≠ '(') = '(' :: cs := by
    rw [hsig, List.dropWhile_append_of_pos hall]
    simp
  unfold Signature.ofSig? Signature.ofDesc? Descriptor.arguments? Descriptor.returned?
    Descriptor.method?
  rw [hchars, String.toList_ofList]
  simp [hparams, hresult]

-- A field whose descriptor is long holds a reference.
theorem Kind.eq_ref_of_ofDesc? (h : Kind.ofDesc? desc = some t) (hlength : 2 ≤ desc.toList.length) :
    t = .ref := by
  unfold Kind.ofDesc? at h
  split at h
  · rename_i u hfield
    cases h
    rw [Descriptor.eq_obj_of_length hfield hlength]
    rfl
  · cases h

end Descriptors

section Steps

variable {k : Constants} {code : Bytes} {start stop p n : Nat} {exits : List (Nat × List Kind)}
  {o : UInt8} {takes gives rest stack : List Kind} {mode : CallMode} {i : UInt16} {m : Member}

-- An instruction that does not jump.
theorem TypeChecks.plain (hstart : start ≤ p) (hstop : p < stop) (hop : code[p]? = some o)
    (hlength : fixedLength? o = some n) (hbranch : isBranch o = false)
    (heffect : Effect k code p takes gives)
    (hnext : TypeChecks k code start stop exits (p + n) (gives ++ rest)) :
    TypeChecks k code start stop exits p (takes ++ rest) := by
  have hswitch : o ≠ tableSwitch := by
    rintro rfl
    cases hlength
  have hnone := targets_of_not_isBranch hop hbranch hswitch
  refine .step hstart hstop heffect (by simp [hnone]) ?_
  intro q hq
  cases hq with
  | jumps ht =>
    rw [hnone] at ht
    cases ht
  | on hn _ =>
    cases (length?_of_fixed hop hlength).symm.trans hn
    exact hnext

-- One that throws goes nowhere.
theorem TypeChecks.throw (hstart : start ≤ p) (hstop : p < stop) (hop : code[p]? = some athrow) :
    TypeChecks k code start stop exits p (.ref :: rest) := by
  have hnone := targets_of_not_isBranch hop (by decide) (by decide)
  have heffect : Effect k code p [.ref] [] := .op hop (by decide)
  change TypeChecks k code start stop exits p ([.ref] ++ rest)
  refine .step hstart hstop heffect (by simp [hnone]) ?_
  intro q hq
  cases hq with
  | jumps ht =>
    rw [hnone] at ht
    cases ht
  | on _ hends =>
    unfold endsPath at hends
    rw [getD_of_getElem? hop] at hends
    cases hends

-- A jump goes to its target and, if it is a conditional one, behind itself.
theorem TypeChecks.branch {dest : Nat} (hstart : start ≤ p) (hstop : p < stop)
    (hop : code[p]? = some o) (hbranch : isBranch o = true) (hjsr : o ≠ jsr)
    (hkinds : (o, takes, gives) ∈ opKinds)
    (hdest : p + (word2 code (p + 1)).toInt16.toInt = dest)
    (htaken : TypeChecks k code start stop exits dest (gives ++ rest))
    (hon : o ≠ goto → TypeChecks k code start stop exits (p + 3) (gives ++ rest)) :
    TypeChecks k code start stop exits p (takes ++ rest) := by
  have htargets : targets code p = [(dest : Int)] := by
    unfold targets
    rw [getD_of_getElem? hop]
    simp [hbranch, hjsr, hdest]
  refine .step hstart hstop (.op hop hkinds) (by simp [htargets]) ?_
  intro q hq
  cases hq with
  | jumps ht =>
    rw [htargets, List.mem_singleton, Int.natCast_inj] at ht
    rw [ht]
    exact htaken
  | on hn hends =>
    cases (length?_of_fixed hop (fixedLength?_of_isBranch hbranch)).symm.trans hn
    refine hon ?_
    rintro rfl
    unfold endsPath at hends
    rw [getD_of_getElem? hop] at hends
    cases hends

-- None of the opcodes that work on the stack alone names a constant.
theorem hasPoolIndex_of_mem_opKinds (h : (o, takes, gives) ∈ opKinds) : hasPoolIndex o = false := by
  have hall : ∀ x ∈ opKinds, hasPoolIndex x.1 = false := by decide
  exact hall (o, takes, gives) h

-- A call takes what its descriptor says.
theorem Effect.of_call (h : Effect k code p takes gives) (hop : code[p]? = some mode.op)
    (hi : code.be2? (p + 1) = some i) (hm : k.methodMember? i = some m) :
    ∃ s, Signature.ofDesc? m.desc = some s ∧
      takes = s.takes.reverse ++ List.replicate mode.arity .ref := by
  cases h with
  | op hop' hkinds =>
    cases hop.symm.trans hop'
    have hnone := hasPoolIndex_of_mem_opKinds hkinds
    cases mode <;> cases hnone
  | call hop' hi' hm' hs =>
    cases CallMode.op_inj (Option.some.inj (hop.symm.trans hop'))
    cases hi.symm.trans hi'
    cases hm.symm.trans hm'
    exact ⟨_, hs, rfl⟩
  | getStatic hop' | putStatic hop' | getField hop'
  | string hop' | instanceOf hop' | checkCast hop' =>
    have hne := hop.symm.trans hop'
    cases mode <;> cases hne

theorem Effect.of_getStatic (h : Effect k code p takes gives) (hop : code[p]? = some Op.getStatic)
    (hi : code.be2? (p + 1) = some i) (hm : k.fieldMember? i = some m) :
    ∃ t, Kind.ofDesc? m.desc = some t := by
  cases h with
  | op hop' hkinds =>
    cases hop.symm.trans hop'
    cases hasPoolIndex_of_mem_opKinds hkinds
  | getStatic _ hi' hm' ht =>
    cases hi.symm.trans hi'
    cases hm.symm.trans hm'
    exact ⟨_, ht⟩
  | @call mode _ _ _ hop' =>
    have hne := hop.symm.trans hop'
    cases mode <;> cases hne
  | putStatic hop' | getField hop' | string hop' | instanceOf hop' | checkCast hop' =>
    cases hop.symm.trans hop'

-- Inside of the code, well-typed paths go on by the instruction that is there.
theorem TypeChecks.effect (h : TypeChecks k code start stop exits p stack)
    (hexit : (p, stack) ∉ exits) :
    ∃ takes gives rest, Effect k code p takes gives ∧ stack = takes ++ rest := by
  cases h with
  | exit h => exact absurd h hexit
  | step _ _ heffect _ _ => exact ⟨_, _, _, heffect, rfl⟩

end Steps

end PodCompiler.Jvm
