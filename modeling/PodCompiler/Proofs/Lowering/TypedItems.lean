import PodCompiler.Proofs.Jvm.StackTypes
import PodCompiler.Proofs.Lowering.CoreItems
import PodCompiler.Proofs.Lowering.WholeItems

namespace PodCompiler.Lowering

open ClassFile (Constants Member)
open ClassFile.Op
open Jvm (CallMode Kind Signature TypeChecks opKinds)

-- What an index of a class stands for. A type that the class `cls` keeps has a field of the class.
def Ref.Names (cls : String) (k : Constants) (i : UInt16) : Ref → Prop
  | .class_ name => k.className? i = some name
  | .string text => k.string? i = some text
  | .field sig => ∃ m, Member.ofField sig = .ok m ∧ k.fieldMember? i = some m
  | .method sig => ∃ m, Member.ofMethod sig = .ok m ∧ k.methodMember? i = some m
  | .interfaceMethod _ => True
  | .typeLiteral _ => ∃ (n : Nat) (m : Member),
      Member.ofField s!"{cls}.{literalField n}:{typeDesc}" = .ok m ∧ k.fieldMember? i = some m

-- A stretch of the code of a class, with what its jumps lead to.
structure Stretch where
  cls : String
  constants : Constants
  code : Bytes
  start : Nat
  stop : Nat
  leads : UInt16 → Nat → Prop

namespace Stretch

variable (r : Stretch)

def Has (p : Nat) : Prop :=
  r.start ≤ p ∧ p < r.stop

-- An item is there. Of those on variables, and of those that are none of the code, nothing is said.
def Holds (p : Nat) : Item Ref → Prop
  | .op o => r.Has p ∧ r.code[p]? = some o
  | .const o ref => r.Has p ∧ r.code[p]? = some o ∧
      ∃ i, r.code.be2? (p + 1) = some i ∧ ref.Names r.cls r.constants i
  | .hop o distance => r.Has p ∧ r.code[p]? = some o ∧ word2 r.code (p + 1) = distance
  | .jump .branch o target => r.Has p ∧ r.code[p]? = some o ∧
      ∃ dest : Nat, r.leads target dest ∧ p + (word2 r.code (p + 1)).toInt16.toInt = dest
  | _ => True

-- Items are there from a position to the end of the stretch.
def Reads : Nat → List (Item Ref) → Prop
  | p, [] => p = r.stop
  | p, x :: rest => r.Holds p x ∧ Reads (p + x.size) rest

-- The paths from a position are well typed.
def Checks (exits : List (Nat × List Kind)) (p : Nat) (stack : List Kind) : Prop :=
  TypeChecks r.constants r.code r.start r.stop exits p stack

variable {r} {p : Nat} {xs ys : List (Item Ref)}

-- The bytes of items.
def sizes (xs : List (Item Ref)) : Nat :=
  (xs.map Item.size).sum

theorem Reads.drop (h : r.Reads p (xs ++ ys)) : r.Reads (p + sizes xs) ys := by
  induction xs generalizing p with
  | nil => exact h
  | cons x xs ih =>
    have hrest := ih h.2
    rwa [Nat.add_assoc] at hrest

theorem Reads.hop {o : UInt8} {d : UInt16} (h : r.Reads p (.hop o d :: xs)) :
    r.start ≤ p ∧ p < r.stop ∧ r.code[p]? = some o ∧ word2 r.code (p + 1) = d ∧
      r.Reads (p + 3) xs :=
  ⟨h.1.1.1, h.1.1.2, h.1.2.1, h.1.2.2, h.2⟩

end Stretch

-- Wherever these items are before others, the paths that go through them take some kinds off the stack
-- and leave others, and then come to what is behind them.
def Turns (cls : String) (xs : List (Item Ref)) (takes gives : List Kind) : Prop :=
  ∀ (r : Stretch) exits p base ys, r.cls = cls → r.Reads p (xs ++ ys) →
    (∀ q, r.Reads q ys → r.Checks exits q (gives ++ base)) → r.Checks exits p (takes ++ base)

namespace Turns

variable {cls : String} {xs ys : List (Item Ref)} {a b c takes gives : List Kind} {o : UInt8}
  {d : UInt16}

theorem nil : Turns cls [] a a := by
  intro r exits p base ys _ h hnext
  exact hnext p h

theorem append (h : Turns cls xs a b) (h' : Turns cls ys b c) : Turns cls (xs ++ ys) a c := by
  intro r exits p base zs hcls hreads hnext
  rw [List.append_assoc] at hreads
  refine h r exits p base (ys ++ zs) hcls hreads fun q hq => ?_
  exact h' r exits q base zs hcls hq hnext

theorem cons {x : Item Ref} (h : Turns cls [x] a b) (h' : Turns cls ys b c) :
    Turns cls (x :: ys) a c :=
  append h h'

-- What is below stays.
theorem above (h : Turns cls xs takes gives) (below : List Kind) :
    Turns cls xs (takes ++ below) (gives ++ below) := by
  intro r exits p base ys hcls hreads hnext
  rw [List.append_assoc]
  refine h r exits p (below ++ base) ys hcls hreads fun q hq => ?_
  rw [← List.append_assoc]
  exact hnext q hq

theorem reserve (ref : Ref) : Turns cls [.reserve ref] a a := by
  intro r exits p base ys _ h hnext
  exact hnext _ h.2

theorem mark (q : Nat) : Turns cls [.mark q] a a := by
  intro r exits p base ys _ h hnext
  exact hnext _ h.2

-- An instruction that works on the stack alone.
theorem op (hkinds : (o, takes, gives) ∈ opKinds) (hlength : ClassFile.Op.fixedLength? o = some 1) :
    Turns cls [.op o] takes gives := by
  intro r exits p base ys _ h hnext
  obtain ⟨⟨⟨hstart, hstop⟩, hop⟩, hrest⟩ := h
  have hbranch : isBranch o = false := by
    cases hbranch : isBranch o with
    | false => rfl
    | true =>
      rw [fixedLength?_of_isBranch hbranch] at hlength
      cases hlength
  exact .plain hstart hstop hop hlength hbranch (.op hop hkinds) (hnext _ hrest)

theorem throw : Turns cls [.op athrow] (.ref :: a) b := by
  intro r exits p base ys _ h _
  obtain ⟨⟨⟨hstart, hstop⟩, hop⟩, -⟩ := h
  exact .throw hstart hstop hop

-- An instruction with a constant.
theorem const {ref : Ref} (hlength : ClassFile.Op.fixedLength? o = some 3)
    (hbranch : isBranch o = false)
    (heffect : ∀ (k : Constants) (code : Bytes) (p : Nat) (i : UInt16), code[p]? = some o →
      code.be2? (p + 1) = some i → ref.Names cls k i → Jvm.Effect k code p takes gives) :
    Turns cls [.const o ref] takes gives := by
  rintro r exits p base ys rfl h hnext
  obtain ⟨⟨⟨hstart, hstop⟩, hop, i, hi, hnames⟩, hrest⟩ := h
  exact .plain hstart hstop hop hlength hbranch (heffect _ _ _ i hop hi hnames) (hnext _ hrest)

theorem getStatic {sig : String} {t : Kind} (h : Kind.ofSig? sig = some t) :
    Turns cls [.const ClassFile.Op.getStatic (.field sig)] [] [t] :=
  const rfl rfl fun _ _ _ _ hop hi ⟨_, hsig, hm⟩ =>
    .getStatic hop hi hm (by rw [Kind.ofDesc?_of_ofField hsig, h])

theorem getField {sig : String} {t : Kind} (h : Kind.ofSig? sig = some t) :
    Turns cls [.const ClassFile.Op.getField (.field sig)] [.ref] [t] :=
  const rfl rfl fun _ _ _ _ hop hi ⟨_, hsig, hm⟩ =>
    .getField hop hi hm (by rw [Kind.ofDesc?_of_ofField hsig, h])

theorem call (mode : CallMode) {sig : String} {s : Signature} (h : Signature.ofSig? sig = some s) :
    Turns cls [.const mode.op (.method sig)]
      (s.takes.reverse ++ List.replicate mode.arity .ref) s.gives.toList :=
  const (by cases mode <;> rfl) (by cases mode <;> rfl) fun _ _ _ _ hop hi ⟨_, hsig, hm⟩ =>
    .call hop hi hm (by rw [Signature.ofDesc?_of_ofMethod hsig, h])

theorem string (text : String) : Turns cls [.const ldcW (.string text)] [] [.ref] :=
  const rfl rfl fun _ _ _ _ hop hi htext => .string hop hi htext

theorem instanceOf (name : String) :
    Turns cls [.const ClassFile.Op.instanceOf (.class_ name)] [.ref] [.int] :=
  const rfl rfl fun _ _ _ _ hop hi hname => .instanceOf hop hi hname

theorem checkCast (name : String) :
    Turns cls [.const ClassFile.Op.checkCast (.class_ name)] [.ref] [.ref] :=
  const rfl rfl fun _ _ _ _ hop hi hname => .checkCast hop hi hname

-- Where a jump by a fixed distance leads.
theorem dest_eq {r : Stretch} {p : Nat} (hword : word2 r.code (p + 1) = d)
    (hd : d.toNat < 2 ^ 15) :
    p + (word2 r.code (p + 1)).toInt16.toInt = (p + d.toNat : Nat) := by
  rw [hword, Bytes.toInt_toInt16 hd]
  rfl

-- A jump over some items, which come to their end, if at all, with the same stack.
theorem skip {below : List Kind} (hkinds : (o, takes, gives) ∈ opKinds)
    (hbranch : isBranch o = true) (hjsr : o ≠ jsr) (hd : d.toNat < 2 ^ 15)
    (hsize : d.toNat = 3 + Stretch.sizes xs)
    (h : Turns cls xs (gives ++ below) (gives ++ below)) :
    Turns cls (.hop o d :: xs) (takes ++ below) (gives ++ below) := by
  intro r exits p base ys hcls hreads hnext
  rw [List.cons_append] at hreads
  obtain ⟨hstart, hstop, hop, hword, hrest⟩ := hreads.hop
  have hon := h r exits _ base ys hcls hrest hnext
  have htaken := hnext _ hrest.drop
  rw [List.append_assoc] at hon htaken ⊢
  refine .branch hstart hstop hop hbranch hjsr hkinds (dest_eq hword hd) ?_ fun _ => hon
  rwa [Nat.add_assoc, ← hsize] at htaken

-- Two ways that join.
theorem choose {below join : List Kind} {d' : UInt16} (hkinds : (o, takes, gives) ∈ opKinds)
    (hbranch : isBranch o = true) (hjsr : o ≠ jsr) (hd : d.toNat < 2 ^ 15)
    (hd' : d'.toNat < 2 ^ 15) (hsize : d.toNat = 3 + (Stretch.sizes xs + 3))
    (hsize' : d'.toNat = 3 + Stretch.sizes ys) (hxs : Turns cls xs (gives ++ below) join)
    (hys : Turns cls ys (gives ++ below) join) :
    Turns cls (.hop o d :: (xs ++ .hop goto d' :: ys)) (takes ++ below) join := by
  intro r exits p base zs hcls hreads hnext
  have hgoto : (goto, [], []) ∈ opKinds := by decide
  rw [List.cons_append, List.append_assoc, List.cons_append] at hreads
  obtain ⟨hstart, hstop, hop, hword, hrest⟩ := hreads.hop
  have hon := hxs r exits _ base (.hop goto d' :: (ys ++ zs)) hcls hrest fun q hq => by
    obtain ⟨hstart, hstop, hop, hword, hrest⟩ := hq.hop
    have hjoin := hnext _ hrest.drop
    rw [Nat.add_assoc, ← hsize'] at hjoin
    change r.Checks exits q ([] ++ (join ++ base))
    exact .branch hstart hstop hop rfl (by decide) hgoto (dest_eq hword hd') hjoin
      fun h => absurd rfl h
  have htaken := hys r exits _ base zs hcls hrest.drop.hop.2.2.2.2 hnext
  rw [List.append_assoc] at hon htaken ⊢
  refine .branch hstart hstop hop hbranch hjsr hkinds (dest_eq hword hd) ?_ fun _ => hon
  have hpos : p + d.toNat = p + 3 + Stretch.sizes xs + 3 := by omega
  rw [hpos]
  exact htaken

-- At the end of the code the paths leave it.
theorem checks (h : Turns cls xs takes gives) {r : Stretch} {exits : List (Nat × List Kind)}
    {p : Nat} {base : List Kind} (hcls : r.cls = cls) (hreads : r.Reads p xs)
    (hexit : (r.stop, gives ++ base) ∈ exits) : r.Checks exits p (takes ++ base) := by
  rw [← List.append_nil xs] at hreads
  refine h r exits p base [] hcls hreads fun q hq => ?_
  have hq : q = r.stop := hq
  rw [hq]
  exact .exit hexit

end Turns

-- Wherever these items are, with these kinds on the stack, the code is not well typed.
def Stuck (cls : String) (xs : List (Item Ref)) (takes : List Kind) : Prop :=
  ∀ (r : Stretch) exits p base ys, r.cls = cls → r.Reads p (xs ++ ys) →
    (p, takes ++ base) ∉ exits → ¬r.Checks exits p (takes ++ base)

namespace Stuck

variable {cls : String} {xs : List (Item Ref)} {takes : List Kind}

theorem append (h : Stuck cls xs takes) (ys : List (Item Ref)) : Stuck cls (xs ++ ys) takes := by
  intro r exits p base zs hcls hreads
  rw [List.append_assoc] at hreads
  exact h r exits p base (ys ++ zs) hcls hreads

theorem reserve (h : Stuck cls xs takes) (ref : Ref) : Stuck cls (.reserve ref :: xs) takes := by
  intro r exits p base ys hcls hreads
  exact h r exits p base ys hcls hreads.2

-- A call on operands of other kinds than its descriptor says.
theorem call (mode : CallMode) {sig : String} {s : Signature} (h : Signature.ofSig? sig = some s)
    (hne : ∀ base rest,
      takes ++ base ≠ s.takes.reverse ++ List.replicate mode.arity .ref ++ rest) :
    Stuck cls [.const mode.op (.method sig)] takes := by
  intro r exits p base ys _ hreads hexit hchecks
  obtain ⟨⟨-, hop, i, hi, m, hsig, hm⟩, -⟩ := hreads
  obtain ⟨takes', gives, rest, heffect, hstack⟩ := hchecks.effect hexit
  obtain ⟨s', hs', rfl⟩ := heffect.of_call hop hi hm
  rw [Signature.ofDesc?_of_ofMethod hsig, h] at hs'
  cases hs'
  exact hne base rest hstack

-- A field whose descriptor is none.
theorem getStatic {ref : Ref} (h : ∀ k i, ref.Names cls k i →
    ∃ m, k.fieldMember? i = some m ∧ Kind.ofDesc? m.desc = none) :
    Stuck cls [.const ClassFile.Op.getStatic ref] takes := by
  rintro r exits p base ys rfl hreads hexit hchecks
  obtain ⟨⟨-, hop, i, hi, hnames⟩, -⟩ := hreads
  obtain ⟨m, hm, hnone⟩ := h _ i hnames
  obtain ⟨takes', gives, rest, heffect, -⟩ := hchecks.effect hexit
  obtain ⟨t, ht⟩ := heffect.of_getStatic hop hi hm
  rw [hnone] at ht
  cases ht

theorem not_checks (h : Stuck cls xs takes) {r : Stretch} {exits : List (Nat × List Kind)}
    {p : Nat} {base : List Kind} (hcls : r.cls = cls) (hreads : r.Reads p xs)
    (hexit : (p, takes ++ base) ∉ exits) : ¬r.Checks exits p (takes ++ base) := by
  rw [← List.append_nil xs] at hreads
  exact h r exits p base [] hcls hreads hexit

end Stuck

end PodCompiler.Lowering
