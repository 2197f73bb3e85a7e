import PodCompiler.Pod.Literals
import PodCompiler.Proofs.Lowering.Shape

namespace PodCompiler.Fcode

open Lowering (Following Relation isComparison relation?)

inductive Value where
  | int (v : Int64)
  | bool (b : Bool)
  deriving DecidableEq

def Value.stack : Value → StackType
  | .int _ => .long
  | .bool _ => .bool

-- A method: its code, what the code refers to, and the types of its registers and of its result.
structure Program where
  code : Bytes
  symbols : Pod.Symbols
  literals : Pod.Literals
  vars : UInt16 → Option StackType
  ret : StackType

structure State where
  pc : Nat
  stack : List Value
  regs : UInt16 → Option Value

-- Where a call begins: the registers hold those arguments that are integers and bools.
def State.start (args : List (Option Value)) : State :=
  ⟨0, [], fun r => (args[r.toNat]?).join⟩

inductive Outcome where
  | next (s : State)
  | returned (v : Value)

-- Goes on at a position with another stack.
def State.goTo (s : State) (pc : Nat) (stack : List Value) : Outcome :=
  .next { s with pc, stack }

-- A method of integers, on one or on two of them.
inductive IntMethod where
  | unary (f : Int64 → Int64)
  | binary (f : Int64 → Int64 → Int64)

namespace IntMethod

def ofName? : String → Option IntMethod
  | "negate" => some (.unary (-·))
  | "plus" => some (.binary (· + ·))
  | "minus" => some (.binary (· - ·))
  | "mult" => some (.binary (· * ·))
  | "and" => some (.binary (· &&& ·))
  | "or" => some (.binary (· ||| ·))
  | "xor" => some (.binary (· ^^^ ·))
  | _ => none

-- The stack after a call.
def run? (m : IntMethod) (stack : List Value) : Option (List Value) :=
  match m, stack with
  | .unary f, .int a :: rest => some (.int (f a) :: rest)
  | .binary f, .int b :: .int a :: rest => some (.int (f a b) :: rest)
  | _, _ => none

end IntMethod

-- Whether two integers are in a relation, and two bools if it is one of bools.
def relatesInt (rel : Relation) (a b : Int64) : Bool :=
  match rel with
  | .eq => a = b
  | .ne => a ≠ b
  | .lt => a < b
  | .le => a ≤ b
  | .gt => b < a
  | .ge => b ≤ a

def relatesBool? (rel : Relation) (a b : Bool) : Option Bool :=
  match rel with
  | .eq => some (a == b)
  | .ne => some (a != b)
  | _ => none

-- The stack after a comparison of two values of the given types.
def compare? (rel : Relation) (t u : StackType) (stack : List Value) : Option (List Value) :=
  match t, u, stack with
  | .long, .long, .int b :: .int a :: rest => some (.bool (relatesInt rel a b) :: rest)
  | .bool, .bool, .bool b :: .bool a :: rest =>
    (relatesBool? rel a b).map fun result => .bool result :: rest
  | _, _, _ => none

-- Where a switch on a value goes: to the target with its number, or on behind it.
def switchTarget (targets : List UInt16) (next : Nat) (v : Int64) : Nat :=
  if 0 ≤ v.toInt then
    match targets[v.toInt.toNat]? with
    | some t => t.toNat
    | none => next
  else next

namespace Program

variable (p : Program)

def type? (index : UInt16) : Option StackType :=
  (p.symbols.typeRef index).toOption.map TypeRef.stack

-- The method of integers at an index.
def intMethod? (index : UInt16) : Option IntMethod := do
  let m ← (p.symbols.methodRef index).toOption
  let t ← (p.symbols.typeRef m.parent).toOption
  if t.pod = "sys" ∧ t.name = "Int" then IntMethod.ofName? m.name else none

-- Takes a bool and jumps if it is `sense`.
def jumpIf (s : State) (next : Nat) (sense : Bool) (target : UInt16) : Option Outcome :=
  match s.stack with
  | .bool b :: rest => some (s.goTo (if b = sense then target.toNat else next) rest)
  | _ => none

-- Runs one instruction; `next` is the position behind it.
def exec (s : State) (next : Nat) (i : Instr) : Option Outcome :=
  match i.op with
  | .nop => some (s.goTo next s.stack)
  | .loadTrue => some (s.goTo next (.bool true :: s.stack))
  | .loadFalse => some (s.goTo next (.bool false :: s.stack))
  | .loadInt => (p.literals.ints[i.arg.toNat]?).map fun v => s.goTo next (.int v :: s.stack)
  | .loadVar => (s.regs i.arg).map fun v => s.goTo next (v :: s.stack)
  | .storeVar =>
    match s.stack with
    | v :: rest =>
      if p.vars i.arg = some v.stack then
        some (.next ⟨next, rest, Function.update s.regs i.arg (some v)⟩)
      else none
    | [] => none
  | .jump | .leave => some (s.goTo i.arg.toNat s.stack)
  | .jumpTrue => jumpIf s next true i.arg
  | .jumpFalse => jumpIf s next false i.arg
  | .switch =>
    match s.stack with
    | .int v :: rest => some (s.goTo (switchTarget i.args next v) rest)
    | _ => none
  | .dup =>
    match s.stack with
    | v :: rest =>
      if p.type? i.arg = some v.stack then some (s.goTo next (v :: v :: rest)) else none
    | [] => none
  | .pop =>
    match s.stack with
    | v :: rest => if p.type? i.arg = some v.stack then some (s.goTo next rest) else none
    | [] => none
  | .returnObj =>
    match s.stack with
    | v :: _ => if p.ret = v.stack then some (.returned v) else none
    | [] => none
  | .callStatic | .callVirtual =>
    ((p.intMethod? i.arg).bind (·.run? s.stack)).map (s.goTo next)
  | op =>
    match relation? op, p.type? i.arg, p.type? (i.args.getD 1 0) with
    | some rel, some t, some u => (compare? rel t u s.stack).map (s.goTo next)
    | _, _, _ => none

-- One step: the instruction at the position of the machine.
def step (s : State) : Option Outcome :=
  match Instr.decodeAt p.code s.pc with
  | .ok i => p.exec s (s.pc + i.size) i
  | .error _ => none

-- One turn: an instruction, or a comparison and the conditional jump directly behind it.
inductive Turn : State → State → Prop where
  | one {s s' : State} {i : Instr} (hi : Instr.decodeAt p.code s.pc = .ok i)
      (hplain : isComparison i.op = false) (h : p.step s = some (.next s')) : Turn s s'
  | pair {s mid s' : State} {i j : Instr} {sense : Bool}
      (hi : Instr.decodeAt p.code s.pc = .ok i) (hcompare : isComparison i.op = true)
      (hj : Instr.decodeAt p.code (s.pc + i.size) = .ok j)
      (hsense : Following.sense? j.op = some sense) (h : p.step s = some (.next mid))
      (hjump : p.step mid = some (.next s')) : Turn s s'

-- The value that the machine switches on, if it is at a switch, is a number of 32 bits.
def SwitchFits (s : State) : Prop :=
  ∀ i v rest, Instr.decodeAt p.code s.pc = .ok i → i.op = .switch → s.stack = .int v :: rest →
    -2 ^ 31 ≤ v.toInt ∧ v.toInt < 2 ^ 31

variable {p} {s s' : State} {i : Instr} {n : Nat}

theorem step_of_decodeAt (hi : Instr.decodeAt p.code s.pc = .ok i) :
    p.step s = p.exec s (s.pc + i.size) i := by
  rw [step, hi]

theorem exec_of_sense {sense : Bool} (h : Following.sense? i.op = some sense) :
    p.exec s n i = jumpIf s n sense i.arg := by
  unfold Following.sense? at h
  unfold exec
  split at h <;> cases h
  · rename_i hop
    rw [hop]
  · rename_i hop
    rw [hop]

-- A comparison leaves a bool.
theorem exec_comparison (hi : isComparison i.op = true) (h : p.exec s n i = some (.next s')) :
    ∃ rel t u r rest, relation? i.op = some rel ∧ p.type? i.arg = some t ∧
      p.type? (i.args.getD 1 0) = some u ∧ compare? rel t u s.stack = some (.bool r :: rest) ∧
      s' = ⟨n, .bool r :: rest, s.regs⟩ := by
  have hbool : ∀ {rel t u values}, compare? rel t u s.stack = some values →
      ∃ r rest, values = .bool r :: rest := by
    intro rel t u values hvalues
    unfold compare? at hvalues
    split at hvalues
    · cases hvalues
      exact ⟨_, _, rfl⟩
    · obtain ⟨r, -, rfl⟩ := Option.map_eq_some_iff.mp hvalues
      exact ⟨_, _, rfl⟩
    · cases hvalues
  unfold exec at h
  split at h <;> rename_i hop <;> try (rw [hop] at hi; cases hi)
  split at h
  · rename_i rel t u hrel ht hu
    obtain ⟨values, hvalues, h⟩ := Option.map_eq_some_iff.mp h
    obtain ⟨r, rest, rfl⟩ := hbool hvalues
    cases h
    exact ⟨rel, t, u, r, rest, hrel, ht, hu, hvalues, rfl⟩
  · cases h

-- Fcode returns the value on its stack, which has the type of the method.
theorem exec_returned {v : Value} (h : p.exec s n i = some (.returned v)) :
    i.op = .returnObj ∧ p.ret = v.stack ∧ ∃ rest, s.stack = v :: rest := by
  have hmap : ∀ {α : Type} {x : Option α} {g : α → List Value},
      x.map (fun a => s.goTo n (g a)) ≠ some (.returned v) := by
    intro α x g h
    obtain ⟨a, -, h⟩ := Option.map_eq_some_iff.mp h
    cases h
  have hjumpIf : ∀ sense, jumpIf s n sense i.arg ≠ some (.returned v) := by
    intro sense h
    unfold jumpIf at h
    split at h <;> cases h
  unfold exec at h
  cases hop : i.op <;> rw [hop] at h <;> dsimp only at h
  case returnObj =>
    split at h
    · rename_i v' rest hstack
      split at h <;> cases h
      rename_i hret
      exact ⟨rfl, hret, rest, hstack⟩
    · cases h
  case loadInt | loadVar | callStatic | callVirtual => exact absurd h hmap
  case jumpTrue | jumpFalse => exact absurd h (hjumpIf _)
  case storeVar | dup | pop =>
    split at h
    · split at h <;> cases h
    · cases h
  case switch => split at h <;> cases h
  all_goals
    first
    | cases h
    | split at h
      · exact absurd h hmap
      · cases h

end Program

-- Position `t` is that of a conditional jump directly behind a comparison.
def BehindComparison (code : Bytes) (t : Nat) : Prop :=
  ∃ pre i j post, Instr.disassemble code = .ok (pre ++ i :: j :: post) ∧
    isComparison i.op = true ∧ (Following.sense? j.op).isSome = true ∧ j.pos = t

end PodCompiler.Fcode
