import PodCompiler.ClassFile.Op
import PodCompiler.Proofs.Bytes
import PodCompiler.Proofs.ClassFile.Pool

namespace PodCompiler.Jvm

open ClassFile

-- A reference: to no object, to a boxed long, or to another object.
inductive Ref where
  | null
  | long (v : Int64)
  | object (id : Nat)
  deriving DecidableEq

-- The kinds of values that instructions tell apart.
inductive Kind where
  | int
  | long
  | float
  | double
  | ref
  deriving DecidableEq

namespace Kind

def isWide : Kind → Bool
  | .long | .double => true
  | _ => false

-- All kinds, in the order of their opcodes.
def all : List Kind :=
  [.int, .long, .float, .double, .ref]

-- The kind of the values of a stack type.
def ofStack : StackType → Kind
  | .long => .long
  | .float => .float
  | .double => .double
  | .obj => .ref
  | _ => .int

-- What is returned for a type.
def returned : StackType → Option Kind
  | .void => none
  | t => some (.ofStack t)

end Kind

-- A value. The floating-point ones are their bits.
inductive Value where
  | int (v : Int32)
  | long (v : Int64)
  | float (bits : UInt32)
  | double (bits : UInt64)
  | ref (r : Ref)
  deriving DecidableEq

namespace Value

def kind : Value → Kind
  | .int _ => .int
  | .long _ => .long
  | .float _ => .float
  | .double _ => .double
  | .ref _ => .ref

def isWide (v : Value) : Bool :=
  v.kind.isWide

def ofBool (b : Bool) : Value :=
  .int (if b then 1 else 0)

end Value

-- A slot of the locals: without a value, with one, or the second of a wide one.
inductive Slot where
  | free
  | val (v : Value)
  | high
  deriving DecidableEq

-- The slots that a value takes.
def Value.slots (v : Value) : List Slot :=
  if v.isWide then [.val v, .high] else [.val v]

abbrev Locals := Array Slot

namespace Locals

-- The locals of a method of `size` slots when it is called: the arguments come first.
def ofArgs (args : List Value) (size : Nat) : Locals :=
  ((args.flatMap Value.slots).rightpad size .free).toArray

-- The value in a slot. A wide one must still have both of its slots.
def get? (ls : Locals) (n : Nat) : Option Value :=
  match ls[n]? with
  | some (.val v) => if v.isWide && ls[n + 1]? ≠ some .high then none else some v
  | _ => none

-- Puts a value into a slot, or into it and the next one.
def set? (ls : Locals) (n : Nat) (v : Value) : Option Locals :=
  if v.isWide then
    if n + 2 ≤ ls.size then some ((ls.setIfInBounds n (.val v)).setIfInBounds (n + 1) .high)
    else none
  else if n + 1 ≤ ls.size then some (ls.setIfInBounds n (.val v))
  else none

end Locals

-- What an int is compared with zero for.
inductive Cond where
  | eq
  | ne
  | lt
  | ge
  | gt
  | le
  deriving DecidableEq

def Cond.holds (c : Cond) (v : Int32) : Bool :=
  match c with
  | .eq => v = 0
  | .ne => v ≠ 0
  | .lt => v < 0
  | .ge => 0 ≤ v
  | .gt => 0 < v
  | .le => v ≤ 0

-- The operations on two longs.
inductive Arith where
  | add
  | sub
  | mul
  | and
  | or
  | xor
  deriving DecidableEq

def Arith.apply (op : Arith) (a b : Int64) : Int64 :=
  match op with
  | .add => a + b
  | .sub => a - b
  | .mul => a * b
  | .and => a &&& b
  | .or => a ||| b
  | .xor => a ^^^ b

-- An instruction. Offsets count from its first byte; the offsets of a table switch start at `table`.
inductive Instruction where
  | const (v : Int32)
  | load (k : Kind) (slot : Nat)
  | store (k : Kind) (slot : Nat)
  | pop
  | pop2
  | dup
  | dup2
  | arith (op : Arith)
  | neg
  | toInt
  | compareLong
  -- Two doubles, with the result if one is no number.
  | compareDouble (unordered : Int32)
  | ifZero (c : Cond) (offset : Int)
  | ifInt (equal : Bool) (offset : Int)
  | ifSame (equal : Bool) (offset : Int)
  | ifNull (null : Bool) (offset : Int)
  | goto (offset : Int)
  | tableSwitch (otherwise low high : Int) (table : Nat)
  | return_ (k : Option Kind)
  | getStatic (field : UInt16)
  | invokeVirtual (method : UInt16)

-- What follows an opcode: nothing, an offset, a slot in one byte, an index of the pool, an opcode
-- with a slot in two bytes, or the words of a switch.
inductive Form where
  | plain (i : Instruction)
  | branch (i : Int → Instruction)
  | slot (i : Nat → Instruction)
  | pool (i : UInt16 → Instruction)
  | wide
  | switch

namespace Form

-- The opcodes that fix a slot, from `first` on.
def compact (first : UInt8) (i : Kind → Nat → Instruction) : List (UInt8 × Form) :=
  Kind.all.zipIdx.flatMap fun (k, row) =>
    (List.range 4).map fun n => (first + (4 * row + n).toUInt8, plain (i k n))

-- The opcodes that take a slot, from `first` on.
def general (first : UInt8) (i : Kind → Nat → Instruction) : List (UInt8 × Form) :=
  Kind.all.zipIdx.map fun (k, row) => (first + row.toUInt8, slot (i k))

def table : List (UInt8 × Form) :=
  [(Op.iconst0, plain (.const 0)), (Op.iconst1, plain (.const 1)), (Op.pop, plain .pop),
    (Op.pop2, plain .pop2), (Op.dup, plain .dup), (Op.dup2, plain .dup2),
    (Op.ladd, plain (.arith .add)), (Op.lsub, plain (.arith .sub)),
    (Op.lmul, plain (.arith .mul)), (Op.land, plain (.arith .and)),
    (Op.lor, plain (.arith .or)), (Op.lxor, plain (.arith .xor)), (Op.lneg, plain .neg),
    (Op.l2i, plain .toInt), (Op.lcmp, plain .compareLong),
    (Op.dcmpl, plain (.compareDouble (-1))), (Op.dcmpg, plain (.compareDouble 1)),
    (Op.ireturn, plain (.return_ (some .int))), (Op.lreturn, plain (.return_ (some .long))),
    (Op.freturn, plain (.return_ (some .float))), (Op.dreturn, plain (.return_ (some .double))),
    (Op.areturn, plain (.return_ (some .ref))), (Op.returnVoid, plain (.return_ none)),
    (Op.ifeq, branch (.ifZero .eq)), (Op.ifne, branch (.ifZero .ne)),
    (Op.iflt, branch (.ifZero .lt)), (Op.ifge, branch (.ifZero .ge)),
    (Op.ifgt, branch (.ifZero .gt)), (Op.ifle, branch (.ifZero .le)),
    (Op.ifIcmpeq, branch (.ifInt true)), (Op.ifIcmpne, branch (.ifInt false)),
    (Op.ifAcmpeq, branch (.ifSame true)), (Op.ifAcmpne, branch (.ifSame false)),
    (Op.ifNull, branch (.ifNull true)), (Op.ifNonNull, branch (.ifNull false)),
    (Op.goto, branch .goto), (Op.getStatic, pool .getStatic),
    (Op.invokeVirtual, pool .invokeVirtual), (Op.wide, wide), (Op.tableSwitch, switch)] ++
  compact Op.iload0 .load ++ compact Op.istore0 .store ++ general Op.iload .load ++
  general Op.istore .store

def ofOp? (o : UInt8) : Option Form :=
  table.lookup o

end Form

-- The instruction at a position, and the position behind it.
def fetch (code : Bytes) (pc : Nat) : Option (Instruction × Nat) := do
  match ← Form.ofOp? (← code[pc]?) with
  | .plain i => return (i, pc + 1)
  | .branch i => return (i (← code.be2? (pc + 1)).toInt16.toInt, pc + 3)
  | .slot i => return (i (← code[pc + 1]?).toNat, pc + 2)
  | .pool i => return (i (← code.be2? (pc + 1)), pc + 3)
  | .wide =>
    match ← Form.ofOp? (← code[pc + 1]?) with
    | .slot i => return (i (← code.be2? (pc + 2)).toNat, pc + 4)
    | _ => none
  | .switch =>
    let base := pc + 1 + Op.switchPad pc
    let otherwise ← code.be4? base
    let low ← code.be4? (base + 4)
    let high ← code.be4? (base + 8)
    return (.tableSwitch otherwise.toInt32.toInt low.toInt32.toInt high.toInt32.toInt (base + 12),
      base + 12)

-- What a method runs in: its code, the constants of its class, and the static fields by their
-- signatures.
structure Machine where
  code : Bytes
  constants : Constants
  statics : String → Option Value

structure State where
  pc : Nat
  stack : List Value
  locals : Locals

inductive Outcome where
  | next (s : State)
  | returned (v : Option Value)

namespace State

-- Goes on at a position with another stack.
def goTo (s : State) (pc : Nat) (stack : List Value) : Outcome :=
  .next { s with pc, stack }

-- Jumps by an offset.
def jump (s : State) (offset : Int) (stack : List Value) : Option Outcome :=
  if 0 ≤ s.pc + offset then some (s.goTo (s.pc + offset).toNat stack) else none

-- Jumps, or goes on behind the instruction.
def branch (s : State) (next : Nat) (taken : Bool) (offset : Int) (stack : List Value) :
    Option Outcome :=
  if taken then s.jump offset stack else some (s.goTo next stack)

end State

-- The order of two longs.
def orderLong (a b : Int64) : Int32 :=
  if a < b then -1 else if a = b then 0 else 1

-- The order of two doubles.
def orderDouble (unordered : Int32) (a b : UInt64) : Int32 :=
  let x := Float.ofBits a
  let y := Float.ofBits b
  if x < y then -1 else if x == y then 0 else if y < x then 1 else unordered

namespace Machine

variable (m : Machine)

-- Runs one instruction; `next` is the position behind it.
def exec (s : State) (next : Nat) : Instruction → Option Outcome
  | .const v => some (s.goTo next (.int v :: s.stack))
  | .load k slot =>
    match s.locals.get? slot with
    | some v => if v.kind = k then some (s.goTo next (v :: s.stack)) else none
    | none => none
  | .store k slot =>
    match s.stack with
    | v :: rest =>
      if v.kind = k then
        (s.locals.set? slot v).map fun locals => .next ⟨next, rest, locals⟩
      else none
    | _ => none
  | .pop =>
    match s.stack with
    | v :: rest => if v.isWide then none else some (s.goTo next rest)
    | _ => none
  | .pop2 =>
    match s.stack with
    | v :: rest =>
      if v.isWide then some (s.goTo next rest)
      else
        match rest with
        | w :: rest => if w.isWide then none else some (s.goTo next rest)
        | _ => none
    | _ => none
  | .dup =>
    match s.stack with
    | v :: rest => if v.isWide then none else some (s.goTo next (v :: v :: rest))
    | _ => none
  | .dup2 =>
    match s.stack with
    | v :: rest =>
      if v.isWide then some (s.goTo next (v :: v :: rest))
      else
        match rest with
        | w :: rest => if w.isWide then none else some (s.goTo next (v :: w :: v :: w :: rest))
        | _ => none
    | _ => none
  | .arith op =>
    match s.stack with
    | .long b :: .long a :: rest => some (s.goTo next (.long (op.apply a b) :: rest))
    | _ => none
  | .neg =>
    match s.stack with
    | .long a :: rest => some (s.goTo next (.long (-a) :: rest))
    | _ => none
  | .toInt =>
    match s.stack with
    | .long a :: rest => some (s.goTo next (.int a.toInt32 :: rest))
    | _ => none
  | .compareLong =>
    match s.stack with
    | .long b :: .long a :: rest => some (s.goTo next (.int (orderLong a b) :: rest))
    | _ => none
  | .compareDouble unordered =>
    match s.stack with
    | .double b :: .double a :: rest =>
      some (s.goTo next (.int (orderDouble unordered a b) :: rest))
    | _ => none
  | .ifZero c offset =>
    match s.stack with
    | .int v :: rest => s.branch next (c.holds v) offset rest
    | _ => none
  | .ifInt equal offset =>
    match s.stack with
    | .int b :: .int a :: rest => s.branch next (decide (a = b) = equal) offset rest
    | _ => none
  | .ifSame equal offset =>
    match s.stack with
    | .ref b :: .ref a :: rest => s.branch next (decide (a = b) = equal) offset rest
    | _ => none
  | .ifNull null offset =>
    match s.stack with
    | .ref r :: rest => s.branch next (decide (r = .null) = null) offset rest
    | _ => none
  | .goto offset => s.jump offset s.stack
  | .tableSwitch otherwise low high table =>
    match s.stack with
    | .int v :: rest =>
      if low ≤ v.toInt ∧ v.toInt ≤ high then
        match m.code.be4? (table + 4 * (v.toInt - low).toNat) with
        | some offset => s.jump offset.toInt32.toInt rest
        | none => none
      else s.jump otherwise rest
    | _ => none
  | .return_ none => some (.returned none)
  | .return_ (some k) =>
    match s.stack with
    | v :: _ => if v.kind = k then some (.returned (some v)) else none
    | _ => none
  | .getStatic field =>
    match (m.constants.field? field).bind m.statics with
    | some v => some (s.goTo next (v :: s.stack))
    | none => none
  | .invokeVirtual method =>
    match m.constants.method? method, s.stack with
    | some sig, .ref (.long v) :: rest =>
      if sig = "java/lang/Long.longValue()J" then some (s.goTo next (.long v :: rest)) else none
    | _, _ => none

-- One step: the instruction at the position of the machine.
def step (s : State) : Option Outcome :=
  match fetch m.code s.pc with
  | some (i, next) => m.exec s next i
  | none => none

-- The state after a number of steps, if the machine takes as many.
def after? : Nat → State → Option State
  | 0, s => some s
  | n + 1, s =>
    match m.step s with
    | some (.next s') => after? n s'
    | _ => none

-- The states that the machine comes to.
def Reaches : State → State → Prop :=
  Relation.ReflTransGen fun s s' => m.step s = some (.next s')

end Machine

namespace Locals

variable {ls ls' : Locals} {n k : Nat} {v w : Value}

-- A value is where all of its slots are.
theorem get?_eq_some_iff :
    ls.get? n = some v ↔ ∀ i, i < v.slots.length → ls[n + i]? = v.slots[i]? := by
  unfold get? Value.slots
  constructor
  · intro h
    split at h
    · rename_i u hu
      split at h
      · cases h
      · rename_i hwide
        cases h
        intro i hi
        cases hv : v.isWide with
        | false =>
          rw [hv] at hi
          obtain rfl : i = 0 := by simpa using hi
          simpa [hv] using hu
        | true =>
          rw [hv] at hi
          have hhigh : ls[n + 1]? = some .high := by simpa [hv] using hwide
          obtain rfl | rfl : i = 0 ∨ i = 1 := by
            simp at hi
            omega
          · simpa using hu
          · simpa using hhigh
    · cases h
  · intro h
    cases hv : v.isWide with
    | false =>
      have h₀ := h 0 (by simp [hv])
      simp only [hv, Nat.add_zero] at h₀
      simp [h₀, hv]
    | true =>
      have h₀ := h 0 (by simp [hv])
      have h₁ := h 1 (by simp [hv])
      simp only [hv, Nat.add_zero] at h₀ h₁
      simp [h₀, h₁, hv]

-- Putting a value into slots that are there changes these slots and no other one.
theorem exists_set? (h : n + v.slots.length ≤ ls.size) :
    ∃ ls', ls.set? n v = some ls' ∧ ls'.size = ls.size ∧ ls'.get? n = some v ∧
      ∀ k, k < n ∨ n + v.slots.length ≤ k → ls'[k]? = ls[k]? := by
  unfold set? Value.slots at *
  cases hv : v.isWide with
  | false =>
    simp only [hv, Bool.false_eq_true, if_false, List.length_singleton] at h ⊢
    refine ⟨_, if_pos h, by simp, ?_, ?_⟩
    · simp [get?, hv, Array.getElem?_setIfInBounds_self_of_lt h]
    · intro k hk
      exact Array.getElem?_setIfInBounds_ne (by omega)
  | true =>
    simp only [hv, if_true, List.length_cons, List.length_nil] at h ⊢
    refine ⟨_, if_pos h, by simp, ?_, ?_⟩
    · have hlow : ((ls.setIfInBounds n (.val v)).setIfInBounds (n + 1) .high)[n]? =
          some (.val v) := by
        rw [Array.getElem?_setIfInBounds_ne (by omega),
          Array.getElem?_setIfInBounds_self_of_lt (by omega)]
      have hhigh : ((ls.setIfInBounds n (.val v)).setIfInBounds (n + 1) .high)[n + 1]? =
          some .high := by
        rw [Array.getElem?_setIfInBounds_self_of_lt (by simp; omega)]
      rw [get?, hlow]
      simp [hhigh]
    · intro k hk
      rw [Array.getElem?_setIfInBounds_ne (by omega), Array.getElem?_setIfInBounds_ne (by omega)]

-- What is in slots that did not change is still there.
theorem get?_of_unchanged (hw : ls.get? k = some w)
    (h : ∀ i, i < w.slots.length → ls'[k + i]? = ls[k + i]?) : ls'.get? k = some w := by
  rw [get?_eq_some_iff] at hw ⊢
  intro i hi
  rw [h i hi, hw i hi]

end Locals

section Fetch

variable {code : Bytes} {pc : Nat} {o : UInt8}

theorem fetch_plain {i : Instruction} (ho : code[pc]? = some o)
    (hf : Form.ofOp? o = some (.plain i)) : fetch code pc = some (i, pc + 1) := by
  unfold fetch
  rw [ho]
  simp only [Option.bind_eq_bind, Option.bind_some, hf]
  rfl

theorem fetch_branch {i : Int → Instruction} {w : UInt16} (ho : code[pc]? = some o)
    (hf : Form.ofOp? o = some (.branch i)) (hw : code.be2? (pc + 1) = some w) :
    fetch code pc = some (i w.toInt16.toInt, pc + 3) := by
  unfold fetch
  rw [ho]
  simp only [Option.bind_eq_bind, Option.bind_some, hf, hw]
  rfl

theorem fetch_slot {i : Nat → Instruction} {n : UInt8} (ho : code[pc]? = some o)
    (hf : Form.ofOp? o = some (.slot i)) (hn : code[pc + 1]? = some n) :
    fetch code pc = some (i n.toNat, pc + 2) := by
  unfold fetch
  rw [ho]
  simp only [Option.bind_eq_bind, Option.bind_some, hf, hn]
  rfl

theorem fetch_pool {i : UInt16 → Instruction} {w : UInt16} (ho : code[pc]? = some o)
    (hf : Form.ofOp? o = some (.pool i)) (hw : code.be2? (pc + 1) = some w) :
    fetch code pc = some (i w, pc + 3) := by
  unfold fetch
  rw [ho]
  simp only [Option.bind_eq_bind, Option.bind_some, hf, hw]
  rfl

theorem fetch_wide {i : Nat → Instruction} {w : UInt16} (hwide : code[pc]? = some Op.wide)
    (ho : code[pc + 1]? = some o) (hf : Form.ofOp? o = some (.slot i))
    (hw : code.be2? (pc + 2) = some w) : fetch code pc = some (i w.toNat, pc + 4) := by
  have hform : Form.ofOp? Op.wide = some .wide := rfl
  unfold fetch
  rw [hwide]
  simp only [Option.bind_eq_bind, Option.bind_some, hform, ho, hf, hw]
  rfl

theorem fetch_switch {otherwise low high : UInt32} (ho : code[pc]? = some Op.tableSwitch)
    (hotherwise : code.be4? (pc + 1 + Op.switchPad pc) = some otherwise)
    (hlow : code.be4? (pc + 1 + Op.switchPad pc + 4) = some low)
    (hhigh : code.be4? (pc + 1 + Op.switchPad pc + 8) = some high) :
    fetch code pc = some (.tableSwitch otherwise.toInt32.toInt low.toInt32.toInt high.toInt32.toInt
      (pc + 1 + Op.switchPad pc + 12), pc + 1 + Op.switchPad pc + 12) := by
  have hform : Form.ofOp? Op.tableSwitch = some .switch := rfl
  unfold fetch
  rw [ho]
  simp only [Option.bind_eq_bind, Option.bind_some, hform, hotherwise, hlow, hhigh]
  rfl

end Fetch

theorem State.jump_eq {s : State} {offset : Int} {dest : Nat} (h : s.pc + offset = dest)
    (stack : List Value) : s.jump offset stack = some (s.goTo dest stack) := by
  unfold jump
  rw [h, if_pos (Int.natCast_nonneg dest), Int.toNat_natCast]

theorem State.branch_eq {s : State} {offset : Int} {dest : Nat} (h : s.pc + offset = dest)
    (next : Nat) (taken : Bool) (stack : List Value) :
    s.branch next taken offset stack = some (s.goTo (if taken then dest else next) stack) := by
  unfold branch
  cases taken with
  | true => exact jump_eq h stack
  | false => rfl

-- What the machine does with the instruction that it fetches.
theorem Machine.step_of_fetch {m : Machine} {code : Bytes} (hm : m.code = code) {pc n : Nat}
    {i : Instruction} (h : fetch code pc = some (i, n)) (stack : List Value) (locals : Locals) :
    m.step ⟨pc, stack, locals⟩ = m.exec ⟨pc, stack, locals⟩ n i := by
  unfold step
  rw [hm, h]

theorem Machine.after?_succ {m : Machine} {s s' : State} (h : m.step s = some (.next s')) (n : Nat) :
    m.after? (n + 1) s = m.after? n s' := by
  rw [after?, h]

theorem Machine.reaches_of_after? {m : Machine} {n : Nat} {s s' : State}
    (h : m.after? n s = some s') : m.Reaches s s' := by
  induction n generalizing s with
  | zero =>
    cases h
    exact .refl
  | succ n ih =>
    rw [after?] at h
    split at h
    · rename_i t hstep
      exact .head hstep (ih h)
    · cases h

end PodCompiler.Jvm
