import PodCompiler.Lowering.Frame
import PodCompiler.Proofs.Fcode.Machine
import PodCompiler.Proofs.Jvm.Machine
import PodCompiler.Proofs.Lowering.Steps

namespace PodCompiler

-- A value of fcode as the virtual machine has it.
def Fcode.Value.toJvm : Fcode.Value → Jvm.Value
  | .int v => .long v
  | .bool b => .ofBool b

@[simp] theorem Fcode.Value.kind_toJvm (v : Fcode.Value) :
    v.toJvm.kind = Jvm.Kind.ofStack v.stack := by
  cases v <;> rfl

-- A value takes the slots that a variable of its type has.
theorem Jvm.Value.length_slots {v : Jvm.Value} {t : StackType} (h : v.kind = .ofStack t) :
    v.slots.length = t.width := by
  unfold slots isWide
  rw [h]
  cases t <;> rfl

namespace Lowering

-- The slot behind a variable.
def Local.stop (l : Local) : Nat :=
  l.slot + l.stack.width

namespace Frame

-- Variables one behind the other, from a slot on up to another one.
def Consecutive : (slot stop : Nat) → List (Option Local) → Prop
  | slot, stop, [] => slot = stop
  | slot, stop, none :: rest => Consecutive slot stop rest
  | slot, stop, some l :: rest => l.slot = slot ∧ Consecutive l.stop stop rest

theorem Consecutive.bounds {slot stop : Nat} {regs : List (Option Local)}
    (h : Consecutive slot stop regs) :
    slot ≤ stop ∧ ∀ l, some l ∈ regs → slot ≤ l.slot ∧ l.stop ≤ stop := by
  induction regs generalizing slot with
  | nil => exact ⟨Nat.le_of_eq h, by simp⟩
  | cons o rest ih =>
    cases o with
    | none =>
      obtain ⟨hle, hrest⟩ := ih h
      exact ⟨hle, fun l hl => hrest l (by simpa using hl)⟩
    | some l' =>
      obtain ⟨rfl, h⟩ := h
      obtain ⟨hle, hrest⟩ := ih h
      have hstop : l'.slot ≤ l'.stop := Nat.le_add_right _ _
      refine ⟨Nat.le_trans hstop hle, ?_⟩
      intro l hl
      rw [List.mem_cons, Option.some.injEq] at hl
      obtain rfl | hl := hl
      · exact ⟨Nat.le_refl _, hle⟩
      · obtain ⟨hslot, hl⟩ := hrest l hl
        exact ⟨Nat.le_trans hstop hslot, hl⟩

-- Of two registers the one ends before the other starts.
theorem Consecutive.apart {slot stop : Nat} {regs : List (Option Local)}
    (h : Consecutive slot stop regs) :
    regs.Pairwise fun o o' => ∀ l l', o = some l → o' = some l' → l.stop ≤ l'.slot := by
  induction regs generalizing slot with
  | nil => exact List.Pairwise.nil
  | cons o rest ih =>
    cases o with
    | none => exact List.pairwise_cons.mpr ⟨by simp, ih h⟩
    | some l =>
      refine List.pairwise_cons.mpr ⟨?_, ih h.2⟩
      intro o' hmem l₁ l' hl hl'
      cases hl
      subst hl'
      exact (h.2.bounds.2 l' hmem).1

theorem Consecutive.disjoint {slot stop i j : Nat} {regs : List (Option Local)} {l l' : Local}
    (h : Consecutive slot stop regs) (hi : regs[i]? = some (some l))
    (hj : regs[j]? = some (some l')) (hne : i ≠ j) : l.stop ≤ l'.slot ∨ l'.stop ≤ l.slot := by
  obtain ⟨hi, hl⟩ := List.getElem?_eq_some_iff.mp hi
  obtain ⟨hj, hl'⟩ := List.getElem?_eq_some_iff.mp hj
  have hpairs := List.pairwise_iff_getElem.mp h.apart
  obtain hlt | hlt := Nat.lt_or_gt_of_ne hne
  · exact .inl (hpairs _ _ hi hj hlt l l' hl hl')
  · exact .inr (hpairs _ _ hj hi hlt l' l hl' hl)

theorem consecutive_layout (slot : Nat) (ts : List StackType) :
    Consecutive slot (layoutEnd slot ts) ((layout slot ts).map some) := by
  induction ts generalizing slot with
  | nil => rfl
  | cons t rest ih =>
    refine ⟨rfl, ?_⟩
    have hrest := ih (slot + t.width)
    have hend : layoutEnd (slot + t.width) rest = layoutEnd slot (t :: rest) := by
      simp [layoutEnd, StackType.totalWidth, Nat.add_assoc]
    rw [hend] at hrest
    exact hrest

-- The variables of a method fill its frame.
theorem consecutive_forMethod {s : Pod.Symbols} {owner : String} {d : Pod.MethodDef}
    {mode : SelfMode} {f : Frame} (h : forMethod s owner d mode = .ok f) :
    Consecutive 0 f.maxLocals f.regs.toList := by
  obtain ⟨kinds, -, h⟩ := except_bind_eq_ok.mp h
  obtain ⟨ret, -, h⟩ := except_bind_eq_ok.mp h
  cases h
  simp only
  cases d.isStatic with
  | true => exact consecutive_layout 0 kinds
  | false =>
    cases mode with
    | bound => exact ⟨rfl, consecutive_layout 1 kinds⟩
    | unbound => exact consecutive_layout 0 kinds

variable {f : Frame}

theorem mem_of_local? {r : UInt16} {l : Local} (h : f.local? r = some l) :
    f.regs.toList[r.toNat]? = some (some l) := by
  rw [Array.getElem?_toList]
  exact Option.join_eq_some_iff.mp h

-- The slots of a frame that fits are numbers of 16 bits.
theorem slot_toNat (hf : Consecutive 0 f.maxLocals f.regs.toList) (hfits : f.maxLocals ≤ 0xFFFF)
    {r : UInt16} {l : Local} (hl : f.local? r = some l) : l.slot.toUInt16.toNat = l.slot := by
  have hstop : l.stop ≤ f.maxLocals := (hf.bounds.2 l (List.mem_of_getElem? (mem_of_local? hl))).2
  have hslot : l.slot ≤ l.stop := Nat.le_add_right _ _
  rw [Nat.toUInt16_eq, UInt16.toNat_ofNat']
  exact Nat.mod_eq_of_lt (by omega)

-- The slots of two registers.
theorem slots_apart (hf : Consecutive 0 f.maxLocals f.regs.toList) {r r' : UInt16} {l l' : Local}
    (hr : f.local? r = some l) (hr' : f.local? r' = some l') (hne : r ≠ r') :
    l.stop ≤ l'.slot ∨ l'.stop ≤ l.slot :=
  hf.disjoint (mem_of_local? hr) (mem_of_local? hr') fun h => hne (UInt16.toNat_inj.mp h)

-- The locals hold the values of the registers.
def Holds (f : Frame) (regs : UInt16 → Option Fcode.Value) (ls : Jvm.Locals) : Prop :=
  ∀ r v, regs r = some v → ∃ l, f.local? r = some l ∧ l.stack = v.stack ∧
    ls.get? l.slot = some v.toJvm

-- The slots of the registers without a value are as they were.
def Keeps (f : Frame) (regs : UInt16 → Option Fcode.Value) (ls ls' : Jvm.Locals) : Prop :=
  ∀ r l, f.local? r = some l → regs r = none → ls'[l.slot]? = ls[l.slot]?

theorem Keeps.refl {regs : UInt16 → Option Fcode.Value} {ls : Jvm.Locals} : f.Keeps regs ls ls :=
  fun _ _ _ _ => rfl

-- What holds nothing now held nothing before.
theorem Keeps.trans {regs regs' : UInt16 → Option Fcode.Value} {ls ls' ls'' : Jvm.Locals}
    (h : f.Keeps regs ls ls') (h' : f.Keeps regs' ls' ls'')
    (hregs : ∀ r, regs' r = none → regs r = none) : f.Keeps regs' ls ls'' :=
  fun r l hl hr => (h' r l hl hr).trans (h r l hl (hregs r hr))

-- Storing to the slots of a register.
theorem Holds.store (hf : Consecutive 0 f.maxLocals f.regs.toList)
    {regs : UInt16 → Option Fcode.Value} {ls : Jvm.Locals} (h : f.Holds regs ls) {r : UInt16}
    {l : Local} {v : Fcode.Value} (hr : f.local? r = some l) (hv : l.stack = v.stack)
    (hsize : f.maxLocals ≤ ls.size) :
    ∃ ls', ls.set? l.slot v.toJvm = some ls' ∧ ls'.size = ls.size ∧
      f.Holds (Function.update regs r (some v)) ls' ∧
      f.Keeps (Function.update regs r (some v)) ls ls' := by
  have hwidth : ∀ {l : Local} {v : Fcode.Value}, l.stack = v.stack →
      l.slot + v.toJvm.slots.length = l.stop := by
    intro l v hv
    rw [Jvm.Value.length_slots v.kind_toJvm, ← hv]
    rfl
  have hroom := (hf.bounds.2 l (List.mem_of_getElem? (mem_of_local? hr))).2
  have hfits : l.slot + v.toJvm.slots.length ≤ ls.size := by
    rw [hwidth hv]
    omega
  obtain ⟨ls', hset, hsize', hself, hothers⟩ := Jvm.Locals.exists_set? hfits
  refine ⟨ls', hset, hsize', ?_, ?_⟩
  · intro r' v' hv'
    by_cases heq : r' = r
    · subst heq
      rw [Function.update_self] at hv'
      cases hv'
      exact ⟨l, hr, hv, hself⟩
    · rw [Function.update_of_ne heq] at hv'
      obtain ⟨l', hr', hstack, hget⟩ := h r' v' hv'
      refine ⟨l', hr', hstack, Jvm.Locals.get?_of_unchanged hget ?_⟩
      intro i hi
      have hapart := slots_apart hf hr hr' (Ne.symm heq)
      have hw := hwidth hv
      have hw' := hwidth hstack
      refine hothers (l'.slot + i) ?_
      omega
  · intro r' l' hr' hnone
    have hne : r ≠ r' := by
      rintro rfl
      simp at hnone
    have hapart := slots_apart hf hr hr' hne
    have hw := hwidth hv
    have hstop : l'.slot + 1 ≤ l'.stop := Nat.add_le_add_left (Nat.le_max_right _ _) _
    exact hothers l'.slot (by omega)

-- The arguments of a call, register by register: what fcode has in the register, if that is a value
-- of it, and what the virtual machine passes. A register without a slot is not passed.
inductive Passes : List (Option Local) → List (Option Fcode.Value) → List Jvm.Value → Prop where
  | done {regs : List (Option Local)} : Passes regs [] []
  | unbound {regs : List (Option Local)} {args : List (Option Fcode.Value)}
      {passed : List Jvm.Value} (hrest : Passes regs args passed) :
      Passes (none :: regs) (none :: args) passed
  | bound {l : Local} {regs : List (Option Local)} {v : Option Fcode.Value} {w : Jvm.Value}
      {args : List (Option Fcode.Value)} {passed : List Jvm.Value}
      (hkind : w.kind = .ofStack l.stack)
      (hv : ∀ v', v = some v' → l.stack = v'.stack ∧ w = v'.toJvm)
      (hrest : Passes regs args passed) : Passes (some l :: regs) (v :: args) (w :: passed)

-- The arguments are where their registers are.
theorem Passes.slots {slot stop : Nat} {regs : List (Option Local)}
    {args : List (Option Fcode.Value)} {passed : List Jvm.Value} (h : Passes regs args passed)
    (hregs : Consecutive slot stop regs) {k : Nat} {v : Fcode.Value}
    (hv : args[k]? = some (some v)) :
    ∃ l, regs[k]? = some (some l) ∧ l.stack = v.stack ∧ ∃ i, l.slot = slot + i ∧
      ∀ j, j < v.toJvm.slots.length →
        (passed.flatMap Jvm.Value.slots)[i + j]? = v.toJvm.slots[j]? := by
  induction h generalizing slot k with
  | done => simp at hv
  | unbound hrest ih =>
    cases k with
    | zero => cases hv
    | succ k =>
      rw [List.getElem?_cons_succ] at hv ⊢
      exact ih hregs hv
  | @bound l regs v' w args passed hkind hfirst hrest ih =>
    obtain ⟨rfl, hregs⟩ := hregs
    cases k with
    | zero =>
      cases hv
      obtain ⟨hstack, rfl⟩ := hfirst v rfl
      refine ⟨l, rfl, hstack, 0, rfl, ?_⟩
      intro j hj
      rw [List.flatMap_cons, Nat.zero_add, List.getElem?_append_left hj]
    | succ k =>
      rw [List.getElem?_cons_succ] at hv
      obtain ⟨l', hl', hstack, i, hslot, hrun⟩ := ih hregs hv
      have hwidth : w.slots.length = l.stack.width := Jvm.Value.length_slots hkind
      refine ⟨l', by simpa using hl', hstack, w.slots.length + i, ?_, ?_⟩
      · rw [hslot, hwidth, Local.stop, Nat.add_assoc]
      · intro j hj
        rw [List.flatMap_cons, Nat.add_assoc, List.getElem?_append_right (Nat.le_add_right _ _),
          Nat.add_sub_cancel_left]
        exact hrun j hj

-- When a method is called, its registers hold the arguments.
theorem Passes.holds (hf : Consecutive 0 f.maxLocals f.regs.toList)
    {args : List (Option Fcode.Value)} {passed : List Jvm.Value}
    (h : Passes f.regs.toList args passed) (size : Nat) :
    f.Holds (fun r => (args[r.toNat]?).join) (.ofArgs passed size) := by
  intro r v hv
  have hv : args[r.toNat]? = some (some v) := Option.join_eq_some_iff.mp hv
  obtain ⟨l, hl, hstack, i, hslot, hrun⟩ := h.slots hf hv
  refine ⟨l, ?_, hstack, ?_⟩
  · rw [Array.getElem?_toList] at hl
    exact Option.join_eq_some_iff.mpr hl
  · rw [Jvm.Locals.get?_eq_some_iff]
    intro j hj
    have hbyte := hrun j hj
    have hlt : i + j < (passed.flatMap Jvm.Value.slots).length := by
      rw [List.getElem?_eq_getElem hj] at hbyte
      exact (List.getElem?_eq_some_iff.mp hbyte).1
    rw [hslot, Nat.zero_add, Jvm.Locals.ofArgs, List.getElem?_toArray, List.rightpad,
      List.getElem?_append_left hlt, hbyte]

end Frame

end Lowering

end PodCompiler
