import PodCompiler.Proofs.Jvm.Machine

namespace PodCompiler.Jvm

open ClassFile

-- The state with more values below those on the stack.
def State.above (s : State) (below : List Value) : State :=
  { s with stack := s.stack ++ below }

def Outcome.above (o : Outcome) (below : List Value) : Outcome :=
  match o with
  | .next s => .next (s.above below)
  | .returned v => .returned v

namespace State

variable (s : State) (below stack : List Value) (offset : Int)

@[simp] theorem above_pc : (s.above below).pc = s.pc := rfl

@[simp] theorem above_stack : (s.above below).stack = s.stack ++ below := rfl

@[simp] theorem above_locals : (s.above below).locals = s.locals := rfl

theorem jump_above :
    (s.above below).jump offset (stack ++ below) = (s.jump offset stack).map (·.above below) := by
  unfold jump
  rw [above_pc]
  split <;> rfl

theorem branch_above (next : Nat) (taken : Bool) :
    (s.above below).branch next taken offset (stack ++ below) =
      (s.branch next taken offset stack).map (·.above below) := by
  unfold branch
  cases taken with
  | true => exact s.jump_above below stack offset
  | false => rfl

end State

namespace Machine

variable {m m' : Machine} {s s' : State} {o : Outcome} {n : Nat} {i : Instruction}

-- An instruction that finds its operands leaves what is below them.
theorem exec_above (below : List Value) (h : m.exec s n i = some o) :
    m.exec (s.above below) n i = some (o.above below) := by
  obtain ⟨pc, stack, locals⟩ := s
  have hbranch : ∀ {taken : Bool} {offset : Int} {rest : List Value},
      State.branch ⟨pc, stack, locals⟩ n taken offset rest = some o →
      State.branch (State.above ⟨pc, stack, locals⟩ below) n taken offset (rest ++ below) =
        some (o.above below) := by
    intro taken offset rest h
    rw [State.branch_above, h]
    rfl
  have hjump : ∀ {offset : Int} {rest : List Value},
      State.jump ⟨pc, stack, locals⟩ offset rest = some o →
      State.jump (State.above ⟨pc, stack, locals⟩ below) offset (rest ++ below) =
        some (o.above below) := by
    intro offset rest h
    rw [State.jump_above, h]
    rfl
  cases i <;> simp only [exec, State.above_stack, State.above_locals] at h ⊢
  case const =>
    cases h
    rfl
  case load =>
    split at h
    · split at h <;> cases h
      rename_i hkind
      exact if_pos hkind
    · cases h
  case store =>
    split at h
    · split at h
      · rename_i v rest hkind
        obtain ⟨locals', hset, rfl⟩ := Option.map_eq_some_iff.mp h
        rw [List.cons_append]
        simp only [hset, if_pos hkind]
        rfl
      · cases h
    · cases h
  case pop | dup =>
    split at h
    · rename_i v rest
      split at h <;> cases h
      rename_i hwide
      exact if_neg hwide
    · cases h
  case pop2 | dup2 =>
    split at h
    · split at h
      · rename_i v rest hwide
        cases h
        exact if_pos hwide
      · rename_i v rest hwide
        split at h
        · split at h <;> cases h
          rename_i hwide'
          exact (if_neg hwide).trans (if_neg hwide')
        · cases h
    · cases h
  case arith | neg | toInt | compareLong | compareDouble =>
    split at h <;> cases h
    rfl
  case ifZero | ifInt | ifSame | ifNull =>
    split at h
    · exact hbranch h
    · cases h
  case goto => exact hjump h
  case tableSwitch =>
    split at h
    · rw [List.cons_append]
      split at h
      · rename_i hin
        simp only [if_pos hin]
        split at h
        · exact hjump h
        · cases h
      · rename_i hout
        simp only [if_neg hout]
        exact hjump h
    · cases h
  case return_ k =>
    cases k with
    | none =>
      cases h
      rfl
    | some k =>
      dsimp only at h ⊢
      split at h
      · split at h <;> cases h
        rename_i hkind
        exact if_pos hkind
      · cases h
  case getStatic =>
    split at h <;> cases h
    rfl
  case invokeVirtual =>
    split at h
    · rename_i sig v rest hmethod
      split at h <;> cases h
      rename_i hsig
      simp only [hmethod]
      exact if_pos hsig
    · cases h

end Machine

section Prefix

variable {code code' : Bytes} {pos : Nat}

theorem getElem?_of_begins (hcode : code.toList <+: code'.toList) {b : UInt8}
    (h : code[pos]? = some b) : code'[pos]? = some b := by
  obtain ⟨more, hmore⟩ := hcode
  rw [← Array.getElem?_toList] at h ⊢
  obtain ⟨hlt, -⟩ := List.getElem?_eq_some_iff.mp h
  rw [← hmore, List.getElem?_append_left hlt, h]

theorem be2?_of_begins (hcode : code.toList <+: code'.toList) {w : UInt16}
    (h : code.be2? pos = some w) : code'.be2? pos = some w := by
  rw [Bytes.be2?_eq] at h ⊢
  obtain ⟨x, hx, h⟩ := Option.bind_eq_some_iff.mp h
  obtain ⟨y, hy, rfl⟩ := Option.map_eq_some_iff.mp h
  rw [getElem?_of_begins hcode hx, getElem?_of_begins hcode hy]
  rfl

theorem be4?_of_begins (hcode : code.toList <+: code'.toList) {w : UInt32}
    (h : code.be4? pos = some w) : code'.be4? pos = some w := by
  rw [Bytes.be4?_eq] at h ⊢
  obtain ⟨x, hx, h⟩ := Option.bind_eq_some_iff.mp h
  obtain ⟨y, hy, h⟩ := Option.bind_eq_some_iff.mp h
  obtain ⟨z, hz, h⟩ := Option.bind_eq_some_iff.mp h
  obtain ⟨w, hw, rfl⟩ := Option.map_eq_some_iff.mp h
  rw [getElem?_of_begins hcode hx, getElem?_of_begins hcode hy, getElem?_of_begins hcode hz,
    getElem?_of_begins hcode hw]
  rfl

-- An instruction is read from its own bytes.
theorem fetch_of_begins (hcode : code.toList <+: code'.toList) {i : Instruction} {next : Nat}
    (h : fetch code pos = some (i, next)) : fetch code' pos = some (i, next) := by
  unfold fetch at h ⊢
  simp only [Option.bind_eq_bind] at h ⊢
  obtain ⟨o, ho, h⟩ := Option.bind_eq_some_iff.mp h
  obtain ⟨form, hform, h⟩ := Option.bind_eq_some_iff.mp h
  rw [getElem?_of_begins hcode ho, Option.bind_some, hform, Option.bind_some]
  cases form with
  | plain i => exact h
  | branch i =>
    obtain ⟨w, hw, h⟩ := Option.bind_eq_some_iff.mp h
    simp only [be2?_of_begins hcode hw]
    exact h
  | slot i =>
    obtain ⟨n, hn, h⟩ := Option.bind_eq_some_iff.mp h
    simp only [getElem?_of_begins hcode hn]
    exact h
  | pool i =>
    obtain ⟨w, hw, h⟩ := Option.bind_eq_some_iff.mp h
    simp only [be2?_of_begins hcode hw]
    exact h
  | wide =>
    obtain ⟨o, ho, h⟩ := Option.bind_eq_some_iff.mp h
    obtain ⟨form, hform, h⟩ := Option.bind_eq_some_iff.mp h
    simp only [getElem?_of_begins hcode ho, Option.bind_some, hform]
    cases form with
    | slot i =>
      obtain ⟨w, hw, h⟩ := Option.bind_eq_some_iff.mp h
      simp only [be2?_of_begins hcode hw]
      exact h
    | _ => cases h
  | switch =>
    obtain ⟨otherwise, hotherwise, h⟩ := Option.bind_eq_some_iff.mp h
    obtain ⟨low, hlow, h⟩ := Option.bind_eq_some_iff.mp h
    obtain ⟨high, hhigh, h⟩ := Option.bind_eq_some_iff.mp h
    simp only [be4?_of_begins hcode hotherwise, be4?_of_begins hcode hlow,
      be4?_of_begins hcode hhigh]
    exact h

end Prefix

namespace Machine

-- The same machine with more code behind its code.
structure Extends (m' m : Machine) : Prop where
  code : m.code.toList <+: m'.code.toList
  constants : m'.constants = m.constants
  statics : m'.statics = m.statics

variable {m m' : Machine} {s s' t : State} {o : Outcome} {n : Nat} {i : Instruction}

theorem Extends.exec (hm : m'.Extends m) (h : m.exec s n i = some o) :
    m'.exec s n i = some o := by
  cases i with
  | tableSwitch otherwise low high table =>
    simp only [Machine.exec] at h ⊢
    split at h
    · split at h
      · rename_i hin
        rw [if_pos hin]
        split at h
        · rename_i offset hoffset
          simp only [be4?_of_begins hm.code hoffset]
          exact h
        · cases h
      · rename_i hout
        rw [if_neg hout]
        exact h
    · cases h
  | getStatic field =>
    simp only [Machine.exec, hm.constants, hm.statics] at h ⊢
    exact h
  | invokeVirtual method =>
    simp only [Machine.exec, hm.constants] at h ⊢
    exact h
  | return_ k => cases k <;> exact h
  | _ => exact h

theorem Extends.step_above (hm : m'.Extends m) (below : List Value) (h : m.step s = some o) :
    m'.step (s.above below) = some (o.above below) := by
  unfold step at h ⊢
  split at h
  · rename_i i next hfetch
    rw [State.above_pc, fetch_of_begins hm.code hfetch]
    exact exec_above below (hm.exec h)
  · cases h

-- A run is a run in longer code, with more below its operands.
theorem Extends.reaches_above (hm : m'.Extends m) (below : List Value) (h : m.Reaches s s') :
    m'.Reaches (s.above below) (s'.above below) := by
  induction h with
  | refl => exact .refl
  | tail _ hstep ih => exact ih.tail (hm.step_above below hstep)

-- The machine comes to load a local that holds no value.
def FailsToLoad (m : Machine) (s : State) : Prop :=
  ∃ s' k slot next, m.Reaches s s' ∧ fetch m.code s'.pc = some (.load k slot, next) ∧
    s'.locals.get? slot = none

theorem FailsToLoad.of_reaches (h : m.Reaches s s') (h' : m.FailsToLoad s') : m.FailsToLoad s := by
  obtain ⟨t, k, slot, next, ht, hstuck⟩ := h'
  exact ⟨t, k, slot, next, h.trans ht, hstuck⟩

theorem Extends.failsToLoad_above (hm : m'.Extends m) (below : List Value)
    (h : m.FailsToLoad s) : m'.FailsToLoad (s.above below) := by
  obtain ⟨t, k, slot, next, ht, hfetch, hnone⟩ := h
  exact ⟨t.above below, k, slot, next, hm.reaches_above below ht, fetch_of_begins hm.code hfetch,
    hnone⟩

end Machine

end PodCompiler.Jvm
