import PodCompiler.Proofs.Fcode.Machine

namespace PodCompiler.Fcode

-- The registers of a program.
abbrev Registers :=
  UInt16 → Option Value

namespace Program

variable (p : Program)

-- The states that fcode comes to, turn by turn, as long as it switches on numbers of 32 bits only.
def Runs : State → State → Prop :=
  Relation.ReflTransGen fun s s' => p.SwitchFits s ∧ p.Turn s s'

-- The machine is before an instruction that reads a register.
def IsReading (s : State) (r : UInt16) : Prop :=
  ∃ i, Instr.decodeAt p.code s.pc = .ok i ∧ i.op = .loadVar ∧ i.arg = r

end Program

-- The values of expressions, where each finds the arguments and the values of those before it in its
-- registers. The first `stop` registers are the parameters. An expression stores to none of these
-- but the one behind its arguments, and nothing but its value.
inductive Cascade (stop : Nat) : List Program → List (Option Value) → List Value → Prop where
  | nil {args : List (Option Value)} : Cascade stop [] args []
  | cons {p : Program} {ps : List Program} {args : List (Option Value)} {v : Value}
      {vs : List Value} {regs : Registers}
      (hruns : p.Runs (.start args) ⟨p.code.size, [v], regs⟩)
      (hparams : ∀ r : UInt16, r.toNat < stop → regs r = (State.start args).regs r ∨
        r.toNat = args.length ∧ regs r = some v)
      (hrest : Cascade stop ps (args ++ [some v]) vs) : Cascade stop (p :: ps) args (v :: vs)

-- The values of expressions that are run one after the other on the same registers.
inductive InPlace : List Program → Registers → List Value → Prop where
  | nil {regs : Registers} : InPlace [] regs []
  | cons {p : Program} {ps : List Program} {v : Value} {vs : List Value} {regs regs' : Registers}
      (hruns : p.Runs ⟨0, [], regs⟩ ⟨p.code.size, [v], regs'⟩) (hrest : InPlace ps regs' vs) :
      InPlace (p :: ps) regs (v :: vs)

-- One of the expressions, run in place, comes to read a register from `first` up to `stop` that
-- holds nothing.
inductive ReadsMissing (first stop : Nat) : List Program → Registers → Prop where
  | here {p : Program} {ps : List Program} {regs : Registers} {s : State} {r : UInt16}
      (hruns : p.Runs ⟨0, [], regs⟩ s) (hreads : p.IsReading s r) (hnone : s.regs r = none)
      (hfirst : first ≤ r.toNat) (hstop : r.toNat < stop) : ReadsMissing first stop (p :: ps) regs
  | later {p : Program} {ps : List Program} {v : Value} {regs regs' : Registers}
      (hruns : p.Runs ⟨0, [], regs⟩ ⟨p.code.size, [v], regs'⟩)
      (hrest : ReadsMissing first stop ps regs') : ReadsMissing first stop (p :: ps) regs

-- The registers after a value was stored in one, if it was.
def Registers.put (regs : Registers) : Option (UInt16 × Value) → Registers
  | none => regs
  | some (r, v) => Function.update regs r (some v)

theorem Registers.eq_none_of_put {regs : Registers} {stored : Option (UInt16 × Value)} {r : UInt16}
    (h : regs.put stored r = none) : regs r = none := by
  cases stored with
  | none => exact h
  | some a =>
    have hr : r ≠ a.1 := by
      rintro rfl
      simp [put] at h
    rwa [put, Function.update_of_ne hr] at h

-- Registers in the place of others: they hold the same, but those from `first` up to `stop` may hold
-- nothing, and those from `stop` on something where the others hold nothing.
def Registers.Replaces (first stop : Nat) (regs regs' : Registers) : Prop :=
  ∀ r, regs r = regs' r ∨ (regs r = none ∧ first ≤ r.toNat ∧ r.toNat < stop) ∨
    (regs' r = none ∧ stop ≤ r.toNat)

theorem Registers.Replaces.put {first stop : Nat} {regs regs' : Registers}
    (h : Replaces first stop regs regs') (stored : Option (UInt16 × Value)) :
    Replaces first stop (regs.put stored) (regs'.put stored) := by
  cases stored with
  | none => exact h
  | some a =>
    intro r
    by_cases hr : r = a.1
    · subst hr
      exact .inl (by simp [Registers.put])
    · rw [Registers.put, Registers.put, Function.update_of_ne hr, Function.update_of_ne hr]
      exact h r

namespace Program

variable {p : Program} {s s' : State} {i : Instr} {n : Nat} {first stop : Nat} {regs : Registers}

-- The outcome with other registers.
def withRegs (regs : Registers) : Outcome → Outcome
  | .next s => .next { s with regs }
  | .returned v => .returned v

-- Only two instructions use the registers.
theorem exec_withRegs (hload : i.op ≠ .loadVar) (hstore : i.op ≠ .storeVar) (regs : Registers) :
    p.exec { s with regs } n i = (p.exec s n i).map (withRegs regs) := by
  have hmap : ∀ {α : Type} (x : Option α) (g : α → List Value),
      x.map (fun a => State.goTo { s with regs } n (g a)) =
        (x.map fun a => s.goTo n (g a)).map (withRegs regs) := by
    intro α x g
    cases x <;> rfl
  have hjumpIf : ∀ sense, jumpIf { s with regs } n sense i.arg =
      (jumpIf s n sense i.arg).map (withRegs regs) := by
    intro sense
    unfold jumpIf
    dsimp only
    split <;> rfl
  unfold exec
  cases hop : i.op <;> dsimp only
  case loadVar => exact absurd hop hload
  case storeVar => exact absurd hop hstore
  case loadInt | callStatic | callVirtual => exact hmap _ _
  case jumpTrue | jumpFalse => exact hjumpIf _
  case dup | pop | returnObj =>
    split
    · split <;> rfl
    · rfl
  case switch => split <;> rfl
  all_goals
    first
    | rfl
    | split
      · exact hmap _ _
      · rfl

-- An instruction stores one value at most. With other registers it does the same and stores the same,
-- unless it reads a register in which these hold something else.
theorem exec_stores (h : p.exec s n i = some (.next s')) :
    ∃ stored, s'.regs = Registers.put s.regs stored ∧
      ∀ regs : Registers, (i.op = .loadVar → regs i.arg = s.regs i.arg) →
        p.exec { s with regs } n i = some (.next { s' with regs := regs.put stored }) := by
  by_cases hload : i.op = .loadVar
  · have hexec : ∀ regs : Registers, p.exec { s with regs } n i =
        (regs i.arg).map fun v => State.goTo { s with regs } n (v :: s.stack) := by
      intro regs
      unfold exec
      rw [hload]
    have hself := hexec s.regs
    rw [h] at hself
    obtain ⟨v, hv, hs'⟩ := Option.map_eq_some_iff.mp hself.symm
    cases hs'
    refine ⟨none, rfl, fun regs hread => ?_⟩
    rw [hexec, hread hload, hv]
    rfl
  by_cases hstore : i.op = .storeVar
  · unfold exec at h ⊢
    rw [hstore] at h
    dsimp only at h
    split at h
    · rename_i v rest hstack
      split at h <;> cases h
      rename_i hv
      refine ⟨some (i.arg, v), rfl, fun regs _ => ?_⟩
      rw [hstore]
      dsimp only
      rw [hstack]
      exact if_pos hv
    · cases h
  · have hsame : s'.regs = s.regs := by
      have hself := exec_withRegs (p := p) (s := s) (n := n) hload hstore s.regs
      rw [h] at hself
      cases s'
      cases hself
      rfl
    refine ⟨none, hsame, fun regs _ => ?_⟩
    rw [exec_withRegs hload hstore, h]
    rfl

-- Nothing takes the value out of a register.
theorem Turn.eq_none (h : p.Turn s s') {r : UInt16} (hr : s'.regs r = none) : s.regs r = none := by
  have hexec : ∀ {s s' : State} {i : Instr}, Instr.decodeAt p.code s.pc = .ok i →
      p.step s = some (.next s') → s'.regs r = none → s.regs r = none := by
    intro s s' i hi hstep hr
    rw [step_of_decodeAt hi] at hstep
    obtain ⟨stored, hregs, -⟩ := exec_stores hstep
    rw [hregs] at hr
    exact Registers.eq_none_of_put hr
  cases h with
  | one hi _ h => exact hexec hi h hr
  | @pair mid _ i j sense hi hcompare hj hsense h hjump =>
    have hmid : mid.pc = s.pc + i.size := by
      rw [step_of_decodeAt hi] at h
      obtain ⟨_, _, _, _, _, -, -, -, -, rfl⟩ := exec_comparison hcompare h
      rfl
    rw [← hmid] at hj
    exact hexec hi h (hexec hj hjump hr)

theorem Runs.eq_none (h : p.Runs s s') {r : UInt16} (hr : s'.regs r = none) : s.regs r = none := by
  induction h with
  | refl => exact hr
  | tail _ hturn ih => exact ih (hturn.2.eq_none hr)

-- A turn with other registers, unless it begins where one is read that holds nothing there.
theorem Turn.replace (h : p.Turn s s') (hregs : Registers.Replaces first stop regs s.regs) :
    (∃ regs', p.Turn { s with regs } { s' with regs := regs' } ∧
      Registers.Replaces first stop regs' s'.regs) ∨
    ∃ r, p.IsReading s r ∧ regs r = none ∧ first ≤ r.toNat ∧ r.toNat < stop := by
  cases h with
  | @one _ i hi hplain h =>
    rw [step_of_decodeAt hi] at h
    obtain ⟨stored, hstored, hwith⟩ := exec_stores h
    by_cases hread : i.op = .loadVar → regs i.arg = s.regs i.arg
    · refine .inl ⟨regs.put stored, .one hi hplain ?_, hstored ▸ hregs.put stored⟩
      exact (step_of_decodeAt (s := { s with regs }) hi).trans (hwith regs hread)
    · rw [Classical.not_imp] at hread
      obtain ⟨hop, hne⟩ := hread
      obtain heq | ⟨hnone, hfirst, hstop⟩ | ⟨hnone, -⟩ := hregs i.arg
      · exact absurd heq hne
      · exact .inr ⟨i.arg, ⟨i, hi, hop, rfl⟩, hnone, hfirst, hstop⟩
      · unfold exec at h
        rw [hop] at h
        dsimp only at h
        rw [hnone] at h
        cases h
  | @pair mid _ i j sense hi hcompare hj hsense h hjump =>
    rw [step_of_decodeAt hi] at h
    obtain ⟨_, _, _, b, rest, -, -, -, -, rfl⟩ := exec_comparison hcompare h
    rw [step_of_decodeAt hj] at hjump
    obtain ⟨stored, hstored, hwith⟩ := exec_stores h
    obtain ⟨stored', hstored', hwith'⟩ := exec_stores hjump
    have hcompareOp : i.op ≠ .loadVar := by
      intro hop
      rw [hop] at hcompare
      cases hcompare
    have hjumpOp : j.op ≠ .loadVar := by
      intro hop
      rw [hop] at hsense
      cases hsense
    have hfirst : p.step { s with regs } =
        some (.next ⟨s.pc + i.size, .bool b :: rest, regs.put stored⟩) :=
      (step_of_decodeAt (s := { s with regs }) hi).trans
        (hwith regs fun hop => absurd hop hcompareOp)
    have hsecond : p.step ⟨s.pc + i.size, .bool b :: rest, regs.put stored⟩ =
        some (.next { s' with regs := (regs.put stored).put stored' }) :=
      (step_of_decodeAt (s := ⟨s.pc + i.size, .bool b :: rest, regs.put stored⟩) hj).trans
        (hwith' _ fun hop => absurd hop hjumpOp)
    have hmid := hregs.put stored
    rw [← hstored] at hmid
    have hlast : Registers.Replaces first stop ((regs.put stored).put stored') s'.regs := by
      rw [hstored']
      exact hmid.put stored'
    exact .inl ⟨_, .pair hi hcompare hj hsense hfirst hsecond, hlast⟩

-- So does a run.
theorem Runs.replace (h : p.Runs s s') (hregs : Registers.Replaces first stop regs s.regs) :
    (∃ regs', p.Runs { s with regs } { s' with regs := regs' } ∧
      Registers.Replaces first stop regs' s'.regs) ∨
    ∃ t r, p.Runs { s with regs } t ∧ p.IsReading t r ∧ t.regs r = none ∧
      first ≤ r.toNat ∧ r.toNat < stop := by
  induction h with
  | refl => exact .inl ⟨regs, .refl, hregs⟩
  | @tail mid s' _ hturn ih =>
    obtain ⟨regs', hruns, hregs'⟩ | hmissing := ih
    · obtain ⟨hfits, hturn⟩ := hturn
      obtain ⟨regs'', hturn', hlast⟩ | ⟨r, hreads, hnone⟩ := hturn.replace hregs'
      · exact .inl ⟨regs'', hruns.tail ⟨hfits, hturn'⟩, hlast⟩
      · exact .inr ⟨_, r, hruns, hreads, hnone⟩
    · exact .inr hmissing

end Program

-- The registers at the start of a run.
theorem State.start_regs_of_lt {args : List (Option Value)} {v : Value} {r : UInt16}
    (h : r.toNat < args.length) :
    (State.start (args ++ [some v])).regs r = (State.start args).regs r := by
  simp only [State.start]
  rw [List.getElem?_append_left h]

theorem State.start_regs_length {args : List (Option Value)} {v : Value} {r : UInt16}
    (h : r.toNat = args.length) : (State.start (args ++ [some v])).regs r = some v := by
  simp [State.start, h]

theorem State.start_regs_none {args : List (Option Value)} {r : UInt16}
    (h : args.length ≤ r.toNat) : (State.start args).regs r = none := by
  simp [State.start, h]

-- Behind an expression of a cascade, registers in place still replace those of the next one.
theorem Registers.Replaces.next {first stop : Nat} {regs last : Registers}
    {args : List (Option Value)} {v : Value} (h : Replaces first stop regs last)
    (hparams : ∀ r : UInt16, r.toNat < stop → last r = (State.start args).regs r ∨
      r.toNat = args.length ∧ last r = some v)
    (hfirst : first ≤ args.length) (hstop : args.length < stop) :
    Replaces first stop regs (State.start (args ++ [some v])).regs := by
  intro r
  by_cases hr : r.toNat < stop
  swap
  · refine .inr (.inr ⟨State.start_regs_none ?_, by omega⟩)
    simp only [List.length_append, List.length_singleton]
    omega
  obtain hregs | hnone | ⟨-, hge⟩ := h r
  · rw [hregs]
    obtain hlast | ⟨hlength, hlast⟩ := hparams r hr
    · -- The register is as it was before the expression.
      rw [hlast]
      rcases Nat.lt_trichotomy r.toNat args.length with hlt | heq | hgt
      · exact .inl (State.start_regs_of_lt hlt).symm
      · exact .inr (.inl ⟨State.start_regs_none (Nat.le_of_eq heq.symm), by omega, hr⟩)
      · refine .inl ?_
        rw [State.start_regs_none (Nat.le_of_lt hgt), State.start_regs_none]
        simp only [List.length_append, List.length_singleton]
        omega
    · -- The expression stored its value.
      rw [hlast]
      exact .inl (State.start_regs_length hlength).symm
  · exact .inr (.inl hnone)
  · omega

-- The expressions of a cascade have their values in place as well, unless one of them reads a
-- parameter that was not passed.
theorem Cascade.inPlace_or {first stop : Nat} {ps : List Program} {args : List (Option Value)}
    {vs : List Value} {regs : Registers} (h : Cascade stop ps args vs)
    (hregs : Registers.Replaces first stop regs (State.start args).regs)
    (hfirst : first ≤ args.length) (hstop : args.length + ps.length ≤ stop) :
    InPlace ps regs vs ∨ ReadsMissing first stop ps regs := by
  induction h generalizing regs with
  | nil => exact .inl .nil
  | @cons p ps args v vs last hruns hparams _ ih =>
    rw [List.length_cons] at hstop
    obtain ⟨regs', hruns', hregs'⟩ | ⟨t, r, hruns', hreads, hnone, hr⟩ := hruns.replace hregs
    · have hnext := hregs'.next hparams hfirst (by omega)
      obtain hrest | hrest := ih hnext (by simp; omega) (by simp; omega)
      · exact .inl (.cons hruns' hrest)
      · exact .inr (.later hruns' hrest)
    · exact .inr (.here hruns' hreads hnone hr.1 hr.2)

end PodCompiler.Fcode
