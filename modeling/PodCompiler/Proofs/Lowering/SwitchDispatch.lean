import PodCompiler.Proofs.Fcode.Machine
import PodCompiler.Proofs.Lowering.CoreItems
import PodCompiler.Proofs.Lowering.FinalCode

namespace PodCompiler.Lowering

open ClassFile (CodeBuffer)
open ClassFile.Op
open Jvm (Machine)

-- Where a number takes a switch in a scope: to the position of the target with that number, or to
-- what is behind the switch.
inductive Dispatches (r : Relocation) (s : Nat) (targets : List UInt16) (behind : Nat) (n : Int) :
    Nat → Prop where
  | target {t : UInt16} {dest : Nat} (hn : 0 ≤ n) (ht : targets[n.toNat]? = some t)
      (hdest : r.Finds t.toNat s dest) : Dispatches r s targets behind n dest
  | behind (hn : n < 0 ∨ targets.length ≤ n) : Dispatches r s targets behind n behind

-- The steps of the code of a switch.
def switchSteps (targets : List UInt16) : Nat :=
  if targets.isEmpty then 1 else 2

variable {env : ClassEnv} {f : Frame} {code : Bytes} {out : CodeBuffer} {c c₁ : OpenClass}
  {body : BodyState} {mc : MethodCode} {m : Machine} {s pos q : Nat} {targets : List UInt16}
  {rest : List (Item UInt16)}

-- A switch without targets takes its value.
theorem Lowered.after?_switch_nil (hl : Lowered env f code out c c₁ body mc)
    (hm : m.code = mc.code.code) (hx : body.Stands code out s pos (.switch [] :: rest)) (v : Int64)
    (stack : List Jvm.Value) (locals : Jvm.Locals) :
    m.after? 1 ⟨pos, .long v :: stack, locals⟩ = some ⟨pos + 1, stack, locals⟩ :=
  Machine.after?_succ (Machine.step_of_fetch hm (hl.fetch_switch_nil hx) _ _) 0

-- A switch with targets goes where the low bits of its value take it.
theorem Lowered.after?_tableSwitch (hl : Lowered env f code out c c₁ body mc)
    (hm : m.code = mc.code.code) (hx : body.Stands code out s pos (.switch targets :: rest))
    (hne : targets ≠ []) (hlength : targets.length < 2 ^ 16) (v : Int64) (stack : List Jvm.Value)
    (locals : Jvm.Locals) :
    ∃ dest, m.after? 2 ⟨pos, .long v :: stack, locals⟩ = some ⟨dest, stack, locals⟩ ∧
      Dispatches (body.layout code out).reloc s targets
        (pos + ((Item.switch targets).raw pos).length) v.toInt32.toInt dest := by
  have hpos : 0 < targets.length := List.length_pos_iff.mpr hne
  have hpad : switchPad (pos + 1) < 4 := Nat.mod_lt _ (by decide)
  obtain ⟨hconvert, ⟨next, hswitch⟩, htable⟩ := hl.fetch_switch hx hne
  rw [Bytes.toInt_toUInt32 (by omega), Bytes.toInt_toUInt32 (by omega)] at hswitch
  have hfirst : m.step ⟨pos, .long v :: stack, locals⟩ =
      some (.next ⟨pos + 1, .int v.toInt32 :: stack, locals⟩) :=
    Machine.step_of_fetch hm hconvert _ _
  have hsecond := Machine.step_of_fetch hm hswitch (.int v.toInt32 :: stack) locals
  simp only [Machine.exec, Int.sub_zero] at hsecond
  rw [Machine.after?_succ hfirst]
  by_cases hin : 0 ≤ v.toInt32.toInt ∧ v.toInt32.toInt ≤ ↑(targets.length - 1)
  · obtain ⟨t, ht⟩ : ∃ t, targets[v.toInt32.toInt.toNat]? = some t :=
      ⟨_, List.getElem?_eq_getElem (by omega)⟩
    obtain ⟨w, dest, hw, hfinds, hoffset⟩ := htable _ t ht
    rw [if_pos hin, hm, hw] at hsecond
    simp only at hsecond
    rw [Jvm.State.jump_eq hoffset] at hsecond
    exact ⟨dest, Machine.after?_succ hsecond 0, .target hin.1 ht hfinds⟩
  · have hraw : ((Item.switch targets).raw pos).length =
        2 + switchPad (pos + 1) + 12 + targets.length * 4 := by
      rw [Item.raw, if_neg (by simpa using hne), Item.length_switchRaw]
      omega
    have hoffset : (pos + 1 : Nat) + (1 + switchPad (pos + 1) + 12 + targets.length * 4 : Nat) =
        pos + ((Item.switch targets).raw pos).length := by omega
    rw [if_neg hin, Jvm.State.jump_eq (by exact_mod_cast hoffset)] at hsecond
    exact ⟨_, Machine.after?_succ hsecond 0, .behind (by omega)⟩

-- A switch, with targets or without.
theorem Lowered.after?_switch (hl : Lowered env f code out c c₁ body mc)
    (hm : m.code = mc.code.code) (hx : body.Stands code out s pos (.switch targets :: rest))
    (hlength : targets.length < 2 ^ 16) (v : Int64) (stack : List Jvm.Value)
    (locals : Jvm.Locals) :
    ∃ dest, m.after? (switchSteps targets) ⟨pos, .long v :: stack, locals⟩ =
        some ⟨dest, stack, locals⟩ ∧
      Dispatches (body.layout code out).reloc s targets
        (pos + ((Item.switch targets).raw pos).length) v.toInt32.toInt dest := by
  cases targets with
  | nil =>
    refine ⟨pos + 1, hl.after?_switch_nil hm hx v stack locals, .behind ?_⟩
    simp only [List.length_nil, Nat.cast_zero]
    omega
  | cons t ts => exact hl.after?_tableSwitch hm hx (by simp) hlength v stack locals

-- A switch opens and closes no scope.
theorem Layout.scope_put_switch (l : Layout) (targets : List UInt16) :
    (l.put (.switch targets)).scope = l.scope := by
  rw [(put_reloc (l := l) (by simp) (by simp) (by simp)).2.1]

-- What a value leads to is what its low bits lead to, if these are the value, or if that is behind
-- the switch.
theorem dispatches_toInt_iff {r : Relocation} {behind dest : Nat} {v : Int64}
    (hlength : targets.length < 2 ^ 16) (h : Dispatches r s targets behind v.toInt32.toInt dest) :
    Dispatches r s targets behind v.toInt dest ↔ v.toInt32.toInt = v.toInt ∨ dest = behind := by
  constructor
  · intro hv
    cases hv with
    | behind _ => exact .inr rfl
    | @target t _ hn ht _ =>
      obtain ⟨hlt, -⟩ := List.getElem?_eq_some_iff.mp ht
      left
      rw [Int64.toInt_toInt32]
      exact Int.bmod_eq_of_le (by omega) (by omega)
  · rintro (heq | rfl)
    · rwa [heq] at h
    · by_cases hout : v.toInt < 0 ∨ targets.length ≤ v.toInt
      · exact .behind hout
      · have hvalue : v.toInt32.toInt = v.toInt := by
          rw [Int64.toInt_toInt32]
          exact Int.bmod_eq_of_le (by omega) (by omega)
        rwa [hvalue] at h

-- A switch takes its value and goes where the low 32 bits of it lead, whatever the value is. It goes
-- where the value itself leads exactly if the value is a number of 32 bits, or if the machine goes on
-- behind the switch.
theorem switch_dispatches_iff {attrs : Pod.Attributes} {c' : OpenClass}
    (h : lowerCode f code attrs out env c = .ok mc c') :
    ∃ body c₁, emitBody f code {} env c = .ok ((), body) c₁ ∧
      mc.reloc = (body.layout code out).reloc.mainMap ∧
      ∀ (s p start : Nat) (i : Instr),
        (body.layout code out).reloc.getLocal s p = some start →
        Instr.decodeAt code p = .ok i → i.op = .switch →
        ∃ behind, (body.layout code out).reloc.getLocal s (p + i.size) = some behind ∧
          (∀ t ∈ i.args, ∃ dest, (body.layout code out).reloc.Finds t.toNat s dest) ∧
          ∀ m : Machine, m.code = mc.code.code → ∀ (v : Int64) stack locals,
            ∃ dest, m.after? (switchSteps i.args) ⟨start, .long v :: stack, locals⟩ =
                some ⟨dest, stack, locals⟩ ∧
              Dispatches (body.layout code out).reloc s i.args behind v.toInt32.toInt dest ∧
              (Dispatches (body.layout code out).reloc s i.args behind v.toInt dest ↔
                v.toInt32.toInt = v.toInt ∨ dest = behind) := by
  obtain ⟨body, c₁, hl⟩ := lowered_of_lowerCode h
  refine ⟨body, c₁, hl.emits, hl.filled.main, ?_⟩
  intro s p start i hp hi hop
  have hlength := Instr.decodeAt_length_lt hi
  obtain ⟨next, e, e₁, own, more, hown, -, hmore, hx⟩ := hl.stands_alone hp hi (by rw [hop]; rfl)
    (by rw [hop]; rfl) (by simp [hop]) (by simp [hop])
  have hbranch : branchItem? i = some (.switch i.args) := by
    unfold branchItem?
    rw [hop]
  obtain rfl := hown.branch hbranch
  refine ⟨_, hl.note_of_stands (hx.tail (Layout.scope_put_switch · _)) hmore, ?_, ?_⟩
  · intro t ht
    obtain ⟨k, hk⟩ := List.mem_iff_getElem?.mp ht
    obtain ⟨-, dest, -, hfinds, -⟩ := hl.switch_target hx hk
    exact ⟨dest, hfinds⟩
  · intro m hm v stack locals
    obtain ⟨dest, hrun, hdest⟩ := hl.after?_switch hm hx hlength v stack locals
    exact ⟨dest, hrun, hdest, dispatches_toInt_iff hlength hdest⟩

-- A method with an integer: it returns at one place for zero, and at another for all else.
--    0 LoadVar 0    3 Switch 9    8 ReturnVoid    9 ReturnVoid
def pickFrame : Frame :=
  { bareFrame with regs := #[some ⟨0, .long⟩], paramCount := 1, maxLocals := 2 }

def pickCode : Bytes := #[10, 0, 0, 50, 0, 1, 0, 9, 42, 42]

theorem exists_lowerCode_pick : ∃ mc c',
    lowerCode pickFrame pickCode {} {} bareEnv bareClass = .ok mc c' ∧
    mc.code.code = #[30, 136, 170, 0, 0, 0, 0, 18, 0, 0, 0, 0, 0, 0, 0, 0, 0, 0, 0, 19, 177, 177] ∧
    mc.reloc = #[some 0, none, none, some 1, none, none, none, none, some 20, some 21, some 22] := by
  obtain ⟨mc, c', h⟩ := exists_of_result? (by decide +kernel :
    (result? (lowerCode pickFrame pickCode {} {} bareEnv bareClass)).isSome)
  have hcode : (result? (lowerCode pickFrame pickCode {} {} bareEnv bareClass)).map
      (fun mc => (mc.code.code, mc.reloc)) =
        some (#[30, 136, 170, 0, 0, 0, 0, 18, 0, 0, 0, 0, 0, 0, 0, 0, 0, 0, 0, 19, 177, 177],
          #[some 0, none, none, some 1, none, none, none, none, some 20, some 21, some 22]) := by
    decide +kernel
  rw [h] at hcode
  obtain ⟨hcode, hreloc⟩ := Prod.mk.inj (Option.some.inj hcode)
  exact ⟨mc, c', h, hcode, hreloc⟩

-- The switch goes to its target if the low bits are zero, and on behind it if not.
theorem switch_dispatches_iff_pick : ∃ mc c',
    lowerCode pickFrame pickCode {} {} bareEnv bareClass = .ok mc c' ∧
    ∀ m : Machine, m.code = mc.code.code → ∀ (v : Int64) stack locals,
      m.after? 2 ⟨1, .long v :: stack, locals⟩ =
        some ⟨if v.toInt32.toInt = 0 then 21 else 20, stack, locals⟩ := by
  obtain ⟨mc, c', h, -, hreloc⟩ := exists_lowerCode_pick
  refine ⟨mc, c', h, ?_⟩
  intro m hm v stack locals
  obtain ⟨body, c₁, -, hmain, hswitch⟩ := switch_dispatches_iff h
  have hnote : ∀ q java, mc.reloc[q]? = some (some java) →
      (body.layout pickCode {}).reloc.getLocal 0 q = some java := by
    intro q java hq
    rw [hmain] at hq
    exact Relocation.mainMap_eq_some_iff.mp hq
  obtain ⟨behind, hbehind, -, hrun⟩ := hswitch 0 3 1 ⟨3, .switch, [9]⟩
    (hnote 3 1 (by rw [hreloc]; rfl)) (by decide +kernel) rfl
  obtain ⟨dest, hafter, hdest, -⟩ := hrun m hm v stack locals
  refine hafter.trans ?_
  cases hdest with
  | @target t _ hn ht hfinds =>
    obtain ⟨hlt, ht⟩ := List.getElem?_eq_some_iff.mp ht
    have hzero : v.toInt32.toInt = 0 := by
      simp only [List.length_singleton] at hlt
      omega
    rw [if_pos hzero]
    simp only [hzero, Int.toNat_zero, List.getElem_cons_zero] at ht
    subst ht
    have hnine := hnote 9 21 (by rw [hreloc]; rfl)
    cases hfinds with
    | here h =>
      cases hnine.symm.trans h
      rfl
    | outer hnone _ _ => cases hnine.symm.trans hnone
  | behind hout =>
    have hzero : v.toInt32.toInt ≠ 0 := by
      simp only [List.length_singleton] at hout
      omega
    rw [if_neg hzero]
    cases hbehind.symm.trans (hnote 8 20 (by rw [hreloc]; rfl))
    rfl

-- The integer 2³² is no number of a target, yet the switch goes to target 0 with it.
theorem switch_mistakes_two_pow_32 : ∃ mc c',
    lowerCode pickFrame pickCode {} {} bareEnv bareClass = .ok mc c' ∧
    mc.reloc[8]? = some (some 20) ∧ mc.reloc[9]? = some (some 21) ∧
    ∀ m : Machine, m.code = mc.code.code →
      m.after? 3 ⟨0, [], .ofArgs [.long 4294967296] 2⟩ =
        some ⟨21, [], .ofArgs [.long 4294967296] 2⟩ := by
  obtain ⟨mc, c', h, hcode, hreloc⟩ := exists_lowerCode_pick
  refine ⟨mc, c', h, by rw [hreloc]; rfl, by rw [hreloc]; rfl, ?_⟩
  intro m hm
  rw [hcode] at hm
  have hload : m.step ⟨0, [], .ofArgs [.long 4294967296] 2⟩ =
      some (.next ⟨1, [.long 4294967296], .ofArgs [.long 4294967296] 2⟩) := by
    rw [Machine.step_of_fetch hm (i := .load .long 0) (n := 1) rfl]
    rfl
  have hconvert : m.step ⟨1, [.long 4294967296], .ofArgs [.long 4294967296] 2⟩ =
      some (.next ⟨2, [.int 0], .ofArgs [.long 4294967296] 2⟩) := by
    rw [Machine.step_of_fetch hm (i := .toInt) (n := 2) rfl]
    rfl
  have hswitch : m.step ⟨2, [.int 0], .ofArgs [.long 4294967296] 2⟩ =
      some (.next ⟨21, [], .ofArgs [.long 4294967296] 2⟩) := by
    rw [Machine.step_of_fetch hm (i := .tableSwitch 18 0 0 16) (n := 16) rfl]
    simp only [Machine.exec, hm]
    rfl
  rw [Machine.after?_succ hload, Machine.after?_succ hconvert, Machine.after?_succ hswitch]
  rfl

end PodCompiler.Lowering
