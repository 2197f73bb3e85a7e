import PodCompiler.Proofs.Lowering.CallingConvention
import PodCompiler.Proofs.Lowering.CodeStream
import PodCompiler.Proofs.Lowering.SwitchDispatch
import PodCompiler.Proofs.Lowering.TwinScopes

namespace PodCompiler.Lowering

open ClassFile (CodeBuffer)
open ClassFile.Op

-- A table switch with its opcode at `pos` and its words from `table` on. Its numbers go from zero
-- on, one for each target; every other number leads to `behind`, which is where the table ends.
structure HasTable (java : Bytes) (pos table behind : Nat) (leads : UInt16 → Nat → Prop)
    (targets : List UInt16) : Prop where
  opcode : java[pos]? = some tableSwitch
  aligned : 4 ∣ table
  near : pos < table ∧ table ≤ pos + 4
  padding : ∀ k, pos < k → k < table → java[k]? = some 0
  otherwise : ∃ w, java.be4? table = some w ∧ pos + w.toInt32.toInt = behind
  low : java.be4? (table + 4) = some 0
  high : ∃ w, java.be4? (table + 8) = some w ∧ w.toInt32.toInt = targets.length - 1
  entry : ∀ k t, targets[k]? = some t → ∃ w dest, java.be4? (table + 12 + 4 * k) = some w ∧
    leads t dest ∧ pos + w.toInt32.toInt = dest
  stop : behind = table + 12 + 4 * targets.length
  length : length? java pos = some (behind - pos)

-- Every switch of a method that has targets, wherever it is lowered to.
def SwitchTables (code : Bytes) (r : Relocation) (java : Bytes) : Prop :=
  ∀ (s p start : Nat) (i : Instr), r.getLocal s p = some start → Instr.decodeAt code p = .ok i →
    i.op = .switch → i.args ≠ [] →
    java[start]? = some l2i ∧ ∃ table behind, r.getLocal s (p + i.size) = some behind ∧
      HasTable java (start + 1) table behind (fun t dest => r.Finds t.toNat s dest) i.args

-- The bytes up to the words fill the distance to the next multiple of four.
theorem dvd_add_switchPad (pos : Nat) :
    4 ∣ pos + 1 + switchPad pos ∧ switchPad pos ≤ 3 := by
  unfold switchPad
  omega

section Tables

variable {env : ClassEnv} {f : Frame} {code : Bytes} {out : CodeBuffer} {c c₁ : OpenClass}
  {body : BodyState} {mc : MethodCode} {s pos : Nat} {targets : List UInt16}
  {rest : List (Item UInt16)}

-- A switch where it stands, behind the conversion of its value.
theorem Lowered.hasTable (hl : Lowered env f code out c c₁ body mc)
    (hx : body.Stands code out s pos (.switch targets :: rest)) (hne : targets ≠ [])
    (hlength : targets.length < 2 ^ 16) :
    ∃ table, HasTable mc.code.code (pos + 1) table (pos + ((Item.switch targets).raw pos).length)
      (fun t dest => (body.layout code out).reloc.Finds t.toNat s dest) targets := by
  have hpositive : 0 < targets.length := List.length_pos_iff.mpr hne
  obtain ⟨haligned, hpad⟩ := dvd_add_switchPad (pos + 1)
  obtain ⟨-, hop, hotherwise, hlow, hhigh⟩ := hl.spells_switch hx hne
  obtain ⟨-, -, hcount, -⟩ := hl.switch_table hx hne hlength
  have hraw : ((Item.switch targets).raw pos).length =
      2 + switchPad (pos + 1) + 12 + 4 * targets.length := by
    rw [Item.raw, if_neg (by simpa using hne), Item.length_switchRaw]
  refine ⟨pos + 2 + switchPad (pos + 1), ?_⟩
  constructor
  case opcode => exact hop
  case aligned => exact haligned
  case near => omega
  case padding =>
    intro k hk hlt
    obtain ⟨n, rfl⟩ := Nat.exists_eq_add_of_le (show pos + 2 ≤ k from hk)
    exact hl.switch_padding hx hne (by omega)
  case otherwise =>
    refine ⟨_, Bytes.be4?_of_spells hotherwise, ?_⟩
    rw [Bytes.toInt_toUInt32 (by omega), hraw]
    omega
  case low => exact Bytes.be4?_of_spells hlow
  case high =>
    refine ⟨_, Bytes.be4?_of_spells hhigh, ?_⟩
    rw [Bytes.toInt_toUInt32 (by omega)]
    omega
  case entry =>
    intro k t ht
    obtain ⟨w, dest, hw, hfinds, hoffset⟩ := hl.switch_target hx ht
    exact ⟨w, dest, hw, hfinds, hoffset⟩
  case stop =>
    rw [hraw]
    omega
  case length =>
    rw [length?_tableSwitch hop hcount, hraw]
    congr 1
    omega

theorem Lowered.switchTables (hl : Lowered env f code out c c₁ body mc) :
    SwitchTables code (body.layout code out).reloc mc.code.code := by
  intro s p start i hp hi hop hne
  obtain ⟨next, e, e₁, own, more, hown, -, hmore, hx⟩ := hl.stands_alone hp hi (by rw [hop]; rfl)
    (by rw [hop]; rfl) (by simp [hop]) (by simp [hop])
  have hbranch : branchItem? i = some (.switch i.args) := by
    unfold branchItem?
    rw [hop]
  obtain rfl := hown.branch hbranch
  obtain ⟨table, htable⟩ := hl.hasTable hx hne (Instr.decodeAt_length_lt hi)
  exact ⟨(hl.spells_switch hx hne).1, table, _,
    hl.note_of_stands (hx.tail (Layout.scope_put_switch · _)) hmore, htable⟩

end Tables

-- In a method and in an expression, behind any code that was written before, the tables of all
-- switches have the form that a reader expects, and lead to the positions of their targets.
theorem switch_tables_laid_out (env : ClassEnv) (f : Frame) (code : Bytes) (out : CodeBuffer)
    (c : OpenClass) :
    (∀ attrs mc c', lowerCode f code attrs out env c = .ok mc c' →
      ∃ body c₁, emitBody f code {} env c = .ok ((), body) c₁ ∧
        mc.reloc = (body.layout code out).reloc.mainMap ∧
        SwitchTables code (body.layout code out).reloc mc.code.code) ∧
    ∀ mc c', lowerFragment f code out env c = .ok mc c' →
      ∃ body, emitBody f code {} env c = .ok ((), body) c' ∧
        mc.reloc = (body.layout code out).reloc.mainMap ∧
        SwitchTables code (body.layout code out).reloc mc.code.code := by
  constructor
  · intro attrs mc c' h
    obtain ⟨body, c₁, hl⟩ := lowered_of_lowerCode h
    exact ⟨body, c₁, hl.emits, hl.filled.main, hl.switchTables⟩
  · intro mc c' h
    obtain ⟨body, hl⟩ := lowered_of_lowerFragment h
    exact ⟨body, hl.emits, hl.filled.main, hl.switchTables⟩

-- The opcode is at 2, so one zero is before the words of the table.
theorem switch_tables_laid_out_pick : ∃ mc c',
    lowerCode pickFrame pickCode {} {} bareEnv bareClass = .ok mc c' ∧
    HasTable mc.code.code 2 4 20 (fun t dest => t = 9 ∧ dest = 21) [9] := by
  obtain ⟨mc, c', h, -, hreloc⟩ := exists_lowerCode_pick
  obtain ⟨body, c₁, -, hmain, hall⟩ :=
    (switch_tables_laid_out bareEnv pickFrame pickCode {} bareClass).1 _ _ _ h
  have hnote : ∀ q java, mc.reloc[q]? = some (some java) →
      (body.layout pickCode {}).reloc.getLocal 0 q = some java := by
    intro q java hq
    rw [hmain] at hq
    exact Relocation.mainMap_eq_some_iff.mp hq
  obtain ⟨-, table, behind, hbehind, htable⟩ := hall 0 3 1 ⟨3, .switch, [9]⟩
    (hnote 3 1 (by rw [hreloc]; rfl)) (by decide +kernel) rfl (by decide)
  obtain rfl : table = 4 := by
    have haligned := htable.aligned
    have hnear := htable.near
    omega
  cases hbehind.symm.trans (hnote 8 20 (by rw [hreloc]; rfl))
  refine ⟨mc, c', h, { htable with entry := ?_ }⟩
  intro k t ht
  obtain ⟨w, dest, hw, hfinds, hoffset⟩ := htable.entry k t ht
  obtain rfl : t = 9 := List.mem_singleton.mp (List.mem_of_getElem? ht)
  exact ⟨w, dest, hw, ⟨rfl, hfinds.unique (.here (hnote 9 21 (by rw [hreloc]; rfl)))⟩, hoffset⟩

end PodCompiler.Lowering
