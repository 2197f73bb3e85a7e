import PodCompiler.ClassFile.Listing
import PodCompiler.Proofs.ClassFile.CodeWalk

namespace PodCompiler.ClassFile

namespace Op

-- The bounds of the table switch whose opcode is at `pos`.
def switchLow (code : Bytes) (pos : Nat) : Int32 :=
  word4 code (pos + 1 + switchPad pos + 4)

def switchHigh (code : Bytes) (pos : Nat) : Int32 :=
  word4 code (pos + 1 + switchPad pos + 8)

-- Counting the targets of a switch in words of 32 bits: neither the difference of the bounds nor the
-- count leaves the range of a word, so the words are the numbers that they should be.
structure CountsInWords (code : Bytes) (pos : Nat) : Prop where
  difference : (switchHigh code pos - switchLow code pos).toInt =
    (switchHigh code pos).toInt - (switchLow code pos).toInt
  count : (switchHigh code pos - switchLow code pos + 1).toInt =
    (switchHigh code pos - switchLow code pos).toInt + 1

-- A word that is a difference or a sum is it within the range of words.
theorem toInt_sub_eq_iff (a b : Int32) :
    (a - b).toInt = a.toInt - b.toInt ↔
      -2 ^ 31 ≤ a.toInt - b.toInt ∧ a.toInt - b.toInt < 2 ^ 31 := by
  have hlo := (a - b).le_toInt
  have hhi := (a - b).toInt_lt
  rw [Int32.toInt_sub] at hlo hhi ⊢
  constructor
  · intro h
    rw [h] at hlo hhi
    omega
  · rintro ⟨hle, hlt⟩
    exact Int.bmod_eq_of_le (by omega) (by omega)

theorem toInt_add_one_eq_iff (a : Int32) : (a + 1).toInt = a.toInt + 1 ↔ a.toInt + 1 < 2 ^ 31 := by
  have hlo := a.le_toInt
  have hhi := (a + 1).toInt_lt
  have hone : (1 : Int32).toInt = 1 := by decide
  rw [Int32.toInt_add, hone] at hhi ⊢
  constructor
  · intro h
    rw [h] at hhi
    omega
  · intro hlt
    exact Int.bmod_eq_of_le (by omega) (by omega)

theorem countsInWords_iff (code : Bytes) (pos : Nat) :
    CountsInWords code pos ↔
      -2 ^ 31 ≤ (switchHigh code pos).toInt - (switchLow code pos).toInt ∧
        (switchHigh code pos).toInt - (switchLow code pos).toInt + 1 < 2 ^ 31 := by
  constructor
  · rintro ⟨hdifference, hcount⟩
    have hrange := (toInt_sub_eq_iff _ _).mp hdifference
    have hlast := (toInt_add_one_eq_iff _).mp hcount
    omega
  · rintro ⟨hle, hlt⟩
    have hdifference := (toInt_sub_eq_iff _ _).mpr ⟨hle, by omega⟩
    exact ⟨hdifference, (toInt_add_one_eq_iff _).mpr (by omega)⟩

theorem isSome_switchCount?_iff {code : Bytes} {pos : Nat} :
    (∃ count, switchCount? code pos = some count) ↔ CountsInWords code pos := by
  rw [countsInWords_iff]
  unfold switchCount?
  change (∃ count, (if -0x80000000 ≤ (switchHigh code pos).toInt - (switchLow code pos).toInt ∧
    (switchHigh code pos).toInt - (switchLow code pos).toInt + 1 < 0x80000000 then _ else none) =
      some count) ↔ _
  split
  · rename_i hfits
    exact ⟨fun _ => by omega, fun _ => ⟨_, rfl⟩⟩
  · rename_i hfits
    constructor
    · rintro ⟨count, hnone⟩
      cases hnone
    · intro hfits'
      exact absurd (by omega) hfits

-- Only a table switch may have no length.
theorem exists_length?_iff {code : Bytes} {pos : Nat} :
    (∃ n, length? code pos = some n) ↔
      (code[pos]? = some tableSwitch → CountsInWords code pos) := by
  rw [← isSome_switchCount?_iff]
  constructor
  · rintro ⟨n, hn⟩ hop
    obtain ⟨hlt, -⟩ := Array.getElem?_eq_some_iff.mp hop
    have hat : code[pos] = tableSwitch :=
      Option.some.inj ((Array.getElem?_eq_getElem hlt).symm.trans hop)
    obtain hfixed | ⟨hwide, -⟩ | ⟨-, count, hcount, -⟩ := length?_cases hlt hn
    · rw [hat] at hfixed
      cases hfixed
    · rw [hat] at hwide
      cases hwide
    · exact ⟨count, hcount⟩
  · intro hcounts
    by_cases hop : code[pos]? = some tableSwitch
    · obtain ⟨count, hcount⟩ := hcounts hop
      exact ⟨_, length?_tableSwitch hop hcount⟩
    · have hne : code.getD pos nop ≠ tableSwitch := by
        intro heq
        apply hop
        rw [Array.getD_eq_getD_getElem?] at heq
        cases hat : code[pos]? with
        | none =>
          rw [hat] at heq
          cases heq
        | some op =>
          rw [hat] at heq
          exact congrArg some heq
      rw [← Option.isSome_iff_exists]
      unfold length?
      dsimp only
      rw [if_neg hne]
      simp only [apply_ite Option.isSome, Option.isSome_some, ite_self]

namespace Walk

variable {code : Bytes} {pos mid stop : Nat} {starts more : List Nat}

-- A walk goes on to the right: its instructions start one behind the other, each in the code.
theorem pairwise (h : Walk code pos starts stop) : starts.Pairwise (· < ·) := by
  induction h with
  | done => exact List.Pairwise.nil
  | @step pos n stop starts hlt hn hrest ih =>
    refine List.pairwise_cons.mpr ⟨fun p hp => ?_, ih⟩
    obtain ⟨-, m, -, hle, -⟩ := hrest.length?_of_mem hp
    have hpos := length?_pos hlt hn
    omega

-- There are no more of them than bytes.
theorem length_le (h : Walk code pos starts stop) : starts.length ≤ code.size - pos := by
  induction h with
  | done => exact Nat.zero_le _
  | @step pos n stop starts hlt hn hrest ih =>
    have hpos := length?_pos hlt hn
    rw [List.length_cons]
    omega

-- A walk to the end of the code meets all that another comes to.
theorem mem_of_le (h : Walk code pos starts stop) (hstop : code.size ≤ stop)
    (hmore : Walk code pos more mid) (hmid : mid < code.size) : mid ∈ starts := by
  induction hmore generalizing starts with
  | done =>
    rcases h.mem_or_eq with hmem | rfl
    · exact hmem
    · omega
  | step hlt hn hrest ih =>
    cases h with
    | done => omega
    | step _ hn' hrest' =>
      cases hn.symm.trans hn'
      exact List.mem_cons_of_mem _ (ih hrest' hmid)

end Walk

end Op

namespace Listing

open Op (CountsInWords Walk length? length?_pos tableSwitch)

-- The line of the instruction that starts at `pos` begins with this number.
def Labels (pos : Nat) (line : String) : Prop :=
  ∃ text, line = Text.padLeft ' ' 4 (toString pos) ++ ": " ++ text

variable {pool : ConstantTable} {code : Bytes} {done ls : Array String} {pos : Nat}

-- The step of a listing: a line for the instruction at `pos`, and on behind that instruction.
theorem linesAfter_step (pool : ConstantTable) (done : Array String) {n : Nat}
    (hlt : pos < code.size) (hn : length? code pos = some n) :
    ∃ line, Labels pos line ∧
      linesAfter pool code done pos = linesAfter pool code (done.push line) (pos + n) := by
  have hmax : max n 1 = n := Nat.max_eq_left (length?_pos hlt hn)
  refine ⟨_, ⟨Op.mnemonic (code.getD pos Op.nop) ++ operands pool code pos n, rfl⟩, ?_⟩
  rw [linesAfter, if_pos hlt, hn]
  dsimp only
  rw [hmax, String.append_assoc]

-- What a listing adds to the lines before: one for each instruction of a walk to the end.
theorem walk_of_linesAfter (h : linesAfter pool code done pos = some ls) :
    ∃ starts stop new, Walk code pos starts stop ∧ code.size ≤ stop ∧
      ls.toList = done.toList ++ new ∧ List.Forall₂ Labels starts new := by
  induction hk : code.size - pos using Nat.strongRecOn generalizing pos done with
  | ind k ih =>
    subst hk
    by_cases hlt : pos < code.size
    · cases hn : length? code pos with
      | none =>
        rw [linesAfter, if_pos hlt, hn] at h
        cases h
      | some n =>
        obtain ⟨line, hline, hstep⟩ := linesAfter_step pool done hlt hn
        have hpos := length?_pos hlt hn
        rw [hstep] at h
        obtain ⟨starts, stop, new, hwalk, hstop, hls, hnew⟩ := ih _ (by omega) h rfl
        refine ⟨pos :: starts, stop, line :: new, .step hlt hn hwalk, hstop, ?_, .cons hline hnew⟩
        rw [hls, Array.toList_push, List.append_assoc, List.singleton_append]
    · rw [linesAfter, if_neg hlt] at h
      cases h
      exact ⟨[], pos, [], .done, by omega, (List.append_nil _).symm, .nil⟩

-- It has all lines if each switch that a walk comes to can be counted.
theorem exists_linesAfter
    (h : ∀ starts p, Walk code pos starts p → code[p]? = some tableSwitch → CountsInWords code p) :
    ∃ ls, linesAfter pool code done pos = some ls := by
  induction hk : code.size - pos using Nat.strongRecOn generalizing pos done with
  | ind k ih =>
    subst hk
    by_cases hlt : pos < code.size
    · obtain ⟨n, hn⟩ := Op.exists_length?_iff.mpr (h [] pos .done)
      obtain ⟨line, -, hstep⟩ := linesAfter_step pool done hlt hn
      have hpos := length?_pos hlt hn
      rw [hstep]
      exact ih _ (by omega) (fun starts p hwalk => h _ p (.step hlt hn hwalk)) rfl
    · rw [linesAfter, if_neg hlt]
      exact ⟨done, rfl⟩

-- Listing some bytes ends with a line for each instruction, one behind the other, if and only if
-- every table switch that it comes to can be counted in words of 32 bits.
theorem listed_to_end_iff (pool : ConstantTable) (code : Bytes) :
    (∃ ls starts stop, lines pool code = some ls ∧ Walk code 0 starts stop ∧ code.size ≤ stop ∧
      List.Forall₂ Labels starts ls.toList ∧ starts.Pairwise (· < ·) ∧ ls.size ≤ code.size) ↔
    ∀ starts pos, Walk code 0 starts pos → code[pos]? = some tableSwitch →
      CountsInWords code pos := by
  constructor
  · rintro ⟨ls, starts, stop, -, hwalk, hstop, -⟩ before pos hbefore hop
    obtain ⟨hlt, -⟩ := Array.getElem?_eq_some_iff.mp hop
    obtain ⟨-, n, hn, -⟩ := hwalk.length?_of_mem (hwalk.mem_of_le hstop hbefore hlt)
    exact Op.exists_length?_iff.mp ⟨n, hn⟩ hop
  · intro hcounts
    obtain ⟨ls, hls⟩ : ∃ ls, lines pool code = some ls := exists_linesAfter hcounts
    obtain ⟨starts, stop, new, hwalk, hstop, hnew, hlabels⟩ := walk_of_linesAfter hls
    have hnew : ls.toList = new := hnew
    refine ⟨ls, starts, stop, hls, hwalk, hstop, hnew ▸ hlabels, hwalk.pairwise, ?_⟩
    calc ls.size = new.length := by rw [← hnew, Array.length_toList]
      _ = starts.length := hlabels.length_eq.symm
      _ ≤ code.size := hwalk.length_le

-- A table switch of which only the opcode is there. Its bounds count as zero.
def cutSwitch : Bytes := #[Op.nop, tableSwitch]

theorem listed_to_end_iff_cutSwitch : ∃ ls starts stop, lines #[none] cutSwitch = some ls ∧
    Walk cutSwitch 0 starts stop ∧ 2 ≤ stop ∧ List.Forall₂ Labels starts ls.toList ∧
    starts.Pairwise (· < ·) ∧ ls.size ≤ 2 := by
  refine (listed_to_end_iff #[none] cutSwitch).mpr fun starts pos _ hop => ?_
  obtain ⟨hlt, hat⟩ := Array.getElem?_eq_some_iff.mp hop
  obtain rfl : pos = 1 := by
    have hlt : pos < 2 := hlt
    interval_cases pos
    · cases hat
    · rfl
  exact (Op.countsInWords_iff _ _).mpr (by decide)

-- A table switch from the least number to the greatest.
def widestSwitch : Bytes :=
  #[tableSwitch, 0, 0, 0, 0, 0, 0, 0, 0x80, 0, 0, 0, 0x7f, 0xff, 0xff, 0xff]

-- Already the difference of its bounds is no word, and it is not listed.
theorem listing_stops_widestSwitch : Walk widestSwitch 0 [] 0 ∧
    widestSwitch[0]? = some tableSwitch ∧
    (Op.switchHigh widestSwitch 0 - Op.switchLow widestSwitch 0).toInt ≠
      (Op.switchHigh widestSwitch 0).toInt - (Op.switchLow widestSwitch 0).toInt ∧
    lines #[none] widestSwitch = none := by
  have hlength : length? widestSwitch 0 = none := by decide
  refine ⟨.done, rfl, by decide, ?_⟩
  rw [lines, linesAfter, if_pos (by decide), hlength]

end Listing

end PodCompiler.ClassFile
