import Mathlib
import PodCompiler.Instruction.Basic

namespace PodCompiler

theorem except_bind_eq_ok {ε α β : Type} {x : Except ε α} {k : α → Except ε β} {b : β} :
    (x >>= k) = .ok b ↔ ∃ a, x = .ok a ∧ k a = .ok b := by
  cases x with
  | ok a =>
    constructor
    · intro h
      exact ⟨a, rfl, h⟩
    · rintro ⟨_, ha, h⟩
      cases ha
      exact h
  | error e =>
    constructor
    · intro h
      cases h
    · rintro ⟨_, h, -⟩
      cases h

namespace Instr

open Pod (FormatError)

-- The instructions from `pos` on, up to the first that would start at `stop` or behind it.
inductive Stream (code : Bytes) (stop : Nat) : Nat → List Instr → Prop
  | done {pos : Nat} (h : stop ≤ pos) : Stream code stop pos []
  | step {pos : Nat} {i : Instr} {rest : List Instr} (h : pos < stop)
      (hi : decodeAt code pos = .ok i) (hrest : Stream code stop (pos + i.size) rest) :
      Stream code stop pos (i :: rest)

-- The accumulator holds what came before, and comes out in front.
theorem decodeAfter_eq (code : Bytes) (stop : Nat) (done : Array Instr) (pos : Nat) :
    decodeAfter code stop done pos =
      ⟨done.toList ++ (decodeRange code pos stop).instrs, (decodeRange code pos stop).fault⟩ := by
  induction hn : stop - pos using Nat.strongRecOn generalizing done pos with
  | ind n ih =>
    rw [decodeRange, decodeAfter, decodeAfter]
    by_cases h : pos < stop
    · simp only [if_pos h]
      cases hi : decodeAt code pos with
      | error e => simp
      | ok i =>
        have hs := i.size_pos
        have hlt : stop - (pos + i.size) < n := by omega
        simp only [ih _ hlt _ (pos + i.size) rfl]
        simp
    · simp [if_neg h]

theorem decodeRange_step {code : Bytes} {pos stop : Nat} {i : Instr} (h : pos < stop)
    (hi : decodeAt code pos = .ok i) :
    decodeRange code pos stop =
      ⟨i :: (decodeRange code (pos + i.size) stop).instrs,
        (decodeRange code (pos + i.size) stop).fault⟩ := by
  rw [decodeRange, decodeAfter, if_pos h, hi]
  simp [decodeAfter_eq]

theorem stream_of_decodeRange {code : Bytes} {start stop : Nat}
    (h : (decodeRange code start stop).fault = none) :
    Stream code stop start (decodeRange code start stop).instrs := by
  induction hn : stop - start using Nat.strongRecOn generalizing start with
  | ind n ih =>
    by_cases hlt : start < stop
    · cases hi : decodeAt code start with
      | error e =>
        rw [decodeRange, decodeAfter, if_pos hlt, hi] at h
        cases h
      | ok i =>
        have hs := i.size_pos
        rw [decodeRange_step hlt hi] at h ⊢
        exact .step hlt hi (ih _ (by omega) h rfl)
    · rw [decodeRange, decodeAfter, if_neg hlt]
      exact .done (by omega)

theorem decodeRange_of_stream {code : Bytes} {start stop : Nat} {instrs : List Instr}
    (h : Stream code stop start instrs) : decodeRange code start stop = ⟨instrs, none⟩ := by
  induction h with
  | done h => rw [decodeRange, decodeAfter, if_neg (by omega)]
  | step h hi _ ih => rw [decodeRange_step h hi, ih]

-- In a stream each position has one instruction.
theorem Stream.unique {code : Bytes} {start stop : Nat} {instrs instrs' : List Instr}
    (h : Stream code stop start instrs) (h' : Stream code stop start instrs') :
    instrs = instrs' := by
  have hrange := decodeRange_of_stream h
  rw [decodeRange_of_stream h', Decoded.mk.injEq] at hrange
  exact hrange.1.symm

theorem disassemble_eq_ok_iff {code : Bytes} {instrs : List Instr} :
    disassemble code = .ok instrs ↔ Stream code code.size 0 instrs := by
  constructor
  · intro h
    have hs : (decodeRange code 0 code.size).fault = none → _ := stream_of_decodeRange
    rw [disassemble] at h
    split at h
    · rename_i is hd
      cases h
      simpa [hd] using hs
    · cases h
  · intro h
    rw [disassemble, decodeRange_of_stream h]

-- What an instruction at `pos` is made of: the opcode there, and the operands behind it.
theorem decodeAt_eq_ok {code : Bytes} {pos : Nat} {i : Instr} (h : decodeAt code pos = .ok i) :
    i.pos = pos ∧ (∃ b, code[pos]? = some b ∧ Opcode.ofByte? b = some i.op) ∧
      argsAt code pos i.op.shape = .ok i.args := by
  simp only [decodeAt] at h
  split at h
  · cases h
  · rename_i b hb
    split at h
    · cases h
    · rename_i op hop
      obtain ⟨args, ha, hr⟩ := except_bind_eq_ok.mp h
      cases hr
      exact ⟨rfl, ⟨b, hb, hop⟩, ha⟩

theorem decodeAt_pos {code : Bytes} {pos : Nat} {i : Instr} (h : decodeAt code pos = .ok i) :
    i.pos = pos :=
  (decodeAt_eq_ok h).1

theorem operandAt_eq_ok {code : Bytes} {pos : Nat} {v : UInt16}
    (h : operandAt code pos = .ok v) : pos + 2 ≤ code.size := by
  rw [operandAt, Bytes.be2?] at h
  by_cases hp : pos + 2 ≤ code.size
  · exact hp
  · simp [hp] at h

-- A step that is made for each item of a list, in order, until one fails.
theorem forall₂_of_mapM {ε α β : Type} {f : α → Except ε β} {xs : List α} {ys : List β}
    (h : xs.mapM f = .ok ys) : List.Forall₂ (fun x y => f x = .ok y) xs ys := by
  induction xs generalizing ys with
  | nil =>
    cases h
    exact .nil
  | cons x xs ih =>
    rw [List.mapM_cons] at h
    obtain ⟨y, hx, h⟩ := except_bind_eq_ok.mp h
    obtain ⟨zs, hxs, h⟩ := except_bind_eq_ok.mp h
    cases h
    exact .cons hx (ih hxs)

theorem operandsAt_eq_ok {code : Bytes} {pos n : Nat} {args : List UInt16}
    (h : operandsAt code pos n = .ok args) :
    args.length = n ∧ (0 < n → pos + 2 * n ≤ code.size) := by
  have hall := forall₂_of_mapM h
  have hlen := hall.length_eq
  rw [List.length_range] at hlen
  refine ⟨hlen.symm, ?_⟩
  intro hn
  have hlast := hall.get (i := n - 1) (by simp; omega) (by omega)
  simp only [List.get_eq_getElem, List.getElem_range] at hlast
  have hle := operandAt_eq_ok hlast
  omega

-- An instruction ends in its buffer, and has as many operands as its opcode asks for.
theorem decodeAt_size_le {code : Bytes} {pos : Nat} {i : Instr} (h : decodeAt code pos = .ok i) :
    pos + i.size ≤ code.size := by
  obtain ⟨-, ⟨b, hb, -⟩, hargs⟩ := decodeAt_eq_ok h
  obtain ⟨hpos, -⟩ := Array.getElem?_eq_some_iff.mp hb
  rw [size]
  cases hs : i.op.shape with
  | none => exact hpos
  | index | jump =>
    rw [hs] at hargs
    have hle := (operandsAt_eq_ok hargs).2 (by decide)
    omega
  | typePair =>
    rw [hs] at hargs
    have hle := (operandsAt_eq_ok hargs).2 (by decide)
    omega
  | switch =>
    rw [hs] at hargs
    obtain ⟨count, hc, hargs⟩ := except_bind_eq_ok.mp hargs
    obtain ⟨hlen, hle⟩ := operandsAt_eq_ok hargs
    have hhead := operandAt_eq_ok hc
    simp only
    by_cases hn : 0 < count.toNat
    · have := hle hn
      omega
    · omega

-- The number of operands is one of 16 bits.
theorem decodeAt_length_lt {code : Bytes} {pos : Nat} {i : Instr} (h : decodeAt code pos = .ok i) :
    i.args.length < 2 ^ 16 := by
  obtain ⟨-, -, hargs⟩ := decodeAt_eq_ok h
  cases hs : i.op.shape with
  | none =>
    rw [hs] at hargs
    rw [← Except.ok.inj hargs]
    decide
  | index | jump | typePair =>
    rw [hs] at hargs
    rw [(operandsAt_eq_ok hargs).1]
    decide
  | switch =>
    rw [hs] at hargs
    obtain ⟨count, -, hargs⟩ := except_bind_eq_ok.mp hargs
    rw [(operandsAt_eq_ok hargs).1]
    exact count.toNat_lt

-- Decoding from one position on comes to another.
inductive Reaches (code : Bytes) : Nat → Nat → Prop
  | refl {pos : Nat} : Reaches code pos pos
  | step {pos q : Nat} {i : Instr} (hi : decodeAt code pos = .ok i)
      (hrest : Reaches code (pos + i.size) q) : Reaches code pos q

namespace Reaches

variable {code : Bytes} {pos q q' : Nat} {i : Instr}

theorem le (h : Reaches code pos q) : pos ≤ q := by
  induction h with
  | refl => exact Nat.le_refl _
  | step _ _ ih => omega

theorem trans (h : Reaches code pos q) (h' : Reaches code q q') : Reaches code pos q' := by
  induction h with
  | refl => exact h'
  | step hi _ ih => exact .step hi (ih h')

-- Behind an instruction comes the next one.
theorem size_le (h : Reaches code pos q) (hi : decodeAt code pos = .ok i) (hlt : pos < q) :
    pos + i.size ≤ q := by
  cases h with
  | refl => omega
  | step hj hrest =>
    rw [hi] at hj
    cases hj
    exact hrest.le

-- Of two positions that decoding comes to, it comes from the first to the second.
theorem between (h : Reaches code pos q) (h' : Reaches code pos q') (hle : q ≤ q') :
    Reaches code q q' := by
  induction h with
  | refl => exact h'
  | @step pos q i hi hrest ih =>
    have hpos := hrest.le
    have hsize := i.size_pos
    cases h' with
    | refl => omega
    | step hj hrest' =>
      rw [hi] at hj
      cases hj
      exact ih hrest' hle

end Reaches

namespace Stream

variable {code : Bytes} {start stop : Nat} {instrs rest done : List Instr} {i : Instr}

-- The position behind the last instruction.
def finish (start : Nat) (instrs : List Instr) : Nat :=
  instrs.foldl (fun pos i => pos + i.size) start

theorem le_finish (start : Nat) (instrs : List Instr) : start ≤ finish start instrs := by
  induction instrs generalizing start with
  | nil => exact Nat.le_refl _
  | cons i rest ih => exact Nat.le_trans (Nat.le_add_right _ _) (ih (start + i.size))

theorem stop_le_finish (h : Stream code stop start instrs) : stop ≤ finish start instrs := by
  induction h with
  | done h => exact h
  | step _ _ _ ih => exact ih

-- A stream over the whole buffer ends where the buffer does.
theorem finish_eq_size (h : Stream code code.size start instrs) (hs : start ≤ code.size) :
    finish start instrs = code.size := by
  refine Nat.le_antisymm ?_ h.stop_le_finish
  induction h with
  | done _ => exact hs
  | step _ hi _ ih => exact ih (decodeAt_size_le hi)

-- The stream behind some of its instructions.
theorem split (h : Stream code stop start (done ++ rest)) :
    Stream code stop (finish start done) rest := by
  induction done generalizing start with
  | nil => exact h
  | cons i done ih =>
    cases h with
    | step _ _ hrest => exact ih hrest

theorem decodeAt_of_split (h : Stream code stop start (done ++ i :: rest)) :
    decodeAt code i.pos = .ok i ∧ i.pos = finish start done ∧ i.pos < stop := by
  cases h.split with
  | step hlt hi _ =>
    have hp := decodeAt_pos hi
    exact ⟨hp ▸ hi, hp, hp ▸ hlt⟩

theorem decodeAt_of_mem (h : Stream code stop start instrs) (hi : i ∈ instrs) :
    decodeAt code i.pos = .ok i ∧ start ≤ i.pos ∧ i.pos < stop := by
  obtain ⟨done, rest, rfl⟩ := List.append_of_mem hi
  obtain ⟨hd, hp, hlt⟩ := h.decodeAt_of_split
  exact ⟨hd, hp ▸ le_finish start done, hlt⟩

-- An instruction ends before those behind it.
theorem pairwise (h : Stream code stop start instrs) :
    instrs.Pairwise fun a b => a.pos + a.size ≤ b.pos := by
  induction h with
  | done _ => exact List.Pairwise.nil
  | step _ hi hrest ih =>
    refine List.pairwise_cons.mpr ⟨?_, ih⟩
    intro j hj
    rw [decodeAt_pos hi]
    exact (hrest.decodeAt_of_mem hj).2.1

-- The positions of a stream that ends at `stop` are those that decoding comes to on the way.
theorem position_iff (h : Stream code stop start instrs) (hfinish : finish start instrs = stop)
    (q : Nat) :
    q ∈ instrs.map Instr.pos ∨ q = stop ↔ Reaches code start q ∧ q ≤ stop := by
  induction h with
  | @done pos hle =>
    have hpos : pos = stop := hfinish
    subst hpos
    constructor
    · rintro (hq | rfl)
      · cases hq
      · exact ⟨.refl, Nat.le_refl _⟩
    · rintro ⟨hq, hle⟩
      exact .inr (Nat.le_antisymm hle hq.le)
  | @step pos i rest hlt hi hrest ih =>
    have hih := ih hfinish
    rw [List.map_cons, List.mem_cons, or_assoc, hih, decodeAt_pos hi]
    constructor
    · rintro (rfl | ⟨hq, hle⟩)
      · exact ⟨.refl, Nat.le_of_lt hlt⟩
      · exact ⟨.step hi hq, hle⟩
    · rintro ⟨hq, hle⟩
      cases hq with
      | refl => exact .inl rfl
      | step hj hq =>
        rw [hi] at hj
        cases hj
        exact .inr ⟨hq, hle⟩

end Stream

end Instr

end PodCompiler
