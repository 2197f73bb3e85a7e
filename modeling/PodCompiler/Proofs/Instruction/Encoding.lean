import Mathlib
import PodCompiler.Instruction.Assembler
import PodCompiler.Proofs.Bytes
import PodCompiler.Proofs.Instruction.Stream

namespace PodCompiler

open Pod (FormatError)

-- An instruction that is not placed yet.
structure Line where
  op : Opcode
  args : List UInt16
  deriving DecidableEq, Repr

namespace Line

-- Whether there are as many operands as the opcode asks for.
def Fits (l : Line) : Prop :=
  match l.op.shape with
  | .none => l.args.length = 0
  | .index | .jump => l.args.length = 1
  | .typePair => l.args.length = 2
  | .switch => l.args.length ≤ 65535

instance (l : Line) : Decidable l.Fits := by
  unfold Fits
  split <;> infer_instance

-- The words behind the opcode.
def words (l : Line) : List UInt16 :=
  if l.op.shape = .switch then l.args.length.toUInt16 :: l.args else l.args

end Line

-- Words as bytes.
def wordBytes (words : List UInt16) : List UInt8 :=
  words.flatMap fun v => (Bytes.be2 v).toList

@[simp] theorem wordBytes_nil : wordBytes [] = [] := rfl

@[simp] theorem wordBytes_cons (v : UInt16) (words : List UInt16) :
    wordBytes (v :: words) = (v >>> 8).toUInt8 :: v.toUInt8 :: wordBytes words := rfl

@[simp] theorem wordBytes_append (as bs : List UInt16) :
    wordBytes (as ++ bs) = wordBytes as ++ wordBytes bs :=
  List.flatMap_append

@[simp] theorem length_wordBytes (words : List UInt16) :
    (wordBytes words).length = 2 * words.length := by
  induction words with
  | nil => rfl
  | cons v words ih =>
    simp only [wordBytes_cons, List.length_cons, ih]
    omega

namespace Line

-- How a line is written.
def encoding (l : Line) : List UInt8 :=
  l.op.byte :: wordBytes l.words

-- How some lines are written one after the other.
def encodings (lines : List Line) : List UInt8 :=
  lines.flatMap encoding

@[simp] theorem encodings_nil : encodings [] = [] := rfl

@[simp] theorem encodings_cons (l : Line) (lines : List Line) :
    encodings (l :: lines) = l.encoding ++ encodings lines := rfl

@[simp] theorem encodings_append (as bs : List Line) :
    encodings (as ++ bs) = encodings as ++ encodings bs :=
  List.flatMap_append

-- The instructions, the first of them at `pos`.
def placed (pos : Nat) : List Line → List Instr
  | [] => []
  | l :: lines => ⟨pos, l.op, l.args⟩ :: placed (pos + l.encoding.length) lines

theorem length_encoding (l : Line) : l.encoding.length = 1 + 2 * l.words.length := by
  simp only [encoding, List.length_cons, length_wordBytes]
  omega

theorem size_eq {l : Line} (h : l.Fits) (pos : Nat) :
    (Instr.mk pos l.op l.args).size = l.encoding.length := by
  rw [length_encoding]
  unfold Fits at h
  unfold words Instr.size
  cases hshape : l.op.shape with
  | none | index | jump | typePair =>
    rw [hshape] at h
    simp [show l.args.length = _ from h]
  | switch =>
    simp
    omega

end Line

namespace Opcode

-- No two bytes stand for one opcode.
theorem ofByte?_eq_some_iff {b : UInt8} {op : Opcode} : ofByte? b = some op ↔ b = op.byte := by
  constructor
  · intro h
    have hall : ∀ n : Fin 256, ∀ op, ofByte? (UInt8.ofFin n) = some op → n = op.byte.toFin := by
      decide +kernel
    have hb := hall b.toFin op h
    exact UInt8.toFin_inj.mp hb
  · rintro rfl
    exact ofByte?_byte op

end Opcode

namespace Instr

variable {code : Bytes} {before rest : List UInt8}

theorem getElem?_behind (h : code.toList = before ++ rest) (k : Nat) :
    code[before.length + k]? = rest[k]? := by
  rw [← Array.getElem?_toList, h, List.getElem?_append_right (Nat.le_add_right _ _),
    Nat.add_sub_cancel_left]

theorem operandAt_pair {x y : UInt8} (h : code.toList = before ++ x :: y :: rest) :
    operandAt code before.length = .ok (Bytes.join2 x y) := by
  have hx : code[before.length]? = some x := getElem?_behind h 0
  have hy : code[before.length + 1]? = some y := getElem?_behind h 1
  simp only [operandAt, Bytes.be2?_eq, hx, hy, Option.bind_some, Option.map_some]

theorem operandAt_short (h : code.toList = before ++ rest) (hrest : rest.length < 2) :
    operandAt code before.length = .error (.truncated "code" before.length) := by
  have hy : code[before.length + 1]? = none := by
    rw [getElem?_behind h 1]
    exact List.getElem?_eq_none (by omega)
  have hword : code.be2? before.length = none := by
    rw [Bytes.be2?_eq, hy]
    cases code[before.length]? <;> rfl
  rw [operandAt, hword]

-- One operand, and then those behind it.
theorem operandsAt_succ (code : Bytes) (pos n : Nat) :
    operandsAt code pos (n + 1) = do
      let v ← operandAt code pos
      let vs ← operandsAt code (pos + 2) n
      return v :: vs := by
  have hshift : ((fun k => operandAt code (pos + 2 * k)) ∘ Nat.succ) =
      fun k => operandAt code (pos + 2 + 2 * k) := by
    funext k
    simp only [Function.comp_apply]
    congr 1
    omega
  unfold operandsAt
  rw [List.range_succ_eq_map, List.mapM_cons, List.mapM_map, hshift]
  rfl

theorem operandsAt_wordBytes (args : List UInt16)
    (h : code.toList = before ++ (wordBytes args ++ rest)) :
    operandsAt code before.length args.length = .ok args := by
  induction args generalizing before with
  | nil => rfl
  | cons v args ih =>
    rw [wordBytes_cons, List.cons_append, List.cons_append] at h
    have hnext : code.toList = (before ++ [(v >>> 8).toUInt8, v.toUInt8]) ++
        (wordBytes args ++ rest) := by simp [h]
    have htail : operandsAt code (before.length + 2) args.length = .ok args := by
      simpa using ih hnext
    rw [List.length_cons, operandsAt_succ, operandAt_pair h, Bytes.join2_be2]
    change (operandsAt code (before.length + 2) args.length).bind _ = _
    rw [htail]
    rfl

-- The first operand that is not wholly there is the one that is missed.
theorem operandsAt_short {n : Nat} (h : code.toList = before ++ rest) (hrest : rest.length < 2 * n) :
    operandsAt code before.length n =
      .error (.truncated "code" (before.length + 2 * (rest.length / 2))) := by
  induction n generalizing before rest with
  | zero => omega
  | succ n ih =>
    rw [operandsAt_succ]
    match rest with
    | [] =>
      rw [operandAt_short h (by simp)]
      rfl
    | [x] =>
      rw [operandAt_short h (by simp)]
      simp only [List.length_singleton, Nat.reduceDiv, Nat.mul_zero, Nat.add_zero]
      rfl
    | x :: y :: rest =>
      have hnext : code.toList = (before ++ [x, y]) ++ rest := by simp [h]
      have htail := ih hnext (by simp only [List.length_cons] at hrest; omega)
      have hat : (before ++ [x, y]).length + 2 * (rest.length / 2) =
          before.length + 2 * ((x :: y :: rest).length / 2) := by
        simp only [List.length_append, List.length_cons, List.length_nil]
        omega
      rw [hat, List.length_append] at htail
      rw [operandAt_pair h]
      change (operandsAt code (before.length + [x, y].length) n).bind _ = _
      rw [htail]
      rfl

end Instr

namespace Line

open Instr (operandsAt operandAt argsAt decodeAt)

variable {code : Bytes} {before rest : List UInt8} {l : Line}

theorem argsAt_eq (hfits : l.Fits) (hswitch : l.op.shape ≠ .switch) (code : Bytes) (pos : Nat) :
    argsAt code pos l.op.shape = operandsAt code (pos + 1) l.args.length := by
  unfold Fits at hfits
  cases hshape : l.op.shape with
  | none =>
    rw [hshape] at hfits
    rw [show l.args.length = 0 from hfits]
    rfl
  | index | jump =>
    rw [hshape] at hfits
    rw [show l.args.length = 1 from hfits]
    rfl
  | typePair =>
    rw [hshape] at hfits
    rw [show l.args.length = 2 from hfits]
    rfl
  | switch => exact absurd hshape hswitch

theorem toNat_length (hfits : l.Fits) (hswitch : l.op.shape = .switch) :
    l.args.length.toUInt16.toNat = l.args.length := by
  simp only [Fits, hswitch] at hfits
  exact Nat.mod_eq_of_lt (Nat.lt_succ_of_le hfits)

theorem decodeAt_of_args (h : code.toList = before ++ l.op.byte :: rest)
    {x : Except FormatError (List UInt16)} (hargs : argsAt code before.length l.op.shape = x) :
    decodeAt code before.length =
      x.bind fun args => .ok ⟨before.length, l.op, args⟩ := by
  have hbyte : code[before.length]? = some l.op.byte := Instr.getElem?_behind h 0
  simp only [decodeAt, hbyte, Opcode.ofByte?_byte]
  rw [hargs]
  rfl

-- A line that is written at some place is read there.
theorem decodeAt_encoding (hfits : l.Fits) (h : code.toList = before ++ (l.encoding ++ rest)) :
    decodeAt code before.length = .ok ⟨before.length, l.op, l.args⟩ := by
  have hnext : code.toList = (before ++ [l.op.byte]) ++ (wordBytes l.words ++ rest) := by
    simp [h, encoding]
  have hpos : (before ++ [l.op.byte]).length = before.length + 1 := by simp
  refine decodeAt_of_args (x := .ok l.args) h ?_
  by_cases hswitch : l.op.shape = .switch
  · have hwords : l.words = l.args.length.toUInt16 :: l.args := if_pos hswitch
    rw [hwords, wordBytes_cons] at hnext
    have hcount := Instr.operandAt_pair hnext
    have hbehind : code.toList = (before ++ [l.op.byte, (l.args.length.toUInt16 >>> 8).toUInt8,
        l.args.length.toUInt16.toUInt8]) ++ (wordBytes l.args ++ rest) := by simp [hnext]
    have hargs := Instr.operandsAt_wordBytes l.args hbehind
    rw [Bytes.join2_be2, hpos] at hcount
    rw [List.length_append] at hargs
    rw [hswitch]
    change (operandAt code (before.length + 1)).bind _ = _
    rw [hcount]
    change operandsAt code (before.length + 3) l.args.length.toUInt16.toNat = _
    rw [toNat_length hfits hswitch]
    exact hargs
  · have hwords : l.words = l.args := if_neg hswitch
    rw [hwords] at hnext
    rw [argsAt_eq hfits hswitch, ← hpos]
    exact Instr.operandsAt_wordBytes l.args hnext

-- A line that is cut behind some of its bytes.
def IsCut (cut : List UInt8) (l : Line) : Prop :=
  cut ≠ [] ∧ cut <+: l.encoding ∧ cut ≠ l.encoding

-- There the first word that is not whole is missed.
theorem decodeAt_cut {cut : List UInt8} (hfits : l.Fits) (hcut : IsCut cut l)
    (h : code.toList = before ++ cut) :
    decodeAt code before.length =
      .error (.truncated "code" (before.length + 1 + 2 * ((cut.length - 1) / 2))) := by
  obtain ⟨hsome, ⟨more, hmore⟩, hpart⟩ := hcut
  obtain ⟨b, cut, rfl⟩ := List.exists_cons_of_ne_nil hsome
  rw [encoding, List.cons_append, List.cons.injEq] at hmore
  obtain ⟨rfl, hmore⟩ := hmore
  have hshort : cut.length < 2 * l.words.length := by
    have hlength := congrArg List.length hmore
    rw [List.length_append, length_wordBytes] at hlength
    cases more with
    | nil =>
      rw [List.append_nil] at hmore
      exact absurd (by rw [encoding, hmore]) hpart
    | cons y more =>
      rw [List.length_cons] at hlength
      omega
  have hnext : code.toList = (before ++ [l.op.byte]) ++ cut := by simp [h]
  have hpos : (before ++ [l.op.byte]).length = before.length + 1 := by simp
  refine decodeAt_of_args (x := .error _) h ?_
  rw [List.length_cons, Nat.add_sub_cancel]
  by_cases hswitch : l.op.shape = .switch
  · have hwords : l.words = l.args.length.toUInt16 :: l.args := if_pos hswitch
    rw [hswitch]
    change (operandAt code (before.length + 1)).bind _ = _
    match cut with
    | [] =>
      rw [← hpos, Instr.operandAt_short hnext (by simp)]
      rfl
    | [x] =>
      rw [← hpos, Instr.operandAt_short hnext (by simp)]
      simp only [List.length_singleton, Nat.reduceDiv, Nat.mul_zero, Nat.add_zero]
      rfl
    | x :: y :: cut =>
      rw [hwords, wordBytes_cons, List.cons_append, List.cons_append, List.cons.injEq,
        List.cons.injEq] at hmore
      obtain ⟨rfl, rfl, hmore⟩ := hmore
      have hbehind : code.toList = (before ++ [l.op.byte, (l.args.length.toUInt16 >>> 8).toUInt8,
          l.args.length.toUInt16.toUInt8]) ++ cut := by simp [h]
      have hargs := Instr.operandsAt_short (n := l.args.length) hbehind
        (by rw [hwords] at hshort; simp only [List.length_cons] at hshort; omega)
      rw [← hpos, Instr.operandAt_pair hnext, Bytes.join2_be2, hpos]
      change operandsAt code (before.length + 3) l.args.length.toUInt16.toNat = _
      rw [toNat_length hfits hswitch]
      rw [List.length_append] at hargs
      refine hargs.trans ?_
      congr 2
      simp only [List.length_cons, List.length_nil]
      omega
  · have hwords : l.words = l.args := if_neg hswitch
    rw [argsAt_eq hfits hswitch, ← hpos]
    exact Instr.operandsAt_short hnext (by rw [hwords] at hshort; exact hshort)

-- Some bytes are words, and others behind them.
theorem exists_wordBytes (n : Nat) (bytes : List UInt8) (h : 2 * n ≤ bytes.length) :
    ∃ words more, words.length = n ∧ bytes = wordBytes words ++ more := by
  induction n generalizing bytes with
  | zero => exact ⟨[], bytes, rfl, rfl⟩
  | succ n ih =>
    match bytes with
    | [] | [_] =>
      simp at h
      try omega
    | x :: y :: bytes =>
      simp only [List.length_cons] at h
      obtain ⟨words, more, rfl, rfl⟩ := ih bytes (by omega)
      obtain ⟨hx, hy⟩ := Bytes.be2_join2 x y
      exact ⟨Bytes.join2 x y :: words, more, rfl, by simp [hx, hy]⟩

-- Fewer bytes than some words have are the start of such words.
theorem exists_wordBytes_of_lt {n : Nat} {bytes : List UInt8} (h : bytes.length < 2 * n) :
    ∃ words more, words.length = n ∧ wordBytes words = bytes ++ more ∧ more ≠ [] := by
  obtain ⟨words, more, hn, hbytes⟩ := exists_wordBytes n
    (bytes ++ List.replicate (2 * n - bytes.length) 0) (by simp; omega)
  have hmore : more = [] := by
    have hlength := congrArg List.length hbytes
    simp only [List.length_append, List.length_replicate, length_wordBytes, hn] at hlength
    exact List.eq_nil_of_length_eq_zero (by omega)
  subst hmore
  refine ⟨words, _, hn, by simpa using hbytes.symm, ?_⟩
  simp
  omega

-- The first word that is not whole decides where a line is cut.
theorem isCut_of_words {cut : List UInt8} (more : List UInt8)
    (h : wordBytes l.words = cut ++ more) (hmore : more ≠ []) : IsCut (l.op.byte :: cut) l := by
  refine ⟨List.cons_ne_nil _ _, ⟨more, by rw [encoding, h]; rfl⟩, ?_⟩
  rw [encoding, h]
  simpa using hmore

-- Some bytes that begin with an opcode are a line and what is behind it, or a line that is cut.
theorem exists_line_or_cut (op : Opcode) (bytes : List UInt8) :
    (∃ (l : Line) (more : List UInt8), l.Fits ∧ op.byte :: bytes = l.encoding ++ more) ∨
      ∃ l : Line, l.Fits ∧ IsCut (op.byte :: bytes) l := by
  by_cases hswitch : op.shape = .switch
  · have hwords (args : List UInt16) : Line.words ⟨op, args⟩ = args.length.toUInt16 :: args :=
      if_pos hswitch
    by_cases hone : bytes.length < 2
    · obtain ⟨words, more, hlength, hbytes, hmore⟩ := exists_wordBytes_of_lt (n := 1) hone
      obtain ⟨count, rfl⟩ := List.length_eq_one_iff.mp hlength
      -- The number of targets is one that begins as the bytes do.
      refine .inr ⟨⟨op, List.replicate count.toNat 0⟩, ?_, isCut_of_words (l := ⟨op, _⟩)
        (more ++ wordBytes (List.replicate count.toNat 0)) ?_ ?_⟩
      · have hlt := count.toNat_lt
        simp only [Fits, hswitch, List.length_replicate]
        omega
      · rw [hwords, List.length_replicate, show count.toNat.toUInt16 = count by simp,
          ← List.append_assoc, ← hbytes]
        rfl
      · simp [hmore]
    · obtain ⟨words, more, hlength, rfl⟩ := exists_wordBytes 1 bytes (by omega)
      obtain ⟨count, rfl⟩ := List.length_eq_one_iff.mp hlength
      have hlt := count.toNat_lt
      by_cases hmore : more.length < 2 * count.toNat
      · obtain ⟨args, rest, hcount, hargs, hrest⟩ := exists_wordBytes_of_lt hmore
        refine .inr ⟨⟨op, args⟩, by simp only [Fits, hswitch]; omega,
          isCut_of_words (l := ⟨op, args⟩) rest ?_ hrest⟩
        rw [hwords, hcount, show count.toNat.toUInt16 = count by simp, List.append_assoc, ← hargs]
        rfl
      · obtain ⟨args, rest, hcount, rfl⟩ := exists_wordBytes count.toNat more
          (by omega)
        refine .inl ⟨⟨op, args⟩, rest, by simp only [Fits, hswitch]; omega, ?_⟩
        rw [encoding, hwords, hcount, show count.toNat.toUInt16 = count by simp]
        simp
  · have hwords (args : List UInt16) : Line.words ⟨op, args⟩ = args := if_neg hswitch
    obtain ⟨n, hfits⟩ : ∃ n, ∀ args : List UInt16, args.length = n → Line.Fits ⟨op, args⟩ := by
      simp only [Fits]
      cases hshape : op.shape with
      | none => exact ⟨0, fun _ h => h⟩
      | index | jump => exact ⟨1, fun _ h => h⟩
      | typePair => exact ⟨2, fun _ h => h⟩
      | switch => exact absurd hshape hswitch
    by_cases hlt : bytes.length < 2 * n
    · obtain ⟨args, rest, hlength, hargs, hrest⟩ := exists_wordBytes_of_lt hlt
      exact .inr ⟨⟨op, args⟩, hfits args hlength,
        isCut_of_words (l := ⟨op, args⟩) rest (by rw [hwords, hargs]) hrest⟩
    · obtain ⟨args, rest, hlength, rfl⟩ := exists_wordBytes n bytes (by omega)
      exact .inl ⟨⟨op, args⟩, rest, hfits args hlength, by simp [encoding, hwords]⟩

-- How bytes that are read as lines come to their end.
inductive Ends : List UInt8 → Prop where
  | whole : Ends []
  | cut {bytes : List UInt8} {l : Line} (hfits : l.Fits) (h : IsCut bytes l) : Ends bytes
  | unassigned {b : UInt8} {bytes : List UInt8} (h : Opcode.ofByte? b = none) : Ends (b :: bytes)

-- All bytes are lines and such an end.
theorem exists_lines (bytes : List UInt8) :
    ∃ lines rest, (∀ l ∈ lines, l.Fits) ∧ bytes = encodings lines ++ rest ∧ Ends rest := by
  induction hn : bytes.length using Nat.strong_induction_on generalizing bytes with
  | _ n ih =>
    cases bytes with
    | nil => exact ⟨[], [], by simp, rfl, .whole⟩
    | cons b bytes =>
      cases hop : Opcode.ofByte? b with
      | none => exact ⟨[], b :: bytes, by simp, rfl, .unassigned hop⟩
      | some op =>
        rw [Opcode.ofByte?_eq_some_iff] at hop
        subst hop
        obtain ⟨l, more, hfits, hmore⟩ | ⟨l, hfits, hcut⟩ := exists_line_or_cut op bytes
        · have hlt : more.length < n := by
            rw [← hn, hmore, List.length_append, length_encoding]
            omega
          obtain ⟨lines, rest, hall, rfl, hend⟩ := ih _ hlt more rfl
          refine ⟨l :: lines, rest, ?_, by simp [hmore], hend⟩
          simpa using ⟨hfits, hall⟩
        · exact ⟨[], op.byte :: bytes, by simp, rfl, .cut hfits hcut⟩

-- Decoding reads the lines one after the other.
theorem decodeRange_encodings {lines : List Line} (hall : ∀ l ∈ lines, l.Fits)
    (h : code.toList = before ++ (encodings lines ++ rest)) :
    Instr.decodeRange code before.length code.size =
      ⟨placed before.length lines ++
        (Instr.decodeRange code (before.length + (encodings lines).length) code.size).instrs,
        (Instr.decodeRange code (before.length + (encodings lines).length) code.size).fault⟩ := by
  induction lines generalizing before with
  | nil => rfl
  | cons l lines ih =>
    obtain ⟨hfits, hrest⟩ := List.forall_mem_cons.mp hall
    rw [encodings_cons, List.append_assoc] at h
    have hi := decodeAt_encoding hfits h
    have hlt : before.length < code.size := by
      rw [← Array.length_toList, h]
      simp [length_encoding]
    have hbehind : code.toList = (before ++ l.encoding) ++ (encodings lines ++ rest) := by simp [h]
    have hnext := ih hrest hbehind
    rw [List.length_append] at hnext
    rw [Instr.decodeRange_step hlt hi, size_eq hfits, hnext, encodings_cons, List.length_append,
      Nat.add_assoc]
    rfl

theorem disassemble_encodings {lines : List Line} (hall : ∀ l ∈ lines, l.Fits)
    (h : code.toList = encodings lines) : Instr.disassemble code = .ok (placed 0 lines) := by
  have hcode : code.toList = [] ++ (encodings lines ++ []) := by simp [h]
  have hrange := decodeRange_encodings hall hcode
  have hsize : code.size = (encodings lines).length := by rw [← Array.length_toList, h]
  have hend : Instr.decodeRange code code.size code.size = ⟨[], none⟩ := by
    rw [Instr.decodeRange, Instr.decodeAfter, if_neg (Nat.lt_irrefl _)]
  simp only [List.length_nil, Nat.zero_add, ← hsize, hend, List.append_nil] at hrange
  rw [Instr.disassemble, hrange]

-- What is wrong behind the last line is what decoding gives.
theorem disassemble_fault {lines : List Line} {e : FormatError} (hall : ∀ l ∈ lines, l.Fits)
    (h : code.toList = encodings lines ++ rest) (hrest : rest ≠ [])
    (he : Instr.decodeAt code (encodings lines).length = .error e) :
    Instr.disassemble code = .error e := by
  have hcode : code.toList = [] ++ (encodings lines ++ rest) := h
  have hrange := decodeRange_encodings hall hcode
  have hlt : (encodings lines).length < code.size := by
    rw [← Array.length_toList, h, List.length_append]
    have := List.length_pos_iff.mpr hrest
    omega
  obtain ⟨fault, hfault, hsame⟩ : ∃ fault,
      (Instr.decodeRange code (encodings lines).length code.size).fault = some fault ∧
        fault.error = e := by
    rw [Instr.decodeRange, Instr.decodeAfter, if_pos hlt, he]
    exact ⟨_, rfl, rfl⟩
  simp only [List.length_nil, Nat.zero_add, hfault] at hrange
  rw [Instr.disassemble, hrange]
  exact congrArg _ hsame

-- Whatever the bytes are, decoding gives what their end asks for.
theorem disassemble_cut {lines : List Line} (hall : ∀ l ∈ lines, l.Fits)
    (h : code.toList = encodings lines ++ rest) (hfits : l.Fits) (hcut : IsCut rest l) :
    Instr.disassemble code =
      .error (.truncated "code" ((encodings lines).length + 1 + 2 * ((rest.length - 1) / 2))) :=
  disassemble_fault hall h hcut.1 (decodeAt_cut hfits hcut h)

theorem disassemble_unassigned {lines : List Line} {b : UInt8} (hall : ∀ l ∈ lines, l.Fits)
    (h : code.toList = encodings lines ++ b :: rest) (hb : Opcode.ofByte? b = none) :
    Instr.disassemble code = .error (.unknownOpcode b) := by
  refine disassemble_fault hall h (List.cons_ne_nil _ _) ?_
  have hbyte : code[(encodings lines).length]? = some b := Instr.getElem?_behind h 0
  simp only [Instr.decodeAt, hbyte, hb]

-- What is decoded without a fault is all of the code.
theorem eq_of_disassemble {instrs : List Instr} (h : Instr.disassemble code = .ok instrs) :
    ∃ lines, (∀ l ∈ lines, l.Fits) ∧ instrs = placed 0 lines ∧ code.toList = encodings lines := by
  obtain ⟨lines, rest, hall, hcode, hend⟩ := exists_lines code.toList
  cases hend with
  | whole =>
    rw [List.append_nil] at hcode
    rw [disassemble_encodings hall hcode] at h
    cases h
    exact ⟨lines, hall, rfl, hcode⟩
  | cut hfits hcut =>
    rw [disassemble_cut hall hcode hfits hcut] at h
    cases h
  | unassigned hb =>
    rw [disassemble_unassigned hall hcode hb] at h
    cases h

end Line

def Instr.line (i : Instr) : Line :=
  ⟨i.op, i.args⟩

theorem Line.map_line_placed (pos : Nat) (lines : List Line) :
    (placed pos lines).map Instr.line = lines := by
  induction lines generalizing pos with
  | nil => rfl
  | cons l lines ih => exact congrArg (l :: ·) (ih _)

namespace Line

-- The line with another operand.
def fill (l : Line) (k : Nat) (v : UInt16) : Line :=
  { l with args := l.args.set k v }

-- Where an operand stands in its line.
def offset (l : Line) (k : Nat) : Nat :=
  1 + 2 * (k + if l.op.shape = .switch then 1 else 0)

theorem fits_fill {l : Line} (h : l.Fits) (k : Nat) (v : UInt16) : (l.fill k v).Fits := by
  unfold Fits at h ⊢
  simpa [fill] using h

-- Another operand is two other bytes.
theorem encoding_fill {l : Line} {k : Nat} (hk : k < l.args.length) (v : UInt16) :
    ∃ before x y after, before.length = l.offset k ∧ l.encoding = before ++ x :: y :: after ∧
      (l.fill k v).encoding = before ++ (v >>> 8).toUInt8 :: v.toUInt8 :: after := by
  obtain ⟨first, last, hargs, hfirst, hset⟩ : ∃ first last, l.args = first ++ l.args[k] :: last ∧
      first.length = k ∧ l.args.set k v = first ++ v :: last := List.exists_of_set hk
  have hlength : (first ++ v :: last).length = l.args.length := by rw [← hset, List.length_set]
  by_cases hswitch : l.op.shape = .switch
  · have hwords : l.words = l.args.length.toUInt16 :: (first ++ l.args[k] :: last) := by
      rw [← hargs]
      exact if_pos hswitch
    have hfilled : (l.fill k v).words = l.args.length.toUInt16 :: (first ++ v :: last) := by
      rw [← hlength, ← hset]
      exact if_pos hswitch
    refine ⟨l.op.byte :: wordBytes (l.args.length.toUInt16 :: first),
      (l.args[k] >>> 8).toUInt8, l.args[k].toUInt8, wordBytes last, ?_,
      by rw [encoding, hwords]; simp, by rw [encoding, hfilled]; simp [fill]⟩
    simp [offset, hswitch, hfirst]
    omega
  · have hwords : l.words = first ++ l.args[k] :: last := by
      rw [← hargs]
      exact if_neg hswitch
    have hfilled : (l.fill k v).words = first ++ v :: last := by
      rw [← hset]
      exact if_neg hswitch
    refine ⟨l.op.byte :: wordBytes first,
      (l.args[k] >>> 8).toUInt8, l.args[k].toUInt8, wordBytes last, ?_,
      by rw [encoding, hwords]; simp, by rw [encoding, hfilled]; simp [fill]⟩
    simp [offset, hswitch, hfirst]
    omega

end Line

-- An operand that may be filled in later: where it stands, in which line, and as which operand.
structure Site where
  pos : Nat
  line : Nat
  operand : Nat

namespace Assembler

open Line (encodings placed)

-- What an assembler has written, and the sites that it has given out. Until its target is known, a
-- jump goes to the last position that there can be; so do the targets of a switch.
inductive Assembles : Assembler → List Line → List Site → Prop where
  | start : Assembles {} [] []
  | op {a : Assembler} {lines : List Line} {sites : List Site} {o : Opcode}
      (h : Assembles a lines sites) (ho : o.shape = .none) :
      Assembles (a.op o) (lines ++ [⟨o, []⟩]) sites
  | op1 {a : Assembler} {lines : List Line} {sites : List Site} {o : Opcode} {x : UInt16}
      (h : Assembles a lines sites) (ho : o.shape = .index ∨ o.shape = .jump) :
      Assembles (a.op1 o x) (lines ++ [⟨o, [x]⟩]) sites
  | op2 {a : Assembler} {lines : List Line} {sites : List Site} {o : Opcode} {x y : UInt16}
      (h : Assembles a lines sites) (ho : o.shape = .typePair) :
      Assembles (a.op2 o x y) (lines ++ [⟨o, [x, y]⟩]) sites
  | jump {a : Assembler} {lines : List Line} {sites : List Site} {o : Opcode}
      (h : Assembles a lines sites) (ho : o.shape = .jump) :
      Assembles (a.jump o).2 (lines ++ [⟨o, [0xFFFF]⟩])
        (⟨(a.jump o).1, lines.length, 0⟩ :: sites)
  | switch {a : Assembler} {lines : List Line} {sites : List Site}
      (h : Assembles a lines sites) (count : UInt16) :
      Assembles (a.switch count).2 (lines ++ [⟨.switch, List.replicate count.toNat 0xFFFF⟩])
        ((a.switch count).1.mapIdx (fun k pos => ⟨pos, lines.length, k⟩) ++ sites)
  | patch {a : Assembler} {lines : List Line} {sites : List Site} {site : Site}
      (h : Assembles a lines sites) (hsite : site ∈ sites) (target : UInt16) :
      Assembles (a.patch site.pos target)
        (lines.modify site.line fun l => l.fill site.operand target) sites

-- An operand of a line that is written, at its place.
def Open (lines : List Line) (site : Site) : Prop :=
  ∃ l, lines[site.line]? = some l ∧ site.operand < l.args.length ∧
    site.pos = (encodings (lines.take site.line)).length + l.offset site.operand

theorem Open.append {lines : List Line} {site : Site} (h : Open lines site) (more : List Line) :
    Open (lines ++ more) site := by
  obtain ⟨l, hl, hoperand, hpos⟩ := h
  have hlt : site.line < lines.length := (List.getElem?_eq_some_iff.mp hl).1
  refine ⟨l, by rw [List.getElem?_append_left hlt, hl], hoperand, ?_⟩
  rw [List.take_append_of_le_length (Nat.le_of_lt hlt), hpos]

-- A line that is filled takes as many bytes as before.
theorem length_encodings_modify (lines : List Line) (n k : Nat) (v : UInt16) :
    (encodings (lines.modify n fun l => l.fill k v)).length = (encodings lines).length := by
  induction lines generalizing n with
  | nil => cases n <;> rfl
  | cons l lines ih =>
    cases n with
    | zero =>
      have hwords : (l.fill k v).words.length = l.words.length := by
        unfold Line.words Line.fill
        split <;> simp
      simp [Line.length_encoding, hwords]
    | succ n => simp [ih]

-- So every operand stays at its place.
theorem Open.modify {lines : List Line} {site : Site} (h : Open lines site) (n k : Nat)
    (v : UInt16) : Open (lines.modify n fun l => l.fill k v) site := by
  obtain ⟨l, hl, hoperand, hpos⟩ := h
  have htake : (encodings ((lines.modify n fun l => l.fill k v).take site.line)).length =
      (encodings (lines.take site.line)).length := by
    rw [List.take_modify, length_encodings_modify]
  by_cases hn : n = site.line
  · refine ⟨l.fill k v, ?_, by simpa [Line.fill] using hoperand, ?_⟩
    · simp [hl, hn]
    · rw [htake, hpos]
      rfl
  · refine ⟨l, ?_, hoperand, by rw [htake, hpos]⟩
    simp [hl, hn]

theorem toList_set2 {code : Bytes} {before after : List UInt8} {x y : UInt8} (v : UInt16)
    (h : code.toList = before ++ x :: y :: after) :
    (code.set2 before.length v).toList = before ++ (v >>> 8).toUInt8 :: v.toUInt8 :: after := by
  simp [Bytes.set2, h]

-- The code is that of the lines, and each site is a place for an operand of one of them.
structure Written (a : Assembler) (lines : List Line) (sites : List Site) : Prop where
  code : a.code.toList = encodings lines
  fits : ∀ l ∈ lines, l.Fits
  sites : ∀ site ∈ sites, Open lines site

variable {a : Assembler} {lines : List Line} {sites : List Site}

theorem Written.append (h : Written a lines sites) {a' : Assembler} {l : Line} (more : List Site)
    (hcode : a'.code.toList = a.code.toList ++ l.encoding) (hfits : l.Fits)
    (hmore : ∀ site ∈ more, ∃ k < l.args.length,
      site = ⟨a.code.size + l.offset k, lines.length, k⟩) :
    Written a' (lines ++ [l]) (more ++ sites) := by
  refine ⟨?_, ?_, ?_⟩
  · rw [hcode, h.code]
    simp
  · simpa [or_imp, forall_and] using ⟨h.fits, hfits⟩
  · intro site hsite
    obtain hnew | hold := List.mem_append.mp hsite
    · obtain ⟨k, hk, rfl⟩ := hmore site hnew
      refine ⟨l, by simp, hk, ?_⟩
      simp [← h.code]
    · exact (h.sites site hold).append [l]

theorem Written.patch (h : Written a lines sites) {site : Site} (hsite : site ∈ sites)
    (target : UInt16) :
    Written (a.patch site.pos target)
      (lines.modify site.line fun l => l.fill site.operand target) sites := by
  obtain ⟨l, hl, hoperand, hpos⟩ := h.sites site hsite
  obtain ⟨before, l', after, hlines, hline, hmodify⟩ := List.exists_of_modify
    (fun l => l.fill site.operand target) (List.getElem?_eq_some_iff.mp hl).1
  have hsame : l' = l := by
    rw [hlines, ← hline] at hl
    simpa using hl
  subst hsame
  obtain ⟨first, x, y, last, hfirst, hl, hfilled⟩ := Line.encoding_fill hoperand target
  have hcode : a.code.toList =
      (encodings before ++ first) ++ x :: y :: (last ++ encodings after) := by
    rw [h.code, hlines]
    simp [hl]
  have hset := toList_set2 target hcode
  have htake : lines.take site.line = before := by
    rw [hlines, ← hline, List.take_left]
  rw [List.length_append, hfirst, ← htake, ← hpos] at hset
  refine ⟨?_, ?_, fun other hother => (h.sites other hother).modify _ _ _⟩
  · rw [hmodify]
    refine hset.trans ?_
    rw [htake]
    simp [hfilled]
  · have hfits := h.fits
    rw [hlines] at hfits
    rw [hmodify]
    simp only [List.mem_append, List.mem_cons, or_imp, forall_and, forall_eq] at hfits ⊢
    exact ⟨hfits.1, Line.fits_fill hfits.2.1 _ _, hfits.2.2⟩

theorem wordBytes_replicate (n : Nat) :
    wordBytes (List.replicate n 0xFFFF) = List.replicate (2 * n) 0xFF := by
  induction n with
  | zero => rfl
  | succ n ih =>
    rw [List.replicate_succ, wordBytes_cons, ih, Nat.mul_succ, List.replicate_succ,
      List.replicate_succ]
    rfl

-- Every way of assembling writes the lines.
theorem Assembles.written (h : Assembles a lines sites) : Written a lines sites := by
  induction h with
  | start => exact ⟨rfl, by simp, by simp⟩
  | @op a lines sites o _ ho ih =>
    have hwords : Line.words ⟨o, []⟩ = [] := if_neg (by simp [ho])
    refine ih.append [] ?_ (by simp [Line.Fits, ho]) (by simp)
    simp [Assembler.op, Bytes.put1, Line.encoding, hwords]
  | @op1 a lines sites o x _ ho ih =>
    have hwords : Line.words ⟨o, [x]⟩ = [x] := if_neg (by obtain ho | ho := ho <;> simp [ho])
    refine ih.append [] ?_ (by obtain ho | ho := ho <;> simp [Line.Fits, ho]) (by simp)
    simp [Assembler.op1, Bytes.put1, Bytes.put2, Bytes.be2, Line.encoding, hwords]
  | @op2 a lines sites o x y _ ho ih =>
    have hwords : Line.words ⟨o, [x, y]⟩ = [x, y] := if_neg (by simp [ho])
    refine ih.append [] ?_ (by simp [Line.Fits, ho]) (by simp)
    simp [Assembler.op2, Assembler.op1, Bytes.put1, Bytes.put2, Bytes.be2, Line.encoding, hwords]
  | @jump a lines sites o _ ho ih =>
    have hwords : Line.words ⟨o, [0xFFFF]⟩ = [0xFFFF] := if_neg (by simp [ho])
    refine ih.append [_] ?_ (by simp [Line.Fits, ho]) ?_
    · simp [Assembler.jump, Assembler.op1, Bytes.put1, Bytes.put2, Bytes.be2, Line.encoding, hwords]
    · simp [Assembler.jump, Line.offset, ho]
  | @switch a lines sites _ count ih =>
    have hcount := count.toNat_lt
    have hwords : Line.words ⟨.switch, List.replicate count.toNat 0xFFFF⟩ =
        count :: List.replicate count.toNat 0xFFFF := by
      simp [Line.words, Opcode.shape]
    refine ih.append _ ?_ (by simp [Line.Fits, Opcode.shape]; omega) ?_
    · simp [Assembler.switch, Assembler.op1, Bytes.put1, Bytes.put2, Bytes.be2, Line.encoding,
        hwords, wordBytes_replicate]
    · intro site hsite
      obtain ⟨k, hk, rfl⟩ := List.mem_mapIdx.mp hsite
      have hlt : k < count.toNat := by simpa [Assembler.switch] using hk
      refine ⟨k, by simpa using hlt, ?_⟩
      simp [Assembler.switch, Assembler.op1, Bytes.put1, Bytes.put2, Line.offset, Opcode.shape]
      omega
  | patch h hsite target ih => exact ih.patch hsite target

theorem modify_last (lines : List Line) (l : Line) (f : Line → Line) :
    (lines ++ [l]).modify lines.length f = lines ++ [f l] := by
  induction lines with
  | nil => rfl
  | cons l' lines ih => exact congrArg (l' :: ·) ih

-- The targets of a switch are filled in one after the other.
theorem Assembles.exists_filled {o : Opcode} {args : List UInt16}
    (h : Assembles a (lines ++ [⟨o, args⟩]) sites) (args' : List UInt16) (hlength : args'.length = args.length)
    (hsites : ∀ k < args.length, ∃ pos, ⟨pos, lines.length, k⟩ ∈ sites) :
    ∃ a', Assembles a' (lines ++ [⟨o, args'⟩]) sites := by
  suffices hpart : ∀ n ≤ args.length,
      ∃ a', Assembles a' (lines ++ [⟨o, args'.take n ++ args.drop n⟩]) sites by
    obtain ⟨a', ha'⟩ := hpart args.length (Nat.le_refl _)
    rw [← hlength, List.take_length, hlength, List.drop_length, List.append_nil] at ha'
    exact ⟨a', ha'⟩
  intro n
  induction n with
  | zero => exact fun _ => ⟨a, h⟩
  | succ n ih =>
    intro hn
    obtain ⟨a', ha'⟩ := ih (by omega)
    obtain ⟨pos, hpos⟩ := hsites n (by omega)
    have hn' : n < args'.length := by omega
    have hset : (args'.take n ++ args.drop n).set n args'[n] =
        args'.take (n + 1) ++ args.drop (n + 1) := by
      rw [List.drop_eq_getElem_cons hn, List.take_succ_eq_append_getElem hn',
        List.set_append_right _ _ (by simp), List.length_take, Nat.min_eq_left (Nat.le_of_lt hn'),
        Nat.sub_self, List.set_cons_zero, List.append_assoc]
      rfl
    have hpatch := ha'.patch hpos args'[n]
    rw [modify_last] at hpatch
    simp only [Line.fill, hset] at hpatch
    exact ⟨_, hpatch⟩

-- Every list of lines that fit can be assembled, the targets of jumps and switches last.
theorem exists_assembles (hall : ∀ l ∈ lines, l.Fits) : ∃ a sites, Assembles a lines sites := by
  induction lines using List.reverseRecOn with
  | nil => exact ⟨{}, [], .start⟩
  | append_singleton lines l ih =>
    obtain ⟨a, sites, h⟩ := ih fun l' hl' => hall l' (List.mem_append_left _ hl')
    obtain ⟨o, args⟩ := l
    have hfits := hall ⟨o, args⟩ (by simp)
    unfold Line.Fits at hfits
    cases hshape : o.shape with
    | none =>
      rw [hshape] at hfits
      cases List.eq_nil_of_length_eq_zero hfits
      exact ⟨_, _, h.op hshape⟩
    | index =>
      rw [hshape] at hfits
      obtain ⟨x, rfl⟩ := List.length_eq_one_iff.mp hfits
      exact ⟨_, _, h.op1 (.inl hshape)⟩
    | jump =>
      rw [hshape] at hfits
      obtain ⟨a', ha'⟩ := (h.jump hshape).exists_filled args hfits (by simp)
      exact ⟨a', _, ha'⟩
    | typePair =>
      rw [hshape] at hfits
      obtain ⟨x, y, rfl⟩ := List.length_eq_two.mp hfits
      exact ⟨_, _, h.op2 hshape⟩
    | switch =>
      rw [hshape] at hfits
      have ho : o = .switch := by cases o <;> first | rfl | cases hshape
      subst ho
      have hcount : args.length.toUInt16.toNat = args.length :=
        Nat.mod_eq_of_lt (Nat.lt_succ_of_le hfits)
      obtain ⟨a', ha'⟩ := (h.switch args.length.toUInt16).exists_filled args
        (by simp [hcount]) fun k hk => by
          have hk : k < args.length := by simpa [hcount] using hk
          exact ⟨_, List.mem_append_left _
            (List.mem_mapIdx.mpr ⟨k, by simpa [Assembler.switch, hcount] using hk, rfl⟩)⟩
      exact ⟨a', _, ha'⟩

-- Encoding and decoding undo each other. Lines that fit can be assembled, and however they are,
-- decoding gives them back, each where those before it end. What is decoded fits, and assembling it
-- gives the buffer. Every buffer is some lines and an end: with a whole end it is decoded; if a line
-- is cut, the first word that is not whole is missed, and if a byte is no opcode, that is said.
theorem encoding_decoding_inverse :
    (∀ lines : List Line, (∀ l ∈ lines, l.Fits) →
      (∃ a sites, Assembles a lines sites) ∧
      ∀ a sites, Assembles a lines sites → Instr.disassemble a.code = .ok (placed 0 lines)) ∧
    (∀ (code : Bytes) instrs, Instr.disassemble code = .ok instrs →
      (∀ i ∈ instrs, i.line.Fits) ∧ (∃ a sites, Assembles a (instrs.map Instr.line) sites) ∧
      ∀ a sites, Assembles a (instrs.map Instr.line) sites → a.code = code) ∧
    (∀ code : Bytes, ∃ lines rest, (∀ l ∈ lines, l.Fits) ∧
      code.toList = encodings lines ++ rest ∧ Line.Ends rest) ∧
    ∀ (code : Bytes) lines rest, (∀ l ∈ lines, l.Fits) → code.toList = encodings lines ++ rest →
      (rest = [] → Instr.disassemble code = .ok (placed 0 lines)) ∧
      (∀ l : Line, l.Fits → Line.IsCut rest l →
        Instr.disassemble code = .error (.truncated "code"
          ((encodings lines).length + 1 + 2 * ((rest.length - 1) / 2)))) ∧
      ∀ b more, rest = b :: more → Opcode.ofByte? b = none →
        Instr.disassemble code = .error (.unknownOpcode b) := by
  refine ⟨fun lines hall => ⟨exists_assembles hall, fun a sites h => ?_⟩, ?_,
    fun code => Line.exists_lines code.toList, ?_⟩
  · exact Line.disassemble_encodings hall h.written.code
  · intro code instrs h
    obtain ⟨lines, hall, rfl, hcode⟩ := Line.eq_of_disassemble h
    have hlines := Line.map_line_placed 0 lines
    refine ⟨fun i hi => hall _ (hlines ▸ List.mem_map_of_mem hi), ?_, ?_⟩
    · rw [hlines]
      exact exists_assembles hall
    · intro a sites ha
      rw [hlines] at ha
      exact Array.toList_inj.mp (ha.written.code.trans hcode.symm)
  · intro code lines rest hall hcode
    refine ⟨?_, fun l hfits hcut => Line.disassemble_cut hall hcode hfits hcut, ?_⟩
    · rintro rfl
      exact Line.disassemble_encodings hall (by rw [hcode, List.append_nil])
    · rintro b more rfl hb
      exact Line.disassemble_unassigned hall hcode hb

-- A switch with two targets, and the two ways in which code can end too early.
theorem encoding_decoding_inverse_switch :
    (∃ a sites, Assembles a [⟨.switch, [9, 10]⟩, ⟨.returnVoid, []⟩] sites ∧
      Instr.disassemble a.code = .ok [⟨0, .switch, [9, 10]⟩, ⟨7, .returnVoid, []⟩]) ∧
    Instr.disassemble #[42, 4, 0] = .error (.truncated "code" 2) ∧
    Instr.disassemble #[42, 17, 4] = .error (.unknownOpcode 17) := by
  obtain ⟨hassembled, -, -, hends⟩ := encoding_decoding_inverse
  obtain ⟨⟨a, sites, ha⟩, hsame⟩ :=
    hassembled [⟨.switch, [9, 10]⟩, ⟨.returnVoid, []⟩] (by decide)
  refine ⟨⟨a, sites, ha, hsame a sites ha⟩, ?_, ?_⟩
  · exact (hends #[42, 4, 0] [⟨.returnVoid, []⟩] [4, 0] (by decide) rfl).2.1 ⟨.loadInt, [0]⟩
      (by decide) ⟨by decide, ⟨[0], rfl⟩, by decide⟩
  · exact (hends #[42, 17, 4] [⟨.returnVoid, []⟩] [17, 4] (by decide) rfl).2.2 17 [4] rfl rfl

end Assembler

end PodCompiler
