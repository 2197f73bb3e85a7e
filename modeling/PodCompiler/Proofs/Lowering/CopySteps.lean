import PodCompiler.Proofs.Lowering.Sites
import PodCompiler.Proofs.Lowering.UncheckedFinally

namespace PodCompiler.Lowering

open ClassFile.Op

-- A copy that is open: the instruction that runs the block, and the rest of the range that it is in.
structure OpenCopy where
  site : Instr
  pos : Nat
  stop : Nat

-- Where lowering is: the rest of a range, and the copies that are open, the innermost first.
structure Place where
  pos : Nat
  stop : Nat
  outer : List OpenCopy

namespace Place

def start (code : Bytes) : Place := ⟨0, code.size, []⟩

-- Goes into the block that an instruction runs.
def enter (f : Frame) (code : Bytes) (p : Place) (i : Instr) : BodyM Place := do
  if p.outer.length < maxInlineDepth then
    let stop ← ofExcept (finallyEnd f.name code i)
    BodyM.emit [.enter]
    return ⟨i.arg.toNat + 1, stop, ⟨i, p.pos + i.size, p.stop⟩ :: p.outer⟩
  else throw (.internal (.finallyTooDeep f.name))

-- Goes on behind an instruction, and behind the jump that it takes along.
def pass (f : Frame) (code : Bytes) (p : Place) (i : Instr) : BodyM Place := do
  let rest := Instr.decodeRange code (p.pos + i.size) p.stop
  let fused ← emitInstr f (noCopy f) i (.ofRest rest.instrs rest.fault)
  let jump := if fused then (rest.instrs.head?.map Instr.size).getD 0 else 0
  return { p with pos := p.pos + i.size + jump }

-- Goes back to where the innermost copy is run, if there is one.
def leave (p : Place) : BodyM (Option Place) := do
  match p.outer with
  | [] => return none
  | copy :: outer =>
    BodyM.emit [.leave copy.site.pos copy.site.arg.toNat p.stop]
    return some ⟨copy.pos, copy.stop, outer⟩

-- One step. There is none at the end of the outermost range.
def advance (f : Frame) (code : Bytes) (p : Place) : BodyM (Option Place) := do
  if p.pos < p.stop then
    match Instr.decodeAt code p.pos with
    | .error e => throw (faultError f ⟨p.pos, code[p.pos]?.bind Opcode.ofByte?, e⟩)
    | .ok i =>
      BodyM.emit [.mark i.pos]
      if i.op = .jumpFinally ∧ (← read).config.finallyStrategy = .inline then
        return some (← p.enter f code i)
      else return some (← p.pass f code i)
  else p.leave

-- As many steps, or all that there are.
def advances (f : Frame) (code : Bytes) : Nat → Place → BodyM (Option Place)
  | 0, p => return some p
  | n + 1, p => do
    match ← p.advance f code with
    | none => return none
    | some q => advances f code n q

-- What is left to do in a range of which `rest` bytes are left, `depth` copies deep.
def weight (size depth rest : Nat) : Nat :=
  (rest + 1) * (size + 2) ^ (maxInlineDepth - depth)

-- What is left to do in the ranges around copies.
def outerWork (size : Nat) : List OpenCopy → Nat
  | [] => 0
  | copy :: outer => weight size outer.length (copy.stop - copy.pos) + outerWork size outer

def work (size : Nat) (p : Place) : Nat :=
  weight size p.outer.length (p.stop - p.pos) + outerWork size p.outer

-- A place that lowering may come to in code of some size.
structure Within (size : Nat) (p : Place) : Prop where
  depth : p.outer.length ≤ maxInlineDepth
  stop : p.stop ≤ size
  outer : ∀ copy ∈ p.outer, copy.stop ≤ size

-- What lowering does behind a range that ends at `stop`.
def behind (f : Frame) (code : Bytes) : Nat → List OpenCopy → BodyM Unit
  | _, [] => pure ()
  | stop, copy :: outer => do
    BodyM.emit [.leave copy.site.pos copy.site.arg.toNat stop]
    emitRange f code (maxInlineDepth - outer.length) copy.pos copy.stop
    behind f code copy.stop outer

-- What lowering does from a place on.
def finish (f : Frame) (code : Bytes) (p : Place) : BodyM Unit := do
  emitRange f code (maxInlineDepth - p.outer.length) p.pos p.stop
  behind f code p.stop p.outer

-- From the place that a step comes to.
def finishAfter (f : Frame) (code : Bytes) : Option Place → BodyM Unit
  | none => pure ()
  | some q => q.finish f code

end Place

section Equations

variable {f : Frame} {code : Bytes} {copy : Instr → BodyM Unit} {fault : Option DecodeFault}
  {i : Instr} {rest : List Instr} {next : Following} {env : ClassEnv} {s : BodyState}
  {c : OpenClass} {d pos stop : Nat}

-- How copies are lowered that may be `d` deep.
def copyAt (f : Frame) (code : Bytes) : Nat → Instr → BodyM Unit
  | 0 => noCopy f
  | d + 1 => emitCopy f code (emitRange f code d)

theorem emitRange_eq (f : Frame) (code : Bytes) (d pos stop : Nat) :
    emitRange f code d pos stop =
      emitInstrs f (copyAt f code d) (Instr.decodeRange code pos stop).fault
        (Instr.decodeRange code pos stop).instrs := by
  cases d <;> rfl

theorem emitInstrs_eq : emitInstrs f copy fault (i :: rest) = (do
    BodyM.emit [.mark i.pos]
    let fused ← emitInstr f copy i (.ofRest rest fault)
    emitInstrs f copy fault (if fused then rest.tail else rest)) := by
  cases rest with
  | nil =>
    rw [emitInstrs]
    simp only [List.tail_nil, ite_self, emitInstrs]
  | cons j rest =>
    rw [emitInstrs]
    congr 1
    funext _
    congr 1
    funext fused
    cases fused <;> rfl

theorem decodeRange_of_le (h : stop ≤ pos) : Instr.decodeRange code pos stop = ⟨[], none⟩ := by
  rw [Instr.decodeRange, Instr.decodeAfter, if_neg (by omega)]

theorem decodeRange_of_error {e : Pod.FormatError} (h : pos < stop)
    (he : Instr.decodeAt code pos = .error e) : Instr.decodeRange code pos stop =
      ⟨[], some ⟨pos, code[pos]?.bind Opcode.ofByte?, e⟩⟩ := by
  rw [Instr.decodeRange, Instr.decodeAfter, if_pos h, he]

-- Decoding goes on behind the first instruction, if there is one.
theorem decodeRange_tail (code : Bytes) (pos stop : Nat) :
    Instr.decodeRange code
        (pos + ((Instr.decodeRange code pos stop).instrs.head?.map Instr.size).getD 0) stop =
      ⟨(Instr.decodeRange code pos stop).instrs.tail, (Instr.decodeRange code pos stop).fault⟩ := by
  by_cases hlt : pos < stop
  · cases hi : Instr.decodeAt code pos with
    | error e =>
      rw [decodeRange_of_error hlt hi]
      exact decodeRange_of_error hlt hi
    | ok i =>
      rw [Instr.decodeRange_step hlt hi]
      rfl
  · rw [decodeRange_of_le (Nat.le_of_not_lt hlt)]
    exact decodeRange_of_le (Nat.le_of_not_lt hlt)

-- An instruction that runs no copy is lowered without looking at how copies are.
theorem emitInstr_of_not_copy
    (h : ¬(i.op = .jumpFinally ∧ env.config.finallyStrategy = .inline)) :
    emitInstr f copy i next s env c = emitInstr f (noCopy f) i next s env c := by
  cases hstrategy : env.config.finallyStrategy with
  | subroutine => exact emitInstr_of_subroutine hstrategy
  | inline =>
    have hop : i.op ≠ .jumpFinally := fun hop => h ⟨hop, hstrategy⟩
    unfold emitInstr
    cases hi : i.op with
    | jumpFinally => exact absurd hi hop
    | _ => rfl

-- One that does is lowered to it.
theorem emitInstr_of_copy (hop : i.op = .jumpFinally)
    (hinline : env.config.finallyStrategy = .inline) :
    emitInstr f copy i next s env c = (copy i >>= fun _ => pure false : BodyM Bool) s env c := by
  have hread : (read : BodyM ClassEnv) s env c = .ok (env, s) c := rfl
  unfold emitInstr
  rw [hop]
  simp only
  unfold emitJumpFinally
  rw [BodyM.run_bind, BodyM.run_bind, BodyM.run_bind, hread]
  simp only
  rw [hinline]

end Equations

namespace Place

variable {f : Frame} {code : Bytes} {env : ClassEnv} {p : Place} {i : Instr}

-- Behind an instruction that runs no copy the rest of its range is lowered.
theorem pass_finish (f : Frame) (code : Bytes) (p : Place) (i : Instr) :
    (p.pass f code i >>= fun q => q.finish f code) = (do
      let rest := Instr.decodeRange code (p.pos + i.size) p.stop
      let fused ← emitInstr f (noCopy f) i (.ofRest rest.instrs rest.fault)
      emitInstrs f (copyAt f code (maxInlineDepth - p.outer.length)) rest.fault
        (if fused then rest.instrs.tail else rest.instrs)
      behind f code p.stop p.outer) := by
  unfold pass finish
  simp only [bind_assoc, pure_bind]
  congr 1
  funext fused
  cases fused with
  | false => rw [emitRange_eq]; rfl
  | true =>
    rw [emitRange_eq]
    simp only [if_true]
    rw [decodeRange_tail]

-- Behind one that does, the block is, and then the rest of its range.
theorem enter_finish (f : Frame) (code : Bytes) (hdepth : p.outer.length ≤ maxInlineDepth) :
    (p.enter f code i >>= fun q => q.finish f code) = (do
      copyAt f code (maxInlineDepth - p.outer.length) i
      emitRange f code (maxInlineDepth - p.outer.length) (p.pos + i.size) p.stop
      behind f code p.stop p.outer) := by
  unfold enter
  by_cases hlt : p.outer.length < maxInlineDepth
  · obtain ⟨d, hd⟩ : ∃ d, maxInlineDepth - p.outer.length = d + 1 :=
      ⟨maxInlineDepth - p.outer.length - 1, by omega⟩
    have hinner : maxInlineDepth - (p.outer.length + 1) = d := by omega
    rw [if_pos hlt, hd]
    simp only [finish, behind, copyAt, emitCopy, bind_assoc, pure_bind, List.length_cons, hinner, hd]
  · have hd : maxInlineDepth - p.outer.length = 0 := by omega
    rw [if_neg hlt, hd]
    rfl

-- A step does what lowering begins with.
theorem finish_eq (f : Frame) (code : Bytes) (hdepth : p.outer.length ≤ maxInlineDepth) :
    p.finish f code = p.advance f code >>= finishAfter f code := by
  unfold advance
  by_cases hlt : p.pos < p.stop
  · rw [if_pos hlt, finish, emitRange_eq]
    cases hi : Instr.decodeAt code p.pos with
    | error e =>
      rw [decodeRange_of_error hlt hi]
      rfl
    | ok i =>
      rw [Instr.decodeRange_step hlt hi, emitInstrs_eq]
      simp only [bind_assoc]
      congr 1
      funext _ s env c
      have hread : (read : BodyM ClassEnv) s env c = .ok (env, s) c := rfl
      rw [BodyM.run_bind read, hread]
      by_cases hcopy : i.op = .jumpFinally ∧ env.config.finallyStrategy = .inline
      · simp only [if_pos hcopy]
        rw [BodyM.run_bind, emitInstr_of_copy hcopy.1 hcopy.2, ← BodyM.run_bind]
        simp only [bind_assoc, pure_bind, Bool.false_eq_true, if_false, ← emitRange_eq]
        exact congrFun (congrFun (congrFun (enter_finish f code hdepth).symm s) env) c
      · simp only [if_neg hcopy]
        rw [BodyM.run_bind, emitInstr_of_not_copy hcopy, ← BodyM.run_bind]
        simp only [bind_assoc, pure_bind]
        exact congrFun (congrFun (congrFun (pass_finish f code p i).symm s) env) c
  · rw [if_neg hlt, finish, emitRange_eq, decodeRange_of_le (Nat.le_of_not_lt hlt)]
    unfold leave
    cases houter : p.outer with
    | nil => rfl
    | cons copy outer =>
      simp only [bind_assoc, pure_bind]
      rfl

-- Where a step goes: on in the range, into a block, or back to where a block is run.
inductive Next (f : Frame) (code : Bytes) (p : Place) : Place → Prop where
  | pass {i : Instr} {pos : Nat} (hlt : p.pos < p.stop) (hle : p.pos + i.size ≤ pos) :
      Next f code p { p with pos }
  | enter {i : Instr} {stop : Nat} (hlt : p.pos < p.stop)
      (hdepth : p.outer.length < maxInlineDepth) (hstop : finallyEnd f.name code i = .ok stop) :
      Next f code p ⟨i.arg.toNat + 1, stop, ⟨i, p.pos + i.size, p.stop⟩ :: p.outer⟩
  | leave {copy : OpenCopy} {outer : List OpenCopy} (houter : p.outer = copy :: outer) :
      Next f code p ⟨copy.pos, copy.stop, outer⟩

variable {s s' : BodyState} {c c' : OpenClass} {q : Place}

theorem next_of_enter {i : Instr} (hlt : p.pos < p.stop)
    (h : p.enter f code i s env c = .ok (q, s') c') : Next f code p q := by
  unfold enter at h
  split at h
  · rename_i hdepth
    obtain ⟨stop, s₁, c₁, hstop, h⟩ := BodyM.bind_eq_ok.mp h
    obtain ⟨_, s₂, c₂, -, h⟩ := BodyM.bind_eq_ok.mp h
    cases (BodyM.pure_eq_ok.mp h).1
    exact .enter hlt hdepth (BodyM.ofExcept_eq_ok.mp hstop).1
  · cases h

theorem next_of_pass {i : Instr} (hlt : p.pos < p.stop)
    (h : p.pass f code i s env c = .ok (q, s') c') : Next f code p q := by
  obtain ⟨fused, s₁, c₁, -, h⟩ := BodyM.bind_eq_ok.mp h
  cases (BodyM.pure_eq_ok.mp h).1
  exact .pass hlt (Nat.le_add_right _ _)

theorem next_of_leave (h : p.leave s env c = .ok (some q, s') c') : Next f code p q := by
  unfold leave at h
  cases houter : p.outer with
  | nil =>
    rw [houter] at h
    cases (BodyM.pure_eq_ok.mp h).1
  | cons copy outer =>
    rw [houter] at h
    obtain ⟨_, s₁, c₁, -, h⟩ := BodyM.bind_eq_ok.mp h
    cases (BodyM.pure_eq_ok.mp h).1
    exact .leave houter

theorem next_of_advance (h : p.advance f code s env c = .ok (some q, s') c') : Next f code p q := by
  unfold advance at h
  by_cases hlt : p.pos < p.stop
  · rw [if_pos hlt] at h
    cases hi : Instr.decodeAt code p.pos with
    | error e =>
      rw [hi] at h
      cases h
    | ok i =>
      rw [hi] at h
      obtain ⟨_, s₁, c₁, -, h⟩ := BodyM.bind_eq_ok.mp h
      obtain ⟨env', s₂, c₂, -, h⟩ := BodyM.bind_eq_ok.mp h
      split at h
      · obtain ⟨q', s₃, c₃, henter, h⟩ := BodyM.bind_eq_ok.mp h
        cases (BodyM.pure_eq_ok.mp h).1
        exact next_of_enter hlt henter
      · obtain ⟨q', s₃, c₃, hpass, h⟩ := BodyM.bind_eq_ok.mp h
        cases (BodyM.pure_eq_ok.mp h).1
        exact next_of_pass hlt hpass
  · rw [if_neg hlt] at h
    exact next_of_leave h

variable {size depth rest rest' : Nat}

theorem weight_pos : 0 < weight size depth rest :=
  Nat.mul_pos (Nat.succ_pos _) (Nat.pow_pos (Nat.succ_pos _))

theorem weight_lt (h : rest' < rest) : weight size depth rest' < weight size depth rest :=
  Nat.mul_lt_mul_of_pos_right (Nat.succ_lt_succ h) (Nat.pow_pos (Nat.succ_pos _))

-- A block that is run weighs less than the instruction that runs it.
theorem weight_add_lt {inner : Nat} (hdepth : depth < maxInlineDepth) (hinner : inner ≤ size)
    (h : rest' < rest) :
    weight size (depth + 1) inner + weight size depth rest' < weight size depth rest := by
  unfold weight
  obtain ⟨n, hn⟩ : ∃ n, maxInlineDepth - depth = n + 1 := ⟨maxInlineDepth - depth - 1, by omega⟩
  have hsucc : maxInlineDepth - (depth + 1) = n := by omega
  have hpos : 0 < (size + 2) ^ n := Nat.pow_pos (Nat.succ_pos _)
  rw [hn, hsucc, Nat.pow_succ, Nat.mul_comm ((size + 2) ^ n)]
  calc (inner + 1) * (size + 2) ^ n + (rest' + 1) * ((size + 2) * (size + 2) ^ n)
      < (size + 2) * (size + 2) ^ n + (rest' + 1) * ((size + 2) * (size + 2) ^ n) :=
        Nat.add_lt_add_right (Nat.mul_lt_mul_of_pos_right (by omega) hpos) _
    _ = (rest' + 2) * ((size + 2) * (size + 2) ^ n) := by ring
    _ ≤ (rest + 1) * ((size + 2) * (size + 2) ^ n) := Nat.mul_le_mul_right _ (by omega)

-- A step stays in the code, and leaves less to do.
theorem Next.work_lt (h : Next f code p q) (hp : p.Within code.size) :
    q.Within code.size ∧ q.work code.size < p.work code.size := by
  cases h with
  | @pass i pos hlt hle =>
    have hsize := i.size_pos
    have hweight : weight code.size p.outer.length (p.stop - pos) <
        weight code.size p.outer.length (p.stop - p.pos) := weight_lt (by omega)
    exact ⟨⟨hp.depth, hp.stop, hp.outer⟩, Nat.add_lt_add_right hweight _⟩
  | @enter i stop hlt hdepth hstop =>
    have hsize := i.size_pos
    obtain ⟨-, ⟨last, hlast, -⟩, -⟩ := blockEnd_of_finallyEnd hstop
    have hle := Instr.decodeAt_size_le hlast
    have hstop : stop ≤ code.size := by omega
    refine ⟨⟨hdepth, hstop, List.forall_mem_cons.mpr ⟨hp.stop, hp.outer⟩⟩, ?_⟩
    have hweight := weight_add_lt hdepth
      (show stop - (i.arg.toNat + 1) ≤ code.size by omega)
      (show p.stop - (p.pos + i.size) < p.stop - p.pos by omega)
    have hwork := Nat.add_lt_add_right hweight (outerWork code.size p.outer)
    rwa [Nat.add_assoc] at hwork
  | @leave copy outer houter =>
    have hdepth := hp.depth
    have houters := hp.outer
    rw [houter] at hdepth houters
    refine ⟨⟨Nat.le_of_succ_le hdepth, houters copy List.mem_cons_self,
      fun copy hcopy => houters copy (List.mem_cons_of_mem _ hcopy)⟩, ?_⟩
    unfold work
    rw [houter]
    exact Nat.lt_add_of_pos_left weight_pos

-- After as many steps as there is work, lowering is at its end.
theorem advances_eq {n : Nat} (hp : p.Within code.size) (hn : p.work code.size ≤ n) :
    advances f code n p = (p.finish f code >>= fun _ => pure none) := by
  induction n generalizing p with
  | zero => exact absurd hn (Nat.not_le.mpr (Nat.add_pos_left weight_pos _))
  | succ n ih =>
    funext s env c
    rw [advances, finish_eq f code hp.depth, bind_assoc, BodyM.run_bind, BodyM.run_bind]
    cases hadvance : p.advance f code s env c with
    | error e c₁ => rfl
    | ok r c₁ =>
      obtain ⟨q?, s₁⟩ := r
      cases q? with
      | none => rfl
      | some q =>
        obtain ⟨hq, hlt⟩ := (next_of_advance hadvance).work_lt hp
        exact congrFun (congrFun (congrFun (ih hq (by omega)) s₁) env) c₁

end Place

end PodCompiler.Lowering
