import PodCompiler.Proofs.Lowering.Backpatch
import PodCompiler.Proofs.Lowering.CopyCycles
import PodCompiler.Proofs.Lowering.DispatchOrder

namespace PodCompiler.Lowering

section Search

variable {code : Bytes} {pos depth : Nat} {i : Instr}

-- The search at an instruction.
theorem findFinallyEnd_of_decodeAt (hi : Instr.decodeAt code pos = .ok i) :
    Instr.findFinallyEnd code depth pos =
      match i.op, depth with
      | .finallyStart, d => Instr.findFinallyEnd code (d + 1) (pos + i.size)
      | .finallyEnd, 0 => .ok (some pos)
      | .finallyEnd, d + 1 => Instr.findFinallyEnd code d (pos + i.size)
      | _, d => Instr.findFinallyEnd code d (pos + i.size) := by
  have hsize := i.size_pos
  have hle := Instr.decodeAt_size_le hi
  have hstep := Instr.findFinallyEnd.eq_def code depth pos
  rw [if_pos (by omega), hi] at hstep
  exact hstep

-- It goes on behind the instruction, with one block more, with one less, or with as many.
theorem findFinallyEnd_start (hi : Instr.decodeAt code pos = .ok i) (hop : i.op = .finallyStart) :
    Instr.findFinallyEnd code depth pos = Instr.findFinallyEnd code (depth + 1) (pos + 1) := by
  rw [findFinallyEnd_of_decodeAt hi, hop, size_of_finally (.inl hop)]

theorem findFinallyEnd_zero (hi : Instr.decodeAt code pos = .ok i) (hop : i.op = .finallyEnd) :
    Instr.findFinallyEnd code 0 pos = .ok (some pos) := by
  rw [findFinallyEnd_of_decodeAt hi, hop]

theorem findFinallyEnd_succ (hi : Instr.decodeAt code pos = .ok i) (hop : i.op = .finallyEnd) :
    Instr.findFinallyEnd code (depth + 1) pos = Instr.findFinallyEnd code depth (pos + 1) := by
  rw [findFinallyEnd_of_decodeAt hi, hop, size_of_finally (.inr hop)]

theorem findFinallyEnd_of_ne (hi : Instr.decodeAt code pos = .ok i) (hstart : i.op ≠ .finallyStart)
    (hend : i.op ≠ .finallyEnd) :
    Instr.findFinallyEnd code depth pos = Instr.findFinallyEnd code depth (pos + i.size) := by
  rw [findFinallyEnd_of_decodeAt hi]
  split <;> simp_all

end Search

-- A block that starts at one position ends at the other: from the start the search comes there.
def BlockPair (code : Bytes) (start stop : Nat) : Prop :=
  (∃ j, Instr.decodeAt code start = .ok j ∧ j.op = .finallyStart) ∧
    Instr.findFinallyEnd code 0 (start + 1) = .ok (some stop)

-- An instruction that runs the block is lowered up to there.
theorem BlockPair.finallyEnd {code : Bytes} {start stop : Nat} (h : BlockPair code start stop)
    (method : String) {i : Instr} (hi : i.arg.toNat = start) :
    finallyEnd method code i = .ok stop := by
  obtain ⟨⟨j, hj, hop⟩, hend⟩ := h
  have hle := Instr.decodeAt_size_le hj
  have hsize := j.size_pos
  have hmin : min start code.size = start := by omega
  simp only [Lowering.finallyEnd, hi, hmin, hj, hop, if_true, hend]

-- The blocks that are begun in front of a position, the last one first. From each, the search comes
-- to the position with as many blocks open as were begun behind it.
def Begun (code : Bytes) (pos : Nat) (begun : List Nat) : Prop :=
  ∀ k start, begun[k]? = some start →
    (∃ j, Instr.decodeAt code start = .ok j ∧ j.op = .finallyStart) ∧
      Instr.findFinallyEnd code 0 (start + 1) = Instr.findFinallyEnd code k pos

namespace Begun

variable {code : Bytes} {pos b : Nat} {begun : List Nat} {i : Instr}

theorem nil : Begun code pos [] := by
  intro k b hk
  cases hk

theorem start (h : Begun code pos begun) (hi : Instr.decodeAt code pos = .ok i)
    (hop : i.op = .finallyStart) : Begun code (pos + 1) (pos :: begun) := by
  intro k b hk
  cases k with
  | zero =>
    cases hk
    exact ⟨⟨i, hi, hop⟩, rfl⟩
  | succ k =>
    obtain ⟨hstart, hsearch⟩ := h k b hk
    exact ⟨hstart, hsearch.trans (findFinallyEnd_start hi hop)⟩

-- The end of a block is that of the one that was begun last.
theorem finish (h : Begun code pos (b :: begun)) (hi : Instr.decodeAt code pos = .ok i)
    (hop : i.op = .finallyEnd) : BlockPair code b pos ∧ Begun code (pos + 1) begun := by
  constructor
  · obtain ⟨hstart, hsearch⟩ := h 0 b rfl
    exact ⟨hstart, hsearch.trans (findFinallyEnd_zero hi hop)⟩
  · intro k b' hk
    obtain ⟨hstart, hsearch⟩ := h (k + 1) b' hk
    exact ⟨hstart, hsearch.trans (findFinallyEnd_succ hi hop)⟩

theorem other (h : Begun code pos begun) (hi : Instr.decodeAt code pos = .ok i)
    (hstart : i.op ≠ .finallyStart) (hend : i.op ≠ .finallyEnd) :
    Begun code (pos + i.size) begun := by
  intro k b hk
  obtain ⟨hfirst, hsearch⟩ := h k b hk
  exact ⟨hfirst, hsearch.trans (findFinallyEnd_of_ne hi hstart hend)⟩

end Begun

-- The blocks that are begun where lowering is, copy by copy: in each copy the search comes from the
-- place to the end of the copied block.
inductive Stacked (code : Bytes) : Place → List Nat → Prop where
  | outermost {pos stop : Nat} {begun : List Nat} (h : Begun code pos begun) :
      Stacked code ⟨pos, stop, []⟩ begun
  | copy {pos stop : Nat} {copy : OpenCopy} {outer : List OpenCopy} {begun base : List Nat}
      (h : Begun code pos begun)
      (hstop : Instr.findFinallyEnd code begun.length pos = .ok (some stop))
      (houter : Stacked code ⟨copy.pos, copy.stop, outer⟩ base) :
      Stacked code ⟨pos, stop, copy :: outer⟩ (begun ++ base)

namespace Stacked

variable {code : Bytes} {p : Place} {i : Instr} {b : Nat} {pending : List Nat}

theorem start (h : Stacked code p pending) (hi : Instr.decodeAt code p.pos = .ok i)
    (hop : i.op = .finallyStart) :
    Stacked code { p with pos := p.pos + 1 } (p.pos :: pending) := by
  cases h with
  | outermost h => exact .outermost (h.start hi hop)
  | @copy pos stop copy outer begun base h hstop houter =>
    rw [findFinallyEnd_start hi hop] at hstop
    have hstart : Stacked code ⟨pos + 1, stop, copy :: outer⟩ (pos :: begun ++ base) :=
      .copy (h.start hi hop) hstop houter
    exact hstart

-- In front of the end of a copied block, one that ends was begun in the copy.
theorem finish (h : Stacked code p (b :: pending)) (hlt : p.pos < p.stop)
    (hi : Instr.decodeAt code p.pos = .ok i) (hop : i.op = .finallyEnd) :
    BlockPair code b p.pos ∧ Stacked code { p with pos := p.pos + 1 } pending := by
  generalize hstack : b :: pending = stack at h
  cases h with
  | outermost h =>
    subst hstack
    obtain ⟨hpair, hrest⟩ := h.finish hi hop
    exact ⟨hpair, .outermost hrest⟩
  | @copy pos stop copy outer begun base h hstop houter =>
    cases begun with
    | nil =>
      have hhere : Instr.findFinallyEnd code 0 pos = .ok (some pos) := findFinallyEnd_zero hi hop
      rw [List.length_nil, hhere] at hstop
      cases hstop
      exact absurd hlt (Nat.lt_irrefl _)
    | cons first begun =>
      obtain ⟨rfl, rfl⟩ := List.cons.inj hstack
      obtain ⟨hpair, hrest⟩ := h.finish hi hop
      rw [List.length_cons, findFinallyEnd_succ hi hop] at hstop
      exact ⟨hpair, .copy hrest hstop houter⟩

theorem other (h : Stacked code p pending) (hi : Instr.decodeAt code p.pos = .ok i)
    (hstart : i.op ≠ .finallyStart) (hend : i.op ≠ .finallyEnd) :
    Stacked code { p with pos := p.pos + i.size } pending := by
  cases h with
  | outermost h => exact .outermost (h.other hi hstart hend)
  | copy h hstop houter =>
    rw [findFinallyEnd_of_ne hi hstart hend] at hstop
    exact .copy (h.other hi hstart hend) hstop houter

-- A copy begins with none of its own.
theorem enter {method : String} {stop : Nat} (h : Stacked code p pending)
    (hi : Instr.decodeAt code p.pos = .ok i) (hop : i.op = .jumpFinally)
    (hstop : finallyEnd method code i = .ok stop) :
    Stacked code ⟨i.arg.toNat + 1, stop, ⟨i, p.pos + i.size, p.stop⟩ :: p.outer⟩ pending := by
  have hsite := h.other hi (by simp [hop]) (by simp [hop])
  have hcopy : Stacked code ⟨i.arg.toNat + 1, stop, ⟨i, p.pos + i.size, p.stop⟩ :: p.outer⟩
      ([] ++ pending) :=
    .copy .nil (finallyEnd_eq_ok hstop).2 hsite
  exact hcopy

-- At its end all that were begun in it have ended.
theorem leave {copy : OpenCopy} {outer : List OpenCopy} (h : Stacked code p pending)
    (hle : p.stop ≤ p.pos) (houter : p.outer = copy :: outer) :
    Stacked code ⟨copy.pos, copy.stop, outer⟩ pending := by
  cases h with
  | outermost => cases houter
  | @copy pos stop _ _ begun base h hstop hbase =>
    cases houter
    have hat := (blockEnd_of_findFinallyEnd hstop).le
    obtain rfl : pos = stop := Nat.le_antisymm hat hle
    obtain ⟨last, hlast, hop⟩ := (blockEnd_of_findFinallyEnd hstop).finallyEnd
    cases begun with
    | nil => exact hbase
    | cons b begun =>
      -- Else the search would go on behind the end.
      rw [List.length_cons, findFinallyEnd_succ hlast hop] at hstop
      have hbehind := (blockEnd_of_findFinallyEnd hstop).le
      omega

end Stacked

theorem decodeAt_of_decodeRange {code : Bytes} {pos stop : Nat} {j : Instr} {rest : List Instr}
    (h : (Instr.decodeRange code pos stop).instrs = j :: rest) : Instr.decodeAt code pos = .ok j := by
  by_cases hlt : pos < stop
  · cases hi : Instr.decodeAt code pos with
    | error e =>
      rw [decodeRange_of_error hlt hi] at h
      cases h
    | ok i =>
      rw [Instr.decodeRange_step hlt hi] at h
      cases h
      rfl
  · rw [decodeRange_of_le (Nat.le_of_not_lt hlt)] at h
    cases h

namespace Place

variable {f : Frame} {code : Bytes} {env : ClassEnv} {p q : Place} {s s' : BodyState}
  {c c' : OpenClass} {i : Instr}

-- What a step does that runs no copy: the items of an instruction, and where it goes on. A jump
-- that is taken along is a conditional one.
inductive Passes (env : ClassEnv) (f : Frame) (code : Bytes) (p : Place) (i : Instr)
    (s : BodyState) (c : OpenClass) (s' : BodyState) (c' : OpenClass) : Place → Prop where
  | one {next : Following} {its : List (Item UInt16)}
      (hi : Emits env f i next ⟨s.finallies, c⟩ false its ⟨s'.finallies, c'⟩)
      (hitems : s'.items = s.items ++ its.toArray) :
      Passes env f code p i s c s' c' { p with pos := p.pos + i.size }
  | fused {next : Following} {its : List (Item UInt16)} {j : Instr} {sense : Bool}
      (hi : Emits env f i next ⟨s.finallies, c⟩ true its ⟨s'.finallies, c'⟩)
      (hj : Instr.decodeAt code (p.pos + i.size) = .ok j)
      (hsense : Following.sense? j.op = some sense) :
      Passes env f code p i s c s' c' { p with pos := p.pos + i.size + j.size }

theorem passes_of_pass (h : p.pass f code i s env c = .ok (q, s') c') :
    Passes env f code p i s c s' c' q := by
  obtain ⟨fused, s₁, c₁, hrun, hpure⟩ := BodyM.bind_eq_ok.mp h
  obtain ⟨rfl, rfl, rfl⟩ := BodyM.pure_eq_ok.mp hpure
  obtain ⟨its, hitems, halone⟩ := (uniform_emitInstr f i (uniform_noCopy f) _).split hrun
  have hi : Emits env f i _ ⟨s.finallies, c⟩ fused its ⟨s'.finallies, c'⟩ := halone
  cases fused with
  | false => exact .one hi hitems
  | true =>
    cases hi.shape with
    | fused _ hnext _ _ _ =>
      obtain ⟨j, rest, hrest, -, -, hsense⟩ := ofRest_eq_jump hnext
      simp only [if_true, hrest, List.head?_cons, Option.map_some, Option.getD_some]
      exact .fused hi (decodeAt_of_decodeRange hrest) hsense

-- What a step does where blocks are copied.
inductive Moves (env : ClassEnv) (f : Frame) (code : Bytes) (p : Place) (s : BodyState)
    (c : OpenClass) (s' : BodyState) (c' : OpenClass) : Place → Prop where
  | pass {i : Instr} {q : Place} (hlt : p.pos < p.stop) (hi : Instr.decodeAt code p.pos = .ok i)
      (hop : i.op ≠ .jumpFinally)
      (hpass : Passes env f code p i { s with items := s.items ++ #[.mark i.pos] } c s' c' q) :
      Moves env f code p s c s' c' q
  | enter {i : Instr} {stop : Nat} (hi : Instr.decodeAt code p.pos = .ok i)
      (hop : i.op = .jumpFinally) (hstop : finallyEnd f.name code i = .ok stop)
      (hslots : s'.finallies = s.finallies) :
      Moves env f code p s c s' c'
        ⟨i.arg.toNat + 1, stop, ⟨i, p.pos + i.size, p.stop⟩ :: p.outer⟩
  | leave {copy : OpenCopy} {outer : List OpenCopy} (hle : p.stop ≤ p.pos)
      (houter : p.outer = copy :: outer) (hslots : s'.finallies = s.finallies) :
      Moves env f code p s c s' c' ⟨copy.pos, copy.stop, outer⟩

theorem moves_of_advance (hinline : env.config.finallyStrategy = .inline)
    (h : p.advance f code s env c = .ok (some q, s') c') : Moves env f code p s c s' c' q := by
  unfold advance at h
  by_cases hlt : p.pos < p.stop
  · rw [if_pos hlt] at h
    cases hi : Instr.decodeAt code p.pos with
    | error e =>
      rw [hi] at h
      cases h
    | ok i =>
      rw [hi] at h
      obtain ⟨_, s₁, c₁, hmark, hafter⟩ := BodyM.bind_eq_ok.mp h
      obtain ⟨rfl, rfl⟩ := emit_mark hmark
      obtain ⟨env', s₂, c₂, hread, hrun⟩ := BodyM.bind_eq_ok.mp hafter
      obtain ⟨rfl, rfl, rfl⟩ := BodyM.read_eq_ok.mp hread
      by_cases hop : i.op = .jumpFinally
      · rw [if_pos ⟨hop, hinline⟩] at hrun
        obtain ⟨q', s₃, c₃, henter, hpure⟩ := BodyM.bind_eq_ok.mp hrun
        obtain ⟨hq, rfl, rfl⟩ := BodyM.pure_eq_ok.mp hpure
        cases hq
        unfold enter at henter
        split at henter
        · obtain ⟨stop, s₄, c₄, hend, hopen⟩ := BodyM.bind_eq_ok.mp henter
          obtain ⟨hstop, rfl, rfl⟩ := BodyM.ofExcept_eq_ok.mp hend
          obtain ⟨_, s₅, c₅, hedge, hinside⟩ := BodyM.bind_eq_ok.mp hopen
          obtain ⟨rfl, rfl⟩ := emit_closed (fun _ => rfl) hedge
          obtain ⟨rfl, rfl, rfl⟩ := BodyM.pure_eq_ok.mp hinside
          exact .enter hi hop hstop rfl
        · cases henter
      · rw [if_neg (fun hcopy => hop hcopy.1)] at hrun
        obtain ⟨q', s₃, c₃, hpass, hpure⟩ := BodyM.bind_eq_ok.mp hrun
        obtain ⟨hq, rfl, rfl⟩ := BodyM.pure_eq_ok.mp hpure
        cases hq
        exact .pass hlt hi hop (passes_of_pass hpass)
  · rw [if_neg hlt] at h
    unfold leave at h
    cases houter : p.outer with
    | nil =>
      rw [houter] at h
      cases (BodyM.pure_eq_ok.mp h).1
    | cons copy outer =>
      rw [houter] at h
      obtain ⟨_, s₁, c₁, hedge, hpure⟩ := BodyM.bind_eq_ok.mp h
      obtain ⟨rfl, rfl⟩ := emit_closed (fun _ => rfl) hedge
      obtain ⟨hq, rfl, rfl⟩ := BodyM.pure_eq_ok.mp hpure
      cases hq
      exact .leave (Nat.le_of_not_lt hlt) houter rfl

-- What an instruction without a copy does to the blocks that are begun.
theorem Passes.stacked (h : Passes env f code p i s c s' c' q)
    (hinline : env.config.finallyStrategy = .inline) (hlt : p.pos < p.stop)
    (hi : Instr.decodeAt code p.pos = .ok i) (hop : i.op ≠ .jumpFinally)
    (hp : Stacked code p s.finallies.pending) : Stacked code q s'.finallies.pending := by
  cases h with
  | one hown _ =>
    by_cases hstart : i.op = .finallyStart
    · obtain ⟨-, hpending, -⟩ := hown.finallyStart hstart hinline
      have hsize := size_of_finally (.inl hstart)
      rw [hpending, hsize, Instr.decodeAt_pos hi]
      exact hp.start hi hstart
    by_cases hend : i.op = .finallyEnd
    · obtain ⟨-, -, first, slot, hpending, -⟩ := hown.finallyEnd hend hinline
      have hsize := size_of_finally (.inr hend)
      change s.finallies.pending = first :: s'.finallies.pending at hpending
      rw [hpending] at hp
      rw [hsize]
      exact (hp.finish hlt hi hend).2
    · obtain ⟨hslots, -⟩ := hown.steady hop hstart hend
      change s'.finallies = s.finallies at hslots
      rw [hslots]
      exact hp.other hi hstart hend
  | @fused next its j sense hown hj hsense =>
    -- Neither the comparison nor the jump begins or ends a block.
    have hcomparison := hown.isComparison
    have hstart : i.op ≠ .finallyStart := by
      intro h
      rw [h] at hcomparison
      cases hcomparison
    have hend : i.op ≠ .finallyEnd := by
      intro h
      rw [h] at hcomparison
      cases hcomparison
    obtain ⟨hslots, -⟩ := hown.steady hop hstart hend
    change s'.finallies = s.finallies at hslots
    rw [hslots]
    refine (hp.other hi hstart hend).other hj ?_ ?_ <;>
      · intro h
        rw [h] at hsense
        cases hsense

-- A step keeps the blocks that are begun paired with their ends.
theorem Moves.stacked (h : Moves env f code p s c s' c' q)
    (hinline : env.config.finallyStrategy = .inline) (hp : Stacked code p s.finallies.pending) :
    Stacked code q s'.finallies.pending := by
  cases h with
  | pass hlt hi hop hpass => exact hpass.stacked hinline hlt hi hop hp
  | enter hi hop hstop hslots =>
    rw [hslots]
    exact hp.enter hi hop hstop
  | leave hle houter hslots =>
    rw [hslots]
    exact hp.leave hle houter

-- So do all steps from the start.
theorem stacked_of_advances {n : Nat} (hinline : env.config.finallyStrategy = .inline)
    (h : advances f code n p s env c = .ok (some q, s') c')
    (hp : Stacked code p s.finallies.pending) : Stacked code q s'.finallies.pending := by
  induction n generalizing p s c with
  | zero =>
    obtain ⟨hq, rfl, rfl⟩ := BodyM.pure_eq_ok.mp h
    cases hq
    exact hp
  | succ n ih =>
    obtain ⟨next, s₁, c₁, hstep, hrest⟩ := BodyM.bind_eq_ok.mp h
    cases next with
    | none => cases (BodyM.pure_eq_ok.mp hrest).1
    | some p₁ => exact ih hrest ((moves_of_advance hinline hstep).stacked hinline hp)

-- Some steps and then others.
theorem advances_add (f : Frame) (code : Bytes) (m n : Nat) (p : Place) :
    advances f code (m + n) p = (do
      match ← advances f code m p with
      | none => return none
      | some q => advances f code n q) := by
  induction m generalizing p with
  | zero => simp [advances]
  | succ m ih =>
    rw [Nat.succ_add, advances, advances, bind_assoc]
    congr 1
    funext next
    cases next with
    | none => rfl
    | some q => exact ih q

-- Where lowering comes to its end, no step on the way fails.
theorem advance_of_advances {n m : Nat} (h : advances f code n p s env c = .ok (some q, s') c')
    {t : BodyState} {c₁ : OpenClass} (hall : advances f code m p s env c = .ok (none, t) c₁) :
    ∃ next s₂ c₂, q.advance f code s' env c' = .ok (next, s₂) c₂ := by
  by_cases hle : m ≤ n
  · obtain ⟨k, rfl⟩ := Nat.exists_eq_add_of_le hle
    rw [advances_add, BodyM.run_bind, hall] at h
    cases h
  · obtain ⟨k, rfl⟩ : ∃ k, m = n + (k + 1) := ⟨m - n - 1, by omega⟩
    rw [advances_add, BodyM.run_bind, h] at hall
    obtain ⟨next, s₂, c₂, hstep, -⟩ := BodyM.bind_eq_ok.mp hall
    exact ⟨next, s₂, c₂, hstep⟩

-- In front of the end of its range there is a next step.
theorem exists_next (hlt : p.pos < p.stop) {next : Option Place}
    (h : p.advance f code s env c = .ok (next, s') c') : ∃ q, next = some q := by
  unfold advance at h
  rw [if_pos hlt] at h
  cases hi : Instr.decodeAt code p.pos with
  | error e =>
    rw [hi] at h
    cases h
  | ok i =>
    rw [hi] at h
    obtain ⟨_, s₁, c₁, -, hafter⟩ := BodyM.bind_eq_ok.mp h
    obtain ⟨env', s₂, c₂, -, hrun⟩ := BodyM.bind_eq_ok.mp hafter
    split at hrun
    all_goals
      obtain ⟨q, s₃, c₃, -, hpure⟩ := BodyM.bind_eq_ok.mp hrun
      exact ⟨q, (BodyM.pure_eq_ok.mp hpure).1⟩

-- The end of a block takes the block that was begun last, and throws what is in its slot.
theorem advance_finallyEnd (hinline : env.config.finallyStrategy = .inline) (hlt : p.pos < p.stop)
    (hi : Instr.decodeAt code p.pos = .ok i) (hop : i.op = .finallyEnd) {next : Option Place}
    (h : p.advance f code s env c = .ok (next, s') c') :
    ∃ first pending slot, s.finallies.pending = first :: pending ∧
      s.finallies.exceptions[first]? = some slot ∧ next = some { p with pos := p.pos + 1 } ∧
      s'.items = s.items ++ #[.mark p.pos, .load .obj slot, .op ClassFile.Op.athrow] ∧
      s'.finallies = { s.finallies with pending } ∧ c' = c := by
  obtain ⟨q, rfl⟩ := exists_next hlt h
  have hsize := size_of_finally (.inr hop)
  cases moves_of_advance hinline h with
  | pass _ hj hjump hpass =>
    rw [hi] at hj
    cases hj
    cases hpass with
    | one hown hitems =>
      obtain ⟨-, hc, first, pending, slot, hpending, hslot, hslots, rfl⟩ :=
        hown.finallyEnd_slot hop hinline
      rw [Instr.decodeAt_pos hi] at hitems
      refine ⟨first, pending, slot, hpending, hslot, by rw [hsize], ?_, hslots, hc⟩
      rw [hitems]
      simp
    | fused hown _ _ =>
      obtain ⟨hfused, -⟩ := hown.finallyEnd hop hinline
      cases hfused
  | enter hj hjump _ _ =>
    rw [hi] at hj
    cases hj
    cases hop.symm.trans hjump
  | leave hle _ _ => omega

-- After some steps lowering is at a place, with these slots given out.
def Arrives (env : ClassEnv) (f : Frame) (code : Bytes) (c : OpenClass) (n : Nat) (p : Place)
    (fs : FinallySlots) : Prop :=
  ∃ items, advances f code n (.start code) {} env c = .ok (some p, ⟨items, fs⟩) c

namespace Arrives

variable {n : Nat} {fs fs' : FinallySlots} {i : Instr}

theorem start : Arrives env f code c 0 (.start code) {} := ⟨#[], rfl⟩

theorem step (h : Arrives env f code c n p fs) (hstep : ∀ items, ∃ items',
    p.advance f code ⟨items, fs⟩ env c = .ok (some q, ⟨items', fs'⟩) c) :
    Arrives env f code c (n + 1) q fs' := by
  obtain ⟨items, hrun⟩ := h
  obtain ⟨items', hnext⟩ := hstep items
  refine ⟨items', ?_⟩
  rw [advances_add, BodyM.run_bind, hrun]
  change advances f code 1 p ⟨items, fs⟩ env c = _
  rw [advances, BodyM.run_bind, hnext]
  rfl

-- Into a copy of a block,
theorem enter (h : Arrives env f code c n p fs) (hinline : env.config.finallyStrategy = .inline)
    (hlt : p.pos < p.stop) (hi : Instr.decodeAt code p.pos = .ok i) (hop : i.op = .jumpFinally)
    {stop : Nat} (hstop : finallyEnd f.name code i = .ok stop)
    (hdepth : p.outer.length < maxInlineDepth) :
    Arrives env f code c (n + 1)
      ⟨i.arg.toNat + 1, stop, ⟨i, p.pos + i.size, p.stop⟩ :: p.outer⟩ fs := by
  refine h.step fun items => ⟨(items.push (.mark i.pos)).push .enter, ?_⟩
  unfold advance
  rw [if_pos hlt, hi]
  refine BodyM.bind_eq_ok.mpr ⟨(), ⟨items.push (.mark i.pos), fs⟩, c, rfl, ?_⟩
  refine BodyM.bind_eq_ok.mpr ⟨env, _, c, rfl, ?_⟩
  rw [if_pos ⟨hop, hinline⟩]
  refine BodyM.bind_eq_ok.mpr ⟨_, _, c, ?_, rfl⟩
  unfold Place.enter
  rw [if_pos hdepth]
  refine BodyM.bind_eq_ok.mpr ⟨stop, ⟨items.push (.mark i.pos), fs⟩, c, ?_, rfl⟩
  rw [hstop]
  rfl

-- out of it at its end,
theorem leave (h : Arrives env f code c n p fs) (hle : p.stop ≤ p.pos) {copy : OpenCopy}
    {outer : List OpenCopy} (houter : p.outer = copy :: outer) :
    Arrives env f code c (n + 1) ⟨copy.pos, copy.stop, outer⟩ fs := by
  refine h.step fun items =>
    ⟨items.push (.leave copy.site.pos copy.site.arg.toNat p.stop), ?_⟩
  unfold advance
  rw [if_neg (by omega)]
  unfold Place.leave
  rw [houter]
  rfl

-- and on behind any other instruction.
theorem pass (h : Arrives env f code c n p fs) (hlt : p.pos < p.stop)
    (hi : Instr.decodeAt code p.pos = .ok i) (hop : i.op ≠ .jumpFinally)
    (hrun : ∀ items next, ∃ items', emitInstr f (noCopy f) i next ⟨items, fs⟩ env c =
      .ok (false, ⟨items', fs'⟩) c) :
    Arrives env f code c (n + 1) { p with pos := p.pos + i.size } fs' := by
  refine h.step fun items => ?_
  obtain ⟨items', hitems⟩ := hrun (items.push (.mark i.pos))
    (.ofRest (Instr.decodeRange code (p.pos + i.size) p.stop).instrs
      (Instr.decodeRange code (p.pos + i.size) p.stop).fault)
  refine ⟨items', ?_⟩
  unfold advance
  rw [if_pos hlt, hi]
  refine BodyM.bind_eq_ok.mpr ⟨(), ⟨items.push (.mark i.pos), fs⟩, c, rfl, ?_⟩
  refine BodyM.bind_eq_ok.mpr ⟨env, _, c, rfl, ?_⟩
  rw [if_neg fun hcopy => hop hcopy.1]
  exact BodyM.bind_eq_ok.mpr ⟨_, _, c, BodyM.bind_eq_ok.mpr ⟨false, _, c, hitems, rfl⟩, rfl⟩

theorem jump (h : Arrives env f code c n p fs) (hlt : p.pos < p.stop)
    (hi : Instr.decodeAt code p.pos = .ok i) (hop : i.op = .leave) :
    Arrives env f code c (n + 1) { p with pos := p.pos + i.size } fs := by
  refine h.pass hlt hi (by rw [hop]; decide) fun items next =>
    ⟨items.push (.jump .branch ClassFile.Op.goto i.arg), ?_⟩
  unfold emitInstr
  rw [hop]
  rfl

theorem begin (h : Arrives env f code c n p fs) (hinline : env.config.finallyStrategy = .inline)
    (hlt : p.pos < p.stop) (hi : Instr.decodeAt code p.pos = .ok i) (hop : i.op = .finallyStart)
    {slot : UInt16} (hslot : fs.forBlock f i.pos = .ok (slot, fs')) :
    Arrives env f code c (n + 1) { p with pos := p.pos + i.size }
      { fs' with pending := i.pos :: fs'.pending } := by
  refine h.pass hlt hi (by rw [hop]; decide) fun items next =>
    ⟨items.push (.store .obj slot), ?_⟩
  rw [emitInstr_finallyStart hinline hop]
  dsimp only
  rw [hslot]

theorem finish (h : Arrives env f code c n p fs) (hinline : env.config.finallyStrategy = .inline)
    (hlt : p.pos < p.stop) (hi : Instr.decodeAt code p.pos = .ok i) (hop : i.op = .finallyEnd)
    {first : Nat} {pending : List Nat} {slot : UInt16} (hpending : fs.pending = first :: pending)
    (hslot : fs.exceptions[first]? = some slot) :
    Arrives env f code c (n + 1) { p with pos := p.pos + i.size } { fs with pending } :=
  h.pass hlt hi (by rw [hop]; decide) fun _ _ =>
    ⟨_, emitInstr_finallyEnd hinline hop hpending hslot⟩

-- Where the steps come to the end of the method, lowering it succeeds.
theorem exists_emitBody (h : Arrives env f code c n p fs) (hle : p.stop ≤ p.pos)
    (houter : p.outer = []) (hn : n < maxSteps code.size) :
    ∃ body, emitBody f code {} env c = .ok ((), body) c := by
  obtain ⟨items, hrun⟩ := h
  obtain ⟨k, hk⟩ := Nat.exists_eq_add_of_lt hn
  have hlast : p.advance f code ⟨items, fs⟩ env c = .ok (none, ⟨items, fs⟩) c := by
    unfold advance
    rw [if_neg (by omega)]
    unfold Place.leave
    rw [houter]
    rfl
  have hall : advances f code (maxSteps code.size) (.start code) {} env c =
      .ok (none, ⟨items, fs⟩) c := by
    rw [hk, Nat.add_assoc, advances_add, BodyM.run_bind, hrun]
    change advances f code (k + 1) p ⟨items, fs⟩ env c = _
    rw [advances, BodyM.run_bind, hlast]
    rfl
  rw [advances_start] at hall
  obtain ⟨u, s, c₁, hrange, hpure⟩ := BodyM.bind_eq_ok.mp hall
  obtain ⟨-, rfl, rfl⟩ := BodyM.pure_eq_ok.mp hpure
  exact ⟨_, BodyM.bind_eq_ok.mpr ⟨u, _, _, hrange, rfl⟩⟩

end Arrives

end Place

-- A copy leaves the blocks that are begun as they were.
theorem pending_emitCopy {env : ClassEnv} {f : Frame} {code : Bytes} {d : Nat} {i : Instr}
    {s s' : BodyState} {c c' : OpenClass} (hinline : env.config.finallyStrategy = .inline)
    (h : emitCopy f code (emitRange f code d) i s env c = .ok ((), s') c') :
    s'.finallies.pending = s.finallies.pending := by
  have hcopies : Copies env f code (emitCopy f code (emitRange f code d)) :=
    copies_emitCopy fun _ _ _ _ _ _ hrange => emission_of_emitRange hrange
  obtain ⟨stop, inner, its, hstop, hinner, hbody, -⟩ := hcopies _ _ _ _ _ h
  have hopen := openBlocks_of_findFinallyEnd (finallyEnd_eq_ok hstop).2 hinner
  exact (hbody.agree_of_closed hbody hinline (.refl _) (.refl _) hopen).2

namespace Relocation

-- Looking a position up, scope by scope outwards, until one knows it or there is none left.
inductive Lookup (r : Relocation) (q : Nat) : Nat → Option Nat → Prop where
  | known {s java : Nat} (h : r.getLocal s q = some java) : Lookup r q s (some java)
  | outward {s outer : Nat} {a : Option Nat} (h : r.getLocal s q = none)
      (hparent : r.parent s = some outer) (hrest : Lookup r q outer a) : Lookup r q s a
  | unknown {s : Nat} (h : r.getLocal s q = none) (hparent : r.parent s = none) :
      Lookup r q s none

variable {r : Relocation} {q s depth : Nat} {a : Option Nat}

theorem Lookup.unique {b : Option Nat} (h : r.Lookup q s a) (h' : r.Lookup q s b) : a = b := by
  induction h with
  | known h =>
    cases h' with
    | known h' => rw [← h, h']
    | outward h' => cases h.symm.trans h'
    | unknown h' => cases h.symm.trans h'
  | outward h hparent _ ih =>
    cases h' with
    | known h' => cases h.symm.trans h'
    | outward _ hparent' hrest' =>
      cases hparent.symm.trans hparent'
      exact ih hrest'
    | unknown _ hparent' => cases hparent.symm.trans hparent'
  | unknown h hparent =>
    cases h' with
    | known h' => cases h.symm.trans h'
    | outward _ hparent' => cases hparent.symm.trans hparent'
    | unknown => rfl

-- Where each scope is inside an earlier one, there are not more to look at than are before it.
theorem lookup_getWithin (hparent : ∀ s outer, r.parent s = some outer → outer < s)
    (hs : s < depth) : r.Lookup q s (r.getWithin q depth s) := by
  induction depth generalizing s with
  | zero => omega
  | succ depth ih =>
    rw [getWithin]
    cases hlocal : r.getLocal s q with
    | some java => exact .known hlocal
    | none =>
      cases houter : r.parent s with
      | none => exact .unknown hlocal houter
      | some outer =>
        have hlt := hparent s outer houter
        exact .outward hlocal houter (ih (by omega))

theorem lookup_iff (hparent : ∀ s outer, r.parent s = some outer → outer < s)
    (hs : s < r.scopes.size) : r.Lookup q s a ↔ a = r.get s q := by
  have hget : r.Lookup q s (r.get s q) := lookup_getWithin hparent hs
  constructor
  · intro h
    exact h.unique hget
  · rintro rfl
    exact hget

end Relocation

section Bodies

variable {env : ClassEnv} {f : Frame} {code : Bytes} {c c' : OpenClass} {body : BodyState}

-- The steps to the end of a body, and what is put behind them.
theorem advances_of_emitBody (h : emitBody f code {} env c = .ok ((), body) c') :
    ∃ s, Place.advances f code (maxSteps code.size) (.start code) {} env c = .ok (none, s) c' ∧
      body = { s with items := s.items ++ #[.mark code.size] } := by
  obtain ⟨_, s, c₁, hrange, hmark⟩ := BodyM.bind_eq_ok.mp h
  obtain ⟨rfl, rfl⟩ := emit_mark hmark
  refine ⟨s, ?_, rfl⟩
  rw [Place.advances_start, BodyM.run_bind, hrange]
  rfl

-- Where blocks are copied and lowering a body succeeds: each time it comes to the end of a block,
-- in a copy or not, the block that was begun last is the one from whose start the search comes
-- there, and what is thrown is in the slot of that block. A copy leaves the blocks that are begun as
-- they were. Each scope is inside an earlier one, so that looking a position up comes to an answer.
theorem finally_pairings_agree (hinline : env.config.finallyStrategy = .inline)
    (h : emitBody f code {} env c = .ok ((), body) c') :
    (∃ s, Place.advances f code (maxSteps code.size) (.start code) {} env c = .ok (none, s) c' ∧
      body = { s with items := s.items ++ #[.mark code.size] }) ∧
    (∀ n p s c₁ i, Place.advances f code n (.start code) {} env c = .ok (some p, s) c₁ →
      p.pos < p.stop → Instr.decodeAt code p.pos = .ok i → i.op = .finallyEnd →
      ∃ first pending slot s₂, s.finallies.pending = first :: pending ∧
        BlockPair code first p.pos ∧
        (∀ j : Instr, j.arg.toNat = first → finallyEnd f.name code j = .ok p.pos) ∧
        s.finallies.exceptions[first]? = some slot ∧
        p.advance f code s env c₁ = .ok (some { p with pos := p.pos + 1 }, s₂) c₁ ∧
        s₂.items = s.items ++ #[.mark p.pos, .load .obj slot, .op ClassFile.Op.athrow] ∧
        s₂.finallies = { s.finallies with pending }) ∧
    (∀ d i s s₂ c₁ c₂, emitCopy f code (emitRange f code d) i s env c₁ = .ok ((), s₂) c₂ →
      s₂.finallies.pending = s.finallies.pending) ∧
    ∀ out,
      (∀ scope outer, (body.layout code out).reloc.parent scope = some outer → outer < scope) ∧
      ∀ scope < (body.layout code out).reloc.scopes.size, ∀ q a,
        (body.layout code out).reloc.Lookup q scope a ↔
          a = (body.layout code out).reloc.get scope q := by
  obtain ⟨last, hall, hbody⟩ := advances_of_emitBody h
  refine ⟨⟨last, hall, hbody⟩, ?_, fun _ _ _ _ _ _ hcopy => pending_emitCopy hinline hcopy, ?_⟩
  · intro n p s c₁ i hrun hlt hi hop
    have hstart : Stacked code (.start code) [] := .outermost .nil
    have hstack := Place.stacked_of_advances hinline hrun hstart
    obtain ⟨next, s₂, c₂, hstep⟩ := Place.advance_of_advances hrun hall
    obtain ⟨first, pending, slot, hpending, hslot, rfl, hitems, hslots, rfl⟩ :=
      Place.advance_finallyEnd hinline hlt hi hop hstep
    rw [hpending] at hstack
    obtain ⟨hpair, -⟩ := hstack.finish hlt hi hop
    exact ⟨first, pending, slot, s₂, hpending, hpair, fun j hj => hpair.finallyEnd f.name hj, hslot,
      hstep, hitems, hslots⟩
  · intro out
    have hparent := (body.layout_valid code out).parent_lt
    exact ⟨hparent, fun scope hscope q a => Relocation.lookup_iff hparent hscope⟩

end Bodies

-- The slots of a block and of one inside it. The inner one has the first slot, as a copy of the outer
-- one comes first.
def innerSlots : FinallySlots where
  exceptions := (∅ : Std.HashMap Nat UInt16).insert 13 0
  extra := 1

def nestedSlots : FinallySlots where
  exceptions := innerSlots.exceptions.insert 6 1
  extra := 2

theorem forBlock_inner : FinallySlots.forBlock bareFrame 13 {} = .ok (0, innerSlots) := by
  simp [FinallySlots.forBlock, FinallySlots.alloc, bareFrame, innerSlots]

theorem forBlock_outer : FinallySlots.forBlock bareFrame 6 innerSlots = .ok (1, nestedSlots) := by
  simp [FinallySlots.forBlock, FinallySlots.alloc, bareFrame, innerSlots, nestedSlots]

theorem exceptions_nestedSlots : nestedSlots.exceptions[13]? = some 0 := by
  rw [nestedSlots, Std.HashMap.getElem?_insert, if_neg (by decide)]
  exact Std.HashMap.getElem?_insert_self

theorem forBlock_again (pending : List Nat) :
    FinallySlots.forBlock bareFrame 13 { nestedSlots with pending } =
      .ok (0, { nestedSlots with pending }) := by
  unfold FinallySlots.forBlock
  dsimp only
  rw [exceptions_nestedSlots]

-- After 5 steps lowering is at the end of the inner block in the copy of the outer one, after 13 at
-- that of the inner block itself, then at that of the outer one, and after 16 at the end.
theorem arrives_nestedFinally : ∃ copy fs₅ fs₁₃ fs₁₄ fs₁₆,
    (Place.Arrives bareEnv bareFrame nestedFinally bareClass 5 ⟨14, 15, [copy]⟩ fs₅ ∧
      fs₅.pending = [13]) ∧
    (Place.Arrives bareEnv bareFrame nestedFinally bareClass 13 ⟨14, 17, []⟩ fs₁₃ ∧
      fs₁₃.pending = [13, 6]) ∧
    (Place.Arrives bareEnv bareFrame nestedFinally bareClass 14 ⟨15, 17, []⟩ fs₁₄ ∧
      fs₁₄.pending = [6]) ∧
    Place.Arrives bareEnv bareFrame nestedFinally bareClass 16 ⟨17, 17, []⟩ fs₁₆ := by
  have houter : finallyEnd bareFrame.name nestedFinally ⟨0, .jumpFinally, [6]⟩ = .ok 15 := by cbv
  have hinner : finallyEnd bareFrame.name nestedFinally ⟨7, .jumpFinally, [13]⟩ = .ok 14 := by cbv
  have h₀ : Place.Arrives bareEnv bareFrame nestedFinally bareClass 0 (.start nestedFinally) {} :=
    .start
  -- the copy of the outer block, and in it first a copy of the inner one
  have h₁ := h₀.enter (i := ⟨0, .jumpFinally, [6]⟩) rfl (by decide) rfl rfl houter (by decide)
  have h₂ := h₁.enter (i := ⟨7, .jumpFinally, [13]⟩) rfl (by decide) rfl rfl hinner (by decide)
  have h₃ := h₂.leave (by decide) rfl
  have h₄ := h₃.jump (i := ⟨10, .leave, [15]⟩) (by decide) rfl rfl
  have h₅ := h₄.begin (i := ⟨13, .finallyStart, []⟩) rfl (by decide) rfl rfl forBlock_inner
  have h₆ := h₅.finish (i := ⟨14, .finallyEnd, []⟩) rfl (by decide) rfl rfl rfl
    Std.HashMap.getElem?_insert_self
  have h₇ := h₆.leave (by decide) rfl
  have h₈ := h₇.jump (i := ⟨3, .leave, [16]⟩) (by decide) rfl rfl
  -- the outer block itself, and in it again a copy of the inner one first
  have h₉ := h₈.begin (i := ⟨6, .finallyStart, []⟩) rfl (by decide) rfl rfl forBlock_outer
  have h₁₀ := h₉.enter (i := ⟨7, .jumpFinally, [13]⟩) rfl (by decide) rfl rfl hinner (by decide)
  have h₁₁ := h₁₀.leave (by decide) rfl
  have h₁₂ := h₁₁.jump (i := ⟨10, .leave, [15]⟩) (by decide) rfl rfl
  have h₁₃ := h₁₂.begin (i := ⟨13, .finallyStart, []⟩) rfl (by decide) rfl rfl (forBlock_again [6])
  have h₁₄ := h₁₃.finish (i := ⟨14, .finallyEnd, []⟩) rfl (by decide) rfl rfl rfl
    exceptions_nestedSlots
  have h₁₅ := h₁₄.finish (i := ⟨15, .finallyEnd, []⟩) rfl (by decide) rfl rfl rfl
    Std.HashMap.getElem?_insert_self
  have h₁₆ := h₁₅.pass (i := ⟨16, .returnVoid, []⟩) (by decide) rfl (by decide) fun items next =>
    ⟨_, rfl⟩
  exact ⟨_, _, _, _, _, ⟨h₅, rfl⟩, ⟨h₁₃, rfl⟩, ⟨h₁₄, rfl⟩, h₁₆⟩

-- At the end of the inner block, in the copy and outside of it, the inner one is the last that was
-- begun, and at the end of the outer one the outer one is.
theorem finally_pairings_agree_nestedFinally : bareEnv.config.finallyStrategy = .inline ∧
    (∃ body, emitBody bareFrame nestedFinally {} bareEnv bareClass = .ok ((), body) bareClass) ∧
    (∃ copy s, Place.advances bareFrame nestedFinally 5 (.start nestedFinally) {} bareEnv
        bareClass = .ok (some ⟨14, 15, [copy]⟩, s) bareClass ∧
      s.finallies.pending = [13] ∧ BlockPair nestedFinally 13 14) ∧
    (∃ s, Place.advances bareFrame nestedFinally 13 (.start nestedFinally) {} bareEnv
        bareClass = .ok (some ⟨14, 17, []⟩, s) bareClass ∧
      s.finallies.pending = [13, 6] ∧ BlockPair nestedFinally 13 14) ∧
    ∃ s, Place.advances bareFrame nestedFinally 14 (.start nestedFinally) {} bareEnv
        bareClass = .ok (some ⟨15, 17, []⟩, s) bareClass ∧
      s.finallies.pending = [6] ∧ BlockPair nestedFinally 6 15 := by
  obtain ⟨copy, fs₅, fs₁₃, fs₁₄, fs₁₆, ⟨⟨items₅, h₅⟩, hp₅⟩, ⟨⟨items₁₃, h₁₃⟩, hp₁₃⟩,
    ⟨⟨items₁₄, h₁₄⟩, hp₁₄⟩, hlast⟩ := arrives_nestedFinally
  obtain ⟨body, hbody⟩ := hlast.exists_emitBody (by decide) rfl (by decide +kernel)
  obtain ⟨-, hends, -⟩ := finally_pairings_agree rfl hbody
  have hpair : ∀ {n p s i b pending}, Place.advances bareFrame nestedFinally n
      (.start nestedFinally) {} bareEnv bareClass = .ok (some p, s) bareClass → p.pos < p.stop →
      Instr.decodeAt nestedFinally p.pos = .ok i → i.op = .finallyEnd →
      s.finallies.pending = b :: pending → BlockPair nestedFinally b p.pos := by
    intro n p s i b pending hrun hlt hi hop hpending
    obtain ⟨first, rest, slot, s₂, hfirst, hpair, -⟩ := hends n p s bareClass i hrun hlt hi hop
    cases hpending.symm.trans hfirst
    exact hpair
  exact ⟨rfl, ⟨body, hbody⟩, ⟨copy, _, h₅, hp₅, hpair h₅ (Nat.lt_succ_self 14) rfl rfl hp₅⟩,
    ⟨_, h₁₃, hp₁₃, hpair h₁₃ (by decide) rfl rfl hp₁₃⟩,
    ⟨_, h₁₄, hp₁₄, hpair h₁₄ (by decide) rfl rfl hp₁₄⟩⟩

end PodCompiler.Lowering
