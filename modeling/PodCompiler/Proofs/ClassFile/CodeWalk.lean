import PodCompiler.ClassFile.CodeBuffer
import PodCompiler.Proofs.Bytes

namespace PodCompiler.ClassFile

namespace Op

-- A walk over the instructions from `pos` on meets `starts` and comes to `stop`.
inductive Walk (code : Bytes) : (pos : Nat) → (starts : List Nat) → (stop : Nat) → Prop where
  | done {pos : Nat} : Walk code pos [] pos
  | step {pos n stop : Nat} {starts : List Nat} (hlt : pos < code.size)
      (hn : length? code pos = some n) (hrest : Walk code (pos + n) starts stop) :
      Walk code pos (pos :: starts) stop

-- Where the instruction at `pos` may jump to. A subroutine call is no jump of this kind.
def targets (code : Bytes) (pos : Nat) : List Int :=
  let op := code.getD pos nop
  if isBranch op && op ≠ jsr then [pos + (word2 code (pos + 1)).toInt16.toInt]
  else if op = tableSwitch then
    let base := pos + 1 + switchPad pos
    (pos + (word4 code base).toInt) ::
      (List.range ((switchCount? code pos).getD 0)).map fun k =>
        pos + (word4 code (base + 12 + 4 * k)).toInt
  else []

-- The length of an instruction that is told by its opcode.
def fixedLength? (op : UInt8) : Option Nat :=
  if op = wide ∨ op = tableSwitch then none else length? #[op] 0

section Length

variable {code code' : Bytes} {pos n : Nat} {op : UInt8}

theorem getD_of_getElem? (h : code[pos]? = some op) : code.getD pos nop = op := by
  rw [Array.getD_eq_getD_getElem?, h]
  rfl

theorem length?_of_fixed (h : code[pos]? = some op) (hn : fixedLength? op = some n) :
    length? code pos = some n := by
  unfold fixedLength? at hn
  split at hn
  · cases hn
  · rename_i hop
    rw [not_or] at hop
    have hone : (#[op] : Bytes).getD 0 nop = op := rfl
    unfold length? at hn ⊢
    rw [getD_of_getElem? h]
    rw [hone] at hn
    simp only [if_neg hop.1, if_neg hop.2] at hn ⊢
    exact hn

theorem fixedLength?_of_isBranch (h : isBranch op = true) : fixedLength? op = some 3 := by
  revert op
  decide +kernel

-- What is behind a prefix takes a slot in two bytes; an increment takes a number more.
theorem length?_wide (h : code[pos]? = some wide) :
    length? code pos = some (if code[pos + 1]? = some 0x84 then 6 else 4) := by
  unfold length?
  rw [getD_of_getElem? h]
  rfl

theorem length?_tableSwitch {count : Nat} (h : code[pos]? = some tableSwitch)
    (hcount : switchCount? code pos = some count) :
    length? code pos = some (1 + switchPad pos + 12 + count * 4) := by
  unfold length?
  rw [getD_of_getElem? h, hcount]
  rfl

-- An instruction whose length is not told by its opcode.
theorem length?_cases (hlt : pos < code.size) (h : length? code pos = some n) :
    fixedLength? code[pos] = some n ∨ code[pos] = wide ∧ 4 ≤ n ∨
      code[pos] = tableSwitch ∧ ∃ count, switchCount? code pos = some count ∧
        n = 1 + switchPad pos + 12 + count * 4 := by
  have hop : code[pos]? = some code[pos] := Array.getElem?_eq_getElem hlt
  by_cases hwide : code[pos] = wide
  · refine .inr (.inl ⟨hwide, ?_⟩)
    rw [hwide] at hop
    rw [length?_wide hop] at h
    cases h
    split <;> omega
  by_cases hswitch : code[pos] = tableSwitch
  · refine .inr (.inr ⟨hswitch, ?_⟩)
    unfold length? at h
    rw [getD_of_getElem? hop, hswitch] at h
    obtain ⟨count, hcount, hn⟩ := Option.map_eq_some_iff.mp h
    exact ⟨count, hcount, hn.symm⟩
  · left
    have hone : (#[code[pos]] : Bytes).getD 0 nop = code[pos] := rfl
    unfold fixedLength?
    rw [if_neg (by simp [hwide, hswitch])]
    unfold length? at h ⊢
    rw [getD_of_getElem? hop] at h
    rw [hone]
    simp only [if_neg hwide, if_neg hswitch] at h ⊢
    exact h

theorem length?_pos (hlt : pos < code.size) (h : length? code pos = some n) : 0 < n := by
  have hfixed : ∀ op n, fixedLength? op = some n → 0 < n := by
    have hall : ∀ op, (fixedLength? op).all (0 < ·) = true := by decide +kernel
    intro op n hn
    have := hall op
    rw [hn] at this
    simpa using this
  obtain h | ⟨-, h⟩ | ⟨-, count, -, h⟩ := length?_cases hlt h
  · exact hfixed _ _ h
  · omega
  · omega

-- Words that are the same byte for byte.
theorem word2_congr (hsame : ∀ k, pos ≤ k → k < pos + 2 → code'[k]? = code[k]?) :
    word2 code' pos = word2 code pos := by
  unfold word2
  rw [Bytes.be2?_eq, Bytes.be2?_eq, hsame pos (by omega) (by omega),
    hsame (pos + 1) (by omega) (by omega)]

theorem word4_congr (hsame : ∀ k, pos ≤ k → k < pos + 4 → code'[k]? = code[k]?) :
    word4 code' pos = word4 code pos := by
  unfold word4
  rw [Bytes.be4?_eq, Bytes.be4?_eq, hsame pos (by omega) (by omega),
    hsame (pos + 1) (by omega) (by omega), hsame (pos + 2) (by omega) (by omega),
    hsame (pos + 3) (by omega) (by omega)]

theorem switchCount?_congr {count : Nat} (hcount : switchCount? code pos = some count)
    (hsame : ∀ k, pos ≤ k → k < pos + (1 + switchPad pos + 12) → code'[k]? = code[k]?) :
    switchCount? code' pos = some count := by
  rw [← hcount]
  unfold switchCount?
  dsimp only
  rw [word4_congr (fun k _ _ => hsame k (by omega) (by omega)),
    word4_congr (fun k _ _ => hsame k (by omega) (by omega))]

-- An instruction is told by its own bytes.
theorem length?_congr (hlt : pos < code.size) (h : length? code pos = some n)
    (hsame : ∀ k, pos ≤ k → k < pos + n → code'[k]? = code[k]?) :
    length? code' pos = some n := by
  have hpos := length?_pos hlt h
  have hop : code'[pos]? = some code[pos] := by
    rw [hsame pos (Nat.le_refl _) (by omega), Array.getElem?_eq_getElem hlt]
  obtain hfixed | ⟨hwide, hle⟩ | ⟨hswitch, count, hcount, hn⟩ := length?_cases hlt h
  · exact length?_of_fixed hop hfixed
  · have hop' : code[pos]? = some code[pos] := Array.getElem?_eq_getElem hlt
    rw [hwide] at hop hop'
    rw [length?_wide hop'] at h
    rw [length?_wide hop, hsame (pos + 1) (by omega) (by omega), h]
  · rw [hswitch] at hop
    rw [hn]
    exact length?_tableSwitch hop
      (switchCount?_congr hcount fun k _ _ => hsame k (by omega) (by omega))

-- So is where it jumps to.
theorem targets_congr (hlt : pos < code.size) (h : length? code pos = some n)
    (hsame : ∀ k, pos ≤ k → k < pos + n → code'[k]? = code[k]?) :
    targets code' pos = targets code pos := by
  have hpos := length?_pos hlt h
  have hop' : code[pos]? = some code[pos] := Array.getElem?_eq_getElem hlt
  have hop : code'[pos]? = some code[pos] := by
    rw [hsame pos (Nat.le_refl _) (by omega), hop']
  unfold targets
  rw [getD_of_getElem? hop, getD_of_getElem? hop']
  dsimp only
  split
  · rename_i hbranch
    rw [Bool.and_eq_true] at hbranch
    have hn := length?_of_fixed hop' (fixedLength?_of_isBranch hbranch.1)
    rw [h] at hn
    cases hn
    rw [word2_congr (fun k _ _ => hsame k (by omega) (by omega))]
  · split
    · rename_i hswitch
      obtain hfixed | ⟨hwide, -⟩ | ⟨-, count, hcount, hn⟩ := length?_cases hlt h
      · rw [hswitch] at hfixed
        cases hfixed
      · rw [hswitch] at hwide
        cases hwide
      · rw [hcount, switchCount?_congr hcount (fun k _ _ => hsame k (by omega) (by omega)),
          word4_congr (fun k _ _ => hsame k (by omega) (by omega))]
        refine congrArg _ (List.map_congr_left ?_)
        intro k hk
        have hk : k < count := List.mem_range.mp hk
        rw [word4_congr (fun j _ _ => hsame j (by omega) (by omega))]
    · rfl

-- An instruction without jumps.
theorem targets_of_not_isBranch (h : code[pos]? = some op) (hbranch : isBranch op = false)
    (hswitch : op ≠ tableSwitch) : targets code pos = [] := by
  unfold targets
  rw [getD_of_getElem? h]
  simp [hbranch, hswitch]

-- Where a table switch jumps to: by its first word, and by each word behind its bounds.
theorem targets_tableSwitch {count : Nat} (h : code[pos]? = some tableSwitch)
    (hcount : switchCount? code pos = some count) :
    targets code pos = (pos + (word4 code (pos + 1 + switchPad pos)).toInt) ::
      (List.range count).map fun k =>
        pos + (word4 code (pos + 1 + switchPad pos + 12 + 4 * k)).toInt := by
  unfold targets
  rw [getD_of_getElem? h, hcount]
  rfl

end Length

namespace Walk

variable {code code' : Bytes} {pos mid stop : Nat} {starts more : List Nat}

theorem le (h : Walk code pos starts stop) : pos ≤ stop := by
  induction h with
  | done => exact Nat.le_refl _
  | step _ _ _ ih => omega

theorem append (h : Walk code pos starts mid) (h' : Walk code mid more stop) :
    Walk code pos (starts ++ more) stop := by
  induction h with
  | done => exact h'
  | step hlt hn _ ih => exact .step hlt hn (ih h')

-- Where a walk begins it meets an instruction, or it is over.
theorem mem_or_eq (h : Walk code pos starts stop) : pos ∈ starts ∨ pos = stop := by
  cases h with
  | done => exact .inr rfl
  | step _ _ _ => exact .inl List.mem_cons_self

-- An instruction that a walk meets lies before its end.
theorem length?_of_mem (h : Walk code pos starts stop) {p : Nat} (hp : p ∈ starts) :
    p < code.size ∧ ∃ n, length? code p = some n ∧ pos ≤ p ∧ p + n ≤ stop := by
  induction h with
  | done => cases hp
  | @step pos n stop starts hlt hn hrest ih =>
    have hle := hrest.le
    obtain rfl | hp := List.mem_cons.mp hp
    · exact ⟨hlt, n, hn, Nat.le_refl _, hle⟩
    · obtain ⟨hlt', m, hm, hge, hend⟩ := ih hp
      exact ⟨hlt', m, hm, by omega, hend⟩

-- A walk depends on the bytes that it goes over.
theorem congr (h : Walk code pos starts stop) (hsize : stop ≤ code'.size)
    (hsame : ∀ k, pos ≤ k → k < stop → code'[k]? = code[k]?) : Walk code' pos starts stop := by
  induction h with
  | done => exact .done
  | @step pos n stop starts hlt hn hrest ih =>
    have hle := hrest.le
    have hpos := length?_pos hlt hn
    refine .step (by omega) (length?_congr hlt hn ?_) (ih hsize ?_)
    · intro k hk hk'
      exact hsame k hk (by omega)
    · intro k hk hk'
      exact hsame k (by omega) hk'

-- One instruction.
theorem single {n : Nat} (hlt : pos < code.size) (hn : length? code pos = some n) :
    Walk code pos [pos] (pos + n) :=
  .step hlt hn .done

end Walk

-- Instructions from `pos` to `stop` that start at `starts`, whose jumps go to positions of which `P`
-- holds.
structure Segment (P : Nat → Prop) (code : Bytes) (pos : Nat) (starts : List Nat) (stop : Nat) :
    Prop where
  walk : Walk code pos starts stop
  targets : ∀ p ∈ starts, ∀ t ∈ targets code p, ∃ pc : Nat, t = pc ∧ P pc

namespace Segment

variable {P : Nat → Prop} {code : Bytes} {pos mid stop n : Nat} {starts more : List Nat} {op : UInt8}

theorem done : Segment P code pos [] pos where
  walk := .done
  targets := by simp

theorem append (h : Segment P code pos starts mid) (h' : Segment P code mid more stop) :
    Segment P code pos (starts ++ more) stop where
  walk := h.walk.append h'.walk
  targets p hp := by
    obtain hp | hp := List.mem_append.mp hp
    · exact h.targets p hp
    · exact h'.targets p hp

-- What is known of the positions may be weaker.
theorem imp {Q : Nat → Prop} (h : Segment P code pos starts stop) (hpc : ∀ pc, P pc → Q pc) :
    Segment Q code pos starts stop where
  walk := h.walk
  targets p hp t ht := by
    obtain ⟨pc, rfl, hP⟩ := h.targets p hp t ht
    exact ⟨pc, rfl, hpc pc hP⟩

-- A segment depends on the bytes that it goes over.
theorem congr {code' : Bytes} (h : Segment P code pos starts stop) (hsize : stop ≤ code'.size)
    (hsame : ∀ k, pos ≤ k → k < stop → code'[k]? = code[k]?) :
    Segment P code' pos starts stop where
  walk := h.walk.congr hsize hsame
  targets p hp t ht := by
    obtain ⟨hlt, n, hn, hle, hend⟩ := h.walk.length?_of_mem hp
    refine h.targets p hp t ?_
    rwa [targets_congr hlt hn fun k _ _ => hsame k (by omega) (by omega)] at ht

-- It is there in code that goes on.
theorem of_isPrefix {code' : Bytes} (h : Segment P code pos starts stop)
    (hcode : code.toList <+: code'.toList) (hstop : stop ≤ code.size) :
    Segment P code' pos starts stop := by
  have hsize : code.size ≤ code'.size := by simpa using hcode.length_le
  refine h.congr (Nat.le_trans hstop hsize) fun k _ hk => ?_
  have hlt : k < code.toList.length := by
    rw [Array.length_toList]
    omega
  rw [← Array.getElem?_toList, ← Array.getElem?_toList, List.getElem?_eq_getElem hlt]
  exact List.prefix_iff_getElem?.mp hcode k hlt

-- One instruction.
theorem single (hop : code[pos]? = some op) (hn : length? code pos = some n)
    (htargets : ∀ t ∈ Op.targets code pos, ∃ pc : Nat, t = pc ∧ P pc) :
    Segment P code pos [pos] (pos + n) where
  walk := .single (Array.getElem?_eq_some_iff.mp hop).1 hn
  targets p hp := by
    obtain rfl := List.mem_singleton.mp hp
    exact htargets

-- One instruction without jumps.
theorem plain (hop : code[pos]? = some op) (hn : length? code pos = some n)
    (hbranch : isBranch op = false) (hswitch : op ≠ tableSwitch) :
    Segment P code pos [pos] (pos + n) := by
  refine single hop hn ?_
  simp [targets_of_not_isBranch hop hbranch hswitch]

-- One whose length is not that of a jump.
theorem fixed (hop : code[pos]? = some op) (hn : fixedLength? op = some n) (hne : n ≠ 3) :
    Segment P code pos [pos] (pos + n) := by
  refine plain hop (length?_of_fixed hop hn) ?_ ?_
  · cases hbranch : isBranch op with
    | false => rfl
    | true =>
      rw [fixedLength?_of_isBranch hbranch] at hn
      cases hn
      exact absurd rfl hne
  · rintro rfl
    cases hn

-- One on a slot that takes two bytes.
theorem wide {slotOp : UInt8} (hop : code[pos]? = some Op.wide)
    (hslot : code[pos + 1]? = some slotOp) (hne : slotOp ≠ 0x84) :
    Segment P code pos [pos] (pos + 4) := by
  refine plain hop ?_ rfl (by decide)
  rw [length?_wide hop, hslot]
  simp [hne]

-- A jump.
theorem branch (hop : code[pos]? = some op) (hbranch : isBranch op = true)
    (htarget : op ≠ jsr → ∃ pc : Nat, pos + (word2 code (pos + 1)).toInt16.toInt = pc ∧ P pc) :
    Segment P code pos [pos] (pos + 3) := by
  refine single hop (length?_of_fixed hop (fixedLength?_of_isBranch hbranch)) ?_
  intro t ht
  unfold Op.targets at ht
  rw [getD_of_getElem? hop] at ht
  by_cases hjsr : op = jsr
  · subst hjsr
    simp [show jsr ≠ tableSwitch by decide] at ht
  · simp only [hbranch, ne_eq, hjsr, not_false_eq_true, decide_true, Bool.and_self, if_true,
      List.mem_singleton] at ht
    subst ht
    exact htarget hjsr

end Segment

end Op

-- Code that is instructions to its end, which start at `starts`, and whose jumps and tables name
-- these positions, or the end.
structure CodeBuffer.Sound (b : CodeBuffer) (starts : List Nat) : Prop where
  walk : Op.Walk b.code 0 starts b.code.size
  targets : ∀ p ∈ starts, ∀ t ∈ Op.targets b.code p,
    ∃ pc : Nat, t = pc ∧ (pc ∈ starts ∨ pc = b.code.size)
  exceptions : ∀ e ∈ b.exceptions, ∀ pc ∈ [e.startPc, e.endPc, e.handlerPc],
    pc.toNat ∈ starts ∨ pc.toNat = b.code.size
  lines : ∀ l ∈ b.lines, l.startPc.toNat ∈ starts ∨ l.startPc.toNat = b.code.size

-- Nothing is written yet.
theorem CodeBuffer.sound_sized (maxStack maxLocals : Nat) : (sized maxStack maxLocals).Sound [] where
  walk := .done
  targets := by simp
  exceptions := by simp [sized]
  lines := by simp [sized]

end PodCompiler.ClassFile
