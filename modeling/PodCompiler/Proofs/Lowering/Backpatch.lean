import PodCompiler.Proofs.Lowering.Placement

namespace PodCompiler.Lowering

open ClassFile (CodeBuffer)

namespace Relocation

-- The position of an instruction, as the innermost scope from `s` outwards has it.
inductive Finds (r : Relocation) (q : Nat) : Nat → Nat → Prop where
  | here {s java : Nat} (h : r.getLocal s q = some java) : Finds r q s java
  | outer {s p java : Nat} (h : r.getLocal s q = none) (hp : r.parent s = some p)
      (hrest : Finds r q p java) : Finds r q s java

variable {r : Relocation} {q s java : Nat}

theorem finds_of_getWithin {depth : Nat} (h : r.getWithin q depth s = some java) :
    r.Finds q s java := by
  induction depth generalizing s with
  | zero => cases h
  | succ depth ih =>
    rw [getWithin] at h
    split at h
    · rename_i java' hlocal
      cases h
      exact .here hlocal
    · rename_i hlocal
      split at h
      · rename_i p hp
        exact .outer hlocal hp (ih h)
      · cases h

-- A scope is inside an earlier one, so looking at as many scopes as there are is enough.
theorem getWithin_of_finds (hparent : ∀ s p, r.parent s = some p → p < s) (h : r.Finds q s java)
    {depth : Nat} (hdepth : s < depth) : r.getWithin q depth s = some java := by
  induction h generalizing depth with
  | here h =>
    cases depth with
    | zero => omega
    | succ depth => rw [getWithin, h]
  | outer h hp _ ih =>
    cases depth with
    | zero => omega
    | succ depth =>
      have hlt := hparent _ _ hp
      rw [getWithin, h, hp]
      exact ih (by omega)

theorem get_eq_some_iff (hparent : ∀ s p, r.parent s = some p → p < s)
    (hs : s < r.scopes.size) : r.get s q = some java ↔ r.Finds q s java :=
  ⟨finds_of_getWithin, fun h => getWithin_of_finds hparent h hs⟩

end Relocation

namespace JumpNode

-- The number that an operand holds.
def stored? (code : Bytes) (n : JumpNode) : Option Int :=
  match n.kind with
  | .switch => (code.be4? n.operand).map fun w => w.toInt32.toInt
  | .branch | .finally_ => (code.be2? n.operand).map fun w => w.toInt16.toInt

-- Whether an offset has a place in the operand.
def Fits (n : JumpNode) (offset : Int) : Prop :=
  -2 ^ (8 * n.width - 1) ≤ offset ∧ offset < 2 ^ (8 * n.width - 1)

instance (n : JumpNode) (offset : Int) : Decidable (n.Fits offset) :=
  inferInstanceAs (Decidable (_ ∧ _))

-- A byte outside of the operand.
def Avoids (n : JumpNode) (k : Nat) : Prop :=
  k < n.operand ∨ n.operand + n.width ≤ k

-- The code with an offset in the operand.
def fill (n : JumpNode) (offset : Int) (code : Bytes) : Bytes :=
  match n.kind with
  | .switch => code.set4 n.operand offset.toInt32.toUInt32
  | .branch | .finally_ => code.set2 n.operand offset.toInt16.toUInt16

variable {n : JumpNode} {offset : Int} {code : Bytes}

@[simp] theorem size_fill : (n.fill offset code).size = code.size := by
  unfold fill
  split <;> simp

theorem getElem?_fill {k : Nat} (h : n.Avoids k) : (n.fill offset code)[k]? = code[k]? := by
  unfold Avoids width at h
  unfold fill
  split <;> rename_i hk <;> rw [hk] at h
  · exact Bytes.getElem?_set4_of_ne h
  · exact Bytes.getElem?_set2_of_ne h
  · exact Bytes.getElem?_set2_of_ne h

-- An offset that fits is read back from the operand.
theorem stored?_fill (hfits : n.Fits offset) (hsize : n.operand + n.width ≤ code.size) :
    n.stored? (n.fill offset code) = some offset := by
  unfold Fits width at hfits
  unfold width at hsize
  unfold stored? fill
  have hshort : -2 ^ 15 ≤ offset ∧ offset < 2 ^ 15 → n.operand + 2 ≤ code.size →
      ((code.set2 n.operand offset.toInt16.toUInt16).be2? n.operand).map
        (fun w => w.toInt16.toInt) = some offset := by
    rintro ⟨hlo, hhi⟩ hsize
    rw [Bytes.be2?_of_spells (Bytes.spells_set2 _ hsize), Option.map_some,
      Int16.toInt16_toUInt16]
    exact congrArg some (Int16.toInt_ofInt_of_le hlo hhi)
  cases hk : n.kind with
  | switch =>
    rw [hk] at hfits hsize
    simp only
    rw [Bytes.be4?_of_spells (Bytes.spells_set4 _ hsize), Option.map_some,
      Int32.toInt32_toUInt32]
    exact congrArg some (Int32.toInt_ofInt_of_le hfits.1 hfits.2)
  | branch =>
    rw [hk] at hfits hsize
    exact hshort hfits hsize
  | finally_ =>
    rw [hk] at hfits hsize
    exact hshort hfits hsize

-- What an operand holds depends on its own bytes only.
theorem stored?_congr {code' : Bytes}
    (h : ∀ k < n.width, code'[n.operand + k]? = code[n.operand + k]?) :
    n.stored? code' = n.stored? code := by
  unfold stored?
  have hzero := h 0
  have hone := h 1
  cases hk : n.kind with
  | switch =>
    have hwidth : n.width = 4 := by rw [width, hk]
    simp only [Bytes.be4?_eq]
    rw [hone (by omega), h 2 (by omega), h 3 (by omega)]
    rw [Nat.add_zero] at hzero
    rw [hzero (by omega)]
  | branch | finally_ =>
    have hwidth : n.width = 2 := by rw [width, hk]
    simp only [Bytes.be2?_eq]
    rw [hone (by omega)]
    rw [Nat.add_zero] at hzero
    rw [hzero (by omega)]

end JumpNode

namespace JumpTable

variable {t : JumpTable} {r : Relocation} {method : String}

-- The offset of a jump whose target is known.
def offset? (t : JumpTable) (r : Relocation) (n : JumpNode) : Option Int :=
  (t.destination? r n).map fun java : Nat => (java : Int) - n.origin

-- What is wrong with a jump: its target is not known, or its offset does not fit.
def fault? (t : JumpTable) (r : Relocation) (method : String) (n : JumpNode) :
    Option LoweringError :=
  match t.offset? r n with
  | none => some (.missingReloc n.target method)
  | some offset => if n.Fits offset then none else some (.jumpOutOfRange offset method)

theorem patch_of_fault {n : JumpNode} {e : LoweringError} (h : t.fault? r method n = some e) :
    t.patch r method n = throw e := by
  unfold fault? offset? at h
  unfold patch
  cases hd : t.destination? r n with
  | none =>
    rw [hd] at h
    cases h
    rfl
  | some java =>
    rw [hd, Option.map_some] at h
    simp only at h ⊢
    split at h
    · cases h
    · rename_i hfits
      cases h
      unfold JumpNode.Fits JumpNode.width at hfits
      cases hk : n.kind <;> rw [hk] at hfits <;> exact if_neg hfits

theorem patch_of_offset {n : JumpNode} {offset : Int} (h : t.offset? r n = some offset)
    (hfits : n.Fits offset) :
    t.patch r method n = modify fun out => { out with code := n.fill offset out.code } := by
  unfold offset? at h
  obtain ⟨java, hd, rfl⟩ := Option.map_eq_some_iff.mp h
  unfold JumpNode.Fits JumpNode.width at hfits
  unfold patch JumpNode.fill
  rw [hd]
  simp only
  cases hk : n.kind <;> rw [hk] at hfits <;> exact if_pos hfits

-- A jump is filled in or fails.
theorem fault?_eq_none {n : JumpNode} (h : t.fault? r method n = none) :
    ∃ offset, t.offset? r n = some offset ∧ n.Fits offset := by
  unfold fault? at h
  split at h
  · cases h
  · rename_i offset ho
    split at h
    · exact ⟨offset, ho, ‹_›⟩
    · cases h

-- The code with the offsets of some jumps in their operands.
def fillAll (t : JumpTable) (r : Relocation) (ns : List JumpNode) (code : Bytes) : Bytes :=
  ns.foldl (fun code n => n.fill ((t.offset? r n).getD 0) code) code

-- The first jump that fails decides; if there is none, all operands are filled in.
theorem run_forM_patch (ns : List JumpNode) (out : CodeBuffer) :
    ∃ out', (ns.forM (t.patch r method)).run out =
      match ns.findSome? (t.fault? r method) with
      | some e => .error e out'
      | none => .ok () { out with code := t.fillAll r ns out.code } := by
  induction ns generalizing out with
  | nil => exact ⟨out, rfl⟩
  | cons n ns ih =>
    have hcons : (n :: ns).forM (t.patch r method) =
        (t.patch r method n >>= fun _ => ns.forM (t.patch r method)) := rfl
    cases hf : t.fault? r method n with
    | some e =>
      refine ⟨out, ?_⟩
      rw [List.findSome?_cons, hf, hcons, patch_of_fault hf]
      rfl
    | none =>
      obtain ⟨offset, ho, hfits⟩ := fault?_eq_none hf
      obtain ⟨out', hrest⟩ := ih { out with code := n.fill offset out.code }
      refine ⟨out', ?_⟩
      rw [List.findSome?_cons, hf, hcons, patch_of_offset ho hfits]
      change (ns.forM (t.patch r method)).run { out with code := n.fill offset out.code } = _
      rw [hrest, fillAll, fillAll, List.foldl_cons, ho]
      rfl

@[simp] theorem size_fillAll (ns : List JumpNode) (code : Bytes) :
    (t.fillAll r ns code).size = code.size := by
  induction ns generalizing code with
  | nil => rfl
  | cons n ns ih =>
    rw [fillAll, List.foldl_cons]
    exact (ih _).trans JumpNode.size_fill

-- Only operands change.
theorem getElem?_fillAll {ns : List JumpNode} {k : Nat} (h : ∀ n ∈ ns, n.Avoids k) (code : Bytes) :
    (t.fillAll r ns code)[k]? = code[k]? := by
  induction ns generalizing code with
  | nil => rfl
  | cons n ns ih =>
    rw [fillAll, List.foldl_cons]
    refine (ih (fun m hm => h m (List.mem_cons_of_mem _ hm)) _).trans ?_
    exact JumpNode.getElem?_fill (h n List.mem_cons_self)

-- Every operand holds its offset in the end: later ones do not touch it.
theorem stored?_fillAll {ns : List JumpNode} (hordered : Ordered ns) {code : Bytes}
    (hsize : ∀ n ∈ ns, n.operand + n.width ≤ code.size)
    (hgood : ∀ n ∈ ns, t.fault? r method n = none) {n : JumpNode} (hn : n ∈ ns) :
    ∃ offset, t.offset? r n = some offset ∧ n.stored? (t.fillAll r ns code) = some offset := by
  induction ns generalizing code with
  | nil => cases hn
  | cons m ns ih =>
    obtain ⟨hfirst, hordered⟩ := List.pairwise_cons.mp hordered
    have hrest : ∀ n ∈ ns, t.fault? r method n = none :=
      fun n hn => hgood n (List.mem_cons_of_mem _ hn)
    obtain rfl | hn := List.mem_cons.mp hn
    · obtain ⟨offset, ho, hfits⟩ := fault?_eq_none (hgood n List.mem_cons_self)
      refine ⟨offset, ho, ?_⟩
      rw [fillAll, List.foldl_cons, ho]
      refine (JumpNode.stored?_congr ?_).trans
        (JumpNode.stored?_fill hfits (hsize n List.mem_cons_self))
      intro k hk
      refine getElem?_fillAll (fun b hb => .inl ?_) _
      have := (hfirst b hb).1
      omega
    · refine ih hordered ?_ hrest hn
      intro b hb
      rw [JumpNode.size_fill]
      exact hsize b (List.mem_cons_of_mem _ hb)

end JumpTable

end PodCompiler.Lowering
