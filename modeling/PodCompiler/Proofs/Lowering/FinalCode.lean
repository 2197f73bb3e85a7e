import PodCompiler.Proofs.Jvm.Machine
import PodCompiler.Proofs.Lowering.RelocationExact

namespace PodCompiler.Lowering

open ClassFile (CodeBuffer)
open ClassFile.Op
open Jvm (Form Instruction Kind fetch)

-- The jumps of a layout are those of an item, or lie before it or behind it.
theorem Layout.jumps_around {l : Layout} (hl : l.jumps = #[]) {pre post : List (Item UInt16)}
    {x : Item UInt16} (hr : ∀ y ∈ pre ++ x :: post, y.Regular) {n : JumpNode}
    (hn : n ∈ (l.puts (pre ++ x :: post)).jumps.toList) :
    n ∈ x.nodes (l.puts pre).scope (l.puts pre).out.pos ∨
      n.operand + n.width ≤ (l.puts pre).out.pos ∨
      (l.puts pre).out.pos + (x.raw (l.puts pre).out.pos).length ≤ n.operand := by
  have hpre : ∀ y ∈ pre, y.Regular := fun y hy => hr y (List.mem_append_left _ hy)
  have hpost : ∀ y ∈ post, y.Regular :=
    fun y hy => hr y (List.mem_append_right _ (List.mem_cons_of_mem _ hy))
  obtain ⟨ms, hms, hbefore, -, -⟩ := l.jumps_puts hpre
  obtain ⟨ns, hns, hbehind, -, -⟩ := ((l.puts pre).put x).jumps_puts hpost
  rw [puts_append, puts_cons, hns, jumps_put, hms, hl] at hn
  rw [pos_put] at hbehind
  simp only [List.nil_append, List.mem_append] at hn
  obtain (hn | hn) | hn := hn
  · exact .inr (.inl (hbefore n hn).2.2)
  · exact .inl hn
  · have := hbehind n hn
    exact .inr (.inr (by omega))

-- A method that is lowered to the items of `body` and to the code of `mc`.
structure Lowered (env : ClassEnv) (f : Frame) (code : Bytes) (out : CodeBuffer)
    (c c₁ : OpenClass) (body : BodyState) (mc : MethodCode) : Prop where
  emits : emitBody f code {} env c = .ok ((), body) c₁
  filled : mc.Exact code (body.layout code out) body.finallies.prologue

-- The items stand at a position, with the scope open, and end the body.
def BodyState.Stands (body : BodyState) (code : Bytes) (out : CodeBuffer) (s pos : Nat)
    (items : List (Item UInt16)) : Prop :=
  ∃ pre, body.items.toList = pre ++ items ∧ ((Layout.start out code.size).puts pre).scope = s ∧
    ((Layout.start out code.size).puts pre).out.pos = pos

-- What stands behind an item that opens and closes no scope.
theorem BodyState.Stands.tail {body : BodyState} {code : Bytes} {out : CodeBuffer} {s pos : Nat}
    {x : Item UInt16} {rest : List (Item UInt16)} (h : body.Stands code out s pos (x :: rest))
    (hx : ∀ l : Layout, (l.put x).scope = l.scope) :
    body.Stands code out s (pos + (x.raw pos).length) rest := by
  obtain ⟨pre, hitems, hscope, hpos⟩ := h
  refine ⟨pre ++ [x], by simp [hitems], ?_, ?_⟩
  · rw [Layout.puts_append]
    exact (hx _).trans hscope
  · rw [Layout.puts_append, ← hpos]
    exact Layout.pos_put _ x

-- A mark takes no room.
theorem BodyState.Stands.unmark {body : BodyState} {code : Bytes} {out : CodeBuffer}
    {s pos q : Nat} {rest : List (Item UInt16)} (h : body.Stands code out s pos (.mark q :: rest)) :
    body.Stands code out s pos rest :=
  h.tail fun _ => rfl

section Final

variable {env : ClassEnv} {f : Frame} {code : Bytes} {out : CodeBuffer} {c c₁ : OpenClass}
  {body : BodyState} {mc : MethodCode} {s pos q : Nat} {x : Item UInt16}
  {rest : List (Item UInt16)}

theorem lowered_of_lowerCode {attrs : Pod.Attributes} {c' : OpenClass}
    (h : lowerCode f code attrs out env c = .ok mc c') :
    ∃ body c₁, Lowered env f code out c c₁ body mc := by
  obtain ⟨p, c₁, hp, hcode, hreloc, hjumps⟩ := lowerCode_eq_ok h
  obtain ⟨body, hbody, hexact⟩ := exact_of_placed hp hcode hreloc hjumps
  exact ⟨body, c₁, hbody, hexact⟩

-- Where a position is noted next, a scope knows it.
theorem Lowered.note_of_stands (hl : Lowered env f code out c c₁ body mc)
    (hx : body.Stands code out s pos rest) (hnext : NotesNext q rest) :
    (body.layout code out).reloc.getLocal s q = some pos := by
  obtain ⟨pre, hitems, rfl, rfl⟩ := hx
  obtain ⟨item, more, rfl, hitem⟩ := hnext
  exact layout_note out hl.emits hitems hitem

-- An instruction that neither compares, nor is a conditional jump, nor has to do with finally blocks
-- stands on its own wherever a scope knows it.
theorem Lowered.stands_between (hl : Lowered env f code out c c₁ body mc) {i : Instr}
    (hq : (body.layout code out).reloc.getLocal s q = some pos)
    (hi : Instr.decodeAt code q = .ok i) (hcompare : isComparison i.op = false)
    (hsense : Following.sense? i.op = none) (hend : i.op ≠ .finallyEnd)
    (hcopy : i.op ≠ .jumpFinally) :
    ∃ next e e₁ own more, Onward env f ⟨{}, c⟩ e ∧ Emits env f i next e false own e₁ ∧
      Onward env f e₁ ⟨body.finallies, c₁⟩ ∧ NotesNext (q + i.size) more ∧
      body.Stands code out s pos (own ++ more) := by
  obtain hop | ⟨pre, post, hitems, hscope, hpos, hsite⟩ := layout_site out hl.emits hq hi
  · exact absurd hop hend
  cases hsite with
  | @one i' next e e₁ _ own more hi' hown _ hmore hfirst hlast =>
    rw [hi] at hi'
    cases hi'
    have hx : body.Stands code out s pos (.mark q :: (own ++ more)) := ⟨pre, hitems, hscope, hpos⟩
    exact ⟨next, e, e₁, own, more, hfirst, hown, hlast, hmore, hx.unmark⟩
  | fused hi' _ hown _ _ _ =>
    rw [hi] at hi'
    cases hi'
    rw [hown.isComparison] at hcompare
    cases hcompare
  | swallowed _ _ hi' hown _ =>
    rw [hi] at hi'
    cases hi'
    obtain ⟨sense, target, _, _, hnext, -, -, -⟩ := hown.shape.of_mark
    obtain ⟨j, rest, hj, -, -, hsense'⟩ := ofRest_eq_jump hnext
    cases hj
    rw [hsense] at hsense'
    cases hsense'
  | copy hi' hop _ =>
    rw [hi] at hi'
    cases hi'
    exact absurd hop hcopy

theorem Lowered.stands_alone (hl : Lowered env f code out c c₁ body mc) {i : Instr}
    (hq : (body.layout code out).reloc.getLocal s q = some pos)
    (hi : Instr.decodeAt code q = .ok i) (hcompare : isComparison i.op = false)
    (hsense : Following.sense? i.op = none) (hend : i.op ≠ .finallyEnd)
    (hcopy : i.op ≠ .jumpFinally) :
    ∃ next e e₁ own more, Emits env f i next e false own e₁ ∧
      Onward env f e₁ ⟨body.finallies, c₁⟩ ∧ NotesNext (q + i.size) more ∧
      body.Stands code out s pos (own ++ more) := by
  obtain ⟨next, e, e₁, own, more, -, hown, hlast, hmore, hx⟩ :=
    hl.stands_between hq hi hcompare hsense hend hcopy
  exact ⟨next, e, e₁, own, more, hown, hlast, hmore, hx⟩

-- A byte of an item that is in no operand of it.
theorem Lowered.getElem?_item (hl : Lowered env f code out c c₁ body mc)
    (hx : body.Stands code out s pos (x :: rest)) {k : Nat} (hk : k < (x.raw pos).length)
    (hown : ∀ n ∈ x.nodes s pos, n.Avoids (pos + k)) :
    mc.code.code[pos + k]? = (x.raw pos)[k]? := by
  obtain ⟨pre, hitems, rfl, rfl⟩ := hx
  have hregular := regular_of_emitBody hl.emits
  rw [hl.filled.unchanged _ ?_, body.layout_eq, hitems, Layout.puts_append]
  · exact ((Layout.start out code.size).puts pre).spells_puts x rest k hk
  intro n hn
  have hn : n ∈ (body.layout code out).jumps.toList := by
    rw [hl.filled.jumps] at hn
    exact Array.mem_toList_iff.mpr hn
  rw [body.layout_eq, hitems] at hn
  rw [hitems] at hregular
  obtain hn | hn | hn := Layout.jumps_around rfl hregular hn
  · exact hown n hn
  · exact .inr (by omega)
  · exact .inl (by omega)

-- An item without jumps is there as it was written.
theorem Lowered.spells (hl : Lowered env f code out c c₁ body mc)
    (hx : body.Stands code out s pos (x :: rest)) (hnodes : x.nodes s pos = []) :
    mc.code.code.Spells pos (x.raw pos) := by
  intro k hk
  refine hl.getElem?_item hx hk ?_
  simp [hnodes]

-- Each jump of an item holds an offset, which leads to its target.
theorem Lowered.reaches (hl : Lowered env f code out c c₁ body mc)
    (hx : body.Stands code out s pos (x :: rest)) {n : JumpNode} (hn : n ∈ x.nodes s pos) :
    ∃ offset, n.stored? mc.code.code = some offset ∧
      n.Reaches (body.layout code out).reloc body.finallies.prologue offset := by
  obtain ⟨pre, hitems, rfl, rfl⟩ := hx
  have hpart := (Layout.start out code.size).nodes_isInfix pre x rest
  rw [← hitems, ← body.layout_eq] at hpart
  have hmem : n ∈ mc.jumps := by
    rw [hl.filled.jumps]
    exact Array.mem_toList_iff.mp (hpart.subset hn)
  exact hl.filled.targets n hmem

theorem Lowered.target (hl : Lowered env f code out c c₁ body mc)
    (hx : body.Stands code out s pos (x :: rest)) {n : JumpNode} (hn : n ∈ x.nodes s pos)
    (hkind : n.kind ≠ .finally_) :
    ∃ (offset : Int) (dest : Nat), n.stored? mc.code.code = some offset ∧
      (body.layout code out).reloc.Finds n.target.toNat n.scope dest ∧
      n.origin + offset = dest := by
  obtain ⟨offset, hstored, dest, hfinds, hoffset⟩ := hl.reaches hx hn
  rw [if_neg hkind] at hoffset
  exact ⟨offset, dest, hstored, hfinds, hoffset⟩

-- An instruction without operands.
theorem Lowered.fetch_op (hl : Lowered env f code out c c₁ body mc) {o : UInt8}
    (hx : body.Stands code out s pos (.op o :: rest)) {i : Instruction}
    (hi : Form.ofOp? o = some (.plain i)) : fetch mc.code.code pos = some (i, pos + 1) := by
  have hspells := hl.spells hx rfl
  exact Jvm.fetch_plain (Bytes.spells_cons.mp hspells).1 hi

-- An instruction on a constant.
theorem Lowered.fetch_const (hl : Lowered env f code out c c₁ body mc) {o : UInt8} {r : UInt16}
    (hx : body.Stands code out s pos (.const o r :: rest)) {i : UInt16 → Instruction}
    (hi : Form.ofOp? o = some (.pool i)) : fetch mc.code.code pos = some (i r, pos + 3) := by
  have hspells := hl.spells hx rfl
  obtain ⟨ho, hr⟩ := Bytes.spells_cons.mp hspells
  exact Jvm.fetch_pool ho hi (Bytes.be2?_of_spells hr)

-- The opcode of a jump stays as it is.
theorem Lowered.getElem?_jump (hl : Lowered env f code out c c₁ body mc) {kind : JumpKind}
    {o : UInt8} {target : UInt16} (hx : body.Stands code out s pos (.jump kind o target :: rest)) :
    mc.code.code[pos]? = some o := by
  refine (hl.getElem?_item hx (Nat.succ_pos _) ?_).trans rfl
  intro n hn
  rw [Item.nodes, List.mem_singleton] at hn
  subst hn
  exact .inl (Nat.lt_succ_self _)

-- A jump leads to its target.
theorem Lowered.fetch_jump (hl : Lowered env f code out c c₁ body mc) {o : UInt8}
    {target : UInt16} (hx : body.Stands code out s pos (.jump .branch o target :: rest))
    {i : Int → Instruction} (hi : Form.ofOp? o = some (.branch i)) :
    ∃ (offset : Int) (dest : Nat), fetch mc.code.code pos = some (i offset, pos + 3) ∧
      (body.layout code out).reloc.Finds target.toNat s dest ∧ pos + offset = dest := by
  have hop := hl.getElem?_jump hx
  obtain ⟨offset, dest, hstored, hfinds, hoffset⟩ :=
    hl.target hx (List.mem_singleton_self _) (by simp)
  obtain ⟨w, hw, rfl⟩ := Option.map_eq_some_iff.mp hstored
  exact ⟨_, dest, Jvm.fetch_branch hop hi hw, hfinds, hoffset⟩

-- The shortest instruction on a slot, in all of its three forms.
theorem fetch_localRaw {bytes : Bytes} {compact general : UInt8} {slot : UInt16}
    {i : Nat → Instruction}
    (hcompact : ∀ n < 4, Form.ofOp? (compact + n.toUInt8) = some (.plain (i n)))
    (hgeneral : Form.ofOp? general = some (.slot i))
    (h : bytes.Spells pos (Item.localRaw compact general slot)) :
    fetch bytes pos = some (i slot.toNat, pos + (Item.localRaw compact general slot).length) := by
  unfold Item.localRaw at h ⊢
  split at h
  · rename_i hle
    have hlt : slot.toNat < 4 := Nat.lt_succ_of_le hle
    have hslot : slot.toUInt8 = slot.toNat.toUInt8 := rfl
    rw [if_pos hle]
    rw [hslot] at h
    exact Jvm.fetch_plain (Bytes.spells_cons.mp h).1 (hcompact _ hlt)
  rename_i hgt
  rw [if_neg hgt]
  split at h
  · rename_i hle
    have hlt : slot.toNat < 256 := Nat.lt_succ_of_le hle
    have hslot : slot.toUInt8.toNat = slot.toNat := by
      rw [UInt16.toNat_toUInt8]
      exact Nat.mod_eq_of_lt hlt
    rw [if_pos hle]
    simp only [Bytes.spells_cons] at h
    rw [← hslot]
    exact Jvm.fetch_slot h.1 hgeneral h.2.1
  · rename_i hbig
    rw [if_neg hbig]
    obtain ⟨hwide, hop, hslot⟩ : bytes[pos]? = some wide ∧ bytes[pos + 1]? = some general ∧
        bytes.Spells (pos + 2) (Bytes.be2 slot).toList := by
      rwa [Bytes.spells_cons, Bytes.spells_cons] at h
    exact Jvm.fetch_wide hwide hop hgeneral (Bytes.be2?_of_spells hslot)

-- The opcodes of a family with a slot from zero to three.
theorem forall_lt_four {p : Nat → Prop} (h₀ : p 0) (h₁ : p 1) (h₂ : p 2) (h₃ : p 3) :
    ∀ n < 4, p n
  | 0, _ => h₀
  | 1, _ => h₁
  | 2, _ => h₂
  | 3, _ => h₃

-- The opcodes that load, and that store, a value of a type.
theorem loadRaw_eq (t : StackType) (slot : UInt16) :
    ∃ compact general, Item.loadRaw t slot = Item.localRaw compact general slot ∧
      (∀ n < 4, Form.ofOp? (compact + n.toUInt8) = some (.plain (.load (.ofStack t) n))) ∧
      Form.ofOp? general = some (.slot (.load (.ofStack t))) := by
  cases t <;> exact ⟨_, _, code_localOp {} _ _ _, forall_lt_four rfl rfl rfl rfl, rfl⟩

theorem storeRaw_eq (t : StackType) (slot : UInt16) :
    ∃ compact general, Item.storeRaw t slot = Item.localRaw compact general slot ∧
      (∀ n < 4, Form.ofOp? (compact + n.toUInt8) = some (.plain (.store (.ofStack t) n))) ∧
      Form.ofOp? general = some (.slot (.store (.ofStack t))) := by
  cases t <;> exact ⟨_, _, code_localOp {} _ _ _, forall_lt_four rfl rfl rfl rfl, rfl⟩

theorem Lowered.fetch_load (hl : Lowered env f code out c c₁ body mc) {t : StackType}
    {slot : UInt16} (hx : body.Stands code out s pos (.load t slot :: rest)) :
    fetch mc.code.code pos = some (.load (.ofStack t) slot.toNat,
      pos + ((Item.load t slot).raw pos).length) := by
  have hspells := hl.spells hx rfl
  obtain ⟨compact, general, hraw, hcompact, hgeneral⟩ := loadRaw_eq t slot
  rw [Item.raw, hraw] at hspells ⊢
  exact fetch_localRaw hcompact hgeneral hspells

theorem Lowered.fetch_store (hl : Lowered env f code out c c₁ body mc) {t : StackType}
    {slot : UInt16} (hx : body.Stands code out s pos (.store t slot :: rest)) :
    fetch mc.code.code pos = some (.store (.ofStack t) slot.toNat,
      pos + ((Item.store t slot).raw pos).length) := by
  have hspells := hl.spells hx rfl
  obtain ⟨compact, general, hraw, hcompact, hgeneral⟩ := storeRaw_eq t slot
  rw [Item.raw, hraw] at hspells ⊢
  exact fetch_localRaw hcompact hgeneral hspells

-- A switch without targets takes its value.
theorem Lowered.fetch_switch_nil (hl : Lowered env f code out c c₁ body mc)
    (hx : body.Stands code out s pos (.switch [] :: rest)) :
    fetch mc.code.code pos = some (.pop2, pos + 1) := by
  have hspells := hl.spells hx rfl
  exact Jvm.fetch_plain (Bytes.spells_cons.mp hspells).1 rfl

-- The jumps of a table switch, in the order of its targets.
theorem switchNodes_getElem? {scope origin operand k : Nat} {targets : List UInt16} {t : UInt16}
    (h : targets[k]? = some t) :
    (Layout.switchNodes scope origin operand targets)[k]? =
      some { target := t, origin, operand := operand + 4 * k, kind := .switch, scope } := by
  induction targets generalizing operand k with
  | nil => simp at h
  | cons u rest ih =>
    cases k with
    | zero =>
      cases h
      rfl
    | succ k =>
      rw [Layout.switchNodes, List.getElem?_cons_succ, ih (by simpa using h)]
      simp only [Option.some.injEq, JumpNode.mk.injEq, true_and, and_true]
      omega

-- A table switch, behind the conversion of its value: what is before its offsets is as it was
-- written.
theorem Lowered.spells_switch_head (hl : Lowered env f code out c c₁ body mc)
    {targets : List UInt16} (hx : body.Stands code out s pos (.switch targets :: rest))
    (hne : targets ≠ []) :
    mc.code.code.Spells pos ([l2i, tableSwitch] ++
      List.replicate (switchPad (pos + 1)) 0 ++
      (Bytes.be4 (1 + switchPad (pos + 1) + 12 + targets.length * 4).toUInt32).toList ++
      (Bytes.be4 0).toList ++ (Bytes.be4 (targets.length - 1).toUInt32).toList) := by
  have hempty : ¬targets.isEmpty = true := by simpa using hne
  have hraw : (Item.switch targets).raw pos = Item.switchRaw pos targets := if_neg hempty
  intro k hk
  have hlt : k < 2 + switchPad (pos + 1) + 12 := by
    simp only [List.length_append, List.length_replicate, List.length_cons, List.length_nil,
      Bytes.size_be4, Array.length_toList] at hk
    omega
  refine (hl.getElem?_item hx ?_ ?_).trans ?_
  · rw [hraw, Item.length_switchRaw]
    omega
  · intro n hn
    obtain ⟨-, -, -, hle, -⟩ := Item.mem_switchNodes hn
    unfold Item.switchOperand at hle
    exact .inl (by omega)
  · rw [hraw, Item.switchRaw, List.getElem?_append_left hk]

theorem Lowered.spells_switch (hl : Lowered env f code out c c₁ body mc) {targets : List UInt16}
    (hx : body.Stands code out s pos (.switch targets :: rest)) (hne : targets ≠ []) :
    mc.code.code[pos]? = some l2i ∧ mc.code.code[pos + 1]? = some tableSwitch ∧
    mc.code.code.Spells (pos + 2 + switchPad (pos + 1))
      (Bytes.be4 (1 + switchPad (pos + 1) + 12 + targets.length * 4).toUInt32).toList ∧
    mc.code.code.Spells (pos + 2 + switchPad (pos + 1) + 4) (Bytes.be4 0).toList ∧
    mc.code.code.Spells (pos + 2 + switchPad (pos + 1) + 4 + 4)
      (Bytes.be4 (targets.length - 1).toUInt32).toList := by
  have hhead := hl.spells_switch_head hx hne
  simp only [Bytes.spells_append, List.length_append, List.length_replicate, List.length_cons,
    List.length_nil, Bytes.size_be4, Array.length_toList, ← Nat.add_assoc, Nat.add_zero] at hhead
  obtain ⟨⟨⟨⟨hops, -⟩, hotherwise⟩, hlow⟩, hhigh⟩ := hhead
  simp only [Bytes.spells_cons] at hops
  exact ⟨hops.1, hops.2.1, hotherwise, hlow, hhigh⟩

-- The bytes between the opcode of a table switch and its words are zeros.
theorem Lowered.switch_padding (hl : Lowered env f code out c c₁ body mc) {targets : List UInt16}
    (hx : body.Stands code out s pos (.switch targets :: rest)) (hne : targets ≠ []) {k : Nat}
    (hk : k < switchPad (pos + 1)) : mc.code.code[pos + 2 + k]? = some 0 := by
  have hhead := hl.spells_switch_head hx hne
  simp only [Bytes.spells_append] at hhead
  obtain ⟨⟨⟨⟨-, hzeros⟩, -⟩, -⟩, -⟩ := hhead
  exact (hzeros k (by simpa using hk)).trans (List.getElem?_replicate_of_lt hk)

-- Each number of a table switch leads to its target.
theorem Lowered.switch_target (hl : Lowered env f code out c c₁ body mc) {targets : List UInt16}
    (hx : body.Stands code out s pos (.switch targets :: rest)) {k : Nat} {t : UInt16}
    (hk : targets[k]? = some t) :
    ∃ (w : UInt32) (dest : Nat), mc.code.code.be4? (Item.switchOperand pos + 4 * k) = some w ∧
      (body.layout code out).reloc.Finds t.toNat s dest ∧
      (pos + 1 : Nat) + w.toInt32.toInt = dest := by
  obtain ⟨offset, dest, hstored, hfinds, hoffset⟩ :=
    hl.target hx (List.mem_of_getElem? (switchNodes_getElem? hk)) (by simp)
  obtain ⟨w, hw, rfl⟩ := Option.map_eq_some_iff.mp hstored
  exact ⟨w, dest, hw, hfinds, hoffset⟩

-- The machine finds the bounds of a table switch, what leads behind it, and for each number an
-- offset that leads to the target.
theorem Lowered.fetch_switch (hl : Lowered env f code out c c₁ body mc) {targets : List UInt16}
    (hx : body.Stands code out s pos (.switch targets :: rest)) (hne : targets ≠ []) :
    fetch mc.code.code pos = some (.toInt, pos + 1) ∧
    (∃ next, fetch mc.code.code (pos + 1) = some (.tableSwitch
      (1 + switchPad (pos + 1) + 12 + targets.length * 4).toUInt32.toInt32.toInt 0
      (targets.length - 1).toUInt32.toInt32.toInt (Item.switchOperand pos), next)) ∧
    ∀ k t, targets[k]? = some t → ∃ (w : UInt32) (dest : Nat),
      mc.code.code.be4? (Item.switchOperand pos + 4 * k) = some w ∧
      (body.layout code out).reloc.Finds t.toNat s dest ∧
      (pos + 1 : Nat) + w.toInt32.toInt = dest := by
  obtain ⟨hconvert, htable, hotherwise, hlow, hhigh⟩ := hl.spells_switch hx hne
  refine ⟨Jvm.fetch_plain hconvert rfl, ⟨_, Jvm.fetch_switch htable
    (Bytes.be4?_of_spells hotherwise) (Bytes.be4?_of_spells hlow) (Bytes.be4?_of_spells hhigh)⟩, ?_⟩
  intro k t hk
  exact hl.switch_target hx hk

end Final

end PodCompiler.Lowering
