import PodCompiler.Lowering.Layout
import PodCompiler.Proofs.Bytes

namespace PodCompiler.Lowering

open ClassFile (CodeBuffer)

-- The bytes of the operand of a jump.
def JumpNode.width (n : JumpNode) : Nat :=
  match n.kind with
  | .switch => 4
  | .branch | .finally_ => 2

namespace Item

-- The place of the first target of a table switch that is written at `pos`, behind the conversion
-- of its value, its opcode, the padding and three words.
def switchOperand (pos : Nat) : Nat :=
  pos + 2 + ClassFile.Op.switchPad (pos + 1) + 12

-- The bytes of a table switch, with placeholders for its targets.
def switchRaw (pos : Nat) (targets : List UInt16) : List UInt8 :=
  let pad := ClassFile.Op.switchPad (pos + 1)
  [ClassFile.Op.l2i, ClassFile.Op.tableSwitch] ++ List.replicate pad 0 ++
    (Bytes.be4 (1 + pad + 12 + targets.length * 4).toUInt32).toList ++ (Bytes.be4 0).toList ++
    (Bytes.be4 (targets.length - 1).toUInt32).toList ++
    targets.flatMap fun _ => (Bytes.be4 0xFFFFFFFF).toList

-- The shortest instruction on a slot.
def localRaw (compact general : UInt8) (slot : UInt16) : List UInt8 :=
  if slot ≤ 3 then [compact + slot.toUInt8]
  else if slot ≤ 0xFF then [general, slot.toUInt8]
  else ClassFile.Op.wide :: general :: (Bytes.be2 slot).toList

def loadRaw (t : StackType) (slot : UInt16) : List UInt8 :=
  (({} : CodeBuffer).loadVar t slot).code.toList

def storeRaw (t : StackType) (slot : UInt16) : List UInt8 :=
  (({} : CodeBuffer).storeVar t slot).code.toList

-- The bytes of an item that is written at `pos`, with placeholders for the targets of jumps.
def raw (pos : Nat) : Item UInt16 → List UInt8
  | .op o => [o]
  | .byte o x => [o, x]
  | .const o r => o :: (Bytes.be2 r).toList
  | .interface r slots => ClassFile.Op.invokeInterface :: (Bytes.be2 r).toList ++ [slots, 0]
  | .load t slot => loadRaw t slot
  | .store t slot => storeRaw t slot
  | .onSlot o slot => (({} : CodeBuffer).slotOp o slot).code.toList
  | .hop o distance => o :: (Bytes.be2 distance).toList
  | .jump _ o _ => o :: (Bytes.be2 0xFFFF).toList
  | .switch targets => if targets.isEmpty then [ClassFile.Op.pop2] else switchRaw pos targets
  | .mark _ | .reserve _ | .enter | .leave .. => []

-- The jumps in an item that is written at `pos` in a scope.
def nodes (scope pos : Nat) : Item UInt16 → List JumpNode
  | .jump kind _ target => [{ target, origin := pos, operand := pos + 1, kind, scope }]
  | .switch targets => Layout.switchNodes scope (pos + 1) (switchOperand pos) targets
  | _ => []

end Item

section Buffer

variable (b : CodeBuffer)

@[simp] theorem code_u1 (v : UInt8) : (b.u1 v).code.toList = b.code.toList ++ [v] := by
  simp [CodeBuffer.u1, Bytes.put1]

@[simp] theorem code_u2 (v : UInt16) :
    (b.u2 v).code.toList = b.code.toList ++ (Bytes.be2 v).toList := by
  simp [CodeBuffer.u2, Bytes.put2]

@[simp] theorem code_u4 (v : UInt32) :
    (b.u4 v).code.toList = b.code.toList ++ (Bytes.be4 v).toList := by
  simp [CodeBuffer.u4, Bytes.put4]

@[simp] theorem code_op (o : UInt8) : (b.op o).code.toList = b.code.toList ++ [o] :=
  code_u1 b o

@[simp] theorem code_op1 (o x : UInt8) : (b.op1 o x).code.toList = b.code.toList ++ [o, x] := by
  simp [CodeBuffer.op1]

@[simp] theorem code_op2 (o : UInt8) (x : UInt16) :
    (b.op2 o x).code.toList = b.code.toList ++ o :: (Bytes.be2 x).toList := by
  simp [CodeBuffer.op2]

@[simp] theorem code_pad4 :
    b.pad4.code.toList = b.code.toList ++ List.replicate b.padding 0 := by
  simp [CodeBuffer.pad4]

theorem pos_eq_length : b.pos = b.code.toList.length := by
  simp [CodeBuffer.pos]

theorem code_localOp (compact general : UInt8) (slot : UInt16) :
    (b.localOp compact general slot).code.toList =
      b.code.toList ++ Item.localRaw compact general slot := by
  unfold CodeBuffer.localOp Item.localRaw
  split
  · simp
  · split <;> simp

theorem code_loadVar (t : StackType) (slot : UInt16) :
    (b.loadVar t slot).code.toList = b.code.toList ++ Item.loadRaw t slot := by
  unfold Item.loadRaw
  cases t <;> simp [CodeBuffer.loadVar, code_localOp]

theorem code_storeVar (t : StackType) (slot : UInt16) :
    (b.storeVar t slot).code.toList = b.code.toList ++ Item.storeRaw t slot := by
  unfold Item.storeRaw
  cases t <;> simp [CodeBuffer.storeVar, code_localOp]

theorem code_slotOp (o : UInt8) (slot : UInt16) :
    (b.slotOp o slot).code.toList =
      b.code.toList ++ (({} : CodeBuffer).slotOp o slot).code.toList := by
  unfold CodeBuffer.slotOp
  split <;> simp

-- The placeholders of a switch.
theorem code_placeholders (targets : List UInt16) :
    (targets.foldl (fun out _ => out.u4 0xFFFFFFFF) b).code.toList =
      b.code.toList ++ targets.flatMap fun _ => (Bytes.be4 0xFFFFFFFF).toList := by
  induction targets generalizing b with
  | nil => simp
  | cons t rest ih =>
    rw [List.foldl_cons, ih, List.flatMap_cons]
    simp

end Buffer

namespace Layout

open Item

variable (l : Layout)

-- What a switch writes, and what it notes.
theorem putSwitch_eq {targets : List UInt16} (h : targets ≠ []) :
    (l.putSwitch targets).out.code.toList = l.out.code.toList ++ switchRaw l.out.pos targets ∧
      (l.putSwitch targets).jumps.toList =
        l.jumps.toList ++ switchNodes l.scope (l.out.pos + 1) (switchOperand l.out.pos) targets := by
  have hempty : ¬targets.isEmpty := by simpa using h
  have horigin : (l.out.op ClassFile.Op.l2i).pos = l.out.pos + 1 := by
    simp [pos_eq_length]
  have hpad : ((l.out.op ClassFile.Op.l2i).op ClassFile.Op.tableSwitch).padding =
      ClassFile.Op.switchPad (l.out.pos + 1) := by
    rw [CodeBuffer.padding, ClassFile.Op.switchPad, ← horigin]
    simp [pos_eq_length]
  unfold putSwitch
  rw [if_neg hempty]
  dsimp only
  rw [hpad, horigin]
  constructor
  · rw [code_placeholders]
    simp [hpad, switchRaw]
  · have hoperand : (((((l.out.op ClassFile.Op.l2i).op ClassFile.Op.tableSwitch).pad4.u4
        (1 + ClassFile.Op.switchPad (l.out.pos + 1) + 12 + targets.length * 4).toUInt32).u4 0).u4
        (targets.length - 1).toUInt32).pos = switchOperand l.out.pos := by
      simp [pos_eq_length, hpad, switchOperand]
      omega
    rw [hoperand]
    simp

theorem code_put (item : Item UInt16) :
    (l.put item).out.code.toList = l.out.code.toList ++ item.raw l.out.pos := by
  cases item with
  | load t slot => exact code_loadVar l.out t slot
  | store t slot => exact code_storeVar l.out t slot
  | onSlot o slot => exact code_slotOp l.out o slot
  | switch targets =>
    by_cases h : targets = []
    · subst h
      simp [put, putSwitch, raw]
    · rw [put, (l.putSwitch_eq h).1, raw, if_neg (by simpa using h)]
  | leave site finallyStart stop =>
    rw [put, leave, raw]
    split <;> simp
  | _ => simp [put, enter, raw, CodeBuffer.branch]

theorem jumps_put (item : Item UInt16) :
    (l.put item).jumps.toList = l.jumps.toList ++ item.nodes l.scope l.out.pos := by
  cases item with
  | switch targets =>
    by_cases h : targets = []
    · subst h
      simp [put, putSwitch, nodes, switchNodes]
    · rw [put, (l.putSwitch_eq h).2, nodes]
  | leave site finallyStart stop =>
    simp only [put, leave, nodes, List.append_nil]
    split <;> rfl
  | _ => simp [put, enter, nodes]

theorem pos_put (item : Item UInt16) :
    (l.put item).out.pos = l.out.pos + (item.raw l.out.pos).length := by
  rw [pos_eq_length, code_put, List.length_append, ← pos_eq_length]

end Layout

-- Operands between two positions, each behind the place that its offset counts from.
def Within (lo hi : Nat) (ns : List JumpNode) : Prop :=
  ∀ n ∈ ns, lo ≤ n.origin ∧ n.origin < n.operand ∧ n.operand + n.width ≤ hi

-- Operands that stand one behind the other. Those of one table switch count from the same place;
-- all others count from a place behind the operands before them.
def Ordered (ns : List JumpNode) : Prop :=
  ns.Pairwise fun a b => a.operand + a.width ≤ b.operand ∧
    (a.operand + a.width ≤ b.origin ∨ a.origin = b.origin)

theorem Within.mono {lo lo' hi hi' : Nat} {ns : List JumpNode} (h : Within lo hi ns)
    (hlo : lo' ≤ lo) (hhi : hi ≤ hi') : Within lo' hi' ns := by
  intro n hn
  have := h n hn
  omega

theorem Within.append {lo mid hi : Nat} {ms ns : List JumpNode} (hm : Within lo mid ms)
    (hn : Within mid hi ns) (hlo : lo ≤ mid) (hhi : mid ≤ hi) : Within lo hi (ms ++ ns) := by
  intro n h
  obtain h | h := List.mem_append.mp h
  · exact hm.mono (Nat.le_refl lo) hhi n h
  · exact hn.mono hlo (Nat.le_refl hi) n h

theorem Ordered.append {lo mid hi : Nat} {ms ns : List JumpNode} (hms : Ordered ms)
    (hns : Ordered ns) (hm : Within lo mid ms) (hn : Within mid hi ns) : Ordered (ms ++ ns) := by
  refine List.pairwise_append.mpr ⟨hms, hns, ?_⟩
  intro a ha b hb
  have := hm a ha
  have := hn b hb
  omega

namespace Item

variable {scope origin operand pos : Nat} {targets : List UInt16}

theorem mem_switchNodes {n : JumpNode}
    (h : n ∈ Layout.switchNodes scope origin operand targets) :
    n.origin = origin ∧ n.kind = .switch ∧ n.scope = scope ∧ operand ≤ n.operand ∧
      n.operand + 4 ≤ operand + 4 * targets.length := by
  induction targets generalizing operand with
  | nil => simp [Layout.switchNodes] at h
  | cons t rest ih =>
    rw [Layout.switchNodes, List.mem_cons] at h
    rw [List.length_cons]
    obtain rfl | h := h
    · refine ⟨rfl, rfl, rfl, Nat.le_refl _, ?_⟩
      dsimp only
      omega
    · obtain ⟨ho, hk, hs, hle, hlt⟩ := ih h
      exact ⟨ho, hk, hs, by omega, by omega⟩

theorem ordered_switchNodes : Ordered (Layout.switchNodes scope origin operand targets) := by
  induction targets generalizing operand with
  | nil => exact List.Pairwise.nil
  | cons t rest ih =>
    refine List.pairwise_cons.mpr ⟨?_, ih⟩
    intro n hn
    obtain ⟨ho, -, -, hle, -⟩ := mem_switchNodes hn
    exact ⟨hle, .inr ho.symm⟩

theorem length_switchRaw : (switchRaw pos targets).length =
    2 + ClassFile.Op.switchPad (pos + 1) + 12 + 4 * targets.length := by
  have hplaceholders : ∀ ts : List UInt16,
      (ts.flatMap fun _ => (Bytes.be4 0xFFFFFFFF).toList).length = 4 * ts.length := by
    intro ts
    induction ts with
    | nil => rfl
    | cons t rest ih =>
      rw [List.flatMap_cons, List.length_append, ih, List.length_cons, Array.length_toList,
        Bytes.size_be4]
      omega
  simp only [switchRaw, List.length_append, List.length_replicate, Array.length_toList,
    Bytes.size_be4, hplaceholders]
  simp

-- A jump into the method is made by an instruction that takes an offset of two bytes.
def Regular : Item UInt16 → Prop
  | .jump kind o _ => kind ≠ .switch ∧ ClassFile.Op.isBranch o = true
  | _ => True

-- The jumps of an item lie in its bytes.
theorem within_nodes {item : Item UInt16} (hr : item.Regular) (scope pos : Nat) :
    Within pos (pos + (item.raw pos).length) (item.nodes scope pos) := by
  intro n hn
  cases item with
  | jump kind o target =>
    rw [nodes, List.mem_singleton] at hn
    subst hn
    have hwidth : ({ target, origin := pos, operand := pos + 1, kind, scope } : JumpNode).width = 2 := by
      cases kind with
      | switch => exact absurd rfl hr.1
      | branch | finally_ => rfl
    rw [hwidth]
    simp [raw]
  | switch targets =>
    rw [nodes] at hn
    obtain ⟨ho, hk, -, hle, hlt⟩ := mem_switchNodes hn
    have hne : ¬targets.isEmpty := by
      intro he
      simp [List.isEmpty_iff.mp he, Layout.switchNodes] at hn
    have hwidth : n.width = 4 := by rw [JumpNode.width, hk]
    rw [raw, if_neg hne, length_switchRaw, hwidth, ho]
    simp only [switchOperand] at hle hlt
    omega
  | _ => simp [nodes] at hn

theorem ordered_nodes (item : Item UInt16) (scope pos : Nat) : Ordered (item.nodes scope pos) := by
  cases item with
  | jump kind o target => exact List.pairwise_singleton _ _
  | switch targets => exact ordered_switchNodes
  | _ => exact List.Pairwise.nil

-- The instruction that an offset counts from.
def originOp (n : JumpNode) (o : UInt8) : Prop :=
  match n.kind with
  | .switch => o = ClassFile.Op.tableSwitch
  | .branch | .finally_ => ClassFile.Op.isBranch o = true ∧ n.operand = n.origin + 1

theorem originOp_nodes {item : Item UInt16} (hr : item.Regular) {scope pos : Nat} {n : JumpNode}
    (hn : n ∈ item.nodes scope pos) :
    n.scope = scope ∧ ∃ o, (item.raw pos)[n.origin - pos]? = some o ∧ originOp n o := by
  cases item with
  | jump kind o target =>
    rw [nodes, List.mem_singleton] at hn
    subst hn
    refine ⟨rfl, o, ?_, ?_⟩
    · rw [raw, Nat.sub_self, List.getElem?_cons_zero]
    cases kind with
    | switch => exact absurd rfl hr.1
    | branch | finally_ => exact ⟨hr.2, rfl⟩
  | switch targets =>
    rw [nodes] at hn
    obtain ⟨ho, hk, hs, -, -⟩ := mem_switchNodes hn
    have hne : ¬targets.isEmpty := by
      intro he
      simp [List.isEmpty_iff.mp he, Layout.switchNodes] at hn
    refine ⟨hs, ClassFile.Op.tableSwitch, ?_, by rw [originOp, hk]⟩
    rw [raw, if_neg hne, ho, Nat.add_sub_cancel_left]
    simp [switchRaw]
  | _ => simp [nodes] at hn

end Item

namespace Layout

-- Writes items one after the other.
def puts (l : Layout) (items : List (Item UInt16)) : Layout :=
  items.foldl put l

theorem putAll_eq (l : Layout) (items : List (Item UInt16)) :
    l.putAll items.toArray = l.puts items := by
  simp [putAll, puts]

theorem put_enter (l : Layout) : l.put .enter = l.enter := rfl

theorem put_leave (l : Layout) (site finallyStart stop : Nat) :
    l.put (.leave site finallyStart stop) = l.leave site finallyStart stop := rfl

theorem puts_nil (l : Layout) : l.puts [] = l := rfl

theorem puts_cons (l : Layout) (item : Item UInt16) (items : List (Item UInt16)) :
    l.puts (item :: items) = (l.put item).puts items := rfl

theorem puts_append (l : Layout) (xs ys : List (Item UInt16)) :
    l.puts (xs ++ ys) = (l.puts xs).puts ys := List.foldl_append

-- Code only grows at its end.
theorem code_puts (l : Layout) (items : List (Item UInt16)) :
    ∃ bs, (l.puts items).out.code.toList = l.out.code.toList ++ bs := by
  induction items generalizing l with
  | nil => exact ⟨[], by simp [puts_nil]⟩
  | cons item rest ih =>
    obtain ⟨bs, hbs⟩ := ih (l.put item)
    rw [puts_cons, hbs, code_put, List.append_assoc]
    exact ⟨_, rfl⟩

theorem pos_le_puts (l : Layout) (items : List (Item UInt16)) :
    l.out.pos ≤ (l.puts items).out.pos := by
  obtain ⟨bs, hbs⟩ := l.code_puts items
  rw [pos_eq_length, pos_eq_length, hbs, List.length_append]
  exact Nat.le_add_right _ _

theorem getElem?_puts {l : Layout} {items : List (Item UInt16)} {k : Nat} (hk : k < l.out.pos) :
    (l.puts items).out.code[k]? = l.out.code[k]? := by
  obtain ⟨bs, hbs⟩ := l.code_puts items
  rw [pos_eq_length] at hk
  rw [← Array.getElem?_toList, hbs, List.getElem?_append_left hk, Array.getElem?_toList]

-- The bytes of each item stand where it was written.
theorem spells_puts (l : Layout) (item : Item UInt16) (rest : List (Item UInt16)) :
    (l.puts (item :: rest)).out.code.Spells l.out.pos (item.raw l.out.pos) := by
  intro i hi
  have hpos := l.pos_put item
  rw [puts_cons, getElem?_puts (by omega), ← Array.getElem?_toList, code_put, pos_eq_length,
    List.getElem?_append_right (Nat.le_add_right _ _), Nat.add_sub_cancel_left]

-- The jumps of items lie in the code of the items, one behind the other, each with its instruction.
theorem jumps_puts (l : Layout) {items : List (Item UInt16)} (hr : ∀ i ∈ items, i.Regular) :
    ∃ ns, (l.puts items).jumps.toList = l.jumps.toList ++ ns ∧
      Within l.out.pos (l.puts items).out.pos ns ∧ Ordered ns ∧
      ∀ n ∈ ns, ∃ o, (l.puts items).out.code[n.origin]? = some o ∧ Item.originOp n o := by
  induction items generalizing l with
  | nil => exact ⟨[], by simp [puts_nil], by simp [Within], List.Pairwise.nil, by simp⟩
  | cons item rest ih =>
    obtain ⟨ns, hns, hwithin, hordered, horigin⟩ :=
      ih (l.put item) (fun i hi => hr i (List.mem_cons_of_mem _ hi))
    have hitem := hr item List.mem_cons_self
    have hown := Item.within_nodes hitem l.scope l.out.pos
    have hpos := l.pos_put item
    have hle := (l.put item).pos_le_puts rest
    rw [← hpos] at hown
    refine ⟨item.nodes l.scope l.out.pos ++ ns, ?_, ?_, ?_, ?_⟩
    · rw [puts_cons, hns, jumps_put, List.append_assoc]
    · exact hown.append hwithin (by omega) hle
    · exact (Item.ordered_nodes item _ _).append hordered hown hwithin
    · intro n hn
      obtain hn | hn := List.mem_append.mp hn
      · obtain ⟨-, o, ho, hop⟩ := Item.originOp_nodes hitem hn
        have hspells := l.spells_puts item rest
        have hbounds := hown n hn
        have hlt : n.origin - l.out.pos < (item.raw l.out.pos).length :=
          (List.getElem?_eq_some_iff.mp ho).1
        have hbyte := hspells _ hlt
        rw [ho, Nat.add_sub_of_le hbounds.1] at hbyte
        exact ⟨o, hbyte, hop⟩
      · exact horigin n hn

end Layout

end PodCompiler.Lowering
