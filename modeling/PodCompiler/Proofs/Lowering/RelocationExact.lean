import PodCompiler.Proofs.Lowering.CopyScopes

namespace PodCompiler.Lowering

open ClassFile (CodeBuffer)

-- What the main scope knows is what the map of the method holds.
theorem Relocation.mainMap_eq_some_iff {r : Relocation} {q java : Nat} :
    r.mainMap[q]? = some (some java) ↔ r.getLocal mainScope q = some java := by
  unfold mainMap getLocal
  cases r.scopes[mainScope]? with
  | none => simp
  | some sc => simp [Option.join_eq_some_iff]

-- The jumps of an instruction that is one: its targets in their order.
theorem branch_nodes {i : Instr} {b : Item UInt16} (hb : branchItem? i = some b)
    (hop : i.op ≠ .jumpFinally) (scope pos : Nat) :
    (b.nodes scope pos).map JumpNode.target = branchTargets i ∧
      ∀ n ∈ b.nodes scope pos, n.scope = scope ∧ n.kind = branchKind i ∧ pos ≤ n.origin := by
  have hswitch : ∀ (targets : List UInt16) (origin operand : Nat),
      (Layout.switchNodes scope origin operand targets).map JumpNode.target = targets := by
    intro targets origin operand
    induction targets generalizing operand with
    | nil => rfl
    | cons t rest ih => rw [Layout.switchNodes, List.map_cons, ih]
  unfold branchItem? at hb
  unfold branchTargets branchKind
  cases hi : i.op <;> rw [hi] at hb hop <;> cases hb
  case jumpFinally => exact absurd rfl hop
  case switch =>
    refine ⟨hswitch _ _ _, ?_⟩
    intro n hn
    obtain ⟨ho, hk, hs, -, -⟩ := Item.mem_switchNodes hn
    exact ⟨hs, hk, by omega⟩
  all_goals simp [Item.nodes]

-- The number that leads from where the offsets of a jump count to the position that the innermost
-- scope around the jump has for its target. `prologue` is the part of a finally block that a
-- subroutine call leaves out.
def JumpNode.Reaches (r : Relocation) (prologue : Nat) (n : JumpNode) (offset : Int) : Prop :=
  ∃ java, r.Finds n.target.toNat n.scope java ∧
    n.origin + offset = ↑(if n.kind = .finally_ then java + prologue else java)

-- Code whose jumps all go where they should. `l` is the code before the jumps were filled in.
structure MethodCode.Exact (code : Bytes) (l : Layout) (prologue : Nat) (mc : MethodCode) : Prop where
  -- The buffer is instructions to its end, and they and the end have a position.
  positions : ∃ instrs, Instr.disassemble code = .ok instrs ∧
    ∀ q, (∃ java, mc.reloc[q]? = some (some java)) ↔ q ∈ instrs.map Instr.pos ∨ q = code.size
  monotone : ∀ q q' java java' : Nat, mc.reloc[q]? = some (some java) →
    mc.reloc[q']? = some (some java') → q ≤ q' → java ≤ java'
  main : mc.reloc = l.reloc.mainMap
  jumps : mc.jumps = l.jumps
  -- Where a scope has the position of a jump, a leave or a switch, its targets have operands.
  operands : ∀ s q java i, l.reloc.getLocal s q = some java → Instr.decodeAt code q = .ok i →
    ∃ ns, ns <:+: mc.jumps.toList ∧ ns.map JumpNode.target = branchTargets i ∧
      ∀ n ∈ ns, n.scope = s ∧ n.kind = branchKind i ∧ java ≤ n.origin
  disjoint : Ordered mc.jumps.toList
  origins : ∀ n ∈ mc.jumps, ∃ o, mc.code.code[n.origin]? = some o ∧ Item.originOp n o
  targets : ∀ n ∈ mc.jumps, ∃ offset, n.stored? mc.code.code = some offset ∧
    n.Reaches l.reloc prologue offset
  size_eq : mc.code.code.size = l.out.code.size
  unchanged : ∀ k, (∀ n ∈ mc.jumps, n.Avoids k) → mc.code.code[k]? = l.out.code[k]?

section Body

variable {env : ClassEnv} {f : Frame} {code : Bytes} {out : CodeBuffer} {c c' c₁ : OpenClass}
  {body : BodyState} {mc : MethodCode} {attrs : Pod.Attributes}

-- The main scope knows the instructions and the end, and no other position.
theorem layout_positions (out : CodeBuffer) (h : emitBody f code {} env c = .ok ((), body) c₁) :
    ∃ instrs, Instr.disassemble code = .ok instrs ∧
      ∀ q, (∃ java, (body.layout code out).reloc.getLocal Relocation.mainScope q = some java) ↔
        q ∈ instrs.map Instr.pos ∨ q = code.size := by
  obtain ⟨instrs, hdis, hnotes⟩ := layout_mainNotes out h
  exact ⟨instrs, hdis, hnotes.known⟩

theorem layout_monotone (out : CodeBuffer) (h : emitBody f code {} env c = .ok ((), body) c₁)
    {q q' java java' : Nat}
    (hq : (body.layout code out).reloc.getLocal Relocation.mainScope q = some java)
    (hq' : (body.layout code out).reloc.getLocal Relocation.mainScope q' = some java')
    (hle : q ≤ q') : java ≤ java' := by
  obtain ⟨_, -, hnotes⟩ := layout_mainNotes out h
  exact hnotes.monotone hq hq' hle

-- The operands of a jump or a switch follow its mark, in the scope that is open there.
theorem layout_operands (out : CodeBuffer) (h : emitBody f code {} env c = .ok ((), body) c₁)
    {s q java : Nat} {i : Instr} (hnote : (body.layout code out).reloc.getLocal s q = some java)
    (hi : Instr.decodeAt code q = .ok i) :
    ∃ ns, ns <:+: (body.layout code out).jumps.toList ∧
      ns.map JumpNode.target = branchTargets i ∧
      ∀ n ∈ ns, n.scope = s ∧ n.kind = branchKind i ∧ java ≤ n.origin := by
  have hnone : branchTargets i = [] → ∃ ns, ns <:+: (body.layout code out).jumps.toList ∧
      ns.map JumpNode.target = branchTargets i ∧
      ∀ n ∈ ns, n.scope = s ∧ n.kind = branchKind i ∧ java ≤ n.origin := by
    intro hempty
    exact ⟨[], List.nil_infix, hempty.symm, by simp⟩
  obtain hop | ⟨pre, post, hitems, hscope, hjava, hsite⟩ := layout_site out h hnote hi
  · exact hnone (by simp [branchTargets, hop])
  generalize hfirst : pre = first at hsite
  cases hsite with
  | @one i' next e e₁ before own more hi' hown _ hmore _ _ =>
    rw [hi] at hi'
    cases hi'
    cases hown.shape with
    | @branch b hb =>
      by_cases hop : i.op = .jumpFinally
      · exact hnone (by simp [branchTargets, hop])
      have hnodes := branch_nodes hb hop s java
      have hpart := (Layout.start out code.size).nodes_isInfix (pre ++ [Item.mark q]) b more
      rw [Layout.puts_append] at hpart
      simp only [Layout.puts_cons, Layout.puts_nil, Layout.put, hscope, hjava,
        List.append_assoc, List.singleton_append] at hpart
      rw [body.layout_eq, hitems]
      exact ⟨_, hpart, hnodes⟩
    | inert hb _ =>
      refine hnone ?_
      unfold branchItem? at hb
      unfold branchTargets
      split at hb <;> simp_all
  | fused hi' _ hown _ _ _ =>
    rw [hi] at hi'
    cases hi'
    cases hown.shape with
    | fused hc _ _ _ _ =>
      refine hnone ?_
      unfold branchTargets
      split <;> simp_all [isComparison, relation?]
  | @swallowed p i' j rest e e₁ _ pre' own more _ _ hj hown _ =>
    rw [hi] at hj
    cases hj
    obtain ⟨sense, target, before, op, hnext, -, hbefore, rfl⟩ := hown.shape.of_mark
    obtain ⟨j', rest', hj', -, rfl, hsense⟩ := ofRest_eq_jump hnext
    cases hj'
    have htargets : branchTargets i = [i.arg] ∧ branchKind i = .branch := by
      unfold Following.sense? at hsense
      unfold branchTargets branchKind
      split at hsense <;> simp_all
    have hmoved := Marked.inert hbefore (((Layout.start out code.size).puts pre).put (.mark q))
    have hpart := (Layout.start out code.size).nodes_isInfix (pre ++ Item.mark q :: before)
      (.jump .branch op i.arg) more
    rw [Layout.puts_append, Layout.puts_cons, hmoved.scope] at hpart
    rw [body.layout_eq, hitems, htargets.1, htargets.2]
    refine ⟨_, by simpa using hpart, rfl, ?_⟩
    intro n hn
    rw [Item.nodes, List.mem_singleton] at hn
    subst hn
    exact ⟨hscope, rfl, hjava ▸ hmoved.pos_le⟩
  | copy hi' hop _ =>
    rw [hi] at hi'
    cases hi'
    exact hnone (by simp [branchTargets, hop])

-- The offset that a jump is given is the one that leads to its target.
theorem offset?_eq_some_iff {t : JumpTable} {r : Relocation} {n : JumpNode} {offset : Int}
    (hparent : ∀ s p, r.parent s = some p → p < s) (hscope : n.scope < r.scopes.size) :
    t.offset? r n = some offset ↔ n.Reaches r t.prologue offset := by
  have hget : ∀ java, r.get n.scope n.target.toNat = some java ↔
      r.Finds n.target.toNat n.scope java :=
    fun _ => Relocation.get_eq_some_iff hparent hscope
  unfold JumpTable.offset? JumpTable.destination? JumpNode.Reaches
  rw [Option.map_map, Option.map_eq_some_iff]
  constructor
  · rintro ⟨java, hjava, rfl⟩
    refine ⟨java, (hget java).mp hjava, ?_⟩
    simp only [Function.comp_apply]
    omega
  · rintro ⟨java, hjava, hoffset⟩
    refine ⟨java, (hget java).mpr hjava, ?_⟩
    simp only [Function.comp_apply]
    omega

-- The scopes of a body, for all lookups of its jumps.
theorem layout_lookup (body : BodyState) (code : Bytes) (out : CodeBuffer)
    {n : JumpNode} (hn : n ∈ (body.layout code out).jumps.toList) (offset : Int) :
    (body.table code out).offset? (body.layout code out).reloc n = some offset ↔
      n.Reaches (body.layout code out).reloc body.finallies.prologue offset := by
  have hv := (Layout.valid_start out code.size).puts body.items.toList
  have hscope := Layout.scope_lt_of_mem (Layout.valid_start out code.size) (by simp [Layout.start])
    body.items.toList n
  rw [← body.layout_eq] at hv hscope
  exact offset?_eq_some_iff hv.parent_lt (hscope hn)

-- A body with no fault is exact.
theorem exact_of_placed {p : PlacedCode} (h : placeCode f code out env c = .ok p c₁)
    (hcode : mc.code.code = p.out.code) (hreloc : mc.reloc = p.reloc.mainMap)
    (hjumps : mc.jumps = p.jumps) :
    ∃ body, emitBody f code {} env c = .ok ((), body) c₁ ∧
      mc.Exact code (body.layout code out) body.finallies.prologue := by
  obtain ⟨body, hbody, hfault, rfl⟩ := placeCode_eq_ok h
  obtain ⟨ns, hns, hwithin, hordered, horigin⟩ :=
    (Layout.start out code.size).jumps_puts (regular_of_emitBody hbody)
  rw [← body.layout_eq] at hns hwithin horigin
  have hall : (body.layout code out).jumps.toList = ns := hns
  have hgood : ∀ n ∈ (body.layout code out).jumps.toList,
      (body.table code out).fault? (body.layout code out).reloc f.name n = none :=
    List.findSome?_eq_none_iff.mp hfault
  have hmem : ∀ {n}, n ∈ mc.jumps → n ∈ (body.layout code out).jumps.toList := by
    intro n hn
    rw [hjumps] at hn
    exact Array.mem_toList_iff.mpr hn
  have hmain : ∀ q java, mc.reloc[q]? = some (some java) ↔
      (body.layout code out).reloc.getLocal Relocation.mainScope q = some java := by
    intro q java
    rw [hreloc]
    exact Relocation.mainMap_eq_some_iff
  refine ⟨body, hbody, ?_⟩
  constructor
  case positions =>
    obtain ⟨instrs, hdis, hiff⟩ := layout_positions out hbody
    refine ⟨instrs, hdis, ?_⟩
    intro q
    simp only [hmain]
    exact hiff q
  case monotone =>
    intro q q' java java' hq hq' hle
    rw [hmain] at hq hq'
    exact layout_monotone out hbody hq hq' hle
  case main => exact hreloc
  case jumps => exact hjumps
  case operands =>
    intro s q java i hnote hi
    rw [hjumps]
    exact layout_operands out hbody hnote hi
  case disjoint =>
    rw [hjumps, hall]
    exact hordered
  case origins =>
    intro n hn
    have hn := hmem hn
    rw [hall] at hn
    obtain ⟨o, ho, hop⟩ := horigin n hn
    refine ⟨o, ?_, hop⟩
    rw [hcode]
    refine (JumpTable.getElem?_fillAll ?_ _).trans ho
    -- The instruction of a jump is not in the operand of another one.
    intro m hm
    rw [hall] at hm
    have hnb := hwithin n hn
    have hmb := hwithin m hm
    unfold JumpNode.Avoids
    obtain rfl | hR | hR := pairwise_trichotomy hordered hn hm
    · omega
    · omega
    · obtain hR | hR := hR.2 <;> omega
  case targets =>
    intro n hn
    have hn := hmem hn
    rw [hcode]
    have hsize : ∀ n ∈ (body.layout code out).jumps.toList,
        n.operand + n.width ≤ (body.layout code out).out.code.size := by
      intro n hn
      rw [hall] at hn
      exact (hwithin n hn).2.2
    have hordered : Ordered (body.layout code out).jumps.toList := hall ▸ hordered
    obtain ⟨offset, ho, hstored⟩ := JumpTable.stored?_fillAll hordered hsize hgood hn
    exact ⟨offset, hstored, (layout_lookup body code out hn offset).mp ho⟩
  case size_eq =>
    rw [hcode]
    exact JumpTable.size_fillAll _ _
  case unchanged =>
    intro k hk
    rw [hcode]
    refine JumpTable.getElem?_fillAll ?_ _
    intro n hn
    refine hk n ?_
    rw [hjumps]
    exact Array.mem_toList_iff.mp hn

-- The first jump that cannot be filled in is the error.
theorem placeCode_eq_error (out : CodeBuffer) (h : emitBody f code {} env c = .ok ((), body) c₁)
    {pre post : List JumpNode} {n : JumpNode} {e : LoweringError}
    (hsplit : (body.layout code out).jumps.toList = pre ++ n :: post)
    (hpre : ∀ m ∈ pre, ∃ offset,
      m.Reaches (body.layout code out).reloc body.finallies.prologue offset ∧ m.Fits offset)
    (hn : (body.table code out).fault? (body.layout code out).reloc f.name n = some e) :
    placeCode f code out env c = .error e c₁ := by
  have hnone : ∀ m ∈ pre,
      (body.table code out).fault? (body.layout code out).reloc f.name m = none := by
    intro m hm
    obtain ⟨offset, hreaches, hfits⟩ := hpre m hm
    have ho := (layout_lookup body code out (by simp [hsplit, hm]) offset).mpr hreaches
    rw [JumpTable.fault?, ho]
    exact if_pos hfits
  have hfault : body.fault? code out f.name = some e := by
    rw [BodyState.fault?, hsplit, List.findSome?_append, List.findSome?_eq_none_iff.mpr hnone,
      List.findSome?_cons, hn]
    rfl
  rw [placeCode_eq h, hfault]

-- Lowering code is exact: what it gives is exact, and if the items of the code are there but a jump
-- has no target or no room for its offset, the first such jump is the error.
theorem lower_exact (f : Frame) (code : Bytes) (attrs : Pod.Attributes) (out : CodeBuffer)
    (env : ClassEnv) (c : OpenClass) :
    (∀ mc c', lowerCode f code attrs out env c = .ok mc c' ∨
        lowerFragment f code out env c = .ok mc c' →
      ∃ body c₁, emitBody f code {} env c = .ok ((), body) c₁ ∧
        mc.Exact code (body.layout code out) body.finallies.prologue) ∧
    ∀ body c₁, emitBody f code {} env c = .ok ((), body) c₁ →
      ∀ pre n post, (body.layout code out).jumps.toList = pre ++ n :: post →
        (∀ m ∈ pre, ∃ offset,
          m.Reaches (body.layout code out).reloc body.finallies.prologue offset ∧ m.Fits offset) →
        ((¬∃ java, (body.layout code out).reloc.Finds n.target.toNat n.scope java) →
          lowerCode f code attrs out env c = .error (.missingReloc n.target f.name) c₁ ∧
          lowerFragment f code out env c = .error (.missingReloc n.target f.name) c₁) ∧
        ∀ offset, n.Reaches (body.layout code out).reloc body.finallies.prologue offset →
          ¬n.Fits offset →
          lowerCode f code attrs out env c = .error (.jumpOutOfRange offset f.name) c₁ ∧
          lowerFragment f code out env c = .error (.jumpOutOfRange offset f.name) c₁ := by
  constructor
  · intro mc c' h
    obtain ⟨p, c₁, hp, hcode, hreloc, hjumps⟩ : ∃ p c₁, placeCode f code out env c = .ok p c₁ ∧
        mc.code.code = p.out.code ∧ mc.reloc = p.reloc.mainMap ∧ mc.jumps = p.jumps := by
      obtain h | h := h
      · exact lowerCode_eq_ok h
      · exact lowerFragment_eq_ok h
    obtain ⟨body, hbody, hexact⟩ := exact_of_placed hp hcode hreloc hjumps
    exact ⟨body, c₁, hbody, hexact⟩
  · intro body c₁ h pre n post hsplit hpre
    have hn : n ∈ (body.layout code out).jumps.toList := by simp [hsplit]
    refine ⟨?_, ?_⟩
    · intro hmissing
      refine lower_eq_error (placeCode_eq_error out h hsplit hpre ?_)
      cases ho : (body.table code out).offset? (body.layout code out).reloc n with
      | none => rw [JumpTable.fault?, ho]
      | some offset =>
        obtain ⟨java, hfinds, -⟩ := (layout_lookup body code out hn offset).mp ho
        exact absurd ⟨java, hfinds⟩ hmissing
    · intro offset hreaches hfits
      refine lower_eq_error (placeCode_eq_error out h hsplit hpre ?_)
      rw [JumpTable.fault?, (layout_lookup body code out hn offset).mpr hreaches]
      exact if_neg hfits

end Body

-- A loop with a way out: `LoadTrue; JumpFalse 7; Jump 0`.
theorem lower_exact_loop : ∃ mc c',
    lowerFragment bareFrame #[3, 30, 0, 7, 28, 0, 0] {} bareEnv bareClass = .ok mc c' ∧
    ∃ body c₁, emitBody bareFrame #[3, 30, 0, 7, 28, 0, 0] {} bareEnv bareClass =
        .ok ((), body) c₁ ∧
      mc.Exact #[3, 30, 0, 7, 28, 0, 0] (body.layout #[3, 30, 0, 7, 28, 0, 0] {})
        body.finallies.prologue := by
  obtain ⟨mc, c', h⟩ := exists_of_result? (by decide +kernel :
    (result? (lowerFragment bareFrame #[3, 30, 0, 7, 28, 0, 0] {} bareEnv bareClass)).isSome)
  exact ⟨mc, c', h, (lower_exact _ _ {} _ _ _).1 mc c' (.inr h)⟩

end PodCompiler.Lowering
