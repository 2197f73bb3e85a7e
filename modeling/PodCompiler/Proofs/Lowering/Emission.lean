import PodCompiler.Proofs.Lowering.Shape

namespace PodCompiler.Lowering

-- What lowering holds between two instructions.
structure EmitState where
  slots : FinallySlots
  cls : OpenClass

-- One instruction that copies nothing: the items it is lowered to, and whether they are those of
-- the jump behind it too.
def Emits (env : ClassEnv) (f : Frame) (i : Instr) (next : Following) (e : EmitState)
    (fused : Bool) (its : List (Item UInt16)) (e' : EmitState) : Prop :=
  emitInstr f (noCopy f) i next ⟨#[], e.slots⟩ env e.cls =
    .ok (fused, ⟨its.toArray, e'.slots⟩) e'.cls

-- The items of a run of instructions.
inductive Emission (env : ClassEnv) (f : Frame) (code : Bytes) :
    EmitState → List Instr → List (Item UInt16) → EmitState → Prop where
  | nil {e : EmitState} : Emission env f code e [] [] e
  | one {e e₁ e₂ : EmitState} {i : Instr} {rest : List Instr} {its more : List (Item UInt16)}
      (hi : Emits env f i (.ofRest rest none) e false its e₁)
      (hrest : Emission env f code e₁ rest more e₂) :
      Emission env f code e (i :: rest) (.mark i.pos :: (its ++ more)) e₂
  | fused {e e₁ e₂ : EmitState} {i j : Instr} {rest : List Instr} {its more : List (Item UInt16)}
      (hi : Emits env f i (.ofRest (j :: rest) none) e true its e₁)
      (hrest : Emission env f code e₁ rest more e₂) :
      Emission env f code e (i :: j :: rest) (.mark i.pos :: (its ++ more)) e₂
  | copy {e e₁ e₂ : EmitState} {i : Instr} {rest inner : List Instr} {stop : Nat}
      {body more : List (Item UInt16)} (hop : i.op = .jumpFinally)
      (hstrategy : env.config.finallyStrategy = .inline)
      (hstop : finallyEnd f.name code i = .ok stop)
      (hinner : Instr.Stream code stop (i.arg.toNat + 1) inner)
      (hbody : Emission env f code e inner body e₁)
      (hrest : Emission env f code e₁ rest more e₂) :
      Emission env f code e (i :: rest)
        (.mark i.pos :: .enter :: (body ++ .leave i.pos i.arg.toNat stop :: more)) e₂

-- The items of one instruction: its jump or switch, inert items, or those of a comparison with the
-- jump behind it.
inductive Shape (i : Instr) (next : Following) : Bool → List (Item UInt16) → Prop where
  | branch {b : Item UInt16} (hb : branchItem? i = some b) : Shape i next false [b]
  | inert {its : List (Item UInt16)} (hb : branchItem? i = none)
      (hi : Item.Inert its) : Shape i next false its
  | fused {pos : Nat} {sense : Bool} {target : UInt16} {pre before : List (Item UInt16)}
      {op : UInt8} (hc : isComparison i.op = true) (hnext : next = .jump pos sense target)
      (hpre : Item.Inert pre) (hbefore : Item.Inert before)
      (hop : ClassFile.Op.isBranch op = true) :
      Shape i next true (pre ++ .mark pos :: (before ++ [.jump .branch op target]))

-- Marks and jumps hold no constant.
theorem Item.Interned.fused {env : ClassEnv} {c c' : OpenClass} {pre before : List (Item Ref)}
    {pos : Nat} {op : UInt8} {target : UInt16} {its : List (Item UInt16)}
    (h : Item.Interned env c
      (pre ++ Item.mark pos :: (before ++ [Item.jump .branch op target])) its c')
    (hpre : Item.Inert pre) (hbefore : Item.Inert before) :
    ∃ pre' before', its = pre' ++ Item.mark pos :: (before' ++ [Item.jump .branch op target]) ∧
      Item.Inert pre' ∧ Item.Inert before' ∧ ∃ c₁, Item.Interned env c pre pre' c₁ ∧
        Item.Interned env c₁ before before' c' := by
  obtain ⟨pre', rest, c₁, rfl, h₁, h₂⟩ := h.append_left
  cases h₂ with
  | cons hmark h₃ =>
    cases hmark
    obtain ⟨before', last, c₂, rfl, h₄, h₅⟩ := h₃.append_left
    cases h₅ with
    | cons hjump hnil =>
      cases hjump
      cases hnil
      exact ⟨pre', before', rfl, h₁.inert hpre, h₄.inert hbefore, c₁, h₁, h₄⟩

theorem Emits.comparison {env : ClassEnv} {f : Frame} {i : Instr} {next : Following}
    {e e' : EmitState} {fused : Bool} {its : List (Item UInt16)}
    (h : Emits env f i next e fused its e') (hi : isComparison i.op = true) :
    ∃ cmp, Compares env i next cmp ∧ Item.Interned env e.cls cmp.items its e'.cls ∧
      fused = cmp.fused ∧ e'.slots = e.slots := by
  obtain ⟨cmp, js, hcmp, hjs, hs, hfused⟩ := emitInstr_comparison hi h
  simp only [BodyState.mk.injEq, Array.empty_append] at hs
  obtain ⟨hits, hslots⟩ := hs
  have hits : its = js := by simpa using congrArg Array.toList hits
  exact ⟨cmp, hcmp, hits ▸ hjs, hfused, hslots⟩

theorem Emits.shape {env : ClassEnv} {f : Frame} {i : Instr} {next : Following} {e e' : EmitState}
    {fused : Bool} {its : List (Item UInt16)} (h : Emits env f i next e fused its e') :
    Shape i next fused its := by
  cases hb : branchItem? i with
  | some b =>
    obtain ⟨rfl, hits⟩ := emitInstr_branch hb h
    have hits : its = [b] := by simpa using congrArg Array.toList hits
    rw [hits]
    exact .branch hb
  | none =>
    cases hc : isComparison i.op with
    | false =>
      obtain ⟨hquiet, hunfused⟩ :
          BodyM.Quiet (emitInstr f (noCopy f) i next) ∧ Unfused (emitInstr f (noCopy f) i next) :=
        emitInstr_quiet hb hc
      obtain ⟨js, hjs, hinert⟩ := hquiet _ _ _ _ _ _ h
      have hits : its = js := by simpa using congrArg Array.toList hjs
      rw [hunfused _ _ _ _ _ _ h, hits]
      exact .inert hb hinert
    | true =>
      obtain ⟨cmp, hcmp, hits, rfl, -⟩ := h.comparison hc
      cases hcmp.shape with
      | unfused hi => exact .inert hb (hits.slotless hi).inert
      | fused pre before hnext hpre hbefore hop =>
        obtain ⟨pre', before', rfl, hpre', hbefore', -⟩ := hits.fused hpre.inert hbefore.inert
        exact .fused hc hnext hpre' hbefore' hop

-- Only a comparison takes the jump behind it along.
theorem Emits.isComparison {env : ClassEnv} {f : Frame} {i : Instr} {next : Following}
    {e e' : EmitState} {its : List (Item UInt16)} (h : Emits env f i next e true its e') :
    isComparison i.op = true := by
  cases h.shape with
  | fused hc _ _ _ _ => exact hc

-- A jump is taken along only if there is one.
theorem Emits.rest_ne_nil {env : ClassEnv} {f : Frame} {i : Instr} {rest : List Instr}
    {e e' : EmitState} {its : List (Item UInt16)}
    (h : Emits env f i (.ofRest rest none) e true its e') : rest ≠ [] := by
  rintro rfl
  cases h.shape with
  | fused _ hnext _ _ _ => cases hnext

section Existence

variable {env : ClassEnv} {f : Frame} {code : Bytes} {copy : Instr → BodyM Unit}
  {s s' : BodyState} {c c' : OpenClass}

-- A mark or the edge of a copy is put as it is.
theorem emit_closed {b : Item UInt16} {r : Item Ref} {u : Unit}
    (hr : ∀ c, r.mapM Ref.intern env c = .ok b c)
    (h : BodyM.emit [r] s env c = .ok (u, s') c') :
    s' = { s with items := s.items ++ #[b] } ∧ c' = c := by
  obtain ⟨its, hits, rfl⟩ := BodyM.emit_eq_ok.mp h
  cases hits with
  | cons hj hrest =>
    rw [hr] at hj
    cases hj
    cases hrest
    exact ⟨rfl, rfl⟩

theorem emit_mark {pos : Nat} {u : Unit} (h : BodyM.emit [.mark pos] s env c = .ok (u, s') c') :
    s' = { s with items := s.items ++ #[Item.mark pos] } ∧ c' = c :=
  emit_closed (fun _ => rfl) h

-- Instructions are lowered one after the other; the result of each says where the next step goes
-- on.
theorem emitInstrs_cons {fault : Option DecodeFault} {i : Instr} {rest : List Instr} {u : Unit}
    (h : emitInstrs f copy fault (i :: rest) s env c = .ok (u, s') c') :
    ∃ fused s₁ c₁, emitInstr f copy i (.ofRest rest fault)
        { s with items := s.items ++ #[Item.mark i.pos] } env c = .ok (fused, s₁) c₁ ∧
      emitInstrs f copy fault (if fused then rest.tail else rest) s₁ env c₁ = .ok (u, s') c' := by
  cases rest with
  | nil =>
    rw [emitInstrs] at h
    obtain ⟨_, s₁, c₁, h₁, h₂⟩ := BodyM.bind_eq_ok.mp h
    obtain ⟨rfl, rfl⟩ := emit_mark h₁
    obtain ⟨fused, s₂, c₂, h₃, h₄⟩ := BodyM.bind_eq_ok.mp h₂
    refine ⟨fused, s₂, c₂, h₃, ?_⟩
    rw [List.tail_nil, ite_self, emitInstrs]
    exact h₄
  | cons j rest =>
    rw [emitInstrs] at h
    obtain ⟨_, s₁, c₁, h₁, h₂⟩ := BodyM.bind_eq_ok.mp h
    obtain ⟨rfl, rfl⟩ := emit_mark h₁
    obtain ⟨fused, s₂, c₂, h₃, h₄⟩ := BodyM.bind_eq_ok.mp h₂
    refine ⟨fused, s₂, c₂, h₃, ?_⟩
    cases fused with
    | false => exact h₄
    | true => exact h₄

-- What is left behind an instruction is shorter.
theorem length_rest_lt (fused : Bool) (i : Instr) (rest : List Instr) :
    (if fused then rest.tail else rest).length < (i :: rest).length := by
  cases fused with
  | false => exact Nat.lt_succ_self _
  | true =>
    change rest.tail.length < rest.length + 1
    rw [List.length_tail]
    omega

-- Code with a fault is never lowered.
theorem fault_eq_none {fault : Option DecodeFault} {instrs : List Instr} {u : Unit}
    (h : emitInstrs f copy fault instrs s env c = .ok (u, s') c') : fault = none := by
  induction hn : instrs.length using Nat.strongRecOn generalizing instrs s c with
  | ind n ih =>
    subst hn
    cases instrs with
    | nil =>
      cases fault with
      | none => rfl
      | some fault => cases h
    | cons i rest =>
      obtain ⟨fused, s₁, c₁, -, hrest⟩ := emitInstrs_cons h
      exact ih _ (length_rest_lt fused i rest) hrest rfl

-- What a copy has to be: the lowered instructions of the block between its edges.
def Copies (env : ClassEnv) (f : Frame) (code : Bytes) (copy : Instr → BodyM Unit) : Prop :=
  ∀ i s c s' c', copy i s env c = .ok ((), s') c' →
    ∃ stop inner body, finallyEnd f.name code i = .ok stop ∧
      Instr.Stream code stop (i.arg.toNat + 1) inner ∧
      Emission env f code ⟨s.finallies, c⟩ inner body ⟨s'.finallies, c'⟩ ∧
      s'.items = s.items ++ (.enter :: (body ++ [.leave i.pos i.arg.toNat stop])).toArray

-- Only an instruction that runs a finally block may be lowered to a copy.
theorem emitInstr_cases {i : Instr} {next : Following} {fused : Bool}
    (h : emitInstr f copy i next s env c = .ok (fused, s') c') :
    emitInstr f (noCopy f) i next s env c = .ok (fused, s') c' ∨
      i.op = .jumpFinally ∧ env.config.finallyStrategy = .inline ∧ fused = false ∧
        copy i s env c = .ok ((), s') c' := by
  by_cases hop : i.op = .jumpFinally
  · unfold emitInstr at h ⊢
    rw [hop] at h ⊢
    obtain ⟨u, s₁, c₁, h₁, h₂⟩ := BodyM.bind_eq_ok.mp h
    obtain ⟨rfl, rfl, rfl⟩ := BodyM.pure_eq_ok.mp h₂
    obtain ⟨env', s₂, c₂, h₃, h₄⟩ := BodyM.bind_eq_ok.mp h₁
    obtain ⟨rfl, rfl, rfl⟩ := BodyM.read_eq_ok.mp h₃
    cases hf : env'.config.finallyStrategy with
    | subroutine =>
      left
      rw [hf] at h₄
      refine BodyM.bind_eq_ok.mpr ⟨u, s', c', ?_, rfl⟩
      refine BodyM.bind_eq_ok.mpr ⟨env', s₂, c₂, rfl, ?_⟩
      rw [hf]
      exact h₄
    | inline =>
      rw [hf] at h₄
      exact .inr ⟨rfl, rfl, rfl, h₄⟩
  · left
    unfold emitInstr at h ⊢
    cases hi : i.op with
    | jumpFinally => exact absurd hi hop
    | _ =>
      rw [hi] at h
      exact h

theorem emission_of_emitInstrs (hcopy : Copies env f code copy) {instrs : List Instr} {u : Unit}
    (h : emitInstrs f copy none instrs s env c = .ok (u, s') c') :
    ∃ its, s'.items = s.items ++ its.toArray ∧
      Emission env f code ⟨s.finallies, c⟩ instrs its ⟨s'.finallies, c'⟩ := by
  induction hn : instrs.length using Nat.strongRecOn generalizing instrs s c with
  | ind n ih =>
    subst hn
    cases instrs with
    | nil =>
      obtain ⟨-, rfl, rfl⟩ := BodyM.pure_eq_ok.mp h
      exact ⟨[], by simp, .nil⟩
    | cons i rest =>
      obtain ⟨fused, s₁, c₁, hi, hrest⟩ := emitInstrs_cons h
      obtain ⟨more, hmore, hder⟩ := ih _ (length_rest_lt fused i rest) hrest rfl
      obtain hplain | ⟨hop, hstrategy, rfl, hrun⟩ := emitInstr_cases hi
      · have huniform := uniform_emitInstr f i (uniform_noCopy f) (.ofRest rest none)
        obtain ⟨its, hits, halone⟩ := huniform.split hplain
        refine ⟨.mark i.pos :: (its ++ more), by simp [hmore, hits], ?_⟩
        have hemits : Emits env f i (.ofRest rest none) ⟨s.finallies, c⟩ fused its
          ⟨s₁.finallies, c₁⟩ := halone
        cases fused with
        | false => exact .one hemits hder
        | true =>
          cases rest with
          | nil => exact absurd rfl hemits.rest_ne_nil
          | cons j rest => exact .fused hemits hder
      · obtain ⟨stop, inner, body, hstop, hinner, hbody, hits⟩ := hcopy _ _ _ _ _ hrun
        refine ⟨_, ?_, .copy hop hstrategy hstop hinner hbody hder⟩
        rw [hmore, hits]
        simp

theorem copies_noCopy : Copies env f code (noCopy f) := by
  intro i s c s' c' h
  cases h

-- A range that lowers to a derivation gives copies that do.
theorem copies_emitCopy {range : Nat → Nat → BodyM Unit}
    (hrange : ∀ start stop s c s' c', range start stop s env c = .ok ((), s') c' →
      ∃ instrs its, Instr.Stream code stop start instrs ∧ s'.items = s.items ++ its.toArray ∧
        Emission env f code ⟨s.finallies, c⟩ instrs its ⟨s'.finallies, c'⟩) :
    Copies env f code (emitCopy f code range) := by
  intro i s c s' c' h
  obtain ⟨stop, s₁, c₁, h₁, hafter⟩ := BodyM.bind_eq_ok.mp h
  obtain ⟨hstop, rfl, rfl⟩ := BodyM.ofExcept_eq_ok.mp h₁
  obtain ⟨_, s₂, c₂, h₂, hrun⟩ := BodyM.bind_eq_ok.mp hafter
  obtain ⟨rfl, rfl⟩ := emit_closed (fun _ => rfl) h₂
  obtain ⟨_, s₃, c₃, h₃, h₄⟩ := BodyM.bind_eq_ok.mp hrun
  obtain ⟨inner, body, hinner, hbody, hder⟩ := hrange _ _ _ _ _ _ h₃
  obtain ⟨rfl, rfl⟩ := emit_closed (fun _ => rfl) h₄
  refine ⟨stop, inner, body, hstop, hinner, hder, ?_⟩
  simp [hbody]

theorem emission_of_emitRange {depth start stop : Nat} {u : Unit}
    (h : emitRange f code depth start stop s env c = .ok (u, s') c') :
    ∃ instrs its, Instr.Stream code stop start instrs ∧ s'.items = s.items ++ its.toArray ∧
      Emission env f code ⟨s.finallies, c⟩ instrs its ⟨s'.finallies, c'⟩ := by
  induction depth generalizing start stop s c s' c' with
  | zero =>
    have hfault := fault_eq_none h
    rw [emitRange, hfault] at h
    obtain ⟨its, hits, hder⟩ := emission_of_emitInstrs copies_noCopy h
    exact ⟨_, its, Instr.stream_of_decodeRange hfault, hits, hder⟩
  | succ depth ih =>
    have hfault := fault_eq_none h
    rw [emitRange, hfault] at h
    have hcopy := copies_emitCopy (fun _ _ _ _ _ _ hrun => ih hrun)
    obtain ⟨its, hits, hder⟩ := emission_of_emitInstrs hcopy h
    exact ⟨_, its, Instr.stream_of_decodeRange hfault, hits, hder⟩

-- The items of a whole body.
theorem emission_of_emitBody {u : Unit} (h : emitBody f code {} env c = .ok (u, s') c') :
    ∃ instrs its, Instr.Stream code code.size 0 instrs ∧
      s'.items = (its ++ [Item.mark code.size]).toArray ∧
      Emission env f code ⟨{}, c⟩ instrs its ⟨s'.finallies, c'⟩ := by
  obtain ⟨_, s₁, c₁, h₁, h₂⟩ := BodyM.bind_eq_ok.mp h
  obtain ⟨rfl, rfl⟩ := emit_mark h₂
  obtain ⟨instrs, its, hstream, hits, hder⟩ := emission_of_emitRange h₁
  exact ⟨instrs, its, hstream, by simp [hits], hder⟩

end Existence

end PodCompiler.Lowering
