import PodCompiler.Lowering.Body
import PodCompiler.Proofs.Instruction.Stream

namespace PodCompiler.Lowering

namespace ClassM

variable {α β : Type} {env : ClassEnv} {c c' : OpenClass} {a : α}

theorem run_bind (x : ClassM α) (k : α → ClassM β) (env : ClassEnv) (c : OpenClass) :
    (x >>= k) env c =
      match x env c with
      | .ok a c' => k a env c'
      | .error e c' => .error e c' := by
  change EStateM.bind (x env) _ c = _
  unfold EStateM.bind
  cases x env c <;> rfl

-- Two steps succeed if the first does and then the second.
theorem bind_eq_ok {x : ClassM α} {k : α → ClassM β} {b : β} :
    (x >>= k) env c = .ok b c' ↔ ∃ a c₁, x env c = .ok a c₁ ∧ k a env c₁ = .ok b c' := by
  rw [run_bind]
  constructor
  · intro h
    split at h
    · rename_i a c₁ hx
      exact ⟨a, c₁, hx, h⟩
    · cases h
  · rintro ⟨a, c₁, hx, hk⟩
    rw [hx]
    exact hk

theorem pure_eq_ok {b : α} : (pure b : ClassM α) env c = .ok a c' ↔ a = b ∧ c' = c := by
  change EStateM.Result.ok b c = _ ↔ _
  rw [EStateM.Result.ok.injEq, eq_comm, @eq_comm _ c]

theorem map_eq_ok {x : ClassM α} {g : α → β} {b : β} :
    (g <$> x) env c = .ok b c' ↔ ∃ a, x env c = .ok a c' ∧ b = g a := by
  rw [map_eq_pure_bind, bind_eq_ok]
  constructor
  · rintro ⟨a, c₁, hx, hb⟩
    obtain ⟨rfl, rfl⟩ := pure_eq_ok.mp hb
    exact ⟨a, hx, rfl⟩
  · rintro ⟨a, hx, rfl⟩
    exact ⟨a, c', hx, rfl⟩

theorem ofExcept_eq_ok {x : Except LoweringError α} :
    (ofExcept x : ClassM α) env c = .ok a c' ↔ x = .ok a ∧ c' = c := by
  cases x with
  | ok b => rw [ofExcept, pure_eq_ok, Except.ok.injEq, eq_comm]
  | error e =>
    constructor
    · intro h
      cases h
    · rintro ⟨h, -⟩
      cases h

-- A step that is made for each item of a list was made for each with its result.
theorem forall₂_of_mapM {g : α → ClassM β} {xs : List α} {ys : List β}
    (h : xs.mapM g env c = .ok ys c') :
    List.Forall₂ (fun x y => ∃ c₁ c₂, g x env c₁ = .ok y c₂) xs ys := by
  induction xs generalizing c ys with
  | nil =>
    rw [List.mapM_nil] at h
    obtain ⟨rfl, -⟩ := pure_eq_ok.mp h
    exact .nil
  | cons x xs ih =>
    rw [List.mapM_cons] at h
    obtain ⟨y, c₁, hx, hrest⟩ := bind_eq_ok.mp h
    obtain ⟨ys', c₂, hxs, hpure⟩ := bind_eq_ok.mp hrest
    obtain ⟨rfl, rfl⟩ := pure_eq_ok.mp hpure
    exact .cons ⟨c, c₁, hx⟩ (ih hxs)

end ClassM

namespace BodyM

variable {α β : Type} {env : ClassEnv} {s s' : BodyState} {c c' : OpenClass} {a : α}

theorem run_bind (m : BodyM α) (k : α → BodyM β) (s : BodyState) (env : ClassEnv) (c : OpenClass) :
    (m >>= k) s env c =
      match m s env c with
      | .ok (a, s') c' => k a s' env c'
      | .error e c' => .error e c' := by
  change EStateM.bind (m s env) _ c = _
  unfold EStateM.bind
  cases m s env c <;> rfl

theorem run_lift (x : ClassM α) (s : BodyState) (env : ClassEnv) (c : OpenClass) :
    (liftM x : BodyM α) s env c =
      match x env c with
      | .ok a c' => .ok (a, s) c'
      | .error e c' => .error e c' := by
  change EStateM.bind (x env) _ c = _
  unfold EStateM.bind
  cases x env c <;> rfl

-- Two steps succeed if the first does and then the second.
theorem bind_eq_ok {m : BodyM α} {k : α → BodyM β} {b : β} :
    (m >>= k) s env c = .ok (b, s') c' ↔
      ∃ a s₁ c₁, m s env c = .ok (a, s₁) c₁ ∧ k a s₁ env c₁ = .ok (b, s') c' := by
  rw [run_bind]
  constructor
  · intro h
    split at h
    · rename_i a s₁ c₁ hm
      exact ⟨a, s₁, c₁, hm, h⟩
    · cases h
  · rintro ⟨a, s₁, c₁, hm, hk⟩
    rw [hm]
    exact hk

theorem pure_eq_ok {b : α} :
    (pure b : BodyM α) s env c = .ok (a, s') c' ↔ a = b ∧ s' = s ∧ c' = c := by
  change EStateM.Result.ok (b, s) c = _ ↔ _
  simp only [EStateM.Result.ok.injEq, Prod.mk.injEq, eq_comm, and_assoc]

theorem lift_eq_ok {x : ClassM α} :
    (liftM x : BodyM α) s env c = .ok (a, s') c' ↔ x env c = .ok a c' ∧ s' = s := by
  rw [run_lift]
  cases x env c with
  | ok b c₁ =>
    simp only [EStateM.Result.ok.injEq, Prod.mk.injEq]
    constructor
    · rintro ⟨⟨rfl, rfl⟩, rfl⟩
      exact ⟨⟨rfl, rfl⟩, rfl⟩
    · rintro ⟨⟨rfl, rfl⟩, rfl⟩
      exact ⟨⟨rfl, rfl⟩, rfl⟩
  | error e c₁ => simp

theorem ofExcept_eq_ok {x : Except LoweringError α} :
    (ofExcept x : BodyM α) s env c = .ok (a, s') c' ↔ x = .ok a ∧ s' = s ∧ c' = c := by
  cases x with
  | ok b =>
    rw [ofExcept, pure_eq_ok, Except.ok.injEq, eq_comm]
  | error e =>
    constructor
    · intro h
      cases h
    · rintro ⟨h, -⟩
      cases h

theorem read_eq_ok {r : ClassEnv} :
    (read : BodyM ClassEnv) s env c = .ok (r, s') c' ↔ r = env ∧ s' = s ∧ c' = c := by
  change EStateM.Result.ok (env, s) c = _ ↔ _
  simp only [EStateM.Result.ok.injEq, Prod.mk.injEq, eq_comm, and_assoc]

-- Puts items before those of a state.
def prepend (xs : Array (Item UInt16)) (s : BodyState) : BodyState :=
  { s with items := xs ++ s.items }

-- A step that does the same whatever items are there, and leaves them.
def Uniform (m : BodyM α) : Prop :=
  ∀ xs s env c, m (prepend xs s) env c =
    match m s env c with
    | .ok (a, s') c' => .ok (a, prepend xs s') c'
    | .error e c' => .error e c'

@[simp] theorem uniform_pure (a : α) : Uniform (pure a) := by
  intro xs s env c
  rfl

@[simp] theorem uniform_throw (e : LoweringError) : Uniform (throw e : BodyM α) := by
  intro xs s env c
  rfl

@[simp] theorem uniform_read : Uniform (read : BodyM ClassEnv) := by
  intro xs s env c
  rfl

@[simp] theorem uniform_lift (x : ClassM α) : Uniform (liftM x : BodyM α) := by
  intro xs s env c
  rw [run_lift, run_lift]
  cases x env c <;> rfl

@[simp] theorem uniform_bind {m : BodyM α} {k : α → BodyM β} (hm : Uniform m)
    (hk : ∀ a, Uniform (k a)) : Uniform (m >>= k) := by
  intro xs s env c
  rw [run_bind, run_bind, hm]
  cases m s env c with
  | ok r c' => exact hk r.1 xs r.2 env c'
  | error e c' => rfl

@[simp] theorem uniform_map {m : BodyM α} (hm : Uniform m) (g : α → β) : Uniform (g <$> m) := by
  rw [map_eq_pure_bind]
  exact uniform_bind hm fun _ => uniform_pure _

@[simp] theorem uniform_ofExcept (x : Except LoweringError α) : Uniform (ofExcept x : BodyM α) := by
  cases x with
  | ok a => exact uniform_pure a
  | error e => exact uniform_throw e

theorem uniform_modify {g : BodyState → BodyState} (hg : ∀ xs s, g (prepend xs s) = prepend xs (g s)) :
    Uniform (modify g) := by
  intro xs s env c
  change EStateM.Result.ok ((), g (prepend xs s)) c = .ok ((), prepend xs (g s)) c
  rw [hg]

theorem uniform_get {k : BodyState → BodyM α} (hk : ∀ s, Uniform (k s))
    (hs : ∀ xs s, k (prepend xs s) = k s) : Uniform (get >>= k) := by
  intro xs s env c
  rw [run_bind, run_bind]
  change k (prepend xs s) (prepend xs s) env c = match k s s env c with | _ => _
  rw [hs]
  exact hk s xs s env c

theorem run_slots (m : FinallySlots → Except LoweringError (α × FinallySlots)) (s : BodyState)
    (env : ClassEnv) (c : OpenClass) : slots m s env c =
      match m s.finallies with
      | .ok (a, fs) => .ok (a, { s with finallies := fs }) c
      | .error e => .error e c := by
  obtain ⟨items, fs⟩ := s
  unfold slots
  dsimp only
  cases m fs <;> rfl

@[simp] theorem uniform_slots (m : FinallySlots → Except LoweringError (α × FinallySlots)) :
    Uniform (slots m) := by
  intro xs s env c
  obtain ⟨items, fs⟩ := s
  simp only [slots, prepend]
  cases m fs <;> rfl

@[simp] theorem uniform_emit (items : List (Item Ref)) : Uniform (emit items) := by
  induction items with
  | nil => exact uniform_pure ()
  | cons i rest ih =>
    unfold emit
    refine uniform_bind (uniform_lift _) ?_
    intro a
    refine uniform_bind (uniform_modify ?_) (fun _ => ih)
    intro xs s
    simp only [prepend, Array.push_append]

@[simp] theorem uniform_emitOk (items : Except LoweringError (List (Item Ref))) :
    Uniform (emitOk items) := by
  simp [emitOk]

-- What such a step appends it writes alone too.
theorem Uniform.split {m : BodyM α} (hm : Uniform m) (h : m s env c = .ok (a, s') c') :
    ∃ its : List (Item UInt16), s'.items = s.items ++ its.toArray ∧
      m ⟨#[], s.finallies⟩ env c = .ok (a, ⟨its.toArray, s'.finallies⟩) c' := by
  have heq := hm s.items ⟨#[], s.finallies⟩ env c
  have hs : prepend s.items ⟨#[], s.finallies⟩ = s := by simp [prepend]
  rw [hs, h] at heq
  split at heq
  · rename_i b t c₁ hrun
    cases heq
    exact ⟨t.items.toList, by simp [prepend], hrun⟩
  · cases heq

end BodyM

section Instr

variable (f : Frame) (i : Instr)

@[simp] theorem uniform_plain (items : List (Item Ref)) : BodyM.Uniform (plain items) := by
  simp [plain]

@[simp] theorem uniform_emitCompared (c : Compared) : BodyM.Uniform (emitCompared c) := by
  simp [emitCompared]

@[simp] theorem uniform_emitLiteral (kind : Pod.LiteralKind) :
    BodyM.Uniform (emitLiteral kind i) := by
  simp [emitLiteral]

@[simp] theorem uniform_emitCall (kind : CallKind) : BodyM.Uniform (emitCall kind i) := by
  simp [emitCall]

@[simp] theorem uniform_emitField (op : UInt8) (mixin : Bool) :
    BodyM.Uniform (emitField op i mixin) := by
  simp [emitField]

@[simp] theorem uniform_emitRelation (rel : Relation) (next : Following) :
    BodyM.Uniform (emitRelation rel i next) := by
  simp [emitRelation]

@[simp] theorem uniform_emitFinallyStart : BodyM.Uniform (emitFinallyStart f i) := by
  unfold emitFinallyStart
  refine BodyM.uniform_bind BodyM.uniform_read ?_
  intro env
  split
  · simp
  · refine BodyM.uniform_bind (BodyM.uniform_slots _) ?_
    intro slot
    refine BodyM.uniform_bind (BodyM.uniform_modify fun _ _ => rfl) ?_
    simp

@[simp] theorem uniform_emitFinallyEnd : BodyM.Uniform (emitFinallyEnd f i) := by
  unfold emitFinallyEnd
  refine BodyM.uniform_bind BodyM.uniform_read ?_
  intro env
  split
  · simp
  · -- Of the state only the slots are looked at.
    refine BodyM.uniform_get ?_ (fun _ _ => rfl)
    intro s
    dsimp only
    split
    · simp
    · refine BodyM.uniform_bind (BodyM.uniform_modify fun _ _ => rfl) ?_
      intro _
      split <;> simp

@[simp] theorem uniform_emitJumpFinally {copy : Instr → BodyM Unit}
    (hcopy : BodyM.Uniform (copy i)) : BodyM.Uniform (emitJumpFinally copy i) := by
  unfold emitJumpFinally
  refine BodyM.uniform_bind BodyM.uniform_read ?_
  intro env
  split
  · simp
  · exact hcopy

theorem uniform_emitInstr {copy : Instr → BodyM Unit} (hcopy : ∀ i, BodyM.Uniform (copy i))
    (next : Following) : BodyM.Uniform (emitInstr f copy i next) := by
  unfold emitInstr
  cases i.op with
  | catchErrStart =>
    refine BodyM.uniform_bind (BodyM.uniform_emit _) ?_
    simp
  | _ => simp [hcopy]

end Instr

section Finally

variable {env : ClassEnv} {f : Frame} {copy : Instr → BodyM Unit} {i : Instr} {next : Following}
  {s : BodyState} {c : OpenClass}

-- Where blocks are copied, the start of one stores into its slot, and the block is begun.
theorem emitInstr_finallyStart (hinline : env.config.finallyStrategy = .inline)
    (hop : i.op = .finallyStart) :
    emitInstr f copy i next s env c =
      match s.finallies.forBlock f i.pos with
      | .ok (slot, fs) => .ok (false, ⟨s.items.push (.store .obj slot),
          { fs with pending := i.pos :: fs.pending }⟩) c
      | .error e => .error e c := by
  have hread : (read : BodyM ClassEnv) s env c = .ok (env, s) c := rfl
  unfold emitInstr
  rw [hop]
  dsimp only
  unfold emitFinallyStart
  rw [BodyM.run_bind, BodyM.run_bind, hread]
  dsimp only
  rw [hinline]
  dsimp only
  rw [BodyM.run_bind, BodyM.run_slots]
  cases s.finallies.forBlock f i.pos <;> rfl

-- The end of a block loads from the slot of the one that was begun last.
theorem emitInstr_finallyEnd (hinline : env.config.finallyStrategy = .inline)
    (hop : i.op = .finallyEnd) {first : Nat} {pending : List Nat} {slot : UInt16}
    (hpending : s.finallies.pending = first :: pending)
    (hslot : s.finallies.exceptions[first]? = some slot) :
    emitInstr f copy i next s env c =
      .ok (false, ⟨(s.items.push (.load .obj slot)).push (.op ClassFile.Op.athrow),
        { s.finallies with pending }⟩) c := by
  have hread : (read : BodyM ClassEnv) s env c = .ok (env, s) c := rfl
  have hget : (get : BodyM BodyState) s env c = .ok (s, s) c := rfl
  unfold emitInstr
  rw [hop]
  dsimp only
  unfold emitFinallyEnd
  rw [BodyM.run_bind, BodyM.run_bind, hread]
  dsimp only
  rw [hinline]
  dsimp only
  rw [BodyM.run_bind, hget]
  dsimp only
  rw [hpending]
  dsimp only
  rw [hslot]
  rfl

end Finally

end PodCompiler.Lowering
