import PodCompiler.Proofs.Jvm.Sequencing

namespace PodCompiler.Jvm

open ClassFile

-- What a method takes, behind the object that it is called on, and what it returns.
structure Signature where
  takes : List Kind
  gives : Option Kind
  deriving DecidableEq

-- The members that code refers to, by their signatures. The machine takes a boxed long out by itself.
structure Linkage where
  method? : String → Option Signature
  field? : String → Option Kind
  unboxes : method? "java/lang/Long.longValue()J" = some ⟨[], some .long⟩

-- The ways to call a method: on an object, by its class or by the class of the object, or on none.
inductive CallMode where
  | special
  | static
  | virtual
  deriving DecidableEq

namespace CallMode

def op : CallMode → UInt8
  | .special => Op.invokeSpecial
  | .static => Op.invokeStatic
  | .virtual => Op.invokeVirtual

-- What a method is called on.
inductive On : CallMode → List Value → Prop where
  | special (id : Nat) : On .special [.ref (.object id)]
  | static : On .static []
  | virtual (id : Nat) : On .virtual [.ref (.object id)]

theorem op_inj {a b : CallMode} (h : a.op = b.op) : a = b := by
  cases a <;> cases b <;> first | rfl | exact absurd h (by decide)

-- On how many things.
def arity : CallMode → Nat
  | .static => 0
  | _ => 1

theorem On.length_eq {mode : CallMode} {r : List Value} (h : mode.On r) : r.length = mode.arity := by
  cases h <;> rfl

end CallMode

-- An event, with what the machine gets. The arguments of a call begin with the object.
inductive Event where
  | new (cls : String) (id : Nat)
  | get (field : String) (object : Ref) (value : Value)
  | call (mode : CallMode) (method : String) (args : List Value) (result : Option Value)
  deriving DecidableEq

namespace Machine

-- The events that an instruction begins with, and how the machine goes on behind them.
inductive Asks (m : Machine) (l : Linkage) (s : State) : Event → State → Prop where
  | new {i : UInt16} {cls : String} (id : Nat) (hop : m.code[s.pc]? = some Op.newObject)
      (hi : m.code.be2? (s.pc + 1) = some i) (hcls : m.constants.className? i = some cls) :
      Asks m l s (.new cls id) { s with pc := s.pc + 3, stack := .ref (.object id) :: s.stack }
  | get {i : UInt16} {sig : String} {k : Kind} {r : Ref} {v : Value} {rest : List Value}
      (hop : m.code[s.pc]? = some Op.getField) (hi : m.code.be2? (s.pc + 1) = some i)
      (hsig : m.constants.field? i = some sig) (hlink : l.field? sig = some k) (hv : v.kind = k)
      (hr : r ≠ .null) (hstack : s.stack = .ref r :: rest) :
      Asks m l s (.get sig r v) { s with pc := s.pc + 3, stack := v :: rest }
  | call {mode : CallMode} {i : UInt16} {sig : String} {takes : List Kind} {gives : Option Kind}
      {on args rest : List Value} {result : Option Value} (hop : m.code[s.pc]? = some mode.op)
      (hi : m.code.be2? (s.pc + 1) = some i) (hsig : m.constants.method? i = some sig)
      (hlink : l.method? sig = some ⟨takes, gives⟩) (hon : mode.On on)
      (hargs : args.map Value.kind = takes) (hresult : result.map Value.kind = gives)
      (hstack : s.stack = (on ++ args).reverse ++ rest) :
      Asks m l s (.call mode sig (on ++ args) result)
        { s with pc := s.pc + 3, stack := result.toList ++ rest }

-- The machine comes from a state to another one, with some events on the way.
inductive Comes (m : Machine) (l : Linkage) : State → List Event → State → Prop where
  | refl {s : State} : Comes m l s [] s
  | step {s s' t : State} {es : List Event} (hstep : m.step s = some (.next s'))
      (hrest : Comes m l s' es t) : Comes m l s es t
  | event {s s' t : State} {e : Event} {es : List Event} (hstep : m.step s = none)
      (hask : m.Asks l s e s') (hrest : Comes m l s' es t) : Comes m l s (e :: es) t

-- The machine returns a value, or nothing, after some events.
def Returns (m : Machine) (l : Linkage) (s : State) (es : List Event) (v : Option Value) : Prop :=
  ∃ t, m.Comes l s es t ∧ m.step t = some (.returned v)

-- In each state that the machine comes to.
def Always (m : Machine) (l : Linkage) (s : State) (P : State → Prop) : Prop :=
  ∀ es t, m.Comes l s es t → P t

variable {m : Machine} {l : Linkage} {s s' t : State} {es es' : List Event} {v w : Option Value}
  {P : State → Prop}

theorem Comes.trans {u : State} (h : m.Comes l s es t) (h' : m.Comes l t es' u) :
    m.Comes l s (es ++ es') u := by
  induction h with
  | refl => exact h'
  | step hstep _ ih => exact .step hstep (ih h')
  | event hstep hask _ ih => exact .event hstep hask (ih h')

theorem comes_of_reaches (h : m.Reaches s s') : m.Comes l s [] s' := by
  induction h using Relation.ReflTransGen.head_induction_on with
  | refl => exact .refl
  | head hstep _ ih => exact .step hstep ih

-- The first step of a run, if it is one that the machine takes by itself.
theorem Comes.of_step (h : m.Comes l s es t) (hstep : m.step s = some (.next s')) :
    s = t ∧ es = [] ∨ m.Comes l s' es t := by
  cases h with
  | refl => exact .inl ⟨rfl, rfl⟩
  | step hstep' hrest =>
    rw [hstep] at hstep'
    cases hstep'
    exact .inr hrest
  | event hstep' _ _ =>
    rw [hstep] at hstep'
    cases hstep'

theorem returns_of_step (hstep : m.step s = some (.next s')) :
    m.Returns l s es v ↔ m.Returns l s' es v := by
  constructor
  · rintro ⟨t, hcomes, hreturned⟩
    obtain ⟨rfl, -⟩ | hrest := hcomes.of_step hstep
    · rw [hstep] at hreturned
      cases hreturned
    · exact ⟨t, hrest, hreturned⟩
  · rintro ⟨t, hcomes, hreturned⟩
    exact ⟨t, .step hstep hcomes, hreturned⟩

theorem returns_of_reaches (h : m.Reaches s s') : m.Returns l s es v ↔ m.Returns l s' es v := by
  induction h using Relation.ReflTransGen.head_induction_on with
  | refl => rfl
  | head hstep _ ih => rw [returns_of_step hstep, ih]

theorem always_of_step (hstep : m.step s = some (.next s')) :
    m.Always l s P ↔ P s ∧ m.Always l s' P := by
  constructor
  · intro h
    exact ⟨h [] s .refl, fun es t hrest => h es t (.step hstep hrest)⟩
  · rintro ⟨hs, h⟩ es t hcomes
    obtain ⟨rfl, -⟩ | hrest := hcomes.of_step hstep
    · exact hs
    · exact h es t hrest

theorem Comes.of_returned (h : m.Comes l s es t) (hstep : m.step s = some (.returned w)) :
    s = t ∧ es = [] := by
  cases h with
  | refl => exact ⟨rfl, rfl⟩
  | step hstep' _ =>
    rw [hstep] at hstep'
    cases hstep'
  | event hstep' _ _ =>
    rw [hstep] at hstep'
    cases hstep'

theorem returns_of_returned (hstep : m.step s = some (.returned w)) :
    m.Returns l s es v ↔ es = [] ∧ v = w := by
  constructor
  · rintro ⟨t, hcomes, hreturned⟩
    obtain ⟨rfl, rfl⟩ := hcomes.of_returned hstep
    rw [hstep] at hreturned
    cases hreturned
    exact ⟨rfl, rfl⟩
  · rintro ⟨rfl, rfl⟩
    exact ⟨s, .refl, hstep⟩

theorem always_of_returned (hstep : m.step s = some (.returned w)) : m.Always l s P ↔ P s := by
  constructor
  · intro h
    exact h [] s .refl
  · rintro hs es t hcomes
    obtain ⟨rfl, -⟩ := hcomes.of_returned hstep
    exact hs

section Asked

-- The answers to what the machine asks for, the events and the states behind them.
variable {α : Type} {fits : α → Prop} {ev : α → Event} {st : α → State}

theorem returns_of_asks (hstep : m.step s = none)
    (hasks : ∀ e s', m.Asks l s e s' ↔ ∃ a, fits a ∧ e = ev a ∧ s' = st a) :
    m.Returns l s es v ↔ ∃ a es', fits a ∧ es = ev a :: es' ∧ m.Returns l (st a) es' v := by
  constructor
  · rintro ⟨t, hcomes, hreturned⟩
    cases hcomes with
    | refl =>
      rw [hstep] at hreturned
      cases hreturned
    | step hstep' _ =>
      rw [hstep] at hstep'
      cases hstep'
    | event _ hask hrest =>
      obtain ⟨a, ha, rfl, rfl⟩ := (hasks _ _).mp hask
      exact ⟨a, _, ha, rfl, t, hrest, hreturned⟩
  · rintro ⟨a, es', ha, rfl, t, hcomes, hreturned⟩
    exact ⟨t, .event hstep ((hasks _ _).mpr ⟨a, ha, rfl, rfl⟩) hcomes, hreturned⟩

theorem always_of_asks (hstep : m.step s = none)
    (hasks : ∀ e s', m.Asks l s e s' ↔ ∃ a, fits a ∧ e = ev a ∧ s' = st a) :
    m.Always l s P ↔ P s ∧ ∀ a, fits a → m.Always l (st a) P := by
  constructor
  · intro h
    refine ⟨h [] s .refl, ?_⟩
    intro a ha es t hcomes
    exact h _ t (.event hstep ((hasks _ _).mpr ⟨a, ha, rfl, rfl⟩) hcomes)
  · rintro ⟨hs, h⟩ es t hcomes
    cases hcomes with
    | refl => exact hs
    | step hstep' _ =>
      rw [hstep] at hstep'
      cases hstep'
    | event _ hask hrest =>
      obtain ⟨a, ha, rfl, rfl⟩ := (hasks _ _).mp hask
      exact h a ha _ t hrest

end Asked

-- The machine does nothing by itself with an opcode that it leaves to events.
theorem fetch_of_ofOp?_none {code : Bytes} {pc : Nat} {o : UInt8} (ho : code[pc]? = some o)
    (hform : Form.ofOp? o = none) : fetch code pc = none := by
  unfold fetch
  rw [ho]
  simp [hform]

theorem step_of_ofOp?_none {o : UInt8} (ho : m.code[s.pc]? = some o) (hform : Form.ofOp? o = none) :
    m.step s = none := by
  unfold step
  rw [fetch_of_ofOp?_none ho hform]

section Instructions

variable {i : UInt16} {sig : String}

theorem step_newObject (hop : m.code[s.pc]? = some Op.newObject) : m.step s = none :=
  step_of_ofOp?_none hop rfl

theorem asks_newObject {cls : String} (hop : m.code[s.pc]? = some Op.newObject)
    (hi : m.code.be2? (s.pc + 1) = some i) (hcls : m.constants.className? i = some cls)
    (e : Event) (s' : State) :
    m.Asks l s e s' ↔ ∃ id, True ∧ e = .new cls id ∧
      s' = { s with pc := s.pc + 3, stack := .ref (.object id) :: s.stack } := by
  constructor
  · intro h
    cases h with
    | new id _ hi' hcls' =>
      cases hi.symm.trans hi'
      cases hcls.symm.trans hcls'
      exact ⟨id, trivial, rfl, rfl⟩
    | get hop' => exact absurd (Option.some.inj (hop.symm.trans hop')) (by decide)
    | @call mode _ _ _ _ _ _ _ _ hop' =>
      exact absurd (Option.some.inj (hop.symm.trans hop')) (by cases mode <;> decide)
  · rintro ⟨id, -, rfl, rfl⟩
    exact .new id hop hi hcls

theorem step_getField (hop : m.code[s.pc]? = some Op.getField) : m.step s = none :=
  step_of_ofOp?_none hop rfl

theorem asks_getField {k : Kind} {r : Ref} {rest : List Value}
    (hop : m.code[s.pc]? = some Op.getField) (hi : m.code.be2? (s.pc + 1) = some i)
    (hsig : m.constants.field? i = some sig) (hlink : l.field? sig = some k) (hr : r ≠ .null)
    (hstack : s.stack = .ref r :: rest) (e : Event) (s' : State) :
    m.Asks l s e s' ↔ ∃ v, v.kind = k ∧ e = .get sig r v ∧
      s' = { s with pc := s.pc + 3, stack := v :: rest } := by
  constructor
  · intro h
    cases h with
    | new id hop' => exact absurd (Option.some.inj (hop.symm.trans hop')) (by decide)
    | get _ hi' hsig' hlink' hv _ hstack' =>
      cases hi.symm.trans hi'
      cases hsig.symm.trans hsig'
      cases hlink.symm.trans hlink'
      cases hstack.symm.trans hstack'
      exact ⟨_, hv, rfl, rfl⟩
    | @call mode _ _ _ _ _ _ _ _ hop' =>
      exact absurd (Option.some.inj (hop.symm.trans hop')) (by cases mode <;> decide)
  · rintro ⟨v, hv, rfl, rfl⟩
    exact .get hop hi hsig hlink hv hr hstack

variable {mode : CallMode} {takes : List Kind} {gives : Option Kind} {on args rest : List Value}

-- The machine takes only a boxed long out by itself: that is no object that a method is called on
-- here, and there are no arguments.
theorem step_call (hop : m.code[s.pc]? = some mode.op) (hi : m.code.be2? (s.pc + 1) = some i)
    (hsig : m.constants.method? i = some sig) (hlink : l.method? sig = some ⟨takes, gives⟩)
    (hon : mode.On on ∨ args ≠ []) (hargs : args.map Value.kind = takes)
    (hstack : s.stack = (on ++ args).reverse ++ rest) : m.step s = none := by
  cases mode with
  | special => exact step_of_ofOp?_none hop rfl
  | static => exact step_of_ofOp?_none hop rfl
  | virtual =>
    have hstep := step_of_fetch (m := m) rfl (fetch_pool hop rfl hi) s.stack s.locals
    rw [hstep]
    simp only [exec, hsig]
    split
    · rename_i sig' v rest' heq hsame
      cases heq
      split
      · rename_i hunbox
        rw [hunbox, l.unboxes] at hlink
        cases hlink
        obtain rfl := List.map_eq_nil_iff.mp hargs
        obtain hon | hne := hon
        · cases hon
          rw [hstack] at hsame
          cases hsame
        · exact absurd rfl hne
      · rfl
    · rfl

theorem asks_call (hop : m.code[s.pc]? = some mode.op) (hi : m.code.be2? (s.pc + 1) = some i)
    (hsig : m.constants.method? i = some sig) (hlink : l.method? sig = some ⟨takes, gives⟩)
    (hlength : on.length = mode.arity) (hargs : args.map Value.kind = takes)
    (hstack : s.stack = (on ++ args).reverse ++ rest) (e : Event) (s' : State) :
    m.Asks l s e s' ↔ ∃ result : Option Value, (mode.On on ∧ result.map Value.kind = gives) ∧
      e = .call mode sig (on ++ args) result ∧
      s' = { s with pc := s.pc + 3, stack := result.toList ++ rest } := by
  constructor
  · intro h
    cases h with
    | new id hop' =>
      exact absurd (Option.some.inj (hop.symm.trans hop')) (by cases mode <;> decide)
    | get hop' => exact absurd (Option.some.inj (hop.symm.trans hop')) (by cases mode <;> decide)
    | @call mode' _ _ _ _ on' args' rest' result hop' hi' hsig' hlink' hon' hargs' hresult hstack' =>
      obtain rfl := CallMode.op_inj (Option.some.inj (hop.symm.trans hop'))
      cases hi.symm.trans hi'
      cases hsig.symm.trans hsig'
      cases hlink.symm.trans hlink'
      have hcount : args.length = args'.length := by
        rw [← List.length_map (f := Value.kind), hargs, ← hargs', List.length_map]
      obtain ⟨hsame, rfl⟩ := List.append_inj (hstack.symm.trans hstack') (by
        simp [hcount, hlength, hon'.length_eq])
      obtain ⟨rfl, rfl⟩ := List.append_inj (List.reverse_inj.mp hsame)
        (hlength.trans hon'.length_eq.symm)
      exact ⟨result, ⟨hon', hresult⟩, rfl, rfl⟩
  · rintro ⟨result, ⟨hon, hresult⟩, rfl, rfl⟩
    exact .call hop hi hsig hlink hon hargs hresult hstack

end Instructions

-- Where the machine has come to a halt it asks for nothing.
theorem not_asks_of_fetch_load {k : Kind} {slot next : Nat} {e : Event}
    (hfetch : fetch m.code s.pc = some (.load k slot, next)) : ¬m.Asks l s e s' := by
  have hunknown : ∀ {o : UInt8}, m.code[s.pc]? = some o → Form.ofOp? o ≠ none := by
    intro o ho hform
    rw [fetch_of_ofOp?_none ho hform] at hfetch
    cases hfetch
  intro h
  cases h with
  | new _ hop => exact hunknown hop rfl
  | get hop => exact hunknown hop rfl
  | @call mode i _ _ _ _ _ _ _ hop hi =>
    cases mode with
    | special => exact hunknown hop rfl
    | static => exact hunknown hop rfl
    | virtual =>
      rw [fetch_pool hop rfl hi] at hfetch
      cases hfetch

-- A run that comes to load a local without a value returns nothing.
theorem FailsToLoad.not_returns (h : m.FailsToLoad s) : ¬m.Returns l s es v := by
  obtain ⟨t, k, slot, next, hreach, hfetch, hnone⟩ := h
  have hstep : m.step t = none := by
    rw [step, hfetch]
    simp [exec, hnone]
  rw [returns_of_reaches hreach]
  rintro ⟨u, hcomes, hreturned⟩
  cases hcomes with
  | refl =>
    rw [hstep] at hreturned
    cases hreturned
  | step hstep' _ =>
    rw [hstep] at hstep'
    cases hstep'
  | event _ hask _ => exact not_asks_of_fetch_load hfetch hask

end Machine

section Depth

-- The slots that values take on the operand stack.
def depth (stack : List Value) : Nat :=
  (stack.map fun v => v.slots.length).sum

variable {a b : List Value}

@[simp] theorem depth_nil : depth [] = 0 :=
  rfl

@[simp] theorem depth_cons (v : Value) (a : List Value) :
    depth (v :: a) = v.slots.length + depth a :=
  rfl

@[simp] theorem depth_append : depth (a ++ b) = depth a + depth b := by
  simp [depth]

@[simp] theorem depth_reverse : depth a.reverse = depth a := by
  simp [depth]

@[simp] theorem length_slots_ref (r : Ref) : (Value.ref r).slots.length = 1 :=
  rfl

theorem depth_eq_length (a : List Value) : depth a = (a.flatMap Value.slots).length := by
  simp [depth, List.length_flatMap]

end Depth

namespace Machine

-- An instruction that loads no local.
def IsPlain (m : Machine) (pc : Nat) : Prop :=
  ∀ k slot next, fetch m.code pc ≠ some (.load k slot, next)

-- A state whose stack takes no more slots than these, and which does not load from behind as many
-- locals.
structure Within (m : Machine) (maxStack maxLocals : Nat) (s : State) : Prop where
  stack : depth s.stack ≤ maxStack
  locals : ∀ k slot next, fetch m.code s.pc = some (.load k slot, next) →
    slot + (if k.isWide then 2 else 1) ≤ maxLocals

variable {m : Machine} {pc maxStack maxLocals : Nat} {s : State}

theorem IsPlain.of_fetch_none (h : fetch m.code pc = none) : m.IsPlain pc := by
  intro k slot next hload
  rw [h] at hload
  cases hload

theorem IsPlain.of_fetch {i : Instruction} {next : Nat} (h : fetch m.code pc = some (i, next))
    (hi : ∀ k slot, i ≠ .load k slot) : m.IsPlain pc := by
  intro k slot next' hload
  rw [h] at hload
  cases hload
  exact hi k slot rfl

theorem IsPlain.within (h : m.IsPlain s.pc) (hstack : depth s.stack ≤ maxStack) :
    m.Within maxStack maxLocals s :=
  ⟨hstack, fun k slot next hload => absurd hload (h k slot next)⟩

theorem within_of_load {k : Kind} {slot next : Nat}
    (h : fetch m.code s.pc = some (.load k slot, next)) (hstack : depth s.stack ≤ maxStack)
    (hslot : slot + (if k.isWide then 2 else 1) ≤ maxLocals) : m.Within maxStack maxLocals s := by
  refine ⟨hstack, fun k' slot' next' hload => ?_⟩
  rw [h] at hload
  cases hload
  exact hslot

end Machine

end PodCompiler.Jvm
