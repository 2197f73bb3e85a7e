import PodCompiler.Lowering.Method
import PodCompiler.Proofs.ClassFile.Draft
import PodCompiler.Proofs.Lowering.ClassSteps

namespace PodCompiler.Lowering

open ClassFile (CodeBuffer Draft MethodInfo)
open Pod (MethodDef VarDef)

namespace OpenClass

-- A step that puts some methods behind those of a class.
structure Declares (env : ClassEnv) (c : OpenClass) (ms : List MethodInfo) (c' : OpenClass) :
    Prop where
  formed : c'.WellFormed env
  draft : c.draft.Declares ms c'.draft

variable {env : ClassEnv} {c c₁ c' : OpenClass} {ms ms' : List MethodInfo}

theorem Declares.refl (hc : c.WellFormed env) : c.Declares env [] c :=
  ⟨hc, .refl hc.pool⟩

theorem Declares.trans (h : c.Declares env ms c₁) (h' : c₁.Declares env ms' c') :
    c.Declares env (ms ++ ms') c' :=
  ⟨h'.formed, h.draft.trans h'.draft⟩

theorem Declares.extends (h : c.Declares env ms c') :
    ClassFile.Constants.Extends c'.draft.pool.get? c.draft.pool.get? :=
  h.draft.grows.extends h.formed.pool

-- The methods are those that were not there before.
theorem Declares.unique (h : c.Declares env ms c') (h' : c.Declares env ms' c') : ms = ms' := by
  have hmethods := h.draft.methods
  rw [h'.draft.methods] at hmethods
  exact (List.append_cancel_left hmethods).symm

-- Lowering code declares nothing.
theorem Advances.declares (h : Advances env c c') (hc : c.WellFormed env) :
    c.Declares env [] c' := by
  obtain ⟨hc', hgrows⟩ := h hc
  refine ⟨hc', ?_⟩
  rw [hgrows.members]
  exact Draft.declares_pool hc'.pool hgrows.pool

end OpenClass

namespace ClassM

variable {α β : Type} {env : ClassEnv} {c c' : OpenClass} {ms : List MethodInfo}

theorem onDraft_eq_ok {m : ClassFile.DraftM α} {a : α} (h : onDraft m env c = .ok a c') :
    ∃ d, m c.draft = .ok a d ∧ c' = { c with draft := d } := by
  obtain ⟨draft, resolver, literals⟩ := c
  unfold onDraft at h
  dsimp only at h
  split at h
  · rename_i b d hm
    cases h
    exact ⟨d, hm, rfl⟩
  · cases h

-- A step on the draft of a class.
theorem declares_onDraft {d : Draft} (hc : c.WellFormed env) (h : c.draft.Declares ms d) :
    c.Declares env ms { c with draft := d } :=
  ⟨⟨h.built, hc.calls⟩, h⟩

theorem addMethod_eq_ok {access : UInt16} {name desc : String} {code : Option CodeBuffer} {u : Unit}
    (hc : c.WellFormed env) (h : addMethod access name desc code env c = .ok u c') :
    ∃ m, c.Declares env [m] c' ∧ m.access = access ∧ m.name = name ∧ m.desc = desc ∧
      m.code = code := by
  obtain ⟨d, hd, rfl⟩ := onDraft_eq_ok h
  obtain ⟨m, hdeclares, hm⟩ := Draft.addMethod_eq_ok hc.pool hd
  exact ⟨m, declares_onDraft hc hdeclares, hm⟩

theorem addMethod_run {access : UInt16} {name desc : String} {code : Option CodeBuffer} {d : Draft}
    (h : Draft.addMethod access name desc code c.draft = .ok () d) :
    addMethod access name desc code env c = .ok () { c with draft := d } := by
  cases c
  unfold addMethod onDraft
  dsimp only at h ⊢
  rw [h]

-- A step that puts any methods behind those of a class.
def Declaring (m : ClassM α) : Prop :=
  ∀ env c a c', m env c = .ok a c' → c.WellFormed env → ∃ ms, c.Declares env ms c'

theorem Advancing.declaring {m : ClassM α} (hm : Advancing m) : Declaring m :=
  fun env c a c' h hc => ⟨[], (hm env c a c' h).declares hc⟩

@[simp] theorem declaring_pure (a : α) : Declaring (pure a) :=
  (advancing_pure a).declaring

@[simp] theorem declaring_bind {m : ClassM α} {k : α → ClassM β} (hm : Declaring m)
    (hk : ∀ a, Declaring (k a)) : Declaring (m >>= k) := by
  intro env c b c' h hc
  obtain ⟨a, c₁, ha, hb⟩ := bind_eq_ok.mp h
  obtain ⟨ms, hms⟩ := hm env c a c₁ ha hc
  obtain ⟨ms', hms'⟩ := hk a env c₁ b c' hb hms.formed
  exact ⟨ms ++ ms', hms.trans hms'⟩

@[simp] theorem declaring_forM {xs : List α} {g : α → ClassM PUnit} (hg : ∀ x, Declaring (g x)) :
    Declaring (xs.forM g) := by
  induction xs with
  | nil => exact declaring_pure _
  | cons x rest ih => exact declaring_bind (hg x) fun _ => ih

-- A step that puts methods behind those of a class whose names `P` admits.
def Adds (P : String → Prop) (m : ClassM α) : Prop :=
  ∀ env c a c', m env c = .ok a c' → c.WellFormed env →
    ∃ ms, c.Declares env ms c' ∧ ∀ w ∈ ms, P w.name

section Adds

variable {P Q : String → Prop}

theorem Adds.declaring {m : ClassM α} (hm : Adds P m) : Declaring m := by
  intro env c a c' h hc
  obtain ⟨ms, hms, -⟩ := hm env c a c' h hc
  exact ⟨ms, hms⟩

theorem Adds.mono {m : ClassM α} (hm : Adds P m) (hPQ : ∀ name, P name → Q name) : Adds Q m := by
  intro env c a c' h hc
  obtain ⟨ms, hms, hnames⟩ := hm env c a c' h hc
  exact ⟨ms, hms, fun w hw => hPQ _ (hnames w hw)⟩

-- What adds nothing adds nothing that `P` does not admit.
theorem Adds.of_none {m : ClassM α} (hm : Adds (fun _ => False) m) : Adds P m :=
  hm.mono fun _ h => h.elim

theorem Advancing.adds {m : ClassM α} (hm : Advancing m) : Adds P m :=
  fun env c a c' h hc => ⟨[], (hm env c a c' h).declares hc, by simp⟩

theorem adds_bind {m : ClassM α} {k : α → ClassM β} (hm : Adds P m) (hk : ∀ a, Adds P (k a)) :
    Adds P (m >>= k) := by
  intro env c b c' h hc
  obtain ⟨a, c₁, ha, hb⟩ := bind_eq_ok.mp h
  obtain ⟨ms, hms, hnames⟩ := hm env c a c₁ ha hc
  obtain ⟨ms', hms', hnames'⟩ := hk a env c₁ b c' hb hms.formed
  exact ⟨ms ++ ms', hms.trans hms', List.forall_mem_append.mpr ⟨hnames, hnames'⟩⟩

theorem adds_addMethod {access : UInt16} {name desc : String} {code : Option CodeBuffer}
    (hname : P name) : Adds P (addMethod access name desc code) := by
  intro env c u c' h hc
  obtain ⟨m, hm, -, hsame, -⟩ := addMethod_eq_ok hc h
  exact ⟨[m], hm, List.forall_mem_singleton.mpr (hsame ▸ hname)⟩

theorem adds_forM {xs : List α} {g : α → ClassM PUnit} (hg : ∀ x ∈ xs, Adds P (g x)) :
    Adds P (xs.forM g) := by
  induction xs with
  | nil => exact (advancing_pure _).adds
  | cons x rest ih =>
    obtain ⟨hx, hrest⟩ := List.forall_mem_cons.mp hg
    exact adds_bind hx fun _ => ih hrest

theorem adds_if {p : Prop} [Decidable p] {m : ClassM PUnit} (hm : p → Adds P m) :
    Adds P (if p then m else pure ⟨⟩) := by
  split
  · rename_i hp
    exact hm hp
  · exact (advancing_pure _).adds

end Adds

-- Each of several steps is taken between the first state and the last.
theorem exists_step_of_forM {xs : List α} {g : α → ClassM PUnit} (hg : ∀ x, Declaring (g x))
    {x : α} (hx : x ∈ xs) {u : PUnit} (h : xs.forM g env c = .ok u c') (hc : c.WellFormed env) :
    ∃ c₁ c₂ before after, c.Declares env before c₁ ∧ g x env c₁ = .ok ⟨⟩ c₂ ∧
      c₂.Declares env after c' := by
  induction xs generalizing c with
  | nil => cases hx
  | cons y rest ih =>
    obtain ⟨⟨⟩, c₁, hy, hrest⟩ := bind_eq_ok.mp h
    obtain ⟨ms, hms⟩ := hg y env c _ c₁ hy hc
    obtain rfl | hx := List.mem_cons.mp hx
    · obtain ⟨ms', hms'⟩ := declaring_forM hg env c₁ u c' hrest hms.formed
      exact ⟨c, c₁, [], ms', .refl hc, hy, hms'⟩
    · obtain ⟨c₂, c₃, before, after, hbefore, hstep, hafter⟩ := ih hx hrest hms.formed
      exact ⟨c₂, c₃, ms ++ before, after, hms.trans hbefore, hstep, hafter⟩

-- A loop whose body ends with the next round.
theorem forIn_eq_forM {xs : List α} {body : α → PUnit → ClassM (ForInStep PUnit)}
    {g : α → ClassM PUnit} (hbody : ∀ x, body x ⟨⟩ = g x >>= fun _ => pure (.yield ⟨⟩)) :
    forIn xs PUnit.unit body = xs.forM g := by
  induction xs with
  | nil => rfl
  | cons x rest ih =>
    rw [List.forIn_cons, hbody, bind_assoc]
    simp only [pure_bind, ih]
    rfl

end ClassM

section Code

open ClassM (Advancing)

theorem advancing_lowerCode (f : Frame) (code : Bytes) (attrs : Pod.Attributes) (out : CodeBuffer) :
    Advancing (lowerCode f code attrs out) := by
  intro env c mc c' h
  obtain ⟨p, c₁, hp, -⟩ := lowerCode_eq_ok h
  exact (placeCode_advances hp).trans (lowerCode_advances h hp)

theorem advancing_lowerFragment (f : Frame) (code : Bytes) (out : CodeBuffer) :
    Advancing (lowerFragment f code out) := by
  refine ClassM.advancing_bind ?_ fun _ => ClassM.advancing_ofExcept _
  intro env c p c' h
  exact placeCode_advances h

theorem advancing_lowerPlainBody (m : MethodDef) (f : Frame) : Advancing (lowerPlainBody m f) :=
  ClassM.advancing_bind (advancing_lowerCode _ _ _ _) fun _ => ClassM.advancing_pure _

theorem advancing_assemble (out : CodeBuffer) (items : List (Item Ref)) :
    Advancing (ClassM.assemble out items) :=
  ClassM.advancing_bind (ClassM.advancing_mapM ClassM.advancing_item _) fun _ =>
    ClassM.advancing_pure _

theorem advancing_lowerDefaults (m : MethodDef) (f : Frame) (out : CodeBuffer) (index : Nat)
    (params : List VarDef) : Advancing (lowerDefaults m f out index params) := by
  induction params generalizing out index with
  | nil => exact ClassM.advancing_pure _
  | cons p rest ih =>
    unfold lowerDefaults
    split
    · refine ClassM.advancing_bind ClassM.advancing_className fun _ => ?_
      intro env c out c' h
      cases h
    · exact ClassM.advancing_bind (advancing_lowerFragment _ _ _) fun _ => ih _ _

-- The code of one default, and behind it that of the others.
theorem lowerDefaults_cons {env : ClassEnv} {c c' : OpenClass} {m : MethodDef} {f : Frame}
    {out all : CodeBuffer} {index : Nat} {p : VarDef} {rest : List VarDef}
    (h : lowerDefaults m f out index (p :: rest) env c = .ok all c') :
    ∃ code fragment c₁, p.default? = some code ∧
      lowerFragment f code out env c = .ok fragment c₁ ∧
      lowerDefaults m f fragment.code (index + 1) rest env c₁ = .ok all c' := by
  unfold lowerDefaults at h
  cases hdefault : p.default? with
  | none =>
    rw [hdefault] at h
    obtain ⟨cls, c₁, -, hthrow⟩ := ClassM.bind_eq_ok.mp h
    cases hthrow
  | some code =>
    rw [hdefault] at h
    obtain ⟨fragment, c₁, hfragment, hrest⟩ := ClassM.bind_eq_ok.mp h
    exact ⟨code, fragment, c₁, rfl, hfragment, hrest⟩

end Code

-- What stands for the receiver in a descriptor.
def receiverDesc : Option String → String
  | some cls => s!"L{cls};"
  | none => ""

-- What stands for the result.
def resultDesc (s : Pod.Symbols) (m : MethodDef) : Result → Except LoweringError String
  | .inherited => TypeRef.jsig <$> typeRefAt s m.inheritedRet
  | .void => .ok "V"
  | .object cls => .ok s!"L{cls};"

-- The parts of a descriptor.
theorem methodDesc_eq_ok {s : Pod.Symbols} {m : MethodDef} {self : Option String}
    {params : List VarDef} {result : Result} {desc : String}
    (h : methodDesc s m self params result = .ok desc) :
    ∃ args ret, params.mapM (fun p => TypeRef.jsig <$> typeRefAt s p.type) = .ok args ∧
      resultDesc s m result = .ok ret ∧
      desc = "(" ++ receiverDesc self ++ String.join args ++ ")" ++ ret := by
  obtain ⟨args, hargs, h₁⟩ := except_bind_eq_ok.mp h
  have hdesc : ∀ ret, s!"({receiverDesc self}{String.join args}){ret}" =
      "(" ++ receiverDesc self ++ String.join args ++ ")" ++ ret := fun _ => rfl
  cases result with
  | inherited =>
    obtain ⟨ret, hret, hpure⟩ := except_bind_eq_ok.mp h₁
    cases hpure
    exact ⟨args, ret, hargs, hret, by cases self <;> exact hdesc ret⟩
  | void =>
    obtain ⟨ret, hret, hpure⟩ := except_bind_eq_ok.mp h₁
    cases hret
    cases hpure
    exact ⟨args, "V", hargs, rfl, by cases self <;> exact hdesc "V"⟩
  | object cls =>
    obtain ⟨ret, hret, hpure⟩ := except_bind_eq_ok.mp h₁
    cases hret
    cases hpure
    exact ⟨args, _, hargs, rfl, by cases self <;> exact hdesc _⟩

section Steps

variable {env : ClassEnv} {c c' : OpenClass} {m : MethodDef}

theorem desc_eq_ok {self : Option String} {n : Nat} {result : Result} {desc : String}
    (h : ClassM.desc m self n result env c = .ok desc c') :
    methodDesc env.pod.symbols m self (m.params.take n) result = .ok desc ∧ c' = c := by
  obtain ⟨symbols, c₁, hsymbols, hdesc⟩ := ClassM.bind_eq_ok.mp h
  cases hsymbols
  exact ClassM.ofExcept_eq_ok.mp hdesc

theorem frame_eq_ok {mode : SelfMode} {f : Frame} (h : ClassM.frame m mode env c = .ok f c') :
    Frame.forMethod env.pod.symbols c.draft.name m mode = .ok f ∧ c' = c := by
  obtain ⟨symbols, c₁, hsymbols, h₁⟩ := ClassM.bind_eq_ok.mp h
  cases hsymbols
  obtain ⟨cls, c₂, hcls, hframe⟩ := ClassM.bind_eq_ok.mp h₁
  cases hcls
  exact ClassM.ofExcept_eq_ok.mp hframe

theorem resultStack_eq_ok {stack : StackType} (h : ClassM.resultStack m env c = .ok stack c') :
    ∃ ret, typeRefAt env.pod.symbols m.inheritedRet = .ok ret ∧ stack = ret.stack ∧ c' = c := by
  obtain ⟨ret, c₁, hrun, hpure⟩ := ClassM.bind_eq_ok.mp h
  obtain ⟨symbols, c₂, hsymbols, hread⟩ := ClassM.bind_eq_ok.mp hrun
  cases hsymbols
  obtain ⟨hret, rfl⟩ := ClassM.ofExcept_eq_ok.mp hread
  obtain ⟨rfl, rfl⟩ := ClassM.pure_eq_ok.mp hpure
  exact ⟨ret, hret, rfl, rfl⟩

end Steps

theorem exists_of_forall₂ {α β : Type} {R : α → β → Prop} {l : List α} {l' : List β}
    (h : List.Forall₂ R l l') {a : α} (ha : a ∈ l) : ∃ b ∈ l', R a b := by
  induction h with
  | nil => cases ha
  | cons hab _ ih =>
    obtain rfl | ha := List.mem_cons.mp ha
    · exact ⟨_, List.mem_cons_self, hab⟩
    · obtain ⟨b, hb, hR⟩ := ih ha
      exact ⟨b, List.mem_cons_of_mem _ hb, hR⟩

-- The number of parameters is a byte.
theorem length_params_le (m : MethodDef) : m.params.length ≤ 255 := by
  have hlt := m.paramCount.toNat_lt
  rw [MethodDef.params, List.length_take]
  omega

-- The receiver that a wrapper passes on.
def Target.receiver (t : Target) : List (Item Ref) :=
  if t.self.isSome || !t.isStatic then [.op ClassFile.Op.aload0] else []

-- The wrapper with the first `n` parameters: it pushes these and the defaults of the others, and
-- returns what the method does.
structure Wrapper (env : ClassEnv) (m : MethodDef) (t : Target) (access : UInt16) (f : Frame)
    (ref : UInt16) (n : Nat) (w : MethodInfo) : Prop where
  access : w.access = access
  name : w.name = t.name
  desc : methodDesc env.pod.symbols m t.self (m.params.take n) t.result = .ok w.desc
  code : ∃ c₁ c₂ c₃ passed all,
    ClassM.assemble (CodeBuffer.sized (max f.maxStack 16 + 2 * m.params.length) f.maxLocals)
      (t.receiver ++ loadLocals (f.params n)) env c₁ = .ok passed c₂ ∧
    lowerDefaults m f passed n (m.params.drop n) env c₂ = .ok all c₃ ∧
    w.code = some ((all.op2 (if t.isStatic then ClassFile.Op.invokeStatic
      else ClassFile.Op.invokeVirtual) ref).returnOp t.resultStack)

-- The same, if the class has the constants of its code.
structure WrapperIn (env : ClassEnv) (m : MethodDef) (t : Target) (access : UInt16) (f : Frame)
    (ref : UInt16) (c' : OpenClass) (n : Nat) (w : MethodInfo) : Prop where
  access : w.access = access
  name : w.name = t.name
  desc : methodDesc env.pod.symbols m t.self (m.params.take n) t.result = .ok w.desc
  code : ∃ c₁ c₂ c₃ passed all, c₁.WellFormed env ∧
    ClassM.assemble (CodeBuffer.sized (max f.maxStack 16 + 2 * m.params.length) f.maxLocals)
      (t.receiver ++ loadLocals (f.params n)) env c₁ = .ok passed c₂ ∧
    lowerDefaults m f passed n (m.params.drop n) env c₂ = .ok all c₃ ∧
    ClassFile.Constants.Extends c'.draft.pool.get? c₃.draft.pool.get? ∧
    w.code = some ((all.op2 (if t.isStatic then ClassFile.Op.invokeStatic
      else ClassFile.Op.invokeVirtual) ref).returnOp t.resultStack)

-- The wrappers of a method, from the first parameter with a default on.
inductive Wrappers (env : ClassEnv) (owner : String) (m : MethodDef) (t : Target)
    (access : UInt16) (mode : SelfMode) : List MethodInfo → Prop where
  | none (hfirst : m.firstDefault? = none) : Wrappers env owner m t access mode []
  | some {first : Nat} {f : Frame} {ref : UInt16} {ws : List MethodInfo}
      (hfirst : m.firstDefault? = some first)
      (hframe : Frame.forMethod env.pod.symbols owner m mode = .ok f)
      (hws : List.Forall₂ (Wrapper env m t access f ref)
        ((List.range m.params.length).drop first) ws) : Wrappers env owner m t access mode ws

-- A method of the class with its wrappers.
structure Family (env : ClassEnv) (owner : String) (m : MethodDef) (t : Target) (access : UInt16)
    (mode : SelfMode) (main : MethodInfo) (ws : List MethodInfo) : Prop where
  name : main.name = t.name
  desc : main.desc = t.desc
  full : methodDesc env.pod.symbols m t.self m.params t.result = .ok t.desc
  wrappers : Wrappers env owner m t access mode ws

section Families

variable {env : ClassEnv} {c c₁ c' : OpenClass} {m : MethodDef} {t : Target} {access : UInt16}
  {mode : SelfMode} {u : Unit}

section WrapperIn

variable {f : Frame} {ref : UInt16} {n : Nat} {w : MethodInfo}

theorem WrapperIn.wrapper (h : WrapperIn env m t access f ref c n w) :
    Wrapper env m t access f ref n w := by
  obtain ⟨c₁, c₂, c₃, passed, all, -, hpassed, hall, -, hcode⟩ := h.code
  exact ⟨h.access, h.name, h.desc, c₁, c₂, c₃, passed, all, hpassed, hall, hcode⟩

-- A class keeps the constants when it gets more methods.
theorem WrapperIn.declares {ms : List MethodInfo} (h : WrapperIn env m t access f ref c n w)
    (hms : c.Declares env ms c') : WrapperIn env m t access f ref c' n w := by
  obtain ⟨c₁, c₂, c₃, passed, all, hc₁, hpassed, hall, hextends, hcode⟩ := h.code
  exact ⟨h.access, h.name, h.desc, c₁, c₂, c₃, passed, all, hc₁, hpassed, hall,
    hms.extends.trans hextends, hcode⟩

end WrapperIn

theorem lowerWrapper_eq_ok {f : Frame} {ref : UInt16} {n : Nat} (hc : c.WellFormed env)
    (h : lowerWrapper m t access f ref n env c = .ok u c') :
    ∃ w, c.Declares env [w] c' ∧ WrapperIn env m t access f ref c' n w := by
  obtain ⟨desc, c₁, hrun, h₁⟩ := ClassM.bind_eq_ok.mp h
  obtain ⟨hdesc, rfl⟩ := desc_eq_ok hrun
  obtain ⟨passed, c₂, hpassed, h₂⟩ := ClassM.bind_eq_ok.mp h₁
  obtain ⟨all, c₃, hall, hadd⟩ := ClassM.bind_eq_ok.mp h₂
  have hc₂ := (advancing_assemble _ _ _ _ _ _ hpassed).declares hc
  have hc₃ := (advancing_lowerDefaults _ _ _ _ _ _ _ _ _ hall).declares hc₂.formed
  obtain ⟨w, hw, haccess, hname, hwdesc, hcode⟩ := ClassM.addMethod_eq_ok hc₃.formed hadd
  refine ⟨w, (hc₂.trans hc₃).trans hw, haccess, hname, ?_, ?_⟩
  · rw [hwdesc]
    exact hdesc
  · exact ⟨_, _, _, _, _, hc, hpassed, hall, hw.extends, hcode⟩

-- The wrappers for several numbers of parameters.
theorem forM_lowerWrapper_eq_ok {f : Frame} {ref : UInt16} {ns : List Nat} (hc : c.WellFormed env)
    (h : ns.forM (lowerWrapper m t access f ref) env c = .ok u c') :
    ∃ ws, c.Declares env ws c' ∧ List.Forall₂ (WrapperIn env m t access f ref c') ns ws := by
  induction ns generalizing c with
  | nil =>
    obtain ⟨-, rfl⟩ := ClassM.pure_eq_ok.mp h
    exact ⟨[], .refl hc, .nil⟩
  | cons n rest ih =>
    obtain ⟨v, c₁, hfirst, hrest⟩ := ClassM.bind_eq_ok.mp h
    obtain ⟨w, hdeclares, hw⟩ := lowerWrapper_eq_ok hc hfirst
    obtain ⟨ws, hdeclares', hws⟩ := ih hdeclares.formed hrest
    exact ⟨w :: ws, hdeclares.trans hdeclares', .cons (hw.declares hdeclares') hws⟩

-- There is a wrapper for each number of parameters from the first one with a default on, and all of
-- them call the same method.
theorem lowerWrappers_some {first : Nat} (hfirst : m.firstDefault? = some first)
    (hc : c.WellFormed env) (h : lowerWrappers m t access mode env c = .ok u c') :
    ∃ f ref ws, Frame.forMethod env.pod.symbols c.draft.name m mode = .ok f ∧
      c.Declares env ws c' ∧
      ClassFile.Constants.method? c'.draft.pool.get? ref =
        some s!"{c.draft.name}.{t.name}{t.desc}" ∧
      List.Forall₂ (WrapperIn env m t access f ref c') ((List.range m.params.length).drop first)
        ws := by
  unfold lowerWrappers at h
  rw [hfirst] at h
  obtain ⟨f, c₁, hrun, h₁⟩ := ClassM.bind_eq_ok.mp h
  obtain ⟨hframe, rfl⟩ := frame_eq_ok hrun
  obtain ⟨cls, c₂, hcls, h₂⟩ := ClassM.bind_eq_ok.mp h₁
  cases hcls
  obtain ⟨ref, c₃, href, h₃⟩ := ClassM.bind_eq_ok.mp h₂
  have hc₃ := (ClassM.advancing_intern _ _ _ _ _ href).declares hc
  obtain ⟨p, hp, rfl⟩ := ClassM.onPool_eq_ok.mp href
  obtain ⟨ws, hdeclares, hws⟩ := forM_lowerWrapper_eq_ok hc₃.formed h₃
  exact ⟨f, ref, ws, hframe, hc₃.trans hdeclares,
    hdeclares.extends.method? (ClassFile.Pool.method_eq_ok hc.pool hp).2.2, hws⟩

theorem lowerWrappers_eq_ok (hc : c.WellFormed env)
    (h : lowerWrappers m t access mode env c = .ok u c') :
    ∃ ws, c.Declares env ws c' ∧ Wrappers env c.draft.name m t access mode ws := by
  cases hfirst : m.firstDefault? with
  | none =>
    unfold lowerWrappers at h
    rw [hfirst] at h
    obtain ⟨-, rfl⟩ := ClassM.pure_eq_ok.mp h
    exact ⟨[], .refl hc, .none hfirst⟩
  | some first =>
    obtain ⟨f, ref, ws, hframe, hdeclares, -, hws⟩ := lowerWrappers_some hfirst hc h
    exact ⟨ws, hdeclares, .some hfirst hframe (hws.imp fun _ _ hw => hw.wrapper)⟩

-- A method is put behind those of a class, and its wrappers behind it.
structure FamilySteps (env : ClassEnv) (c : OpenClass) (m : MethodDef) (t : Target)
    (access : UInt16) (mode : SelfMode) (main : MethodInfo) (c' : OpenClass) : Prop where
  name : main.name = t.name
  desc : main.desc = t.desc
  full : methodDesc env.pod.symbols m t.self m.params t.result = .ok t.desc
  steps : ∃ c₁, c.Declares env [main] c₁ ∧ lowerWrappers m t access mode env c₁ = .ok () c'

theorem FamilySteps.family {main : MethodInfo} (h : FamilySteps env c m t access mode main c') :
    ∃ ws, c.Declares env (main :: ws) c' ∧
      Family env c.draft.name m t access mode main ws := by
  obtain ⟨c₁, hmain, hwrappers⟩ := h.steps
  obtain ⟨ws, hdeclares, hws⟩ := lowerWrappers_eq_ok hmain.formed hwrappers
  rw [hmain.draft.name] at hws
  exact ⟨ws, hmain.trans hdeclares, h.name, h.desc, h.full, hws⟩

-- The code of a method is that of its instructions.
def HasBody (env : ClassEnv) (m : MethodDef) (f : Frame) (main : MethodInfo) : Prop :=
  ∃ c₁ mc c₂, lowerBody f m (CodeBuffer.sized f.maxStack f.maxLocals) env c₁ = .ok mc c₂ ∧
    main.code = some mc.code

-- The code of a method is that of some items.
def HasItems (env : ClassEnv) (maxStack maxLocals : Nat) (items : List (Item Ref))
    (main : MethodInfo) : Prop :=
  ∃ c₁ out c₂, ClassM.assemble (CodeBuffer.sized maxStack maxLocals) items env c₁ = .ok out c₂ ∧
    main.code = some out

-- The same, if the class has the constants of the code.
def HasItemsIn (env : ClassEnv) (maxStack maxLocals : Nat) (items : List (Item Ref))
    (c' : OpenClass) (main : MethodInfo) : Prop :=
  ∃ c₁ out c₂, c₁.WellFormed env ∧
    ClassM.assemble (CodeBuffer.sized maxStack maxLocals) items env c₁ = .ok out c₂ ∧
    ClassFile.Constants.Extends c'.draft.pool.get? c₂.draft.pool.get? ∧ main.code = some out

section HasItemsIn

variable {maxStack maxLocals : Nat} {items : List (Item Ref)} {main : MethodInfo}

theorem HasItemsIn.hasItems (h : HasItemsIn env maxStack maxLocals items c main) :
    HasItems env maxStack maxLocals items main := by
  obtain ⟨c₁, out, c₂, -, hitems, -, hcode⟩ := h
  exact ⟨c₁, out, c₂, hitems, hcode⟩

-- A class keeps the constants when it gets more methods.
theorem HasItemsIn.declares {ms : List MethodInfo}
    (h : HasItemsIn env maxStack maxLocals items c main) (hms : c.Declares env ms c') :
    HasItemsIn env maxStack maxLocals items c' main := by
  obtain ⟨c₁, out, c₂, hc₁, hitems, hextends, hcode⟩ := h
  exact ⟨c₁, out, c₂, hc₁, hitems, hms.extends.trans hextends, hcode⟩

end HasItemsIn

theorem declares_body {f : Frame} {out : CodeBuffer} {name desc : String} (hc : c.WellFormed env)
    (hbody : lowerPlainBody m f env c = .ok out c₁)
    (hadd : ClassM.addMethod access name desc (some out) env c₁ = .ok u c') :
    ∃ main, c.Declares env [main] c' ∧ main.access = access ∧ main.name = name ∧
      main.desc = desc ∧ HasBody env m f main := by
  have hc₁ := (advancing_lowerPlainBody m f _ _ _ _ hbody).declares hc
  obtain ⟨main, hmain, haccess, hname, hdesc, hcode⟩ := ClassM.addMethod_eq_ok hc₁.formed hadd
  obtain ⟨mc, c₂, hlower, hpure⟩ := ClassM.bind_eq_ok.mp hbody
  obtain ⟨rfl, rfl⟩ := ClassM.pure_eq_ok.mp hpure
  exact ⟨main, hc₁.trans hmain, haccess, hname, hdesc, _, mc, _, hlower, hcode⟩

theorem declares_items {maxStack maxLocals : Nat} {items : List (Item Ref)} {out : CodeBuffer}
    {name desc : String} (hc : c.WellFormed env)
    (hitems : ClassM.assemble (CodeBuffer.sized maxStack maxLocals) items env c = .ok out c₁)
    (hadd : ClassM.addMethod access name desc (some out) env c₁ = .ok u c') :
    ∃ main, c.Declares env [main] c' ∧ main.access = access ∧ main.name = name ∧
      main.desc = desc ∧ HasItemsIn env maxStack maxLocals items c' main := by
  have hc₁ := (advancing_assemble _ _ _ _ _ _ hitems).declares hc
  obtain ⟨main, hmain, haccess, hname, hdesc, hcode⟩ := ClassM.addMethod_eq_ok hc₁.formed hadd
  exact ⟨main, hc₁.trans hmain, haccess, hname, hdesc, _, out, _, hc, hitems, hmain.extends, hcode⟩

-- The method that the wrappers of a method call if it is not lowered to another one.
def plainTarget (m : MethodDef) (desc : String) (ret : TypeRef) : Target where
  name := m.name
  desc := desc
  isStatic := m.isStatic
  resultStack := ret.stack

theorem lowerStandard_eq_ok (hc : c.WellFormed env) (h : lowerStandard m env c = .ok u c') :
    ∃ main ret, typeRefAt env.pod.symbols m.inheritedRet = .ok ret ∧
      FamilySteps env c m (plainTarget m main.desc ret) (withoutAbstract (accessOf m.flags)) .bound
        main c' ∧
      (main.access = accessOf m.flags ||| ClassFile.Access.abstract_ ∧ main.code = none ∨
        main.access = accessOf m.flags ∧
          ∃ f, Frame.forMethod env.pod.symbols c.draft.name m .bound = .ok f ∧
            HasBody env m f main) := by
  obtain ⟨desc, c₁, hrun, h₁⟩ := ClassM.bind_eq_ok.mp h
  obtain ⟨hdesc, rfl⟩ := desc_eq_ok hrun
  rw [List.take_length] at hdesc
  dsimp only at h₁
  split at h₁
  · obtain ⟨v, c₂, hadd, h₂⟩ := ClassM.bind_eq_ok.mp h₁
    obtain ⟨stack, c₃, hstack, hwrappers⟩ := ClassM.bind_eq_ok.mp h₂
    obtain ⟨ret, hret, rfl, rfl⟩ := resultStack_eq_ok hstack
    obtain ⟨main, hmain, haccess, hname, rfl, hcode⟩ := ClassM.addMethod_eq_ok hc hadd
    exact ⟨main, ret, hret, ⟨hname, rfl, hdesc, _, hmain, hwrappers⟩, .inl ⟨haccess, hcode⟩⟩
  · obtain ⟨f, c₂, hrun, h₂⟩ := ClassM.bind_eq_ok.mp h₁
    obtain ⟨hframe, rfl⟩ := frame_eq_ok hrun
    obtain ⟨out, c₃, hbody, h₃⟩ := ClassM.bind_eq_ok.mp h₂
    obtain ⟨v, c₄, hadd, h₄⟩ := ClassM.bind_eq_ok.mp h₃
    obtain ⟨stack, c₅, hstack, hwrappers⟩ := ClassM.bind_eq_ok.mp h₄
    obtain ⟨ret, hret, rfl, rfl⟩ := resultStack_eq_ok hstack
    obtain ⟨main, hmain, haccess, hname, rfl, hcode⟩ := declares_body hc hbody hadd
    exact ⟨main, ret, hret, ⟨hname, rfl, hdesc, _, hmain, hwrappers⟩,
      .inr ⟨haccess, f, hframe, hcode⟩⟩

-- The body of a constructor, which returns nothing.
def ctorBodyTarget (self : String) (m : MethodDef) (desc : String) : Target where
  name := m.name ++ "$"
  desc := desc
  isStatic := true
  self := some self
  result := .void
  resultStack := .void

-- The factory of a constructor, which returns the new object.
def factoryTarget (self : String) (m : MethodDef) (desc : String) : Target where
  name := m.name
  desc := desc
  isStatic := true
  result := .object self
  resultStack := .obj

theorem lowerCtorBody_eq_ok (hc : c.WellFormed env) (h : lowerCtorBody m access env c = .ok t c') :
    ∃ main f, t = ctorBodyTarget env.selfName m main.desc ∧
      FamilySteps env c m t access .bound main c' ∧ main.access = access ∧
      Frame.forMethod env.pod.symbols c.draft.name m .bound = .ok f ∧
      HasBody env m (f.withRet .void) main := by
  obtain ⟨e, c₁, hread, h₁⟩ := ClassM.bind_eq_ok.mp h
  cases hread
  obtain ⟨desc, c₂, hrun, h₂⟩ := ClassM.bind_eq_ok.mp h₁
  obtain ⟨hdesc, rfl⟩ := desc_eq_ok hrun
  rw [List.take_length] at hdesc
  obtain ⟨f, c₃, hrun, h₃⟩ := ClassM.bind_eq_ok.mp h₂
  obtain ⟨hframe, rfl⟩ := frame_eq_ok hrun
  obtain ⟨out, c₄, hbody, h₄⟩ := ClassM.bind_eq_ok.mp h₃
  obtain ⟨v, c₅, hadd, h₅⟩ := ClassM.bind_eq_ok.mp h₄
  obtain ⟨v', c₆, hwrappers, hpure⟩ := ClassM.bind_eq_ok.mp h₅
  obtain ⟨rfl, rfl⟩ := ClassM.pure_eq_ok.mp hpure
  obtain ⟨main, hmain, haccess, hname, rfl, hcode⟩ := declares_body hc hbody hadd
  exact ⟨main, f, rfl, ⟨hname, rfl, hdesc, _, hmain, hwrappers⟩, haccess, hframe, hcode⟩

theorem lowerCtor_eq_ok (hc : c.WellFormed env) (h : lowerCtor m env c = .ok u c') :
    ∃ c₁ body factory f g,
      FamilySteps env c m (ctorBodyTarget env.selfName m body.desc)
        (accessOf m.flags ||| ClassFile.Access.static_) .bound body c₁ ∧
      body.access = accessOf m.flags ||| ClassFile.Access.static_ ∧
      Frame.forMethod env.pod.symbols c.draft.name m .bound = .ok f ∧
      HasBody env m (f.withRet .void) body ∧
      FamilySteps env c₁ m (factoryTarget env.selfName m factory.desc)
        (accessOf m.flags ||| ClassFile.Access.static_) .unbound factory c' ∧
      factory.access = accessOf m.flags ||| ClassFile.Access.static_ ∧
      Frame.forMethod env.pod.symbols c.draft.name m .unbound = .ok g ∧
      HasItemsIn env (g.paramSlots m.params.length + 3) (g.paramSlots m.params.length)
        (factoryItems env.selfName (ctorBodyTarget env.selfName m body.desc)
          (g.params m.params.length)) c' factory := by
  obtain ⟨e, c₁, hread, h₁⟩ := ClassM.bind_eq_ok.mp h
  cases hread
  obtain ⟨t, c₂, hctor, h₂⟩ := ClassM.bind_eq_ok.mp h₁
  obtain ⟨body, f, rfl, hbodies, hbodyAccess, hframe, hbodyCode⟩ := lowerCtorBody_eq_ok hc hctor
  obtain ⟨bs, hdeclares, -⟩ := hbodies.family
  obtain ⟨desc, c₃, hrun, h₃⟩ := ClassM.bind_eq_ok.mp h₂
  obtain ⟨hdesc, rfl⟩ := desc_eq_ok hrun
  rw [List.take_length] at hdesc
  obtain ⟨g, c₄, hrun, h₄⟩ := ClassM.bind_eq_ok.mp h₃
  obtain ⟨hunbound, rfl⟩ := frame_eq_ok hrun
  rw [hdeclares.draft.name] at hunbound
  obtain ⟨out, c₅, hitems, h₅⟩ := ClassM.bind_eq_ok.mp h₄
  obtain ⟨v, c₆, hadd, hwrappers⟩ := ClassM.bind_eq_ok.mp h₅
  obtain ⟨factory, hfactory, haccess, hname, rfl, hcode⟩ :=
    declares_items hdeclares.formed hitems hadd
  obtain ⟨fs, hfactories, -⟩ := lowerWrappers_eq_ok hfactory.formed hwrappers
  exact ⟨_, body, factory, f, g, hbodies, hbodyAccess, hframe, hbodyCode,
    ⟨hname, rfl, hdesc, _, hfactory, hwrappers⟩, haccess, hunbound, hcode.declares hfactories⟩

theorem lowerNative_eq_ok (hc : c.WellFormed env) (h : lowerNative m env c = .ok u c') :
    ∃ main ret f peerDesc, typeRefAt env.pod.symbols m.inheritedRet = .ok ret ∧
      FamilySteps env c m (plainTarget m main.desc ret) (withoutAbstract (accessOf m.flags)) .bound
        main c' ∧
      main.access = withoutAbstract (accessOf m.flags) ∧
      Frame.forMethod env.pod.symbols c.draft.name m .bound = .ok f ∧
      HasItemsIn env (f.paramSlots m.params.length + 2) f.maxLocals
        (nativeItems env.selfName m peerDesc (f.params m.params.length) ret.stack) c' main ∧
      (m.isStatic = true → peerDesc = main.desc) ∧
      (m.isStatic = false →
        methodDesc env.pod.symbols m (some env.selfName) m.params .inherited = .ok peerDesc) := by
  obtain ⟨e, c₁, hread, h₁⟩ := ClassM.bind_eq_ok.mp h
  cases hread
  obtain ⟨desc, c₂, hrun, h₂⟩ := ClassM.bind_eq_ok.mp h₁
  obtain ⟨hdesc, rfl⟩ := desc_eq_ok hrun
  rw [List.take_length] at hdesc
  obtain ⟨stack, c₃, hstack, h₃⟩ := ClassM.bind_eq_ok.mp h₂
  obtain ⟨ret, hret, rfl, rfl⟩ := resultStack_eq_ok hstack
  obtain ⟨f, c₄, hrun, h₄⟩ := ClassM.bind_eq_ok.mp h₃
  obtain ⟨hframe, rfl⟩ := frame_eq_ok hrun
  split at h₄
  all_goals
    rename_i hkind
    obtain ⟨peerDesc, c₅, hpeer, h₅⟩ := ClassM.bind_eq_ok.mp h₄
    obtain ⟨hstatic, hobject, hsame⟩ : (m.isStatic = true → peerDesc = desc) ∧
        (m.isStatic = false → methodDesc env.pod.symbols m (some env.selfName) m.params .inherited =
          .ok peerDesc) ∧ c₅ = c₄ := by
      first
        | obtain ⟨rfl, hsame⟩ := ClassM.pure_eq_ok.mp hpeer
          exact ⟨fun _ => rfl, fun h => absurd (hkind.symm.trans h) (by decide), hsame⟩
        | obtain ⟨hpeer, hsame⟩ := desc_eq_ok hpeer
          rw [List.take_length] at hpeer
          exact ⟨fun h => absurd h hkind, fun _ => hpeer, hsame⟩
    subst hsame
    obtain ⟨out, c₆, hitems, h₆⟩ := ClassM.bind_eq_ok.mp h₅
    obtain ⟨v, c₇, hadd, hwrappers⟩ := ClassM.bind_eq_ok.mp h₆
    obtain ⟨main, hmain, haccess, hname, rfl, hcode⟩ := declares_items hc hitems hadd
    obtain ⟨ws, hws, -⟩ := lowerWrappers_eq_ok hmain.formed hwrappers
    exact ⟨main, ret, f, peerDesc, hret, ⟨hname, rfl, hdesc, _, hmain, hwrappers⟩, haccess, hframe,
      hcode.declares hws, hstatic, hobject⟩

-- The class of the receiver that the body of a method of a mixin takes.
def mixinSelf (self : String) (m : MethodDef) : Option String :=
  if m.isStatic then none else some self

-- The body of a method of a mixin, which is static.
def mixinBodyTarget (self : String) (m : MethodDef) (desc : String) (ret : TypeRef) : Target where
  name := m.name
  desc := desc
  isStatic := true
  self := mixinSelf self m
  resultStack := ret.stack

-- The access of the body of a method of a mixin.
def mixinBodyAccess (m : MethodDef) : UInt16 :=
  withoutAbstract (accessOf m.flags) ||| ClassFile.Access.public_ ||| ClassFile.Access.static_

theorem lowerMixinBody_eq_ok (hc : c.WellFormed env) (h : lowerMixinBody m env c = .ok u c') :
    m.hasCode = false ∧ c.Declares env [] c' ∨
    ∃ main ret f, typeRefAt env.pod.symbols m.inheritedRet = .ok ret ∧
      FamilySteps env c m (mixinBodyTarget env.selfName m main.desc ret) (mixinBodyAccess m) .bound
        main c' ∧
      main.access = mixinBodyAccess m ∧
      Frame.forMethod env.pod.symbols c.draft.name m .bound = .ok f ∧ HasBody env m f main := by
  unfold lowerMixinBody at h
  split at h
  · rename_i hcode
    obtain ⟨-, rfl⟩ := ClassM.pure_eq_ok.mp h
    exact .inl ⟨by simpa using hcode, .refl hc⟩
  · refine .inr ?_
    obtain ⟨e, c₁, hread, h₁⟩ := ClassM.bind_eq_ok.mp h
    cases hread
    obtain ⟨desc, c₂, hrun, h₂⟩ := ClassM.bind_eq_ok.mp h₁
    obtain ⟨hdesc, rfl⟩ := desc_eq_ok hrun
    rw [List.take_length] at hdesc
    obtain ⟨f, c₃, hrun, h₃⟩ := ClassM.bind_eq_ok.mp h₂
    obtain ⟨hframe, rfl⟩ := frame_eq_ok hrun
    obtain ⟨out, c₄, hbody, h₄⟩ := ClassM.bind_eq_ok.mp h₃
    obtain ⟨v, c₅, hadd, h₅⟩ := ClassM.bind_eq_ok.mp h₄
    obtain ⟨stack, c₆, hstack, hwrappers⟩ := ClassM.bind_eq_ok.mp h₅
    obtain ⟨ret, hret, rfl, rfl⟩ := resultStack_eq_ok hstack
    obtain ⟨main, hmain, haccess, hname, rfl, hcode⟩ := declares_body hc hbody hadd
    exact ⟨main, ret, f, hret, ⟨hname, rfl, hdesc, _, hmain, hwrappers⟩, haccess, hframe, hcode⟩

-- The declaration of a method of a mixin that leaves out a parameter with a default and all behind
-- it.
def declareUpTo (m : MethodDef) (access : UInt16) (p : VarDef × Nat) : ClassM Unit :=
  if p.1.hasDefault then
    ClassM.desc m none p.2 .inherited >>= fun desc => ClassM.addMethod access m.name desc none
  else pure ()

-- A method that a mixin declares for the first `n` parameters, without code.
structure Declaration (s : Pod.Symbols) (m : MethodDef) (access : UInt16) (n : Nat)
    (w : MethodInfo) : Prop where
  access : w.access = access
  name : w.name = m.name
  desc : methodDesc s m none (m.params.take n) .inherited = .ok w.desc
  code : w.code = none

-- The numbers of arguments that a mixin declares a method for.
def declaredArities (m : MethodDef) : List Nat :=
  m.params.length :: (m.params.zipIdx.filter (·.1.hasDefault)).map (·.2)

theorem mem_declaredArities_iff {n : Nat} : n ∈ declaredArities m ↔
    n = m.params.length ∨ ∃ p, m.params[n]? = some p ∧ p.hasDefault = true := by
  simp [declaredArities, List.mem_zipIdx_iff_getElem?]

theorem forM_declareUpTo_eq_ok {ps : List (VarDef × Nat)} (hc : c.WellFormed env)
    (h : ps.forM (declareUpTo m access) env c = .ok u c') :
    ∃ ms, c.Declares env ms c' ∧ List.Forall₂ (Declaration env.pod.symbols m access)
      ((ps.filter (·.1.hasDefault)).map (·.2)) ms := by
  induction ps generalizing c with
  | nil =>
    obtain ⟨-, rfl⟩ := ClassM.pure_eq_ok.mp h
    exact ⟨[], .refl hc, .nil⟩
  | cons p rest ih =>
    obtain ⟨v, c₁, hfirst, hrest⟩ := ClassM.bind_eq_ok.mp h
    unfold declareUpTo at hfirst
    split at hfirst
    · rename_i hdefault
      obtain ⟨desc, c₂, hrun, hadd⟩ := ClassM.bind_eq_ok.mp hfirst
      obtain ⟨hdesc, rfl⟩ := desc_eq_ok hrun
      obtain ⟨w, hw, haccess, hname, rfl, hcode⟩ := ClassM.addMethod_eq_ok hc hadd
      obtain ⟨ms, hms, hall⟩ := ih hw.formed hrest
      refine ⟨w :: ms, hw.trans hms, ?_⟩
      rw [List.filter_cons_of_pos (by simpa using hdefault), List.map_cons]
      exact .cons ⟨haccess, hname, hdesc, hcode⟩ hall
    · rename_i hdefault
      obtain ⟨-, rfl⟩ := ClassM.pure_eq_ok.mp hfirst
      rw [List.filter_cons_of_neg (by simpa using hdefault)]
      exact ih hc hrest

-- A mixin declares a method once for each of these.
theorem lowerMixinInterface_eq_ok (hc : c.WellFormed env)
    (h : lowerMixinInterface m env c = .ok u c') :
    (m.isStatic || m.isCtor) = true ∧ c' = c ∨
    ∃ ms, c.Declares env ms c' ∧ List.Forall₂ (Declaration env.pod.symbols m
      (ClassFile.Access.public_ ||| ClassFile.Access.abstract_)) (declaredArities m) ms := by
  unfold lowerMixinInterface at h
  split at h
  · rename_i hskip
    obtain ⟨-, rfl⟩ := ClassM.pure_eq_ok.mp h
    exact .inl ⟨hskip, rfl⟩
  · obtain ⟨desc, c₁, hrun, h₁⟩ := ClassM.bind_eq_ok.mp h
    obtain ⟨hdesc, rfl⟩ := desc_eq_ok hrun
    obtain ⟨v, c₂, hadd, h₂⟩ := ClassM.bind_eq_ok.mp h₁
    obtain ⟨v', c₃, hloop, hpure⟩ := ClassM.bind_eq_ok.mp h₂
    obtain ⟨-, rfl⟩ := ClassM.pure_eq_ok.mp hpure
    obtain ⟨main, hmain, haccess, hname, rfl, hcode⟩ := ClassM.addMethod_eq_ok hc hadd
    rw [ClassM.forIn_eq_forM (g := declareUpTo m
      (ClassFile.Access.public_ ||| ClassFile.Access.abstract_)) (by
        rintro ⟨p, n⟩
        unfold declareUpTo
        dsimp only
        split <;> simp)] at hloop
    obtain ⟨ms, hms, hall⟩ := forM_declareUpTo_eq_ok hmain.formed hloop
    exact .inr ⟨main :: ms, hmain.trans hms, .cons ⟨haccess, hname, hdesc, hcode⟩ hall⟩

end Families

-- The items of a router: it passes its arguments on to the body.
def routerItems (mixin name bodyDesc : String) (kinds : List StackType) (result : StackType) :
    List (Item Ref) :=
  .op ClassFile.Op.aload0 :: loadLocals (routerLocals 1 kinds) ++
    [.callStatic s!"{mixin}$.{name}{bodyDesc}", .op (ClassFile.Op.returnOp result)]

-- The router for the first `n` parameters of a method of a mixin.
structure Router (env : ClassEnv) (pod : Pod) (mixin : String) (m : MethodDef) (access : UInt16)
    (result : StackType) (n : Nat) (w : MethodInfo) : Prop where
  access : w.access = access
  name : w.name = m.name
  desc : methodDesc pod.symbols m none (m.params.take n) .inherited = .ok w.desc
  code : ∃ bodyDesc kinds,
    methodDesc pod.symbols m (some mixin) (m.params.take n) .inherited = .ok bodyDesc ∧
    (m.params.take n).mapM (fun p => TypeRef.stack <$> typeRefAt pod.symbols p.type) = .ok kinds ∧
    HasItems env (1 + StackType.totalSlots kinds) (1 + StackType.totalSlots kinds)
      (routerItems mixin m.name bodyDesc kinds result) w

section Routers

variable {env : ClassEnv} {c c' : OpenClass} {pod : Pod} {mixin : String} {m : MethodDef}
  {access : UInt16} {result : StackType} {u : Unit}

-- There is a router unless the class has such a method.
theorem lowerRouterFor_cases {n : Nat}
    (h : lowerRouterFor pod mixin m access result n env c = .ok u c') :
    ∃ desc, methodDesc pod.symbols m none (m.params.take n) .inherited = .ok desc ∧
      (c.draft.hasMethod m.name desc = true ∧ c' = c ∨ ∃ bodyDesc kinds out c₁,
        c.draft.hasMethod m.name desc = false ∧
        methodDesc pod.symbols m (some mixin) (m.params.take n) .inherited = .ok bodyDesc ∧
        (m.params.take n).mapM (fun p => TypeRef.stack <$> typeRefAt pod.symbols p.type) =
          .ok kinds ∧
        ClassM.assemble (CodeBuffer.sized (1 + StackType.totalSlots kinds)
          (1 + StackType.totalSlots kinds)) (routerItems mixin m.name bodyDesc kinds result) env c =
            .ok out c₁ ∧
        ClassM.addMethod access m.name desc (some out) env c₁ = .ok u c') := by
  obtain ⟨desc, c₁, hrun, h₁⟩ := ClassM.bind_eq_ok.mp h
  obtain ⟨hdesc, rfl⟩ := ClassM.ofExcept_eq_ok.mp hrun
  obtain ⟨c₂, c₃, hget, h₂⟩ := ClassM.bind_eq_ok.mp h₁
  cases hget
  refine ⟨desc, hdesc, ?_⟩
  split at h₂
  · rename_i hhas
    obtain ⟨-, rfl⟩ := ClassM.pure_eq_ok.mp h₂
    exact .inl ⟨hhas, rfl⟩
  · rename_i hnew
    obtain ⟨bodyDesc, c₄, hrun, h₃⟩ := ClassM.bind_eq_ok.mp h₂
    obtain ⟨hbodyDesc, rfl⟩ := ClassM.ofExcept_eq_ok.mp hrun
    obtain ⟨kinds, c₅, hrun, h₄⟩ := ClassM.bind_eq_ok.mp h₃
    obtain ⟨hkinds, rfl⟩ := ClassM.ofExcept_eq_ok.mp hrun
    obtain ⟨out, c₆, hitems, hadd⟩ := ClassM.bind_eq_ok.mp h₄
    exact .inr ⟨bodyDesc, kinds, out, c₆, by simpa using hnew, hbodyDesc, hkinds, hitems, hadd⟩

theorem lowerRouterFor_eq_ok {n : Nat} (hc : c.WellFormed env)
    (h : lowerRouterFor pod mixin m access result n env c = .ok u c') :
    (∃ desc, methodDesc pod.symbols m none (m.params.take n) .inherited = .ok desc ∧
      c.draft.hasMethod m.name desc = true ∧ c.Declares env [] c') ∨
    ∃ w, c.draft.hasMethod w.name w.desc = false ∧ c.Declares env [w] c' ∧
      Router env pod mixin m access result n w := by
  obtain ⟨desc, hdesc, ⟨hhas, rfl⟩ |
    ⟨bodyDesc, kinds, out, c₁, hnew, hbodyDesc, hkinds, hitems, hadd⟩⟩ := lowerRouterFor_cases h
  · exact .inl ⟨desc, hdesc, hhas, .refl hc⟩
  · obtain ⟨w, hw, haccess, hname, rfl, hcode⟩ := declares_items hc hitems hadd
    exact .inr ⟨w, by rwa [hname], hw, haccess, hname, hdesc, bodyDesc, kinds, hbodyDesc, hkinds,
      hcode.hasItems⟩

theorem declaring_lowerRouterFor (pod : Pod) (mixin : String) (m : MethodDef) (access : UInt16)
    (result : StackType) (n : Nat) :
    ClassM.Declaring (lowerRouterFor pod mixin m access result n) := by
  intro env c u c' h hc
  obtain ⟨-, -, -, hnone⟩ | ⟨w, -, hw, -⟩ := lowerRouterFor_eq_ok hc h
  · exact ⟨[], hnone⟩
  · exact ⟨[w], hw⟩

end Routers

section Methods

open ClassM (Declaring)

theorem Wrappers.name_eq {env : ClassEnv} {owner : String} {m : MethodDef} {t : Target}
    {access : UInt16} {mode : SelfMode} {ws : List MethodInfo}
    (h : Wrappers env owner m t access mode ws) : ∀ w ∈ ws, w.name = t.name := by
  cases h with
  | none _ => simp
  | some _ _ hws =>
    intro w hw
    obtain ⟨n, -, hn⟩ := exists_of_forall₂ (List.Forall₂.flip hws) hw
    exact hn.name

theorem Family.name_eq {env : ClassEnv} {owner : String} {m : MethodDef} {t : Target}
    {access : UInt16} {mode : SelfMode} {main : MethodInfo} {ws : List MethodInfo}
    (h : Family env owner m t access mode main ws) : ∀ w ∈ main :: ws, w.name = t.name :=
  List.forall_mem_cons.mpr ⟨h.name, h.wrappers.name_eq⟩

-- A method of a class has its own name, and the body of a constructor a name of its own.
theorem adds_lowerMethod (m : MethodDef) :
    ClassM.Adds (fun name => name = m.name ∨ name = m.name ++ "$") (lowerMethod m) := by
  intro env c u c' h hc
  unfold lowerMethod at h
  split at h
  · obtain ⟨c₁, body, factory, -, -, hbodies, -, -, -, hfactories, -⟩ := lowerCtor_eq_ok hc h
    obtain ⟨bs, hdeclares, hbody⟩ := hbodies.family
    obtain ⟨fs, hdeclares', hfactory⟩ := hfactories.family
    exact ⟨_, hdeclares.trans hdeclares', List.forall_mem_append.mpr
      ⟨fun w hw => .inr (hbody.name_eq w hw), fun w hw => .inl (hfactory.name_eq w hw)⟩⟩
  · split at h
    · obtain ⟨main, ret, f, peerDesc, -, hsteps, -⟩ := lowerNative_eq_ok hc h
      obtain ⟨ws, hdeclares, hfamily⟩ := hsteps.family
      exact ⟨_, hdeclares, fun w hw => .inl (hfamily.name_eq w hw)⟩
    · obtain ⟨main, ret, -, hsteps, -⟩ := lowerStandard_eq_ok hc h
      obtain ⟨ws, hdeclares, hfamily⟩ := hsteps.family
      exact ⟨_, hdeclares, fun w hw => .inl (hfamily.name_eq w hw)⟩

theorem declaring_lowerMethod (m : MethodDef) : Declaring (lowerMethod m) :=
  (adds_lowerMethod m).declaring

theorem declaring_lowerMixinBody (m : MethodDef) : Declaring (lowerMixinBody m) := by
  intro env c u c' h hc
  obtain ⟨-, hnone⟩ | ⟨main, ret, f, -, hsteps, -⟩ := lowerMixinBody_eq_ok hc h
  · exact ⟨[], hnone⟩
  · obtain ⟨ws, hdeclares, -⟩ := hsteps.family
    exact ⟨_, hdeclares⟩

theorem declaring_lowerMixinInterface (m : MethodDef) : Declaring (lowerMixinInterface m) := by
  intro env c u c' h hc
  obtain ⟨-, rfl⟩ | ⟨ms, hms, -⟩ := lowerMixinInterface_eq_ok hc h
  · exact ⟨[], .refl hc⟩
  · exact ⟨ms, hms⟩

theorem declaring_lowerRouter (pod : Pod) (mixin : Pod.TypeDef) (m : MethodDef) :
    Declaring (lowerRouter pod mixin m) := by
  unfold lowerRouter
  refine ClassM.declaring_bind (ClassM.advancing_ofExcept _).declaring fun self => ?_
  refine ClassM.declaring_bind (ClassM.advancing_ofExcept _).declaring fun ret => ?_
  exact ClassM.declaring_forM (declaring_lowerRouterFor _ _ _ _ _)

end Methods

end PodCompiler.Lowering
