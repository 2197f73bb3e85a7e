import PodCompiler.Proofs.ClassFile.PoolTable

namespace PodCompiler.ClassFile

-- What a step leaves behind, whether it succeeds or not.
def stateAfter {ε σ α : Type} : EStateM.Result ε σ α → σ
  | .ok _ s => s
  | .error _ s => s

-- An insertion into the pool, of any constant or by name.
inductive PoolEdit where
  | add (c : Constant)
  | utf8 (s : String)
  | «class» (name : String)
  | string (s : String)
  | nameAndType (name desc : String)
  | field (sig : String)
  | method (sig : String)
  | interfaceMethod (sig : String)

def PoolEdit.run : PoolEdit → PoolM UInt16
  | .add c => Pool.add c
  | .utf8 s => Pool.utf8 s
  | .class name => Pool.class_ name
  | .string s => Pool.string s
  | .nameAndType name desc => Pool.nameAndType name desc
  | .field sig => Pool.field sig
  | .method sig => Pool.method sig
  | .interfaceMethod sig => Pool.interfaceMethod sig

-- A step in the construction of a class.
inductive Edit where
  | «interface» (name : String)
  | field (access : UInt16) (name desc : String)
  | method (access : UInt16) (name desc : String) (code : Option CodeBuffer)
  | source (file : Option String)
  | pool (e : PoolEdit)

def Edit.run : Edit → DraftM Unit
  | .interface name => Draft.addInterface name
  | .field access name desc => Draft.addField access name desc
  | .method access name desc code => Draft.addMethod access name desc code
  | .source file => modify (Draft.setSourceFile file)
  | .pool e => do let _ ← Draft.onPool e.run

-- The class after steps, of which some may have failed.
def Draft.edited (d : Draft) (edits : List Edit) : Draft :=
  edits.foldl (fun d e => stateAfter (e.run d)) d

namespace Pool

variable {α β : Type} {p p' : Pool}

-- Insertions, also such as fail, leave the constants where they are.
def Filling (m : PoolM α) : Prop :=
  ∀ p, p.Filled → (stateAfter (m p)).Filled ∧ p.Grows (stateAfter (m p))

theorem filling_add (c : Constant) : Filling (add c) := by
  intro p hp
  cases h : add c p with
  | ok i p' => exact ⟨hp.add h, (add_eq_ok hp.built h).grows⟩
  | error e p' =>
    have hsame : p' = p := by
      unfold add at h
      split at h
      · cases h
      · split at h
        · cases h
        · cases h
          rfl
    rw [hsame]
    exact ⟨hp, .refl p⟩

theorem filling_throw (e : ClassError) : Filling (throw e : PoolM α) :=
  fun p hp => ⟨hp, .refl p⟩

theorem filling_bind {m : PoolM α} {k : α → PoolM β} (hm : Filling m) (hk : ∀ a, Filling (k a)) :
    Filling (m >>= k) := by
  intro p hp
  change (stateAfter (EStateM.bind m k p)).Filled ∧ p.Grows (stateAfter (EStateM.bind m k p))
  obtain ⟨hfirst, hgrows⟩ := hm p hp
  unfold EStateM.bind
  cases h : m p with
  | ok a p₁ =>
    rw [h] at hfirst hgrows
    obtain ⟨hsecond, hgrows'⟩ := hk a p₁ hfirst
    exact ⟨hsecond, hgrows.trans hgrows'⟩
  | error e p₁ =>
    rw [h] at hfirst hgrows
    exact ⟨hfirst, hgrows⟩

theorem filling_class (name : String) : Filling (class_ name) :=
  filling_bind (filling_add _) fun _ => filling_add _

theorem filling_nameAndType (name desc : String) : Filling (nameAndType name desc) :=
  filling_bind (filling_add _) fun _ => filling_bind (filling_add _) fun _ => filling_add _

theorem filling_member (mk : UInt16 → UInt16 → Constant) (m : Except ClassError Member) :
    Filling (member mk m) := by
  cases m with
  | error e => exact filling_throw e
  | ok m =>
    exact filling_bind (filling_class _) fun _ =>
      filling_bind (filling_nameAndType _ _) fun _ => filling_add _

theorem filling_run (e : PoolEdit) : Filling e.run := by
  cases e with
  | add c => exact filling_add c
  | utf8 s => exact filling_add _
  | «class» name => exact filling_class name
  | string s => exact filling_bind (filling_add _) fun _ => filling_add _
  | nameAndType name desc => exact filling_nameAndType name desc
  | field sig => exact filling_member _ _
  | method sig => exact filling_member _ _
  | interfaceMethod sig => exact filling_member _ _

-- The pool that a step which succeeds leaves behind.
theorem Filling.of_ok {m : PoolM α} {a : α} (hm : Filling m) (hp : p.Filled)
    (h : m p = .ok a p') : p'.Filled ∧ p.Grows p' := by
  have hafter := hm p hp
  rwa [h] at hafter

theorem Filling.of_error {m : PoolM α} {e : ClassError} (hm : Filling m) (hp : p.Filled)
    (h : m p = .error e p') : p'.Filled ∧ p.Grows p' := by
  have hafter := hm p hp
  rwa [h] at hafter

end Pool

-- The pool has the name and the descriptor of a field under its indices.
structure FieldInfo.Named (k : Constants) (f : FieldInfo) : Prop where
  name : k.text? f.nameIndex = some f.name
  desc : k.text? f.descIndex = some f.desc

namespace Draft

variable {d d' : Draft}

-- All names of a class stand in its pool under the indices that it has for them.
structure Coherent (d : Draft) : Prop where
  pool : d.pool.Filled
  name : Constants.className? d.pool.get? d.thisIndex = some d.name
  superName : Constants.className? d.pool.get? d.superIndex = some d.superName
  interfaces : ∀ x ∈ d.interfaces, Constants.className? d.pool.get? x.2 = some x.1
  fields : ∀ f ∈ d.fields, f.Named d.pool.get?
  methods : ∀ m ∈ d.methods, m.Named d.pool.get?
  sizes : ∀ m ∈ d.methods, ∀ c ∈ m.code, c.code.size ≤ CodeBuffer.maxSize

theorem Coherent.onPool {p : Pool} (h : d.Coherent) (hp : p.Filled) (hgrows : d.pool.Grows p) :
    { d with pool := p }.Coherent := by
  have hextends := hgrows.extends hp.built
  exact {
    pool := hp
    name := hextends.className? h.name
    superName := hextends.className? h.superName
    interfaces := fun x hx => hextends.className? (h.interfaces x hx)
    fields := fun f hf => ⟨hextends.text? (h.fields f hf).name, hextends.text? (h.fields f hf).desc⟩
    methods := fun m hm => (h.methods m hm).extends hextends
    sizes := h.sizes }

-- The class to which something is done with a constant that was inserted before.
theorem stateAfter_onPool_bind {α β : Type} {m : PoolM α} {k : α → DraftM β} {P : Draft → Prop}
    (hok : ∀ a p, m d.pool = .ok a p → P (stateAfter (k a { d with pool := p })))
    (herror : ∀ e p, m d.pool = .error e p → P { d with pool := p }) :
    P (stateAfter ((onPool m >>= k) d)) := by
  change P (stateAfter (EStateM.bind (onPool m) k d))
  unfold EStateM.bind onPool
  dsimp only
  cases h : m d.pool with
  | ok a p => exact hok a p h
  | error e p => exact herror e p h

-- A member is put behind the others once its name and its descriptor are in the pool.
theorem coherent_after_names {k : UInt16 → UInt16 → DraftM Unit} {name desc : String}
    (hd : d.Coherent)
    (hk : ∀ (i j : UInt16) (p : Pool), { d with pool := p }.Coherent →
      Constants.text? p.get? i = some name → Constants.text? p.get? j = some desc →
      (stateAfter (k i j { d with pool := p })).Coherent) :
    (stateAfter ((onPool (Pool.utf8 name) >>= fun i => onPool (Pool.utf8 desc) >>= fun j =>
      k i j) d)).Coherent := by
  refine stateAfter_onPool_bind ?_ ?_
  · intro i p₁ hi
    obtain ⟨hfilled₁, hgrows₁⟩ := (Pool.filling_add _).of_ok hd.pool hi
    obtain ⟨hbuilt₁, -, hname⟩ := Pool.utf8_eq_ok hd.pool.built hi
    refine stateAfter_onPool_bind ?_ ?_
    · intro j p₂ hj
      obtain ⟨hfilled₂, hgrows₂⟩ := (Pool.filling_add _).of_ok hfilled₁ hj
      obtain ⟨hbuilt₂, -, hdesc⟩ := Pool.utf8_eq_ok hbuilt₁ hj
      exact hk i j p₂ (hd.onPool hfilled₂ (hgrows₁.trans hgrows₂))
        ((hgrows₂.extends hbuilt₂).text? hname) hdesc
    · intro e p₂ he
      obtain ⟨hfilled₂, hgrows₂⟩ := (Pool.filling_add _).of_error hfilled₁ he
      exact hd.onPool hfilled₂ (hgrows₁.trans hgrows₂)
  · intro e p₁ he
    obtain ⟨hfilled₁, hgrows₁⟩ := (Pool.filling_add _).of_error hd.pool he
    exact hd.onPool hfilled₁ hgrows₁

theorem coherent_addInterface (name : String) (hd : d.Coherent) :
    (stateAfter (addInterface name d)).Coherent := by
  unfold addInterface
  change (stateAfter ((if _ then _ else _ : DraftM Unit) d)).Coherent
  split
  · exact hd
  · refine stateAfter_onPool_bind ?_ ?_
    · intro i p hi
      obtain ⟨hfilled, hgrows⟩ := (Pool.filling_class _).of_ok hd.pool hi
      obtain ⟨-, -, hname⟩ := Pool.class_eq_ok hd.pool.built hi
      have hd' := hd.onPool hfilled hgrows
      refine ⟨hd'.pool, hd'.name, hd'.superName, ?_, hd'.fields, hd'.methods, hd'.sizes⟩
      intro x hx
      obtain hx | rfl := Array.mem_push.mp hx
      · exact hd'.interfaces x hx
      · exact hname
    · intro e p he
      obtain ⟨hfilled, hgrows⟩ := (Pool.filling_class _).of_error hd.pool he
      exact hd.onPool hfilled hgrows

theorem coherent_addField (access : UInt16) (name desc : String) (hd : d.Coherent) :
    (stateAfter (addField access name desc d)).Coherent := by
  refine coherent_after_names hd ?_
  intro i j p hd' hname hdesc
  refine ⟨hd'.pool, hd'.name, hd'.superName, hd'.interfaces, ?_, hd'.methods, hd'.sizes⟩
  intro f hf
  obtain hf | rfl := Array.mem_push.mp hf
  · exact hd'.fields f hf
  · exact ⟨hname, hdesc⟩

theorem coherent_addMethod (access : UInt16) (name desc : String) (code : Option CodeBuffer)
    (hd : d.Coherent) : (stateAfter (addMethod access name desc code d)).Coherent := by
  by_cases hsize : ∀ c ∈ code, c.code.size ≤ CodeBuffer.maxSize
  · have hcheck : ∀ e, code.map CodeBuffer.checkSize ≠ some (.error e) := by
      intro e he
      obtain ⟨c, hc, hfail⟩ := Option.map_eq_some_iff.mp he
      rw [CodeBuffer.checkSize, if_pos (hsize c hc)] at hfail
      cases hfail
    have hbody : addMethod access name desc code =
        (onPool (Pool.utf8 name) >>= fun i => onPool (Pool.utf8 desc) >>= fun j =>
          modify fun d => { d with methods := d.methods.push ⟨access, name, desc, code, i, j⟩ }) := by
      unfold addMethod
      split
      · rename_i e he
        exact absurd he (hcheck e)
      · rfl
    rw [hbody]
    refine coherent_after_names hd ?_
    intro i j p hd' hname hdesc
    refine ⟨hd'.pool, hd'.name, hd'.superName, hd'.interfaces, hd'.fields, ?_, ?_⟩
    · intro m hm
      obtain hm | rfl := Array.mem_push.mp hm
      · exact hd'.methods m hm
      · exact ⟨hname, hdesc⟩
    · intro m hm
      obtain hm | rfl := Array.mem_push.mp hm
      · exact hd'.sizes m hm
      · exact hsize
  · -- Code that is too large changes nothing.
    simp only [not_forall] at hsize
    obtain ⟨c, rfl, hlarge⟩ := hsize
    have hfail : addMethod access name desc (some c) = throw (.codeTooLarge c.code.size) := by
      simp [addMethod, CodeBuffer.checkSize, hlarge]
    rw [hfail]
    exact hd

theorem coherent_run (e : Edit) (hd : d.Coherent) : (stateAfter (e.run d)).Coherent := by
  cases e with
  | «interface» name => exact coherent_addInterface name hd
  | field access name desc => exact coherent_addField access name desc hd
  | method access name desc code => exact coherent_addMethod access name desc code hd
  | source file =>
    exact ⟨hd.pool, hd.name, hd.superName, hd.interfaces, hd.fields, hd.methods, hd.sizes⟩
  | pool e =>
    refine stateAfter_onPool_bind ?_ ?_
    · intro i p hi
      obtain ⟨hfilled, hgrows⟩ := (Pool.filling_run e).of_ok hd.pool hi
      exact hd.onPool hfilled hgrows
    · intro err p he
      obtain ⟨hfilled, hgrows⟩ := (Pool.filling_run e).of_error hd.pool he
      exact hd.onPool hfilled hgrows

theorem coherent_edited (edits : List Edit) (hd : d.Coherent) : (d.edited edits).Coherent := by
  induction edits generalizing d with
  | nil => exact hd
  | cons e edits ih => exact ih (coherent_run e hd)

theorem coherent_create {name superName : String} {access major : UInt16}
    (h : create name superName access major = .ok d) : d.Coherent := by
  unfold create at h
  dsimp only at h
  split at h
  · rename_i i j pool hrun
    cases h
    obtain ⟨n, p₁, hn, hrest⟩ := Pool.bind_eq_ok.mp hrun
    obtain ⟨m, p₂, hm, hpure⟩ := Pool.bind_eq_ok.mp hrest
    cases hpure
    obtain ⟨hfilled₁, -⟩ := (Pool.filling_class _).of_ok Pool.filled_empty hn
    obtain ⟨hfilled₂, hgrows⟩ := (Pool.filling_class _).of_ok hfilled₁ hm
    obtain ⟨hbuilt₁, -, hname⟩ := Pool.class_eq_ok Pool.built_empty hn
    obtain ⟨hbuilt₂, -, hsuper⟩ := Pool.class_eq_ok hbuilt₁ hm
    exact ⟨hfilled₂, (hgrows.extends hbuilt₂).className? hname, hsuper, by simp, by simp, by simp,
      by simp⟩
  · cases h

end Draft

end PodCompiler.ClassFile
