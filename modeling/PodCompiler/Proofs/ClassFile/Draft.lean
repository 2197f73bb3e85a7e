import PodCompiler.ClassFile.Draft
import PodCompiler.Proofs.ClassFile.Pool

namespace PodCompiler.ClassFile

-- The pool has the name and the descriptor of a method under its indices.
structure MethodInfo.Named (k : Constants) (m : MethodInfo) : Prop where
  name : k.text? m.nameIndex = some m.name
  desc : k.text? m.descIndex = some m.desc

theorem MethodInfo.Named.extends {k k' : Constants} {m : MethodInfo} (h : m.Named k)
    (hk : Constants.Extends k' k) : m.Named k' :=
  ⟨hk.text? h.name, hk.text? h.desc⟩

namespace Pool

variable {α β : Type}

-- Insertions into a pool.
def Growing (m : PoolM α) : Prop :=
  ∀ p a p', p.Built → m p = .ok a p' → p'.Built ∧ p.Grows p'

@[simp] theorem growing_pure (a : α) : Growing (pure a) := by
  intro p b p' hp h
  cases h
  exact ⟨hp, .refl _⟩

@[simp] theorem growing_bind {m : PoolM α} {k : α → PoolM β} (hm : Growing m)
    (hk : ∀ a, Growing (k a)) : Growing (m >>= k) := by
  intro p b p' hp h
  obtain ⟨a, p₁, ha, hb⟩ := bind_eq_ok.mp h
  obtain ⟨hp₁, hgrows⟩ := hm p a p₁ hp ha
  obtain ⟨hp', hgrows'⟩ := hk a p₁ b p' hp₁ hb
  exact ⟨hp', hgrows.trans hgrows'⟩

@[simp] theorem growing_map {m : PoolM α} (hm : Growing m) (g : α → β) : Growing (g <$> m) := by
  rw [map_eq_pure_bind]
  exact growing_bind hm fun _ => growing_pure _

@[simp] theorem growing_utf8 (s : String) : Growing (utf8 s) := by
  intro p i p' hp h
  obtain ⟨hbuilt, hgrows, -⟩ := utf8_eq_ok hp h
  exact ⟨hbuilt, hgrows⟩

end Pool

namespace Draft

variable {α β : Type} {d d₁ d' : Draft}

-- A step that puts some methods behind those of a class.
structure Declares (d : Draft) (ms : List MethodInfo) (d' : Draft) : Prop where
  built : d'.pool.Built
  grows : d.pool.Grows d'.pool
  name : d'.name = d.name
  thisIndex : d'.thisIndex = d.thisIndex
  methods : d'.methods.toList = d.methods.toList ++ ms
  named : ∀ m ∈ ms, m.Named d'.pool.get?

theorem Declares.refl (h : d.pool.Built) : d.Declares [] d where
  built := h
  grows := .refl _
  name := rfl
  thisIndex := rfl
  methods := (List.append_nil _).symm
  named := by simp

theorem Declares.trans {ms ms' : List MethodInfo} (h : d.Declares ms d₁)
    (h' : d₁.Declares ms' d') : d.Declares (ms ++ ms') d' where
  built := h'.built
  grows := h.grows.trans h'.grows
  name := h'.name.trans h.name
  thisIndex := h'.thisIndex.trans h.thisIndex
  methods := by rw [h'.methods, h.methods, List.append_assoc]
  named := by
    intro m hm
    obtain hm | hm := List.mem_append.mp hm
    · exact (h.named m hm).extends (h'.grows.extends h'.built)
    · exact h'.named m hm

-- A class has a method under its name.
structure Has (d : Draft) (m : MethodInfo) : Prop where
  mem : m ∈ d.methods
  named : m.Named d.pool.get?

theorem Declares.has_of_mem {ms : List MethodInfo} {m : MethodInfo} (h : d.Declares ms d')
    (hm : m ∈ ms) : d'.Has m := by
  refine ⟨?_, h.named m hm⟩
  rw [← Array.mem_toList_iff, h.methods]
  exact List.mem_append_right _ hm

-- A class keeps its name.
theorem Declares.className? {ms : List MethodInfo} (h : d.Declares ms d')
    (hd : Constants.className? d.pool.get? d.thisIndex = some d.name) :
    Constants.className? d'.pool.get? d'.thisIndex = some d'.name := by
  rw [h.thisIndex, h.name]
  exact (h.grows.extends h.built).className? hd

-- Two steps succeed if the first does and then the second.
theorem bind_eq_ok {x : DraftM α} {k : α → DraftM β} {b : β} :
    (x >>= k) d = .ok b d' ↔ ∃ a d₁, x d = .ok a d₁ ∧ k a d₁ = .ok b d' := by
  change EStateM.bind x k d = _ ↔ _
  unfold EStateM.bind
  constructor
  · intro h
    split at h
    · rename_i a d₁ hx
      exact ⟨a, d₁, hx, h⟩
    · cases h
  · rintro ⟨a, d₁, hx, hk⟩
    rw [hx]
    exact hk

theorem onPool_eq_ok {m : PoolM α} {a : α} (h : onPool m d = .ok a d') :
    ∃ p, m d.pool = .ok a p ∧ d' = { d with pool := p } := by
  unfold onPool at h
  dsimp only at h
  split at h
  · rename_i b p hm
    cases h
    exact ⟨p, hm, rfl⟩
  · cases h

-- The class with a larger pool.
theorem declares_pool {p : Pool} (hp : p.Built) (hgrows : d.pool.Grows p) :
    d.Declares [] { d with pool := p } where
  built := hp
  grows := hgrows
  name := rfl
  thisIndex := rfl
  methods := (List.append_nil _).symm
  named := by simp

-- A method is put behind the others if its code is not too large.
theorem addMethod_run_eq_ok {access : UInt16} {name desc : String} {code : Option CodeBuffer}
    {u : Unit} : addMethod access name desc code d = .ok u d' ↔
      (∀ b ∈ code, b.code.size ≤ CodeBuffer.maxSize) ∧
      (onPool (Pool.utf8 name) >>= fun i => onPool (Pool.utf8 desc) >>= fun j =>
        modify fun d => { d with methods := d.methods.push ⟨access, name, desc, code, i, j⟩ }) d =
          .ok u d' := by
  unfold addMethod
  cases code with
  | none => simp
  | some b =>
    by_cases hsize : b.code.size ≤ CodeBuffer.maxSize
    · have hcheck : b.checkSize = .ok () := if_pos hsize
      simp [hcheck, hsize]
    · have hcheck : b.checkSize = .error (.codeTooLarge b.code.size) := if_neg hsize
      simp only [Option.map_some, hcheck, Option.mem_some_iff, forall_eq', hsize, false_and,
        iff_false]
      exact nofun

theorem addMethod_eq_ok {access : UInt16} {name desc : String} {code : Option CodeBuffer} {u : Unit}
    (hd : d.pool.Built) (h : addMethod access name desc code d = .ok u d') :
    ∃ m, d.Declares [m] d' ∧ m.access = access ∧ m.name = name ∧ m.desc = desc ∧
      m.code = code := by
  obtain ⟨-, hpush⟩ := addMethod_run_eq_ok.mp h
  obtain ⟨i, d₁, hname, hrest⟩ := bind_eq_ok.mp hpush
  obtain ⟨j, d₂, hdesc, hlast⟩ := bind_eq_ok.mp hrest
  obtain ⟨p₁, hp₁, rfl⟩ := onPool_eq_ok hname
  obtain ⟨p₂, hp₂, rfl⟩ := onPool_eq_ok hdesc
  cases hlast
  obtain ⟨hbuilt₁, hgrows₁, htext₁⟩ := Pool.utf8_eq_ok hd hp₁
  obtain ⟨hbuilt₂, hgrows₂, htext₂⟩ := Pool.utf8_eq_ok hbuilt₁ hp₂
  refine ⟨⟨access, name, desc, code, i, j⟩, ?_, rfl, rfl, rfl, rfl⟩
  refine ⟨hbuilt₂, hgrows₁.trans hgrows₂, rfl, rfl, Array.toList_push, ?_⟩
  intro m hm
  obtain rfl := List.mem_singleton.mp hm
  exact ⟨(hgrows₂.extends hbuilt₂).text? htext₁, htext₂⟩

-- Fields and interfaces are no methods.
theorem addField_declares {access : UInt16} {name desc : String} {u : Unit} (hd : d.pool.Built)
    (h : addField access name desc d = .ok u d') : d.Declares [] d' := by
  obtain ⟨i, d₁, hname, hrest⟩ := bind_eq_ok.mp h
  obtain ⟨j, d₂, hdesc, hpush⟩ := bind_eq_ok.mp hrest
  obtain ⟨p₁, hp₁, rfl⟩ := onPool_eq_ok hname
  obtain ⟨p₂, hp₂, rfl⟩ := onPool_eq_ok hdesc
  cases hpush
  obtain ⟨hbuilt₁, hgrows₁, -⟩ := Pool.utf8_eq_ok hd hp₁
  obtain ⟨hbuilt₂, hgrows₂, -⟩ := Pool.utf8_eq_ok hbuilt₁ hp₂
  have hall := declares_pool hbuilt₂ (hgrows₁.trans hgrows₂)
  exact ⟨hall.built, hall.grows, rfl, rfl, hall.methods, hall.named⟩

theorem addInterface_declares {name : String} {u : Unit} (hd : d.pool.Built)
    (h : addInterface name d = .ok u d') : d.Declares [] d' := by
  obtain ⟨d₀, d₁, hget, hrest⟩ := bind_eq_ok.mp h
  cases hget
  split at hrest
  · cases hrest
    exact .refl hd
  · obtain ⟨i, d₂, hname, hpush⟩ := bind_eq_ok.mp hrest
    obtain ⟨p, hp, rfl⟩ := onPool_eq_ok hname
    cases hpush
    obtain ⟨hbuilt, hgrows, -⟩ := Pool.class_eq_ok hd hp
    have hall := declares_pool hbuilt hgrows
    exact ⟨hall.built, hall.grows, rfl, rfl, hall.methods, hall.named⟩

-- A class that was just created has no methods, and its name.
theorem create_eq_ok {name superName : String} {access major : UInt16}
    (h : create name superName access major = .ok d) :
    d.pool.Built ∧ d.name = name ∧ d.methods = #[] ∧
      Constants.className? d.pool.get? d.thisIndex = some name := by
  unfold create at h
  dsimp only at h
  split at h
  · rename_i i j pool hrun
    cases h
    obtain ⟨n, p₁, hn, hrest⟩ := Pool.bind_eq_ok.mp hrun
    obtain ⟨m, p₂, hm, hpure⟩ := Pool.bind_eq_ok.mp hrest
    cases hpure
    obtain ⟨hbuilt₁, -, hname⟩ := Pool.class_eq_ok Pool.built_empty hn
    obtain ⟨hbuilt₂, hgrows, -⟩ := Pool.class_eq_ok hbuilt₁ hm
    exact ⟨hbuilt₂, rfl, rfl, (hgrows.extends hbuilt₂).className? hname⟩
  · cases h

-- The names of attributes only add to the pool.
theorem growing_attrNames (d : Draft) : Pool.Growing (attrNames d) := by
  unfold attrNames
  refine Pool.growing_bind (Pool.growing_utf8 _) fun code => ?_
  dsimp only
  split
  all_goals
    refine Pool.growing_bind (by simp) fun lines => ?_
    split <;> simp

end Draft

namespace Pool

variable {α β : Type}

-- Insertions that succeed where there is room for them.
def Fits (n : Nat) (m : PoolM α) : Prop :=
  ∀ p, p.next + n ≤ limit → ∃ a p', m p = .ok a p' ∧ p'.next ≤ p.next + n

theorem fits_pure (n : Nat) (a : α) : Fits n (pure a) :=
  fun p _ => ⟨a, p, rfl, Nat.le_add_right _ _⟩

theorem fits_bind {n k : Nat} {m : PoolM α} {f : α → PoolM β} (hm : Fits n m)
    (hf : ∀ a, Fits k (f a)) : Fits (n + k) (m >>= f) := by
  intro p hp
  obtain ⟨a, p₁, ha, hp₁⟩ := hm p (by omega)
  obtain ⟨b, p', hb, hp'⟩ := hf a p₁ (by omega)
  exact ⟨b, p', bind_eq_ok.mpr ⟨a, p₁, ha, hb⟩, by omega⟩

theorem fits_add (c : Constant) : Fits 2 (add c) := by
  have hwidth : c.width ≤ 2 := by
    unfold Constant.width
    split <;> decide
  intro p hp
  unfold add
  split
  · rename_i i _
    exact ⟨i, p, rfl, Nat.le_add_right _ _⟩
  · rw [if_pos (by omega)]
    exact ⟨_, _, rfl, by dsimp only; omega⟩

theorem fits_class (name : String) : Fits 4 (class_ name) :=
  fits_bind (fits_add _) fun _ => fits_add _

end Pool

namespace Draft

theorem exists_onPool {α : Type} {n : Nat} {m : PoolM α} (hm : Pool.Fits n m) {d : Draft}
    (hd : d.pool.next + n ≤ Pool.limit) :
    ∃ a p, onPool m d = .ok a { d with pool := p } ∧ p.next ≤ d.pool.next + n := by
  obtain ⟨a, p, hp, hnext⟩ := hm d.pool hd
  refine ⟨a, p, ?_, hnext⟩
  unfold onPool
  dsimp only
  rw [hp]

theorem exists_create (name superName : String) (access major : UInt16) :
    ∃ d, create name superName access major = .ok d ∧ d.pool.next ≤ 9 ∧ d.sourceFile = none := by
  obtain ⟨⟨i, j⟩, p, hrun, hnext⟩ := Pool.fits_bind (Pool.fits_class name) (fun i =>
    Pool.fits_bind (Pool.fits_class superName) fun j => Pool.fits_pure 0 (i, j)) {} (by decide)
  refine ⟨⟨name, superName, access, major, 0, #[], #[], #[], none, p, i, j⟩, ?_, hnext, rfl⟩
  unfold create EStateM.run
  dsimp only
  rw [hrun]

theorem exists_addMethod (access : UInt16) (name desc : String) (code : Option CodeBuffer)
    {d : Draft} (hcode : ∀ b ∈ code, b.code.size ≤ CodeBuffer.maxSize)
    (hd : d.pool.next + 4 ≤ Pool.limit) :
    ∃ d', addMethod access name desc code d = .ok () d' ∧ d'.pool.next ≤ d.pool.next + 4 ∧
      d'.sourceFile = d.sourceFile := by
  obtain ⟨i, p₁, hname, hp₁⟩ := exists_onPool (Pool.fits_add (.utf8 name)) (d := d) (by omega)
  obtain ⟨j, p₂, hdesc, hp₂⟩ := exists_onPool (Pool.fits_add (.utf8 desc))
    (d := { d with pool := p₁ }) (by dsimp only; omega)
  dsimp only at hdesc hp₂
  refine ⟨_, addMethod_run_eq_ok.mpr ⟨hcode, bind_eq_ok.mpr ⟨i, _, hname, bind_eq_ok.mpr
    ⟨j, _, hdesc, rfl⟩⟩⟩, ?_, rfl⟩
  dsimp only
  omega

theorem exists_finish {d : Draft} (hd : d.pool.next + 4 ≤ Pool.limit)
    (hsource : d.sourceFile = none) : ∃ bytes, d.finish = .ok bytes := by
  have hfits : Pool.Fits 4 (attrNames d) := by
    unfold attrNames
    rw [hsource]
    refine Pool.fits_bind (n := 2) (k := 2) (Pool.fits_add _) fun _ => ?_
    dsimp only
    split
    · exact Pool.fits_bind (Pool.fits_add _) fun _ => Pool.fits_pure 0 _
    · exact Pool.fits_bind (Pool.fits_pure 0 _) fun _ => Pool.fits_pure 2 _
  obtain ⟨attrs, p, hrun, -⟩ := hfits d.pool hd
  unfold finish EStateM.run
  rw [hrun]
  exact ⟨_, rfl⟩

end Draft

end PodCompiler.ClassFile
