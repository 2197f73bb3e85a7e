import PodCompiler.Pod.Builder
import PodCompiler.Proofs.Pod.Reads

namespace PodCompiler.Pod

open Bytes (be2 be4 written)

-- A text whose encoding fits the field of its length.
def ShortText (s : String) : Prop :=
  (Text.ModifiedUtf8.encode s).size ≤ 0xFFFF

instance (s : String) : Decidable (ShortText s) :=
  inferInstanceAs (Decidable (_ ≤ _))

namespace Builder

variable {α β : Type}

-- A pod to which nothing but names was added.
structure Extends (b b' : Builder) : Prop where
  rest : b' = { b with names := b'.names }
  names : b.names.toList <+: b'.names.toList

theorem Extends.refl (b : Builder) : Extends b b :=
  ⟨rfl, List.prefix_refl _⟩

theorem Extends.trans {b b₁ b' : Builder} (h : Extends b b₁) (h' : Extends b₁ b') :
    Extends b b' := by
  refine ⟨?_, h.names.trans h'.names⟩
  have hfirst := h.rest
  have hsecond := h'.rest
  rw [hsecond, hfirst]

theorem Extends.typeRefs_eq {b b' : Builder} (h : Extends b b') : b'.typeRefs = b.typeRefs := by
  rw [h.rest]

theorem Extends.fieldRefs_eq {b b' : Builder} (h : Extends b b') : b'.fieldRefs = b.fieldRefs := by
  rw [h.rest]

theorem Extends.methodRefs_eq {b b' : Builder} (h : Extends b b') :
    b'.methodRefs = b.methodRefs := by
  rw [h.rest]

theorem Extends.literals_eq {b b' : Builder} (h : Extends b b') : b'.literals = b.literals := by
  rw [h.rest]

-- A name stands under an index in each table that has the names so far, if that is not too long.
def Numbered (names : Array String) (i : UInt16) (s : String) : Prop :=
  ∀ all : Array String, all.size ≤ 0xFFFF → names.toList <+: all.toList → all[i.toNat]? = some s

theorem numbered_of_getElem? {names : Array String} {i : Nat} {s : String}
    (h : names[i]? = some s) : Numbered names i.toUInt16 s := by
  intro all hsize hall
  obtain ⟨more, hmore⟩ := hall
  obtain ⟨hi, -⟩ := Array.getElem?_eq_some_iff.mp h
  have hlength := congrArg List.length hmore
  simp only [List.length_append, Array.length_toList] at hlength
  rw [UInt16.toNat_ofNat', Nat.mod_eq_of_lt (by omega), ← Array.getElem?_toList, ← hmore,
    List.getElem?_append_left (by simpa using hi), Array.getElem?_toList, h]

theorem intern_numbered (s : String) (b : Builder) :
    Extends b ((intern s).run b).2 ∧ Numbered ((intern s).run b).2.names ((intern s).run b).1 s := by
  change Extends b (intern s b).2 ∧ Numbered (intern s b).2.names (intern s b).1 s
  unfold intern
  split
  · rename_i i hi
    refine ⟨.refl b, numbered_of_getElem? ?_⟩
    rw [← Array.idxOf?_toList] at hi
    obtain ⟨hlt, hs, -⟩ := List.idxOf?_eq_some_iff.mp hi
    rw [← Array.getElem?_toList, List.getElem?_eq_getElem hlt, hs]
  · refine ⟨⟨rfl, ?_⟩, numbered_of_getElem? (by simp)⟩
    simp

-- What is appended to `out` is read back with the names of any larger table.
def Writes (out : Bytes) (m : BuildM Bytes) (r : Symbols → Read α) (a : α) : Prop :=
  ∀ b, Extends b (m.run b).2 ∧ ∃ bs, (m.run b).1.toList = out.toList ++ bs ∧
    ∀ s : Symbols, s.names.size ≤ 0xFFFF → (m.run b).2.names.toList <+: s.names.toList →
      Reads (r s) bs a

section Steps

variable {out out' : Bytes} {m : BuildM Bytes} {k : Bytes → BuildM Bytes} {r : Symbols → Read α}
  {q : Symbols → α → Read β} {a : α} {c : β}

theorem writes_pure (out : Bytes) (a : α) : Writes out (pure out) (fun _ => pure a) a := by
  intro b
  exact ⟨.refl b, [], (List.append_nil _).symm, fun _ _ _ => reads_pure a⟩

-- Two writes in a row are read by two reads in a row.
theorem Writes.bind (hm : Writes out m r a)
    (hk : ∀ out', Writes out' (k out') (fun s => q s a) c) :
    Writes out (m >>= k) (fun s => r s >>= q s) c := by
  intro b
  obtain ⟨hextends, bs, hbytes, hreads⟩ := hm b
  obtain ⟨hextends', bs', hbytes', hreads'⟩ := hk (m.run b).1 (m.run b).2
  refine ⟨hextends.trans hextends', bs ++ bs', ?_, ?_⟩
  · rw [← List.append_assoc, ← hbytes]
    exact hbytes'
  · intro s hsize hall
    exact (hreads s hsize (hextends'.names.trans hall)).bind (hreads' s hsize hall)

theorem Writes.nil_bind (hm : Writes out m r a) (hk : ∀ s, Reads (q s a) [] c) :
    Writes out m (fun s => r s >>= q s) c := by
  intro b
  obtain ⟨hextends, bs, hbytes, hreads⟩ := hm b
  exact ⟨hextends, bs, hbytes, fun s hsize hall => (hreads s hsize hall).nil_bind (hk s)⟩

-- Bytes that need no name, before the rest.
theorem Writes.put {r : Read α} {bs : List UInt8} (hput : out'.toList = out.toList ++ bs)
    (hr : Reads r bs a) (hm : Writes out' m (fun s => q s a) c) :
    Writes out m (fun s => r >>= q s) c := by
  intro b
  obtain ⟨hextends, bs', hbytes, hreads⟩ := hm b
  refine ⟨hextends, bs ++ bs', ?_, fun s hsize hall => hr.bind (hreads s hsize hall)⟩
  rw [hbytes, hput, List.append_assoc]

-- The index of a name, before the rest.
theorem Writes.name {k : UInt16 → BuildM Bytes} {q : Symbols → String → Read β} {n : String}
    (hk : ∀ i, Writes (out.put2 i) (k i) (fun s => q s n) c) :
    Writes out (intern n >>= k) (fun s => s.readName >>= q s) c := by
  intro b
  obtain ⟨hextends, hnumbered⟩ := intern_numbered n b
  obtain ⟨hextends', bs, hbytes, hreads⟩ := hk ((intern n).run b).1 ((intern n).run b).2
  rw [Bytes.toList_put2, List.append_assoc] at hbytes
  refine ⟨hextends.trans hextends', _, hbytes, ?_⟩
  intro s hsize hall
  have hname : s.name ((intern n).run b).1 = .ok n := by
    rw [Symbols.name, Symbols.lookup, hnumbered s.names hsize (hextends'.names.trans hall)]
  exact ((Read.reads_u2 _).nil_bind (Read.reads_ofExcept hname)).bind (hreads s hsize hall)

-- Items in a row, of which each is written in the same way.
theorem writes_times {p : Bytes → β → BuildM Bytes} {r : Symbols → Read α} {g : β → α}
    {l : List β} (h : ∀ x ∈ l, ∀ out, Writes out (p out x) r (g x)) (done : Array α)
    (out : Bytes) :
    Writes out (l.foldlM p out) (fun s => Read.timesAfter (r s) done l.length)
      (done ++ (l.map g).toArray) := by
  induction l generalizing done out with
  | nil =>
    rw [List.map_nil, Array.append_empty]
    exact writes_pure out done
  | cons x l ih =>
    have hvalues : done ++ ((x :: l).map g).toArray =
        done.push (g x) ++ (l.map g).toArray := by
      simp
    rw [hvalues]
    exact (h x List.mem_cons_self out).bind
      (q := fun s a => Read.timesAfter (r s) (done.push a) l.length)
      (ih (fun y hy => h y (List.mem_cons_of_mem _ hy)) (done.push (g x)))

-- A table, of which each item is written in the same way.
theorem writes_table {p : Bytes → β → BuildM Bytes} {r : Symbols → Read α} {g : β → α}
    {l : List β} (h : ∀ x ∈ l, ∀ out, Writes out (p out x) r (g x))
    (hcount : l.length ≤ 0xFFFF) (out : Bytes) :
    Writes out (l.foldlM p (out.put2 l.length.toUInt16)) (fun s => Read.table (r s))
      (l.map g).toArray := by
  have hcount' : l.length.toUInt16.toNat = l.length := by
    rw [UInt16.toNat_ofNat', Nat.mod_eq_of_lt (by omega)]
  have hitems := writes_times h #[] (out.put2 l.length.toUInt16)
  rw [Array.empty_append] at hitems
  refine Writes.put (Bytes.toList_put2 out _) (Read.reads_u2 l.length.toUInt16)
    (q := fun s n => Read.times n.toNat (r s)) ?_
  rw [hcount']
  exact hitems

end Steps

-- The attributes of something, in their order.
theorem writes_attrs {attrs : List (String × Bytes)} (hcount : attrs.length ≤ 0xFFFF)
    (hsizes : ∀ attr ∈ attrs, attr.2.size ≤ 0xFFFF) (out : Bytes) :
    Writes out (putAttrs attrs out) Attributes.read ⟨attrs.toArray⟩ := by
  have hitem : ∀ attr ∈ attrs, ∀ out, Writes out (putAttr out attr) Attributes.readItem attr :=
    fun attr hattr out => Writes.name fun i =>
      Writes.put (Bytes.toList_putBuf _ attr.2) (Read.reads_buf (hsizes attr hattr))
        (writes_pure _ attr)
  have htable := writes_table (g := id) hitem hcount out
  rw [List.map_id] at htable
  intro b
  obtain ⟨hextends, bs, hbytes, hreads⟩ := htable b
  exact ⟨hextends, bs, hbytes, fun s hsize hall => (hreads s hsize hall).map Attributes.mk⟩

-- The attributes of a variable and of a type.
def varAttrs (v : VarSpec) : List (String × Bytes) :=
  v.default?.toList.map fun code => ("ParamDefault", code)

def typeAttrs (t : TypeSpec) : List (String × Bytes) :=
  t.source.toList.map fun file => ("SourceFile", Bytes.putUtf #[] file)

end Builder

open Builder

-- What is read of the parts of a type that was put in.
def FieldSpec.toDef (f : FieldSpec) : FieldDef :=
  ⟨f.name, f.flags, f.type, {}⟩

def VarSpec.toDef (flags : UInt8) (v : VarSpec) : VarDef :=
  ⟨v.name, v.type, flags, ⟨(varAttrs v).toArray⟩⟩

def MethodSpec.toDef (m : MethodSpec) : MethodDef where
  name := m.name
  flags := m.flags
  ret := m.ret
  inheritedRet := m.inheritedRet
  maxStack := m.maxStack
  paramCount := m.params.length.toUInt8
  localCount := m.locals.length.toUInt8
  vars := (m.params.map (VarSpec.toDef Flag.param) ++ m.locals.map (VarSpec.toDef 0)).toArray
  code := m.code
  attrs := ⟨(methodAttrs m).toArray⟩

def TypeSpec.body (t : TypeSpec) : TypeBody where
  fields := (t.fields.map FieldSpec.toDef).toArray
  methods := (t.methods.map MethodSpec.toDef).toArray
  attrs := ⟨(typeAttrs t).toArray⟩

-- Parts that fit the fields of their counts and lengths.
structure MethodSpec.Fits (m : MethodSpec) : Prop where
  params : m.params.length ≤ 0xFF
  locals : m.locals.length ≤ 0xFF
  defaults : ∀ v ∈ m.params ++ m.locals, ∀ code ∈ v.default?, code.size ≤ 0xFFFF
  code : m.code.size ≤ 0xFFFF
  attrs : ∀ attr ∈ methodAttrs m, attr.2.size ≤ 0xFFFF

structure TypeSpec.Fits (t : TypeSpec) : Prop where
  base : t.base ≠ some TypeDef.nullIndex
  mixins : t.mixins.length ≤ 0xFFFF
  fields : t.fields.length ≤ 0xFFFF
  methods : t.methods.length ≤ 0xFFFF
  bodies : ∀ m ∈ t.methods, m.Fits
  attrs : ∀ attr ∈ typeAttrs t, attr.2.size ≤ 0xFFFF

namespace Builder

theorem writes_field (f : FieldSpec) (out : Bytes) :
    Writes out (putField out f) FieldDef.read f.toDef := by
  refine Writes.name fun i => ?_
  refine Writes.put (Bytes.toList_put4 _ f.flags) (Read.reads_u4 f.flags) ?_
  refine Writes.put (Bytes.toList_put2 _ f.type) (Read.reads_u2 f.type) ?_
  exact (writes_attrs (by simp) (by simp) _).nil_bind fun _ => reads_pure _

theorem writes_var (flags : UInt8) {v : VarSpec} (h : ∀ code ∈ v.default?, code.size ≤ 0xFFFF)
    (out : Bytes) : Writes out (putVar flags out v) VarDef.read (v.toDef flags) := by
  have hattrs : putVar flags out v = intern v.name >>= fun n =>
      putAttrs (varAttrs v) (((out.put2 n).put2 v.type).put1 flags) := by
    unfold putVar varAttrs
    cases v.default? <;> rfl
  rw [hattrs]
  refine Writes.name fun i => ?_
  refine Writes.put (Bytes.toList_put2 _ v.type) (Read.reads_u2 v.type) ?_
  refine Writes.put (Bytes.toList_put1 _ flags) (Read.reads_u1 flags) ?_
  refine (writes_attrs ?_ ?_ _).nil_bind fun _ => reads_pure _
  · unfold varAttrs
    cases v.default? <;> simp
  · unfold varAttrs
    cases hv : v.default? with
    | none => simp
    | some code => simpa using h code hv

-- The parameters and the other variables, in one row.
theorem writes_vars {m : MethodSpec} (h : m.Fits) (out : Bytes) :
    Writes out (m.params.foldlM (putVar Flag.param) out >>= m.locals.foldlM (putVar 0))
      (fun s => Read.times (m.params.length.toUInt8.toNat + m.locals.length.toUInt8.toNat)
        (VarDef.read s)) m.toDef.vars := by
  have hparams : m.params.length.toUInt8.toNat = m.params.length := by
    have := h.params
    rw [UInt8.toNat_ofNat', Nat.mod_eq_of_lt (by omega)]
  have hlocals : m.locals.length.toUInt8.toNat = m.locals.length := by
    have := h.locals
    rw [UInt8.toNat_ofNat', Nat.mod_eq_of_lt (by omega)]
  let vars := m.params.map (Flag.param, ·) ++ m.locals.map ((0 : UInt8), ·)
  have hvars := writes_times (l := vars) (p := fun out v => putVar v.1 out v.2)
    (r := VarDef.read) (g := fun v => v.2.toDef v.1) (by
      intro v hv out
      obtain hv | hv := List.mem_append.mp hv
      all_goals
        obtain ⟨w, hw, rfl⟩ := List.mem_map.mp hv
        exact writes_var _ (h.defaults w (by simp [hw])) out) #[] out
  have hlength : vars.length = m.params.length.toUInt8.toNat + m.locals.length.toUInt8.toNat := by
    rw [hparams, hlocals]
    simp [vars]
  have hfold : vars.foldlM (fun out v => putVar v.1 out v.2) out =
      m.params.foldlM (putVar Flag.param) out >>= m.locals.foldlM (putVar 0) := by
    simp [vars, List.foldlM_append, List.foldlM_map]
  have hvalue : #[] ++ (vars.map fun v => v.2.toDef v.1).toArray = m.toDef.vars := by
    simp only [vars, MethodSpec.toDef, List.map_append, List.map_map, Array.empty_append]
    rfl
  rwa [hlength, hvalue, hfold] at hvars

theorem writes_method {m : MethodSpec} (h : m.Fits) (out : Bytes) :
    Writes out (putMethod out m) MethodDef.read m.toDef := by
  refine Writes.name fun i => ?_
  refine Writes.put (Bytes.toList_put4 _ m.flags) (Read.reads_u4 m.flags) ?_
  refine Writes.put (Bytes.toList_put2 _ m.ret) (Read.reads_u2 m.ret) ?_
  refine Writes.put (Bytes.toList_put2 _ m.inheritedRet) (Read.reads_u2 m.inheritedRet) ?_
  refine Writes.put (Bytes.toList_put1 _ m.maxStack) (Read.reads_u1 m.maxStack) ?_
  refine Writes.put (Bytes.toList_put1 _ _) (Read.reads_u1 m.params.length.toUInt8) ?_
  refine Writes.put (Bytes.toList_put1 _ _) (Read.reads_u1 m.locals.length.toUInt8) ?_
  dsimp only
  rw [← bind_assoc]
  refine (writes_vars h _).bind fun out => ?_
  refine Writes.put (Bytes.toList_putBuf _ m.code) (Read.reads_buf h.code) ?_
  refine (writes_attrs ?_ h.attrs _).nil_bind fun _ => reads_pure _
  unfold methodAttrs
  split <;> split <;> simp

-- The body of a type.
theorem writes_typeBody {t : TypeSpec} (h : t.Fits) :
    Writes #[] (typeBody t) TypeBody.read t.body := by
  have hattrs : typeBody t =
      t.fields.foldlM putField (Bytes.put2 #[] t.fields.length.toUInt16) >>= fun out =>
        t.methods.foldlM putMethod (out.put2 t.methods.length.toUInt16) >>= fun out =>
          putAttrs (typeAttrs t) out := by
    unfold typeBody typeAttrs
    cases t.source <;> rfl
  rw [hattrs]
  refine (writes_table (fun f _ out => writes_field f out) h.fields _).bind fun out => ?_
  refine (writes_table (fun m hm out => writes_method (h.bodies m hm) out) h.methods _).bind
    fun out => ?_
  refine (writes_attrs ?_ h.attrs _).nil_bind fun _ => reads_pure _
  unfold typeAttrs
  cases t.source <;> simp

end Builder

end PodCompiler.Pod
