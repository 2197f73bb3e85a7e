import PodCompiler.Proofs.Archive.Entries
import PodCompiler.Proofs.Pod.Tables

namespace PodCompiler.Pod

open Bytes (be2 be4 written)
open Archive (Entries Store)

namespace Builder

variable {b b' : Builder} {types : List TypeSpec}

-- The pod when all bodies are written, and with them all names numbered.
def finished (b : Builder) (types : List TypeSpec) : Builder :=
  ((types.foldlM putTypeBody {}).run b).2

-- The name of a type is that of its type ref.
def Names (b : Builder) (t : TypeSpec) (n : String) : Prop :=
  ∃ key, b.typeRefs[t.self.toNat]? = some key ∧ Numbered b.names key.2.1 n

theorem Names.extends {t : TypeSpec} {n : String} (h : b.Names t n) (hb : Extends b b') :
    b'.Names t n := by
  obtain ⟨key, hkey, hn⟩ := h
  refine ⟨key, ?_, hn.mono hb.names⟩
  rw [hb.rest]
  exact hkey

theorem Names.typeName_eq {t : TypeSpec} {n : String} (h : b.Names t n)
    (hsize : b.names.size ≤ 0xFFFF) : b.typeName t.self = n := by
  obtain ⟨key, hkey, hn⟩ := h
  have hname := hn b.names hsize (List.prefix_refl _)
  simp [typeName, hkey, Array.getD_eq_getD_getElem?, hname]

theorem Extends.size_le (h : Extends b b') : b.names.size ≤ b'.names.size := by
  simpa using h.names.length_le

theorem toList_bodyEntry (n : String) :
    (bodyEntry n).toList = "fcode/".toList ++ (n.toList ++ ".fcode".toList) := by
  simp [bodyEntry, toString]

theorem bodyEntry_injective {m n : String} (h : bodyEntry m = bodyEntry n) : m = n := by
  have hchars := congrArg String.toList h
  rw [toList_bodyEntry, toList_bodyEntry] at hchars
  exact String.toList_injective (List.append_cancel_right (List.append_cancel_left hchars))

-- The entry of a table is not that of a body.
theorem bodyEntry_ne {n entry : String} (hentry : entry.toList.getLast? = some 'f') :
    bodyEntry n ≠ entry := by
  rintro rfl
  rw [toList_bodyEntry, ← List.append_assoc, List.getLast?_append_of_ne_nil _ (by decide)] at hentry
  exact absurd hentry (by decide)

theorem run_putTypeBodies_cons (t : TypeSpec) (types : List TypeSpec) (e : Entries)
    (b : Builder) :
    (List.foldlM putTypeBody e (t :: types)).run b =
      (types.foldlM putTypeBody (e.insert (bodyEntry
        (((typeBody t).run b).2.typeName t.self)) ((typeBody t).run b).1)).run
          ((typeBody t).run b).2 :=
  rfl

theorem extends_putTypeBodies (types : List TypeSpec) (e : Entries) (b : Builder)
    (hfits : ∀ t ∈ types, t.Fits) : Extends b ((types.foldlM putTypeBody e).run b).2 := by
  induction types generalizing e b with
  | nil => exact .refl b
  | cons t types ih =>
    rw [run_putTypeBodies_cons]
    exact (writes_typeBody (hfits t List.mem_cons_self) b).1.trans
      (ih _ _ fun u hu => hfits u (List.mem_cons_of_mem _ hu))

-- The bodies are written one after the other, each to the entry of its type.
theorem run_putTypeBodies (name : TypeSpec → String) (types : List TypeSpec) (e : Entries)
    (b : Builder) (hfits : ∀ t ∈ types, t.Fits) (hnames : ∀ t ∈ types, b.Names t (name t))
    (hsize : ((types.foldlM putTypeBody e).run b).2.names.size ≤ 0xFFFF) :
    (∀ n, (∀ t ∈ types, bodyEntry (name t) ≠ n) →
      ((types.foldlM putTypeBody e).run b).1.get? n = e.get? n) ∧
    ((types.map name).Nodup → ∀ t ∈ types, ∃ data,
      ((types.foldlM putTypeBody e).run b).1.get? (bodyEntry (name t)) = some data ∧
      ∀ s : Symbols, s.names.size ≤ 0xFFFF →
        ((types.foldlM putTypeBody e).run b).2.names.toList <+: s.names.toList →
        Reads (TypeBody.read s) data.toList t.body) := by
  induction types generalizing e b with
  | nil => exact ⟨fun _ _ => rfl, fun _ t ht => absurd ht List.not_mem_nil⟩
  | cons t types ih =>
    have hrest : ∀ u ∈ types, u.Fits := fun u hu => hfits u (List.mem_cons_of_mem _ hu)
    obtain ⟨hextends, bs, hbytes, hreads⟩ := writes_typeBody (hfits t List.mem_cons_self) b
    rw [run_putTypeBodies_cons] at hsize ⊢
    generalize ((typeBody t).run b).1 = data at hbytes hsize ⊢
    generalize ((typeBody t).run b).2 = b₁ at hextends hreads hsize ⊢
    have hextends' := extends_putTypeBodies types
      (e.insert (bodyEntry (b₁.typeName t.self)) data) b₁ hrest
    have hname : b₁.typeName t.self = name t :=
      ((hnames t List.mem_cons_self).extends hextends).typeName_eq (hextends'.size_le.trans hsize)
    rw [hname] at hsize hextends' ⊢
    obtain ⟨hothers, hbodies⟩ := ih _ _ hrest
      (fun u hu => (hnames u (List.mem_cons_of_mem _ hu)).extends hextends) hsize
    refine ⟨fun n hn => ?_, fun hnodup => ?_⟩
    · rw [hothers n fun u hu => hn u (List.mem_cons_of_mem _ hu), Entries.get?_insert,
        if_neg (Ne.symm (hn t List.mem_cons_self))]
    · rw [List.map_cons, List.nodup_cons] at hnodup
      intro u hu
      obtain rfl | hu := List.mem_cons.mp hu
      · refine ⟨data, ?_, fun s hs hall => ?_⟩
        · rw [hothers, Entries.get?_insert, if_pos rfl]
          intro v hv heq
          exact hnodup.1 (List.mem_map.mpr ⟨v, hv, bodyEntry_injective heq⟩)
        · rw [hbytes]
          exact hreads s hs (hextends'.names.trans hall)
      · exact hbodies hnodup.2 u hu

-- The entries of the tables stand beside those of the bodies.
theorem nodup_tableEntries (b : Builder) (types : List TypeSpec) :
    ((b.tableEntries types).map (·.1)).Nodup := by
  simp only [tableEntries, List.map_cons, List.map_nil]
  decide

theorem getLast?_of_mem_tableEntries {item : String × Bytes} (h : item ∈ b.tableEntries types) :
    item.1.toList.getLast? = some 'f' := by
  have hall : ∀ entry ∈ (b.tableEntries types).map (·.1), entry.toList.getLast? = some 'f' := by
    simp only [tableEntries, List.map_cons, List.map_nil]
    decide
  exact hall item.1 (List.mem_map_of_mem h)

theorem build_eq (b : Builder) (types : List TypeSpec) :
    b.build types = ((b.finished types).tableEntries types).foldl
      (fun e item => e.insert item.1 item.2) ((types.foldlM putTypeBody {}).run b).1 :=
  rfl

theorem get?_build_of_mem {e : String × Bytes}
    (hitem : e ∈ (b.finished types).tableEntries types) :
    (b.build types).get? e.1 = some e.2 := by
  rw [build_eq]
  exact Entries.get?_foldl_insert_of_mem _ _ (nodup_tableEntries _ _) hitem

theorem get?_build_bodyEntry (n : String) :
    (b.build types).get? (bodyEntry n) =
      ((types.foldlM putTypeBody {}).run b).1.get? (bodyEntry n) := by
  rw [build_eq]
  exact Entries.get?_foldl_insert_of_ne _ _ fun _ hitem =>
    (bodyEntry_ne (getLast?_of_mem_tableEntries hitem)).symm

end Builder

theorem Read.runOn_eq_ok {α : Type} {r : Read α} {data : Bytes} {a : α}
    (h : Reads r data.toList a) (what : String) : r.runOn data what = .ok a := by
  have hrun := h.run_start what
  rw [Array.toArray_toList] at hrun
  rw [Read.runOn, hrun]

-- A table in an entry of the store.
theorem readTable_eq_ok {α : Type} {store : Store} {entry w : String} {item : Read α}
    {data : Bytes} {values : Array α} (hentry : store.read entry = .ok (some data))
    (h : Reads (Read.table item) data.toList values) :
    readTable store entry w item = .ok values := by
  rw [readTable, hentry]
  exact Read.runOn_eq_ok h w

namespace Builder

variable {b final : Builder} {s : Symbols} {types : List TypeSpec}

theorem appending_putTypeRef : Bytes.Appending putTypeRef := by
  intro b r
  unfold written
  simp [putTypeRef]

theorem appending_putFieldRef : Bytes.Appending putFieldRef := by
  intro b r
  unfold written
  simp [putFieldRef]

theorem toList_putMethodRef (out : Bytes) (r : UInt16 × UInt16 × UInt16 × List UInt16) :
    (putMethodRef out r).toList = out.toList ++ ((be2 r.1).toList ++ ((be2 r.2.1).toList ++
      ((be2 r.2.2.1).toList ++ ([r.2.2.2.length.toUInt8] ++
        r.2.2.2.flatMap fun p => written (·.put2 p))))) := by
  unfold putMethodRef
  rw [Bytes.toList_foldl Bytes.appending_put2]
  simp

theorem written_putMethodRef (r : UInt16 × UInt16 × UInt16 × List UInt16) :
    written (putMethodRef · r) = (be2 r.1).toList ++ ((be2 r.2.1).toList ++
      ((be2 r.2.2.1).toList ++ ([r.2.2.2.length.toUInt8] ++
        r.2.2.2.flatMap fun p => written (·.put2 p)))) :=
  toList_putMethodRef #[] r

theorem appending_putMethodRef : Bytes.Appending putMethodRef := by
  intro b r
  rw [toList_putMethodRef, written_putMethodRef]

theorem toList_putTypeMeta (out : Bytes) (t : TypeSpec) :
    (putTypeMeta out t).toList = out.toList ++ ((be2 t.self).toList ++
      ((be2 (t.base.getD TypeDef.nullIndex)).toList ++
        (written (·.putTable t.mixins Bytes.put2) ++ (be4 t.flags).toList))) := by
  unfold putTypeMeta
  rw [Bytes.toList_put4, Bytes.toList_putTable Bytes.appending_put2]
  simp

theorem written_putTypeMeta (t : TypeSpec) :
    written (putTypeMeta · t) = (be2 t.self).toList ++
      ((be2 (t.base.getD TypeDef.nullIndex)).toList ++
        (written (·.putTable t.mixins Bytes.put2) ++ (be4 t.flags).toList)) :=
  toList_putTypeMeta #[] t

theorem appending_putTypeMeta : Bytes.Appending putTypeMeta := by
  intro b t
  rw [toList_putTypeMeta, written_putTypeMeta]

-- With the names of the pod, an index is read as its name.
theorem reads_name {i : UInt16} {n : String} (hsize : s.names.size ≤ 0xFFFF)
    (h : Numbered s.names i n) : Reads s.readName (be2 i).toList n := by
  have hname : s.name i = .ok n := by
    rw [Symbols.name, Symbols.lookup, h s.names hsize (List.prefix_refl _)]
  exact (Read.reads_u2 i).nil_bind (Read.reads_ofExcept hname)

theorem reads_typeRef {key : UInt16 × UInt16 × String} {t : TypeRef}
    (hsize : s.names.size ≤ 0xFFFF) (hsig : ShortText key.2.2) (h : TypeRefKey s.names key t) :
    Reads s.readTypeRef (written (putTypeRef · key)) t := by
  have hbytes : written (putTypeRef · key) = (be2 key.1).toList ++ ((be2 key.2.1).toList ++
      written (·.putUtf key.2.2)) := by
    unfold written
    simp [putTypeRef]
  rw [hbytes]
  refine (reads_name hsize h.1).bind ((reads_name hsize h.2.1).bind
    ((Read.reads_utf hsig).nil_bind ?_))
  rw [h.2.2]
  exact reads_pure _

theorem reads_fieldRef {key : UInt16 × UInt16 × UInt16} {r : FieldRef}
    (hsize : s.names.size ≤ 0xFFFF) (h : FieldRefKey s.names key r) :
    Reads s.readFieldRef (written (putFieldRef · key)) r := by
  have hbytes : written (putFieldRef · key) = (be2 key.1).toList ++ ((be2 key.2.1).toList ++
      (be2 key.2.2).toList) := by
    unfold written
    simp [putFieldRef]
  rw [hbytes]
  refine (Read.reads_u2 _).bind ((reads_name hsize h.2.1).bind ((Read.reads_u2 _).nil_bind ?_))
  rw [h.1, h.2.2]
  exact reads_pure _

theorem reads_methodRef {key : UInt16 × UInt16 × UInt16 × List UInt16} {r : MethodRef}
    (hsize : s.names.size ≤ 0xFFFF) (hparams : key.2.2.2.length ≤ 0xFF)
    (h : MethodRefKey s.names key r) :
    Reads s.readMethodRef (written (putMethodRef · key)) r := by
  obtain ⟨hparent, hname, hret, hlist⟩ := h
  have hcount : key.2.2.2.length.toUInt8.toNat = key.2.2.2.length := by
    rw [UInt8.toNat_ofNat', Nat.mod_eq_of_lt (by omega)]
  have htimes := Read.reads_times (r := Read.u2) (f := fun p => written (·.put2 p))
    (l := key.2.2.2) (List.forall₂_same.mpr fun p _ => by
      rw [Bytes.written_put2]
      exact Read.reads_u2 p)
  rw [written_putMethodRef]
  refine (Read.reads_u2 _).bind ((reads_name hsize hname).bind ((Read.reads_u2 _).bind
    ((Read.reads_u1 _).bind ?_)))
  rw [hcount]
  refine htimes.nil_bind ?_
  rw [hparent, hret, hlist]
  exact reads_pure _

end Builder

-- What the list of types says of a type, with its body once it is read.
def TypeSpec.toDef (t : TypeSpec) (body? : Option TypeBody) : TypeDef :=
  ⟨t.self, t.base, t.mixins.toArray, t.flags, body?⟩

namespace Builder

variable {b final : Builder} {s : Symbols} {types : List TypeSpec}

theorem reads_typeMeta {t : TypeSpec} (h : t.Fits) :
    Reads TypeDef.readMeta (written (putTypeMeta · t)) (t.toDef none) := by
  have hmixins := Read.reads_table_of_forall₂ (r := Read.u2) Bytes.appending_put2 h.mixins
    (List.forall₂_same.mpr fun m _ => by
      rw [Bytes.written_put2]
      exact Read.reads_u2 m)
  have hbase : (if t.base.getD TypeDef.nullIndex = TypeDef.nullIndex then none
      else some (t.base.getD TypeDef.nullIndex)) = t.base := by
    cases hb : t.base with
    | none => rfl
    | some i =>
      have hne : i ≠ TypeDef.nullIndex := fun heq => h.base (by rw [hb, heq])
      simp [hne]
  rw [written_putTypeMeta]
  refine (Read.reads_u2 _).bind ((Read.reads_u2 _).bind (hmixins.bind
    ((Read.reads_u4 _).nil_bind ?_)))
  rw [hbase]
  exact reads_pure _

-- A pod whose tables and texts fit the fields of their counts and lengths, with the names that its
-- types bring.
structure Fits (b : Builder) (types : List TypeSpec) : Prop where
  name : ShortText b.name
  names : (b.finished types).names.size ≤ 0xFFFF
  nameTexts : ∀ n ∈ (b.finished types).names, ShortText n
  typeRefs : b.typeRefs.size ≤ 0xFFFF
  sigs : ∀ r ∈ b.typeRefs, ShortText r.2.2
  fieldRefs : b.fieldRefs.size ≤ 0xFFFF
  methodRefs : b.methodRefs.size ≤ 0xFFFF
  params : ∀ r ∈ b.methodRefs, r.2.2.2.length ≤ 0xFF
  ints : b.literals.ints.size ≤ 0xFFFF
  floats : b.literals.floats.size ≤ 0xFFFF
  decimals : b.literals.decimals.size ≤ 0xFFFF
  strs : b.literals.strs.size ≤ 0xFFFF
  durations : b.literals.durations.size ≤ 0xFFFF
  uris : b.literals.uris.size ≤ 0xFFFF
  decimalTexts : ∀ t ∈ b.literals.decimals, ShortText t
  strTexts : ∀ t ∈ b.literals.strs, ShortText t
  uriTexts : ∀ t ∈ b.literals.uris, ShortText t
  count : types.length ≤ 0xFFFF
  bodies : ∀ t ∈ types, t.Fits
  selfs : ∀ t ∈ types, t.self.toNat < b.typeRefs.size

-- A table of texts, as for names and literals.
theorem reads_texts {texts : Array String} (hcount : texts.size ≤ 0xFFFF)
    (hshort : ∀ t ∈ texts, ShortText t) :
    Reads (Read.table Read.utf) (Bytes.putTable #[] texts.toList Bytes.putUtf).toList texts := by
  have h := Read.reads_table_of_forall₂ Bytes.appending_putUtf (l := texts.toList) hcount
    (List.forall₂_same.mpr fun t ht => Read.reads_utf (hshort t (Array.mem_toList_iff.mp ht)))
  rwa [Array.toArray_toList] at h

-- The same for signed numbers.
theorem reads_numbers {numbers : Array Int64} (hcount : numbers.size ≤ 0xFFFF) :
    Reads (Read.table Read.i8)
      (Bytes.putTable #[] (numbers.toList.map Int64.toUInt64) Bytes.put8).toList numbers := by
  have h := Read.reads_table (r := Read.i8) (g := UInt64.toInt64) Bytes.appending_put8
    (l := numbers.toList.map Int64.toUInt64) (by simpa using hcount) (by
      intro x _
      rw [Bytes.written_put8]
      exact (Read.reads_u8 x).map UInt64.toInt64)
  have hback : ((numbers.toList.map Int64.toUInt64).map UInt64.toInt64).toArray = numbers := by
    rw [List.map_map]
    have hid : UInt64.toInt64 ∘ Int64.toUInt64 = id := rfl
    rw [hid, List.map_id, Array.toArray_toList]
  rwa [hback] at h

theorem reads_floats {floats : Array UInt64} (hcount : floats.size ≤ 0xFFFF) :
    Reads (Read.table Read.u8) (Bytes.putTable #[] floats.toList Bytes.put8).toList floats := by
  have h := Read.reads_table_of_forall₂ Bytes.appending_put8 (l := floats.toList) hcount
    (List.forall₂_same.mpr fun x _ => by
      rw [Bytes.written_put8]
      exact Read.reads_u8 x)
  rwa [Array.toArray_toList] at h

-- The type ref of a type, and with it the name.
theorem Holds.exists_typeRef (h : b.Holds s) {t : TypeSpec} (ht : t.self.toNat < b.typeRefs.size) :
    ∃ r, s.typeRefs[t.self.toNat]? = some r ∧ b.Names t r.name := by
  have hlength := h.typeRefs.length_eq
  simp only [Array.length_toList] at hlength
  have ht' : t.self.toNat < s.typeRefs.size := by omega
  have hkey := h.typeRefs.get (i := t.self.toNat) (by simpa using ht) (by simpa using ht')
  exact ⟨s.typeRefs[t.self.toNat], Array.getElem?_eq_getElem ht',
    b.typeRefs[t.self.toNat], Array.getElem?_eq_getElem ht, by simpa using hkey.2.1⟩

-- The name of a type without its pod.
def simpleName (s : Symbols) (t : TypeSpec) : String :=
  (s.typeRefs[t.self.toNat]?.map TypeRef.name).getD ""

theorem Holds.names (h : b.Holds s) (hfits : b.Fits types) :
    ∀ t ∈ types, b.Names t (simpleName s t) := by
  intro t ht
  obtain ⟨r, hr, hname⟩ := h.exists_typeRef (hfits.selfs t ht)
  simpa [simpleName, hr] using hname

theorem Fits.extends_finished (hfits : b.Fits types) : Extends b (b.finished types) :=
  extends_putTypeBodies types {} b hfits.bodies

-- The store that holds the entries of a pod.
def store (b : Builder) (types : List TypeSpec) : Store :=
  .memory (b.build types)

theorem read_store {i : Nat} {entry : String} {data : Bytes}
    (h : ((b.finished types).tableEntries types)[i]? = some (entry, data)) :
    (b.store types).read entry = .ok (some data) := by
  have hget : (b.build types).get? entry = some data :=
    get?_build_of_mem (e := (entry, data)) (List.mem_of_getElem? h)
  rw [store, Store.read, hget]

-- The tables are loaded with the names of the finished pod.
theorem load_symbols (h : b.Holds s) (hfits : b.Fits types) :
    Symbols.load (b.store types) = .ok { s with names := (b.finished types).names } := by
  have hextends := hfits.extends_finished
  have hsize := hfits.names
  have hnames := readTable_eq_ok (w := "names")
    (show (b.store types).read _ = .ok (some _) from read_store (i := 5) rfl) (reads_texts hsize hfits.nameTexts)
  let named : Symbols := { names := (b.finished types).names }
  have htypeRefs : readTable (b.store types) "fcode/typeRefs.def" "typeRefs" named.readTypeRef =
      .ok s.typeRefs := by
    refine readTable_eq_ok (read_store (i := 2) rfl) ?_
    rw [hextends.typeRefs_eq]
    refine Read.reads_table_of_forall₂ appending_putTypeRef hfits.typeRefs ?_
    refine ((List.forall₂_and_left _ _).mpr ⟨fun key hkey =>
      hfits.sigs key (Array.mem_toList_iff.mp hkey), h.typeRefs⟩).imp fun key t hkey => ?_
    exact reads_typeRef hsize hkey.1 (hkey.2.mono hextends.names)
  have hfieldRefs : readTable (b.store types) "fcode/fieldRefs.def" "fieldRefs" named.readFieldRef =
      .ok s.fieldRefs := by
    refine readTable_eq_ok (read_store (i := 3) rfl) ?_
    rw [hextends.fieldRefs_eq]
    refine Read.reads_table_of_forall₂ appending_putFieldRef hfits.fieldRefs ?_
    exact h.fieldRefs.imp fun key r hkey => reads_fieldRef hsize (hkey.mono hextends.names)
  have hmethodRefs : readTable (b.store types) "fcode/methodRefs.def" "methodRefs"
      named.readMethodRef = .ok s.methodRefs := by
    refine readTable_eq_ok (read_store (i := 4) rfl) ?_
    rw [hextends.methodRefs_eq]
    refine Read.reads_table_of_forall₂ appending_putMethodRef hfits.methodRefs ?_
    refine ((List.forall₂_and_left _ _).mpr ⟨fun key hkey =>
      hfits.params key (Array.mem_toList_iff.mp hkey), h.methodRefs⟩).imp fun key r hkey => ?_
    exact reads_methodRef hsize hkey.1 (hkey.2.mono hextends.names)
  generalize b.store types = st at hnames htypeRefs hfieldRefs hmethodRefs
  unfold Symbols.load
  rw [hnames]
  dsimp only [bind, Except.bind, named] at htypeRefs hfieldRefs hmethodRefs ⊢
  rw [htypeRefs, hfieldRefs, hmethodRefs]
  rfl

theorem load_literals (hfits : b.Fits types) :
    Literals.load (b.store types) = .ok b.literals := by
  have hliterals := (hfits.extends_finished).literals_eq
  have hints : readTable (b.store types) "fcode/ints.def" "ints" Read.i8 =
      .ok b.literals.ints := by
    refine readTable_eq_ok (read_store (i := 6) rfl) ?_
    rw [hliterals]
    exact reads_numbers hfits.ints
  have hfloats : readTable (b.store types) "fcode/floats.def" "floats" Read.u8 =
      .ok b.literals.floats := by
    refine readTable_eq_ok (read_store (i := 7) rfl) ?_
    rw [hliterals]
    exact reads_floats hfits.floats
  have hdurations : readTable (b.store types) "fcode/durations.def" "durations" Read.i8 =
      .ok b.literals.durations := by
    refine readTable_eq_ok (read_store (i := 8) rfl) ?_
    rw [hliterals]
    exact reads_numbers hfits.durations
  have hdecimals : readTable (b.store types) "fcode/decimals.def" "decimals" Read.utf =
      .ok b.literals.decimals := by
    refine readTable_eq_ok (read_store (i := 9) rfl) ?_
    rw [hliterals]
    exact reads_texts hfits.decimals hfits.decimalTexts
  have hstrs : readTable (b.store types) "fcode/strs.def" "strs" Read.utf = .ok b.literals.strs := by
    refine readTable_eq_ok (read_store (i := 10) rfl) ?_
    rw [hliterals]
    exact reads_texts hfits.strs hfits.strTexts
  have huris : readTable (b.store types) "fcode/uris.def" "uris" Read.utf = .ok b.literals.uris := by
    refine readTable_eq_ok (read_store (i := 11) rfl) ?_
    rw [hliterals]
    exact reads_texts hfits.uris hfits.uriTexts
  rw [Literals.load, hints, hfloats, hdecimals, hstrs, hdurations, huris]
  rfl

theorem load_types (h : b.Holds s) (hfits : b.Fits types) (all : Symbols)
    (hall : all.typeRefs = s.typeRefs) :
    readTable (b.store types) "fcode/types.def" "types.def" (readType all) =
      .ok (types.map (TypeSpec.toDef · none)).toArray := by
  refine readTable_eq_ok (read_store (i := 1) rfl) ?_
  refine Read.reads_table (g := (TypeSpec.toDef · none)) appending_putTypeMeta hfits.count ?_
  intro t ht
  obtain ⟨r, hr, -⟩ := h.exists_typeRef (hfits.selfs t ht)
  have hself : all.typeRef t.self = .ok r := by
    rw [Symbols.typeRef, Symbols.lookup, hall, hr]
  exact (reads_typeMeta (hfits.bodies t ht)).nil_bind
    ((Read.reads_ofExcept hself).bind_nil (reads_pure _))

-- What a pod starts with, as far as it is not given.
structure Standard (b : Builder) : Prop where
  magic : b.magic = Pod.magic
  formatVersion : b.formatVersion = Pod.formatVersion
  version : ShortText b.version
  depends : b.depends.length ≤ 0xFF
  dependTexts : ∀ d ∈ b.depends, ShortText d

theorem toList_head (b : Builder) : b.head.toList = (be4 b.magic).toList ++
    ((be4 b.formatVersion).toList ++ (written (·.putUtf b.name) ++ (written (·.putUtf b.version) ++
      ([b.depends.length.toUInt8] ++ (b.depends.flatMap (fun d => written (·.putUtf d)) ++
        written (·.putTable [] Bytes.putUtf)))))) := by
  have hnone : written (·.putTable ([] : List String) Bytes.putUtf) = (be2 0).toList := by
    rw [Bytes.written_putTable Bytes.appending_putUtf]
    simp
  unfold head
  rw [Bytes.toList_put2, Bytes.toList_foldl Bytes.appending_putUtf, Bytes.toList_put1,
    Bytes.toList_putUtf, Bytes.toList_putUtf, Bytes.toList_put4, hnone]
  simp only [List.append_assoc]

theorem reads_head (hname : ShortText b.name) (h : b.Standard) (all : Symbols) :
    Reads (readHead all) b.head.toList ⟨b.name, b.version, b.depends.toArray, {}⟩ := by
  have hcount : b.depends.length.toUInt8.toNat = b.depends.length := by
    have := h.depends
    rw [UInt8.toNat_ofNat', Nat.mod_eq_of_lt (by omega)]
  have hdepends := Read.reads_times (r := Read.utf) (f := fun d => written (·.putUtf d))
    (List.forall₂_same.mpr fun d hd => Read.reads_utf (h.dependTexts d hd))
  have hattrs : Reads (Attributes.read all) (written (·.putTable [] Bytes.putUtf)) {} :=
    (Read.reads_table_of_forall₂ Bytes.appending_putUtf (by simp) .nil).map Attributes.mk
  rw [toList_head, h.magic, h.formatVersion]
  refine (Read.reads_u4 _).bind ?_
  rw [if_neg (by simp)]
  refine (Read.reads_u4 _).bind ?_
  rw [if_neg (by simp)]
  refine (Read.reads_utf hname).bind ((Read.reads_utf h.version).bind ((Read.reads_u1 _).bind ?_))
  rw [hcount]
  exact hdepends.bind (hattrs.nil_bind (reads_pure _))

-- The pod that was put together, with the bodies of its types or without them.
def content (b : Builder) (s : Symbols) (types : List TypeSpec) (defs : List TypeDef) : Pod where
  name := b.name
  version := b.version
  depends := b.depends.toArray
  attrs := {}
  symbols := { s with names := (b.finished types).names }
  literals := b.literals
  types := defs.toArray
  store := b.store types

theorem load_build (h : b.Holds s) (hfits : b.Fits types) (hstandard : b.Standard) :
    load (b.store types) =
      .ok (b.content s types (types.map (TypeSpec.toDef · none))) := by
  have hextends := hfits.extends_finished
  have hhead : (b.finished types).head = b.head := by
    rw [hextends.rest]
    rfl
  have hread : (b.store types).readRequired "fcode/pod.def" = .ok b.head := by
    rw [Store.readRequired, read_store (i := 0) rfl, hhead]
    rfl
  have hsymbols := load_symbols h hfits
  have htypes := load_types h hfits { s with names := (b.finished types).names } rfl
  have hliterals := load_literals hfits
  have hdata := Read.runOn_eq_ok (reads_head hfits.name hstandard
    { s with names := (b.finished types).names }) "pod.def"
  unfold load content
  rw [hsymbols]
  generalize b.store types = st at hread htypes hliterals ⊢
  dsimp only [bind, Except.bind] at hdata htypes ⊢
  rw [hread]
  dsimp only
  rw [hdata]
  dsimp only
  rw [htypes, hliterals]
  rfl

-- The body of a type is read into its place.
theorem readBody_content (h : b.Holds s) (hfits : b.Fits types)
    (hnodup : (types.map (simpleName s)).Nodup) {t : TypeSpec} (ht : t ∈ types)
    (before after : List TypeDef) :
    (b.content s types (before ++ t.toDef none :: after)).readBody before.length =
      .ok (b.content s types (before ++ t.toDef (some t.body) :: after)) := by
  obtain ⟨data, hdata, hreads⟩ :=
    (run_putTypeBodies (simpleName s) types {} b hfits.bodies (h.names hfits) hfits.names).2
      hnodup t ht
  obtain ⟨r, hr, -⟩ := h.exists_typeRef (hfits.selfs t ht)
  have hname : simpleName s t = r.name := by
    rw [simpleName, hr]
    rfl
  have hget : (b.build types).get? (bodyEntry r.name) = some data := by
    rw [get?_build_bodyEntry, ← hname, hdata]
  have hread : (b.store types).readRequired (bodyEntry r.name) = .ok data := by
    rw [Store.readRequired, store, Store.read, hget]
    rfl
  have hbody := Read.runOn_eq_ok (hreads { s with names := (b.finished types).names } hfits.names
    (List.prefix_refl _)) "type body"
  have htypeAt : (b.content s types (before ++ t.toDef none :: after)).typeAt before.length =
      .ok (t.toDef none) := by
    simp [typeAt, content]
  have hself : (b.content s types (before ++ t.toDef none :: after)).symbols.typeRef
      (t.toDef none).self = .ok r := by
    have hlookup : s.typeRefs[(t.toDef none).self.toNat]? = some r := hr
    rw [Symbols.typeRef, Symbols.lookup, content, hlookup]
  unfold readBody
  rw [htypeAt]
  dsimp only [bind, Except.bind] at hbody ⊢
  rw [hself]
  simp only [content] at hread hbody ⊢
  generalize b.store types = st at hread ⊢
  simp [TypeSpec.toDef, TypeDef.isHollow, hread, hbody, pure, Except.pure]

-- All bodies, one after the other.
theorem readBodies_content (h : b.Holds s) (hfits : b.Fits types)
    (hnodup : (types.map (simpleName s)).Nodup) (before rest : List TypeSpec)
    (hrest : ∀ t ∈ rest, t ∈ types) :
    (b.content s types (before.map (fun t => t.toDef (some t.body)) ++
        rest.map (TypeSpec.toDef · none))).readBodies (List.range' before.length rest.length) =
      (b.content s types ((before ++ rest).map fun t => t.toDef (some t.body)), .ok ()) := by
  induction rest generalizing before with
  | nil =>
    rw [List.append_nil, List.map_nil, List.append_nil]
    rfl
  | cons t rest ih =>
    have hstep := readBody_content h hfits hnodup (hrest t List.mem_cons_self)
      (before.map fun t => t.toDef (some t.body)) (rest.map (TypeSpec.toDef · none))
    rw [List.length_map] at hstep
    have hnext := ih (before ++ [t]) fun u hu => hrest u (List.mem_cons_of_mem _ hu)
    rw [List.length_cons, List.range'_succ, List.map_cons, readBodies, hstep]
    simpa using hnext

-- The pod is loaded as it was put together, with the bodies of all its types.
theorem loadFull_store (h : b.Holds s) (hfits : b.Fits types) (hstandard : b.Standard)
    (hnodup : (types.map (simpleName s)).Nodup) :
    loadFull (b.store types) =
      .ok (b.content s types (types.map fun t => t.toDef (some t.body))) := by
  have hbodies := readBodies_content h hfits hnodup [] types fun _ ht => ht
  have hcount : (b.content s types (types.map (TypeSpec.toDef · none))).types.size =
      types.length := by
    simp [content]
  unfold loadFull
  rw [load_build h hfits hstandard]
  dsimp only [bind, Except.bind]
  rw [readAllBodies, hcount, List.range_eq_range']
  simp only [List.map_nil, List.nil_append, List.length_nil] at hbodies
  rw [hbodies]
  rfl

end Builder

end PodCompiler.Pod
