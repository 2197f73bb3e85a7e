import PodCompiler.Proofs.Pod.Loading

namespace PodCompiler.Pod

open Bytes (be2 be4 written)

namespace Builder

theorem toList_putErrEntry (out : Bytes) (e : ErrEntry) :
    (putErrEntry out e).toList = out.toList ++ ((be2 e.start).toList ++ ((be2 e.stop).toList ++
      ((be2 e.handler).toList ++ (be2 e.type).toList))) := by
  simp [putErrEntry]

theorem written_putErrEntry (e : ErrEntry) :
    written (putErrEntry · e) = (be2 e.start).toList ++ ((be2 e.stop).toList ++
      ((be2 e.handler).toList ++ (be2 e.type).toList)) :=
  toList_putErrEntry #[] e

theorem appending_putErrEntry : Bytes.Appending putErrEntry := by
  intro b e
  rw [toList_putErrEntry, written_putErrEntry]

theorem reads_errEntry (e : ErrEntry) :
    Reads Attributes.readErrEntry (written (putErrEntry · e)) e := by
  rw [written_putErrEntry]
  exact (Read.reads_u2 _).bind ((Read.reads_u2 _).bind ((Read.reads_u2 _).bind
    ((Read.reads_u2 _).nil_bind (reads_pure _))))

theorem toList_putLineNumber (out : Bytes) (l : LineNumber) :
    (putLineNumber out l).toList = out.toList ++ ((be2 l.pc).toList ++ (be2 l.line).toList) := by
  simp [putLineNumber]

theorem written_putLineNumber (l : LineNumber) :
    written (putLineNumber · l) = (be2 l.pc).toList ++ (be2 l.line).toList :=
  toList_putLineNumber #[] l

theorem appending_putLineNumber : Bytes.Appending putLineNumber := by
  intro b l
  rw [toList_putLineNumber, written_putLineNumber]

theorem reads_lineNumber (l : LineNumber) :
    Reads Attributes.readLineNumber (written (putLineNumber · l)) l := by
  rw [written_putLineNumber]
  exact (Read.reads_u2 _).bind ((Read.reads_u2 _).nil_bind (reads_pure _))

-- A table that fits an attribute has a count that fits its field.
theorem length_le_of_putTable {α : Type} {put : Bytes → α → Bytes} {items : List α}
    (hput : Bytes.Appending put) (hitem : ∀ x, written (put · x) ≠ [])
    (hsize : (Bytes.putTable #[] items put).size ≤ 0xFFFF) : items.length ≤ 0xFFFF := by
  have hlength : items.length ≤ (items.flatMap fun x => written (put · x)).length := by
    clear hsize
    induction items with
    | nil => simp
    | cons x items ih =>
      have hx := List.length_pos_iff.mpr (hitem x)
      rw [List.flatMap_cons, List.length_append, List.length_cons]
      omega
  have hbytes := congrArg List.length (Bytes.written_putTable hput items)
  rw [List.length_append] at hbytes
  have hall : (written (·.putTable items put)).length = (Bytes.putTable #[] items put).size :=
    Array.length_toList
  omega

-- The table of an attribute, decoded.
theorem runOn_putTable {α : Type} {put : Bytes → α → Bytes} {r : Read α} {items : List α}
    (hput : Bytes.Appending put) (hitem : ∀ x, written (put · x) ≠ [])
    (hread : ∀ x, Reads r (written (put · x)) x)
    (hsize : (Bytes.putTable #[] items put).size ≤ 0xFFFF) (what : String) :
    (Read.table r).runOn (Bytes.putTable #[] items put) what = .ok items.toArray :=
  Read.runOn_eq_ok (Read.reads_table_of_forall₂ hput (length_le_of_putTable hput hitem hsize)
    (List.forall₂_same.mpr fun x _ => hread x)) what

theorem errTable_methodAttrs {m : MethodSpec} (h : m.Fits) :
    (Attributes.mk (methodAttrs m).toArray).errTable = .ok m.errs.toArray := by
  have hget : (Attributes.mk (methodAttrs m).toArray).get? "ErrTable" =
      if m.errs.isEmpty then none else some (Bytes.putTable #[] m.errs putErrEntry) := by
    unfold Attributes.get? methodAttrs
    cases m.errs.isEmpty <;> cases m.lines.isEmpty <;> rfl
  unfold Attributes.errTable Attributes.table
  rw [hget]
  cases hempty : m.errs.isEmpty with
  | true =>
    rw [List.isEmpty_iff] at hempty
    rw [hempty]
    rfl
  | false =>
    refine runOn_putTable appending_putErrEntry (fun e => ?_) reads_errEntry ?_ _
    · rw [written_putErrEntry]
      simp [be2]
    · exact h.attrs ("ErrTable", Bytes.putTable #[] m.errs putErrEntry) (by
        simp [methodAttrs, hempty])

theorem lineNumbers_methodAttrs {m : MethodSpec} (h : m.Fits) :
    (Attributes.mk (methodAttrs m).toArray).lineNumbers = .ok m.lines.toArray := by
  have hget : (Attributes.mk (methodAttrs m).toArray).get? "LineNumbers" =
      if m.lines.isEmpty then none else some (Bytes.putTable #[] m.lines putLineNumber) := by
    unfold Attributes.get? methodAttrs
    cases m.errs.isEmpty <;> cases m.lines.isEmpty <;> rfl
  unfold Attributes.lineNumbers Attributes.table
  rw [hget]
  cases hempty : m.lines.isEmpty with
  | true =>
    rw [List.isEmpty_iff] at hempty
    rw [hempty]
    rfl
  | false =>
    refine runOn_putTable appending_putLineNumber (fun l => ?_) reads_lineNumber ?_ _
    · rw [written_putLineNumber]
      simp [be2]
    · exact h.attrs ("LineNumbers", Bytes.putTable #[] m.lines putLineNumber) (by
        simp [methodAttrs, hempty])

theorem sourceFile_typeAttrs {t : TypeSpec} (h : t.Fits) :
    (Attributes.mk (typeAttrs t).toArray).sourceFile = .ok t.source := by
  unfold Attributes.sourceFile Attributes.value
  cases hsource : t.source with
  | none =>
    have hget : (Attributes.mk (typeAttrs t).toArray).get? "SourceFile" = none := by
      rw [typeAttrs, hsource]
      rfl
    rw [hget]
  | some file =>
    have hget : (Attributes.mk (typeAttrs t).toArray).get? "SourceFile" =
        some (Bytes.putUtf #[] file) := by
      rw [typeAttrs, hsource]
      rfl
    have hsize := h.attrs ("SourceFile", Bytes.putUtf #[] file) (by simp [typeAttrs, hsource])
    have hshort : ShortText file := by
      have hbytes := congrArg List.length (Bytes.written_putBuf (Text.ModifiedUtf8.encode file))
      rw [List.length_append] at hbytes
      have hall : (written (·.putBuf (Text.ModifiedUtf8.encode file))).length =
          (Bytes.putUtf #[] file).size := Array.length_toList
      simp only [Array.length_toList] at hbytes
      unfold ShortText
      dsimp only at hsize
      omega
    rw [hget]
    dsimp only
    rw [Read.runOn_eq_ok (Read.reads_utf hshort)]
    rfl

end Builder

open Builder

-- What is read of a variable, a field, a method or a type is what was given of it; the attributes
-- say what was put into them.
structure VarSpec.ReadAs (kind : UInt8) (v : VarSpec) (d : VarDef) : Prop where
  name : d.name = v.name
  type : d.type = v.type
  flags : d.flags = kind
  default? : d.default? = v.default?

structure FieldSpec.ReadAs (f : FieldSpec) (d : FieldDef) : Prop where
  name : d.name = f.name
  flags : d.flags = f.flags
  type : d.type = f.type

structure MethodSpec.ReadAs (m : MethodSpec) (d : MethodDef) : Prop where
  name : d.name = m.name
  flags : d.flags = m.flags
  ret : d.ret = m.ret
  inheritedRet : d.inheritedRet = m.inheritedRet
  maxStack : d.maxStack = m.maxStack
  paramCount : d.paramCount.toNat = m.params.length
  localCount : d.localCount.toNat = m.locals.length
  params : List.Forall₂ (VarSpec.ReadAs Flag.param) m.params (d.vars.toList.take m.params.length)
  locals : List.Forall₂ (VarSpec.ReadAs 0) m.locals (d.vars.toList.drop m.params.length)
  code : d.code = m.code
  errTable : d.attrs.errTable = .ok m.errs.toArray
  lineNumbers : d.attrs.lineNumbers = .ok m.lines.toArray

structure TypeSpec.ReadAs (t : TypeSpec) (d : TypeDef) : Prop where
  self : d.self = t.self
  base : d.base = t.base
  mixins : d.mixins = t.mixins.toArray
  flags : d.flags = t.flags
  present : d.isHollow = false
  fields : List.Forall₂ FieldSpec.ReadAs t.fields d.fields.toList
  methods : List.Forall₂ MethodSpec.ReadAs t.methods d.methods.toList
  sourceFile : d.attrs.sourceFile = .ok t.source

theorem VarSpec.readAs_toDef (kind : UInt8) (v : VarSpec) : v.ReadAs kind (v.toDef kind) := by
  refine ⟨rfl, rfl, rfl, ?_⟩
  unfold VarDef.default? VarSpec.toDef varAttrs
  cases v.default? <;> rfl

theorem MethodSpec.readAs_toDef {m : MethodSpec} (h : m.Fits) : m.ReadAs m.toDef := by
  have hparams := h.params
  have hlocals := h.locals
  have hvars (kind : UInt8) (vars : List VarSpec) :
      List.Forall₂ (VarSpec.ReadAs kind) vars (vars.map (VarSpec.toDef kind)) :=
    List.forall₂_map_right_iff.mpr (List.forall₂_same.mpr fun v _ => v.readAs_toDef kind)
  refine ⟨rfl, rfl, rfl, rfl, rfl, ?_, ?_, ?_, ?_, rfl, errTable_methodAttrs h,
    lineNumbers_methodAttrs h⟩
  · exact (UInt8.toNat_ofNat' ..).trans (Nat.mod_eq_of_lt (by omega))
  · exact (UInt8.toNat_ofNat' ..).trans (Nat.mod_eq_of_lt (by omega))
  · have htake : m.toDef.vars.toList.take m.params.length =
        m.params.map (VarSpec.toDef Flag.param) := by
      simp [MethodSpec.toDef]
    rw [htake]
    exact hvars _ _
  · have hdrop : m.toDef.vars.toList.drop m.params.length = m.locals.map (VarSpec.toDef 0) := by
      simp [MethodSpec.toDef]
    rw [hdrop]
    exact hvars _ _

theorem TypeSpec.readAs_toDef {t : TypeSpec} (h : t.Fits) : t.ReadAs (t.toDef (some t.body)) :=
  ⟨rfl, rfl, rfl, rfl, rfl,
    List.forall₂_map_right_iff.mpr (List.forall₂_same.mpr fun _ _ => ⟨rfl, rfl, rfl⟩),
    List.forall₂_map_right_iff.mpr (List.forall₂_same.mpr fun m hm =>
      MethodSpec.readAs_toDef (h.bodies m hm)),
    sourceFile_typeAttrs h⟩

namespace Builder

-- A new pod starts as loading expects it.
theorem standard_assemble (name : String) (literals : Literals) (entries : List TableEntry) :
    (assemble name literals entries).Standard := by
  have hsame := same_foldl entries { name, literals }
  have hversion : (assemble name literals entries).version = "1.0" := hsame.version
  have hdepends : (assemble name literals entries).depends = ["sys 1.0"] := hsame.depends
  refine ⟨hsame.magic, hsame.formatVersion, ?_, ?_, ?_⟩
  · rw [hversion]
    decide +kernel
  · rw [hdepends]
    decide
  · rw [hdepends]
    decide +kernel

end Builder

-- A pod that was put together is loaded as it was given.
theorem loadFull_assemble {name : String} {literals : Literals} {entries : List TableEntry}
    {types : List TypeSpec} (hfits : (assemble name literals entries).Fits types)
    (hnodup : (types.map (simpleName (entries.foldl Symbols.put {}))).Nodup) :
    ∃ pod, loadFull ((assemble name literals entries).store types) = .ok pod ∧
      pod.name = name ∧ pod.version = "1.0" ∧ pod.depends = #["sys 1.0"] ∧
      pod.symbols = { entries.foldl Symbols.put {} with
        names := ((assemble name literals entries).finished types).names } ∧
      pod.literals = literals ∧ List.Forall₂ TypeSpec.ReadAs types pod.types.toList := by
  have hsame := same_foldl entries { name, literals }
  have hsize : (assemble name literals entries).names.size ≤ 0xFFFF :=
    hfits.extends_finished.size_le.trans hfits.names
  have hholds := holds_assemble hsize
  refine ⟨_, loadFull_store hholds hfits (standard_assemble name literals entries) hnodup,
    hsame.name, hsame.version, ?_, rfl, hsame.literals, ?_⟩
  · rw [content, assemble, hsame.depends]
  · exact List.forall₂_map_right_iff.mpr (List.forall₂_same.mpr fun t ht =>
      TypeSpec.readAs_toDef (hfits.bodies t ht))

-- A type with a field and a method, the method with a parameter that has a default.
def pointEntries : List TableEntry := [
  .typeRef ⟨"demo", "Point", ""⟩, .typeRef ⟨"sys", "Obj", ""⟩, .typeRef ⟨"sys", "Int", ""⟩,
  .typeRef ⟨"demo", "Point", ""⟩, .fieldRef ⟨0, "x", 2⟩, .methodRef ⟨0, "move", 0, #[2]⟩]

def pointLiterals : Literals :=
  { ints := #[-1], floats := #[0x7FF8000000000001], strs := #["é"], durations := #[7] }

def pointType : TypeSpec where
  self := 0
  base := some 1
  mixins := [2]
  flags := 0x1000
  fields := [⟨"x", 0x9000, 2⟩]
  methods := [{
    name := "move", flags := 0x1000, ret := 0, inheritedRet := 0
    params := [⟨"by", 2, some #[0x2a]⟩], locals := [⟨"at", 2, none⟩], code := #[0x00, 0x2a]
    errs := [⟨0, 1, 1, 1⟩], lines := [⟨0, 12⟩] }]
  source := some "Point.fan"

theorem loadFull_assemble_point :
    (assemble "demo" pointLiterals pointEntries).Fits [pointType] ∧
    ([pointType].map (simpleName (pointEntries.foldl Symbols.put {}))).Nodup ∧
    ∃ pod, loadFull ((assemble "demo" pointLiterals pointEntries).store [pointType]) = .ok pod ∧
      pod.symbols.typeRefs = #[⟨"demo", "Point", ""⟩, ⟨"sys", "Obj", ""⟩, ⟨"sys", "Int", ""⟩] ∧
      pod.symbols.names =
        #["demo", "Point", "sys", "Obj", "Int", "x", "move", "by", "ParamDefault", "at",
          "ErrTable", "LineNumbers", "SourceFile"] ∧
      List.Forall₂ TypeSpec.ReadAs [pointType] pod.types.toList := by
  have hbodies : ∀ t ∈ [pointType], t.Fits := by
    rw [List.forall_mem_singleton]
    refine ⟨by decide, by decide, by decide, by decide, ?_, by decide +kernel⟩
    rw [pointType, List.forall_mem_singleton]
    exact ⟨by decide, by decide, by decide, by decide, by decide⟩
  have hfits : (assemble "demo" pointLiterals pointEntries).Fits [pointType] := by
    constructor
    case bodies => exact hbodies
    all_goals decide +kernel
  have hnodup : ([pointType].map (simpleName (pointEntries.foldl Symbols.put {}))).Nodup := by
    decide +kernel
  obtain ⟨pod, hpod, -, -, -, hsymbols, -, htypes⟩ := loadFull_assemble hfits hnodup
  refine ⟨hfits, hnodup, pod, hpod, ?_, ?_, htypes⟩
  · rw [hsymbols]
    decide +kernel
  · rw [hsymbols]
    decide +kernel

end PodCompiler.Pod
