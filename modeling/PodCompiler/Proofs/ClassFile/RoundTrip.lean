import PodCompiler.Proofs.ClassFile.Edits

namespace PodCompiler.ClassFile

open Bytes (Appending be2 be4 written)
open Pod (Cursor Read Reads)

-- What stands in a class of the exceptions, the code and the members that were put in.
def ExceptionEntry.readBack (k : Constants) (e : ExceptionEntry) : ParsedException where
  startPc := e.startPc
  endPc := e.endPc
  handlerPc := e.handlerPc
  catchType := if e.catchType = 0 then none else k.className? e.catchType

def CodeBuffer.readBack (k : Constants) (c : CodeBuffer) : ParsedCode where
  maxStack := c.maxStack
  maxLocals := c.maxLocals
  code := c.code
  exceptions := c.exceptions.map (ExceptionEntry.readBack k)
  lines := c.lines

def FieldInfo.readBack (f : FieldInfo) : ParsedField :=
  ⟨f.access, f.name, f.desc⟩

def MethodInfo.readBack (k : Constants) (m : MethodInfo) : ParsedMethod :=
  ⟨m.access, m.name, m.desc, m.code.map (CodeBuffer.readBack k)⟩

def Draft.readBack (d : Draft) (table : ConstantTable) : Parsed where
  major := d.major
  access := d.access
  name := d.name
  superName := d.superName
  interfaces := d.interfaces.map (·.1)
  fields := d.fields.map FieldInfo.readBack
  methods := d.methods.map (MethodInfo.readBack d.pool.get?)
  sourceFile := d.sourceFile
  pool := table

-- Code whose tables fit the fields of their counts, and that catches classes that have a name.
structure CodeBuffer.Fits (k : Constants) (c : CodeBuffer) : Prop where
  exceptions : c.exceptions.size ≤ 0xFFFF
  lines : c.lines.size ≤ 0xFFFF
  catches : ∀ e ∈ c.exceptions, e.catchType = 0 ∨ ∃ name, k.className? e.catchType = some name

theorem CodeBuffer.Fits.extends {k k' : Constants} {c : CodeBuffer} (h : c.Fits k)
    (hk : Constants.Extends k' k) : c.Fits k' :=
  { h with catches := fun e he => (h.catches e he).imp_right fun ⟨name, hn⟩ =>
      ⟨name, hk.className? hn⟩ }

-- The classes that are caught keep their names when the pool grows.
theorem CodeBuffer.Fits.readBack_extends {k k' : Constants} {c : CodeBuffer} (h : c.Fits k)
    (hk : Constants.Extends k' k) : c.readBack k' = c.readBack k := by
  have hexceptions : c.exceptions.map (ExceptionEntry.readBack k') =
      c.exceptions.map (ExceptionEntry.readBack k) := by
    apply Array.map_congr_left
    intro e he
    unfold ExceptionEntry.readBack
    obtain hzero | ⟨name, hname⟩ := h.catches e he
    · rw [if_pos hzero, if_pos hzero]
    · rw [hname, hk.className? hname]
  unfold CodeBuffer.readBack
  rw [hexceptions]

-- A list whose items all have so many bytes.
theorem length_flatMap_of_const {α : Type} {f : α → List UInt8} {n : Nat} (h : ∀ x, (f x).length = n)
    (xs : List α) : (xs.flatMap f).length = n * xs.length := by
  induction xs with
  | nil => rfl
  | cons x xs ih => rw [List.flatMap_cons, List.length_append, ih, h, List.length_cons]; ring

namespace Draft

variable {p : Pool}

-- The parts of a class, each of which is appended.
theorem appending_putException : Appending putException := by
  intro b e
  unfold written
  simp [putException]

theorem appending_putLine : Appending putLine := by
  intro b l
  unfold written
  simp [putLine]

theorem appending_putField : Appending putField := by
  intro b f
  unfold written
  simp [putField]

theorem written_putException (e : ExceptionEntry) : written (putException · e) =
    (be2 e.startPc).toList ++ ((be2 e.endPc).toList ++ ((be2 e.handlerPc).toList ++
      (be2 e.catchType).toList)) := by
  unfold written
  simp [putException]

theorem written_putLine (l : LineEntry) :
    written (putLine · l) = (be2 l.startPc).toList ++ (be2 l.line).toList := by
  unfold written
  simp [putLine]

theorem written_putField (f : FieldInfo) : written (putField · f) =
    (be2 f.access).toList ++ ((be2 f.nameIndex).toList ++ ((be2 f.descIndex).toList ++
      written (·.putTable [] fun b (_ : Unit) => b))) := by
  unfold written
  simp [putField, Bytes.putTable]

theorem reads_exception (h : p.Filled) {e : ExceptionEntry}
    (hcatch : e.catchType = 0 ∨ ∃ name, Constants.className? p.get? e.catchType = some name) :
    Reads (Parsed.exception p.table) (written (putException · e)) (e.readBack p.get?) := by
  rw [written_putException]
  refine (ParseM.reads_u2 _).bind ((ParseM.reads_u2 _).bind ((ParseM.reads_u2 _).bind
    ((ParseM.reads_u2 _).nil_bind ?_)))
  unfold ExceptionEntry.readBack
  by_cases hzero : e.catchType = 0
  · rw [if_pos hzero, if_pos hzero]
    exact Pod.reads_pure _
  · obtain ⟨name, hname⟩ := hcatch.resolve_left hzero
    rw [if_neg hzero, if_neg hzero, hname]
    exact ((ParseM.reads_ofExcept (h.className_table hname)).map some).nil_bind (Pod.reads_pure _)

theorem reads_line (l : LineEntry) : Reads Parsed.line (written (putLine · l)) l := by
  rw [written_putLine]
  exact (ParseM.reads_u2 _).bind ((ParseM.reads_u2 _).nil_bind (Pod.reads_pure _))

theorem reads_field (h : p.Filled) {f : FieldInfo} (hf : f.Named p.get?) :
    Reads (Parsed.field p.table) (written (putField · f)) f.readBack := by
  rw [written_putField]
  refine (ParseM.reads_u2 _).bind ((ParseM.reads_u2 _).bind ((ParseM.reads_ofExcept
    (h.utf8_table hf.name)).bind_nil ((ParseM.reads_u2 _).bind ((ParseM.reads_ofExcept
    (h.utf8_table hf.desc)).bind_nil ?_))))
  have hattrs : Reads (ParseM.table Parsed.skipAttribute)
      (written (·.putTable [] fun b (_ : Unit) => b)) #[] :=
    ParseM.reads_table (g := fun _ => ()) (by intro b x; simp [written]) (by simp) (by simp)
  exact hattrs.nil_bind (Pod.reads_pure _)

-- The attribute with the lines of some code.
def putLineAttr (name : UInt16) (b : Bytes) (lines : List LineEntry) : Bytes :=
  ((b.put2 name).put4 (2 + 4 * lines.length).toUInt32).putTable lines putLine

theorem written_putLineAttr (name : UInt16) (lines : List LineEntry) :
    written (putLineAttr name · lines) = (be2 name).toList ++
      ((be4 (2 + 4 * lines.length).toUInt32).toList ++ written (·.putTable lines putLine)) := by
  unfold written putLineAttr
  rw [Bytes.toList_putTable appending_putLine]
  simp [written]

theorem appending_putLineAttr (name : UInt16) : Appending (putLineAttr name) := by
  intro b lines
  rw [written_putLineAttr]
  unfold putLineAttr
  rw [Bytes.toList_putTable appending_putLine]
  simp

-- The tables of lines that are written for some code: one, if there are any lines.
def lineTables (c : CodeBuffer) : List (List LineEntry) :=
  if c.lines.isEmpty then [] else [c.lines.toList]

theorem putLineTable_eq (b : Bytes) (c : CodeBuffer) (name : UInt16) :
    putLineTable b c name = b.putTable (lineTables c) (putLineAttr name) := by
  unfold putLineTable lineTables
  split
  · rfl
  · simp [Bytes.putTable, putLineAttr, lineTableSize]

theorem reads_lineAttr (h : p.Filled) {name : UInt16} {lines : List LineEntry}
    (hname : Constants.text? p.get? name = some "LineNumberTable") (hlines : lines.length ≤ 0xFFFF) :
    Reads (Parsed.codeAttribute p.table) (written (putLineAttr name · lines)) lines.toArray := by
  rw [written_putLineAttr]
  refine (ParseM.reads_u2 _).bind ((ParseM.reads_ofExcept (h.utf8_table hname)).bind_nil
    ((ParseM.reads_u4 _).bind ?_))
  rw [if_pos rfl]
  have htable := ParseM.reads_table (g := id) appending_putLine hlines
    (fun l _ => reads_line l)
  rwa [List.map_id] at htable

-- What stands behind the length of the code of a method.
def codeBody (c : CodeBuffer) (attrs : AttrIndices) : List UInt8 :=
  (be2 c.maxStack).toList ++ ((be2 c.maxLocals).toList ++ ((be4 c.code.size.toUInt32).toList ++
    (c.code.toList ++ (written (·.putTable c.exceptions.toList putException) ++
      written (·.putTable (lineTables c) (putLineAttr attrs.lines))))))

theorem toList_putCode (b : Bytes) (c : CodeBuffer) (attrs : AttrIndices) :
    (putCode b c attrs).toList = b.toList ++ ((be2 attrs.code).toList ++
      ((be4 (codeAttrSize c).toUInt32).toList ++ codeBody c attrs)) := by
  unfold putCode codeBody
  rw [putLineTable_eq, Bytes.toList_putTable (appending_putLineAttr _),
    Bytes.toList_putTable appending_putException]
  simp

-- The length counts all of it.
theorem length_codeBody (c : CodeBuffer) (attrs : AttrIndices) :
    (codeBody c attrs).length = codeAttrSize c := by
  have hexceptions : (written (·.putTable c.exceptions.toList putException)).length =
      2 + 8 * c.exceptions.size := by
    rw [Bytes.written_putTable appending_putException, List.length_append,
      length_flatMap_of_const (n := 8) (fun e => by simp [written_putException])]
    simp
  have hlines : (written (·.putTable (lineTables c) (putLineAttr attrs.lines))).length =
      2 + if c.lines.isEmpty then 0 else 6 + lineTableSize c := by
    rw [Bytes.written_putTable (appending_putLineAttr _), List.length_append]
    have hentries : (c.lines.toList.flatMap fun l => written (putLine · l)).length =
        4 * c.lines.size :=
      length_flatMap_of_const (n := 4) (fun l => by simp [written_putLine]) _
    unfold lineTables lineTableSize
    split
    · simp
    · rw [List.flatMap_cons, written_putLineAttr, Bytes.written_putTable appending_putLine]
      simp only [List.length_append, List.flatMap_nil, Array.length_toList, Bytes.size_be2,
        Bytes.size_be4, List.length_nil, hentries]
      omega
  unfold codeBody codeAttrSize
  simp only [List.length_append, hexceptions, hlines, Array.length_toList, Bytes.size_be2,
    Bytes.size_be4]
  omega

theorem reads_codeBody (h : p.Filled) {c : CodeBuffer} {attrs : AttrIndices}
    (hcode : c.code.size ≤ CodeBuffer.maxSize) (hc : c.Fits p.get?)
    (hname : ¬c.lines.isEmpty → Constants.text? p.get? attrs.lines = some "LineNumberTable") :
    Reads (Parsed.code p.table) (codeBody c attrs) (c.readBack p.get?) := by
  unfold CodeBuffer.maxSize at hcode
  have hsize : c.code.size.toUInt32.toNat = c.code.size := by
    rw [UInt32.toNat_ofNat', Nat.mod_eq_of_lt (by omega)]
  have hexceptions := ParseM.reads_table (r := Parsed.exception p.table)
    (g := ExceptionEntry.readBack p.get?) (l := c.exceptions.toList)
    appending_putException hc.exceptions
    (fun e he => reads_exception h (hc.catches e (Array.mem_toList_iff.mp he)))
  have hlines := ParseM.reads_table (r := Parsed.codeAttribute p.table) (g := List.toArray)
    (l := lineTables c) (appending_putLineAttr attrs.lines)
    (by unfold lineTables; split <;> simp) (by
      intro lines hmem
      unfold lineTables at hmem
      split at hmem
      · cases hmem
      · rename_i hsome
        obtain rfl := List.mem_singleton.mp hmem
        exact reads_lineAttr h (hname hsome) hc.lines)
  -- The lines of the one table, or of none, are those of the code.
  have hflatten : ((lineTables c).map List.toArray).toArray.flatten = c.lines := by
    unfold lineTables
    split
    · rename_i hempty
      rw [Array.isEmpty_iff.mp hempty]
      rfl
    · simp
  have hresult : c.readBack p.get? = ⟨c.maxStack, c.maxLocals, c.code,
      (c.exceptions.toList.map (ExceptionEntry.readBack p.get?)).toArray,
      ((lineTables c).map List.toArray).toArray.flatten⟩ := by
    rw [hflatten, ← Array.toList_map]
    rfl
  rw [hresult]
  refine (ParseM.reads_u2 _).bind ((ParseM.reads_u2 _).bind ((ParseM.reads_u4 _).bind ?_))
  rw [hsize]
  exact (ParseM.reads_ofRead (Parsed.reads_bytes c.code)).bind (hexceptions.bind
    (hlines.nil_bind (Pod.reads_pure _)))

-- The attribute of the code of a method, by its name and its length.
def putCodeAttr (attrs : AttrIndices) (b : Bytes) (c : CodeBuffer) : Bytes :=
  putCode b c attrs

theorem written_putCodeAttr (c : CodeBuffer) (attrs : AttrIndices) :
    written (putCodeAttr attrs · c) = (be2 attrs.code).toList ++
      ((be4 (codeAttrSize c).toUInt32).toList ++ codeBody c attrs) := by
  unfold written putCodeAttr
  rw [toList_putCode]
  simp

theorem appending_putCodeAttr (attrs : AttrIndices) : Appending (putCodeAttr attrs) := by
  intro b c
  rw [written_putCodeAttr, putCodeAttr, toList_putCode]

theorem toList_putMethod (attrs : AttrIndices) (b : Bytes) (m : MethodInfo) :
    (putMethod attrs b m).toList = b.toList ++ ((be2 m.access).toList ++
      ((be2 m.nameIndex).toList ++ ((be2 m.descIndex).toList ++
        written (·.putTable m.code.toList (putCodeAttr attrs))))) := by
  have hattr : putMethod attrs b m = (((b.put2 m.access).put2 m.nameIndex).put2 m.descIndex).putTable
      m.code.toList (putCodeAttr attrs) := by
    unfold putMethod
    cases m.code <;> rfl
  rw [hattr, Bytes.toList_putTable (appending_putCodeAttr attrs)]
  simp

theorem written_putMethod (attrs : AttrIndices) (m : MethodInfo) :
    written (putMethod attrs · m) = (be2 m.access).toList ++ ((be2 m.nameIndex).toList ++
      ((be2 m.descIndex).toList ++ written (·.putTable m.code.toList (putCodeAttr attrs)))) :=
  toList_putMethod attrs #[] m

theorem appending_putMethod (attrs : AttrIndices) : Appending (putMethod attrs) := by
  intro b m
  rw [written_putMethod, toList_putMethod]

-- The names of the attributes stand in the pool.
structure AttrIndices.Named (k : Constants) (d : Draft) (attrs : AttrIndices) : Prop where
  code : k.text? attrs.code = some "Code"
  lines : (∃ m ∈ d.methods, ∃ c ∈ m.code, ¬c.lines.isEmpty) →
    k.text? attrs.lines = some "LineNumberTable"
  source : match d.sourceFile with
    | none => attrs.source = none
    | some file => ∃ i j, attrs.source = some (i, j) ∧ k.text? i = some "SourceFile" ∧
      k.text? j = some file

theorem reads_codeAttr (h : p.Filled) {c : CodeBuffer} {attrs : AttrIndices}
    (hsize : c.code.size ≤ CodeBuffer.maxSize) (hc : c.Fits p.get?)
    (hcode : Constants.text? p.get? attrs.code = some "Code")
    (hname : ¬c.lines.isEmpty → Constants.text? p.get? attrs.lines = some "LineNumberTable") :
    Reads (Parsed.methodAttribute p.table) (written (putCodeAttr attrs · c))
      (some (c.readBack p.get?)) := by
  rw [written_putCodeAttr]
  refine (ParseM.reads_u2 _).bind ((ParseM.reads_ofExcept (h.utf8_table hcode)).bind_nil
    ((ParseM.reads_u4 _).bind ?_))
  rw [if_pos rfl]
  exact (reads_codeBody h hsize hc hname).map some

theorem reads_method (h : p.Filled) {m : MethodInfo} {attrs : AttrIndices} (hm : m.Named p.get?)
    (hsize : ∀ c ∈ m.code, c.code.size ≤ CodeBuffer.maxSize) (hc : ∀ c ∈ m.code, c.Fits p.get?)
    (hcode : Constants.text? p.get? attrs.code = some "Code")
    (hname : ∀ c ∈ m.code, ¬c.lines.isEmpty →
      Constants.text? p.get? attrs.lines = some "LineNumberTable") :
    Reads (Parsed.method p.table) (written (putMethod attrs · m)) (m.readBack p.get?) := by
  have hattrs := ParseM.reads_table (r := Parsed.methodAttribute p.table)
    (g := fun c => some (c.readBack p.get?)) (l := m.code.toList)
    (appending_putCodeAttr attrs) (by cases m.code <;> simp)
    (fun c hmem => reads_codeAttr h (hsize c (Option.mem_toList.mp hmem))
      (hc c (Option.mem_toList.mp hmem)) hcode (hname c (Option.mem_toList.mp hmem)))
  have hlast : Parsed.lastGiven (m.code.toList.map fun c => some (c.readBack p.get?)).toArray =
      m.code.map (CodeBuffer.readBack p.get?) := by
    cases m.code <;> rfl
  have hresult : m.readBack p.get? = ⟨m.access, m.name, m.desc,
      Parsed.lastGiven (m.code.toList.map fun c => some (c.readBack p.get?)).toArray⟩ := by
    rw [hlast]
    rfl
  rw [written_putMethod, hresult]
  exact (ParseM.reads_u2 _).bind ((ParseM.reads_u2 _).bind ((ParseM.reads_ofExcept
    (h.utf8_table hm.name)).bind_nil ((ParseM.reads_u2 _).bind ((ParseM.reads_ofExcept
    (h.utf8_table hm.desc)).bind_nil (hattrs.nil_bind (Pod.reads_pure _))))))

-- The attribute with the source file.
def putSourceAttr (b : Bytes) (s : UInt16 × UInt16) : Bytes :=
  ((b.put2 s.1).put4 2).put2 s.2

theorem appending_putSourceAttr : Appending putSourceAttr := by
  intro b s
  unfold written
  simp [putSourceAttr]

theorem putSource_eq (b : Bytes) (source : Option (UInt16 × UInt16)) :
    putSource b source = b.putTable source.toList putSourceAttr := by
  cases source <;> rfl

theorem reads_source (h : p.Filled) {d : Draft} {attrs : AttrIndices}
    (hnames : attrs.Named p.get? d) :
    ∃ found, Reads (ParseM.table (Parsed.classAttribute p.table)) (written (putSource · attrs.source))
      found ∧ Parsed.lastGiven found = d.sourceFile := by
  have hsource := hnames.source
  have hput : written (putSource · attrs.source) =
      written (·.putTable attrs.source.toList putSourceAttr) := by
    simp only [putSource_eq]
  rw [hput]
  cases hfile : d.sourceFile with
  | none =>
    rw [hfile] at hsource
    rw [hsource]
    exact ⟨#[], ParseM.reads_table (g := fun _ => none) appending_putSourceAttr (by simp)
      (by simp), rfl⟩
  | some file =>
    rw [hfile] at hsource
    obtain ⟨i, j, hs, hattr, htext⟩ := hsource
    rw [hs]
    refine ⟨#[some file], ParseM.reads_table (g := fun _ => some file)
      appending_putSourceAttr (by simp) ?_, rfl⟩
    intro s hmem
    obtain rfl := List.mem_singleton.mp hmem
    have hbytes : written (putSourceAttr · (i, j)) =
        (be2 i).toList ++ ((be4 2).toList ++ (be2 j).toList) := by
      unfold written
      simp [putSourceAttr]
    rw [hbytes]
    refine (ParseM.reads_u2 _).bind ((ParseM.reads_ofExcept (h.utf8_table hattr)).bind_nil
      ((ParseM.reads_u4 _).bind ?_))
    rw [if_pos rfl]
    exact (ParseM.reads_u2 _).nil_bind ((ParseM.reads_ofExcept (h.utf8_table htext)).map some)

-- Interfaces are written by their indices.
def putInterface (b : Bytes) (x : String × UInt16) : Bytes :=
  b.put2 x.2

theorem appending_putInterface : Appending putInterface := by
  intro b x
  unfold written
  simp [putInterface]

theorem reads_interfaces (h : p.Filled) {xs : Array (String × UInt16)} (hcount : xs.size ≤ 0xFFFF)
    (hxs : ∀ x ∈ xs, Constants.className? p.get? x.2 = some x.1) :
    Reads (ParseM.table do p.table.className (← Read.u2))
      (written (·.putTable xs.toList putInterface)) (xs.map (·.1)) := by
  have htable := ParseM.reads_table (r := do p.table.className (← Read.u2))
    (g := fun x : String × UInt16 => x.1) (l := xs.toList) appending_putInterface hcount (by
      intro x hx
      have hbytes : written (putInterface · x) = (be2 x.2).toList := by
        unfold written
        simp [putInterface]
      rw [hbytes]
      exact (ParseM.reads_u2 _).nil_bind
        (ParseM.reads_ofExcept (h.className_table (hxs x (Array.mem_toList_iff.mp hx)))))
  rwa [← Array.toList_map, Array.toArray_toList] at htable

-- What stands before the methods of a class, and all of its bytes.
def beforeMethods (d : Draft) (p : Pool) : List UInt8 :=
  (be4 magic).toList ++ ((be2 d.minor).toList ++ ((be2 d.major).toList ++ ((be2 p.count).toList ++
    (p.entries.toList.flatMap (fun c => written (Constant.put · c)) ++ ((be2 d.access).toList ++
      ((be2 d.thisIndex).toList ++ ((be2 d.superIndex).toList ++
        (written (·.putTable d.interfaces.toList putInterface) ++
          written (·.putTable d.fields.toList putField)))))))))

theorem toList_serialize (d : Draft) (p : Pool) (attrs : AttrIndices) :
    (serialize d p attrs).toList = beforeMethods d p ++
      (written (·.putTable d.methods.toList (putMethod attrs)) ++
        written (putSource · attrs.source)) := by
  have hsource : ∀ b : Bytes, (putSource b attrs.source).toList =
      b.toList ++ written (putSource · attrs.source) := by
    intro b
    simp only [putSource_eq]
    exact Bytes.toList_putTable appending_putSourceAttr b _
  have hinterfaces : ∀ b : Bytes, b.putTable (d.interfaces.toList.map (·.2)) Bytes.put2 =
      b.putTable d.interfaces.toList putInterface := by
    intro b
    unfold Bytes.putTable
    rw [List.foldl_map, List.length_map]
    rfl
  unfold serialize beforeMethods Pool.put
  dsimp only
  rw [hsource, Bytes.toList_putTable (appending_putMethod attrs),
    Bytes.toList_putTable appending_putField, hinterfaces,
    Bytes.toList_putTable appending_putInterface]
  simp only [Bytes.toList_put2, ← Array.foldl_toList,
    Bytes.toList_foldl Constant.appending_put, List.append_assoc]

-- A class whose texts, members and tables fit the fields of their lengths and counts.
structure Fits (d : Draft) : Prop where
  texts : ∀ c ∈ d.pool.entries, c.Short
  source : ∀ file ∈ d.sourceFile, (Constant.utf8 file).Short
  interfaces : d.interfaces.size ≤ 0xFFFF
  fields : d.fields.size ≤ 0xFFFF
  methods : d.methods.size ≤ 0xFFFF
  codes : ∀ m ∈ d.methods, ∀ c ∈ m.code, c.Fits d.pool.get?

-- The pool with the names of the attributes: it extends that of the class, and fits as well.
structure Completed (d : Draft) (attrs : AttrIndices) (p : Pool) : Prop where
  filled : p.Filled
  grows : d.pool.Grows p
  names : attrs.Named p.get? d
  texts : ∀ c ∈ p.entries, c.Short

theorem reads_serialize {d : Draft} {attrs : AttrIndices} (hd : d.Coherent) (hfits : d.Fits)
    (h : d.Completed attrs p) :
    Reads Parsed.read (serialize d p attrs).toList (d.readBack p.table) := by
  have hextends := h.grows.extends h.filled.built
  have hd' := hd.onPool h.filled h.grows
  obtain ⟨found, hsource, hlast⟩ := reads_source h.filled h.names
  have hfields := ParseM.reads_table (r := Parsed.field p.table) (g := FieldInfo.readBack)
    (l := d.fields.toList) appending_putField hfits.fields
    (fun f hf => reads_field h.filled (hd'.fields f (Array.mem_toList_iff.mp hf)))
  have hmethods := ParseM.reads_table (r := Parsed.method p.table)
    (g := MethodInfo.readBack d.pool.get?) (l := d.methods.toList)
    (appending_putMethod attrs) hfits.methods (by
      intro m hmem
      have hm := Array.mem_toList_iff.mp hmem
      have hread := reads_method h.filled (hd'.methods m hm) (hd'.sizes m hm)
        (fun c hc => (hfits.codes m hm c hc).extends hextends) h.names.code
        (fun c hc hlines => h.names.lines ⟨m, hm, c, hc, hlines⟩)
      have hsame : m.readBack p.get? = m.readBack d.pool.get? := by
        unfold MethodInfo.readBack
        congr 1
        exact Option.map_congr fun c hc => (hfits.codes m hm c hc).readBack_extends hextends
      rwa [hsame] at hread)
  rw [← Array.toList_map, Array.toArray_toList] at hfields hmethods
  rw [toList_serialize]
  unfold beforeMethods
  simp only [List.append_assoc]
  refine (ParseM.reads_u4 _).bind ?_
  rw [if_neg (by simp)]
  refine (ParseM.reads_u2 _).bind ((ParseM.reads_u2 _).bind ((ParseM.reads_u2 _).bind
    ((h.filled.reads h.texts).bind ((ParseM.reads_u2 _).bind ((ParseM.reads_u2 _).bind
    ((ParseM.reads_ofExcept (h.filled.className_table hd'.name)).bind_nil
    ((ParseM.reads_u2 _).bind
    ((ParseM.reads_ofExcept (h.filled.className_table hd'.superName)).bind_nil
    ((reads_interfaces h.filled hfits.interfaces hd'.interfaces).bind (hfields.bind (hmethods.bind
    (hsource.nil_bind ?_))))))))))))
  rw [hlast]
  exact Pod.reads_pure _

end Draft

-- What the insertion of a text leaves behind.
structure Pool.Interned (p : Pool) (s : String) (i : UInt16) (p' : Pool) : Prop where
  filled : p'.Filled
  grows : p.Grows p'
  text : Constants.text? p'.get? i = some s
  texts : (∀ c ∈ p.entries, c.Short) → (Constant.utf8 s).Short → ∀ c ∈ p'.entries, c.Short

theorem Pool.interned_of_utf8 {p p' : Pool} {s : String} {i : UInt16} (hp : p.Filled)
    (h : utf8 s p = .ok i p') : p.Interned s i p' := by
  obtain ⟨hfilled, hgrows⟩ := (filling_add _).of_ok hp h
  refine ⟨hfilled, hgrows, (utf8_eq_ok hp.built h).2.2, ?_⟩
  intro hshort hs c hc
  unfold utf8 add at h
  split at h
  · cases h
    exact hshort c hc
  · split at h
    · cases h
      obtain hc | rfl := Array.mem_push.mp hc
      · exact hshort c hc
      · exact hs
    · cases h

namespace Draft

variable {d : Draft} {attrs : AttrIndices} {p : Pool}

-- The names of attributes are short.
theorem short_attrName {s : String} (h : s ∈ ["Code", "LineNumberTable", "SourceFile"]) :
    (Constant.utf8 s).Short := by
  rintro t ⟨⟩
  simp only [List.mem_cons, List.not_mem_nil, or_false] at h
  obtain rfl | rfl | rfl := h <;> decide

-- The last of the names, of the source file and its attribute.
def sourceNames (file : Option String) (code lines : UInt16) : PoolM AttrIndices :=
  match file with
  | none => return { code, lines, source := none }
  | some file => do
    let attr ← Pool.utf8 "SourceFile"
    let name ← Pool.utf8 file
    return { code, lines, source := some (attr, name) }

theorem completed_of_sourceNames {code k : UInt16} {p₂ : Pool} (hfits : d.Fits)
    (hfilled : p₂.Filled) (hgrows : d.pool.Grows p₂) (htexts : ∀ c ∈ p₂.entries, c.Short)
    (hcode : Constants.text? p₂.get? code = some "Code")
    (hlines : (∃ m ∈ d.methods, ∃ c ∈ m.code, ¬c.lines.isEmpty) →
      Constants.text? p₂.get? k = some "LineNumberTable")
    (h : sourceNames d.sourceFile code k p₂ = .ok attrs p) : d.Completed attrs p := by
  unfold sourceNames at h
  cases hfile : d.sourceFile with
  | none =>
    rw [hfile] at h
    cases h
    exact ⟨hfilled, hgrows, ⟨hcode, hlines, by rw [hfile]⟩, htexts⟩
  | some file =>
    rw [hfile] at h
    obtain ⟨i, p₃, hi, hrest⟩ := Pool.bind_eq_ok.mp h
    obtain ⟨j, p₄, hj, hpure⟩ := Pool.bind_eq_ok.mp hrest
    cases hpure
    have hi' := Pool.interned_of_utf8 hfilled hi
    have hj' := Pool.interned_of_utf8 hi'.filled hj
    have hextends := (hi'.grows.trans hj'.grows).extends hj'.filled.built
    refine ⟨hj'.filled, (hgrows.trans hi'.grows).trans hj'.grows, ⟨hextends.text? hcode,
      fun hany => hextends.text? (hlines hany), ?_⟩, ?_⟩
    · rw [hfile]
      exact ⟨i, j, rfl, (hj'.grows.extends hj'.filled.built).text? hi'.text, hj'.text⟩
    · exact hj'.texts (hi'.texts htexts (short_attrName (by simp)))
        (hfits.source file (Option.mem_def.mpr hfile))

theorem completed_of_attrNames (hd : d.Coherent) (hfits : d.Fits)
    (h : attrNames d d.pool = .ok attrs p) : d.Completed attrs p := by
  obtain ⟨code, p₁, hcode, hrest⟩ := Pool.bind_eq_ok.mp h
  have hcode' := Pool.interned_of_utf8 hd.pool hcode
  have htexts := hcode'.texts hfits.texts (short_attrName (by simp))
  dsimp only at hrest
  by_cases hany : (d.methods.any fun m => m.code.any fun c => !c.lines.isEmpty) = true
  · rw [if_pos hany] at hrest
    obtain ⟨lines, p₂, hlines, hsource⟩ := Pool.bind_eq_ok.mp hrest
    have hlines' := Pool.interned_of_utf8 hcode'.filled hlines
    exact completed_of_sourceNames hfits hlines'.filled (hcode'.grows.trans hlines'.grows)
      (hlines'.texts htexts (short_attrName (by simp)))
      ((hlines'.grows.extends hlines'.filled.built).text? hcode'.text) (fun _ => hlines'.text)
      hsource
  · rw [if_neg hany] at hrest
    refine completed_of_sourceNames (k := 0) hfits hcode'.filled hcode'.grows htexts hcode'.text
      ?_ hrest
    rintro ⟨m, hm, c, hc, hlines⟩
    refine absurd ?_ hany
    rw [Array.any_eq_true']
    exact ⟨m, hm, by simpa [Option.mem_def.mp hc] using hlines⟩

-- The bytes of a method. Behind the length of its code stand as many bytes, which are read as the
-- code.
inductive MethodBytes (table : ConstantTable) (k : Constants) (m : MethodInfo) :
    List UInt8 → Prop where
  | bare (hcode : m.code = none) : MethodBytes table k m ((be2 m.access).toList ++
      (be2 m.nameIndex).toList ++ (be2 m.descIndex).toList ++ (be2 0).toList)
  | code {c : CodeBuffer} {attr : UInt16} {length : UInt32} {body : List UInt8}
      (hcode : m.code = some c) (hattr : table.utf8 attr = .ok "Code")
      (hlength : length.toNat = body.length)
      (hbody : Reads (Parsed.code table) body (c.readBack k)) :
      MethodBytes table k m ((be2 m.access).toList ++ (be2 m.nameIndex).toList ++
        (be2 m.descIndex).toList ++ (be2 1).toList ++ (be2 attr).toList ++ (be4 length).toList ++ body)

theorem methodBytes_of_fits {m : MethodInfo} (hd : d.Coherent) (hfits : d.Fits)
    (h : d.Completed attrs p) (hm : m ∈ d.methods) :
    MethodBytes p.table d.pool.get? m (written (putMethod attrs · m)) := by
  have hextends := h.grows.extends h.filled.built
  rw [written_putMethod, Bytes.written_putTable (appending_putCodeAttr attrs)]
  cases hcode : m.code with
  | none =>
    have hbare : MethodBytes p.table d.pool.get? m _ := .bare hcode
    simpa using hbare
  | some c =>
    have hc := hfits.codes m hm c hcode
    have hsize := hd.sizes m hm c hcode
    have hbody := reads_codeBody h.filled hsize (hc.extends hextends)
      (fun hlines => h.names.lines ⟨m, hm, c, hcode, hlines⟩)
    rw [hc.readBack_extends hextends] at hbody
    have hlength : (codeAttrSize c).toUInt32.toNat = (codeBody c attrs).length := by
      have hexceptions := hc.exceptions
      have hlines := hc.lines
      unfold CodeBuffer.maxSize at hsize
      rw [length_codeBody, UInt32.toNat_ofNat', Nat.mod_eq_of_lt]
      unfold codeAttrSize lineTableSize
      split <;> omega
    have hmethod := MethodBytes.code hcode (h.filled.utf8_table h.names.code) hlength hbody
    simpa [written_putCodeAttr] using hmethod

-- The class is read back from its bytes, with the constants of the completed pool.
structure ReadsBack (d : Draft) (bytes : Bytes) (attrs : AttrIndices) (p : Pool) : Prop where
  completed : (attrNames d).run d.pool = .ok attrs p
  parsed : Parsed.parse bytes = .ok (d.readBack p.table)
  -- Reading ends where the bytes end.
  whole : Parsed.read.run (Cursor.start bytes "class") =
    .ok (d.readBack p.table) ⟨bytes, bytes.size, "class"⟩
  table : ∀ i : UInt16, p.table[i.toNat]?.join = p.get? i
  constants : ∀ i c, d.pool.get? i = some c → p.table[i.toNat]? = some (some c)
  -- The methods stand between the other members and the source file.
  methods : ∃ segments, List.Forall₂ (MethodBytes p.table d.pool.get?) d.methods.toList segments ∧
    bytes.toList = beforeMethods d p ++ (be2 d.methods.size.toUInt16).toList ++ segments.flatten ++
      written (putSource · attrs.source)

-- A finished class is read back whole: the members and the tables that were put in, and each
-- constant under the index that the pool gave it. Before the code of each method stands the number
-- of its bytes.
theorem parse_finish {name superName : String} {access major : UInt16} {d : Draft}
    {edits : List Edit} {bytes : Bytes} (hcreate : create name superName access major = .ok d)
    (hfits : (d.edited edits).Fits) (hfinish : (d.edited edits).finish = .ok bytes) :
    ∃ attrs p, (d.edited edits).ReadsBack bytes attrs p := by
  have hd := coherent_edited edits (coherent_create hcreate)
  generalize d.edited edits = d at hfits hfinish hd ⊢
  unfold finish at hfinish
  split at hfinish
  · rename_i attrs p hnames
    cases hfinish
    have h := completed_of_attrNames hd hfits hnames
    have hread := (reads_serialize hd hfits h).run_start "class"
    rw [Array.toArray_toList, Array.length_toList] at hread
    refine ⟨attrs, p, hnames, by rw [Parsed.parse, hread], hread, h.filled.join_getElem?, ?_,
      d.methods.toList.map (fun m => written (putMethod attrs · m)), ?_, ?_⟩
    · intro i c hc
      have hfound := Array.find?_some (h.grows.extends h.filled.built i c hc)
      exact (h.filled.index c i).mp (by simpa using hfound)
    · rw [List.forall₂_map_right_iff]
      exact List.forall₂_same.mpr fun m hm =>
        methodBytes_of_fits hd hfits h (Array.mem_toList_iff.mp hm)
    · rw [toList_serialize, Bytes.written_putTable (appending_putMethod attrs)]
      simp [List.flatMap]
  · cases hfinish

-- A class with members of all kinds, a wide constant among their names, and a method that catches
-- the superclass.
def memberEdits : List Edit := [
  .interface "I",
  .field 2 "f" "J",
  .pool (.add (.long 7)),
  .method 0x401 "a" "()V" none,
  .method 9 "m" "()V" (some
    { code := #[Op.returnVoid]
      maxLocals := 1
      exceptions := #[⟨0, 1, 0, 4⟩]
      lines := #[⟨0, 3⟩] }),
  .source (some "A.fan")]

theorem parse_finish_members : ∃ d bytes, create "A" "B" 0x21 49 = .ok d ∧
    (d.edited memberEdits).Fits ∧ (d.edited memberEdits).finish = .ok bytes ∧
    ∃ attrs p, (d.edited memberEdits).ReadsBack bytes attrs p := by
  obtain ⟨d, hcreate, -⟩ := exists_create "A" "B" 0x21 49
  have hd := hcreate
  simp [create, Pool.class_, Pool.utf8, Pool.add, EStateM.run, bind, EStateM.bind, pure,
    EStateM.pure, Constant.width, Constant.isWide, Pool.limit] at hd
  have hall : (d.edited memberEdits).Fits ∧ ∃ bytes, (d.edited memberEdits).finish = .ok bytes := by
    have hcoherent := coherent_edited memberEdits (coherent_create hcreate)
    generalize he : d.edited memberEdits = e at hcoherent ⊢
    subst hd
    simp [memberEdits, edited, Edit.run, addInterface, addField, addMethod, PoolEdit.run, onPool,
      Pool.class_, Pool.utf8, Pool.add, bind, EStateM.bind, pure, EStateM.pure, Constant.width,
      Constant.isWide, Pool.limit, get, getThe, MonadStateOf.get, EStateM.get, modify, modifyGet,
      MonadStateOf.modifyGet, EStateM.modifyGet, stateAfter, CodeBuffer.checkSize,
      CodeBuffer.maxSize, setSourceFile] at he
    subst he
    refine ⟨⟨?_, ?_, by decide, by decide, by decide, ?_⟩, ?_⟩
    · intro c hc s hs
      subst hs
      simp at hc
      obtain rfl | rfl | rfl | rfl | rfl | rfl | rfl | rfl := hc <;> decide
    · rintro file ⟨⟩ s ⟨⟩
      decide
    · intro m hm c hc
      simp only [List.mem_toArray, List.mem_cons, List.not_mem_nil, or_false] at hm
      obtain rfl | rfl := hm
      · cases hc
      · cases hc
        refine ⟨by decide, by decide, ?_⟩
        intro x hx
        obtain rfl := Array.mem_singleton.mp hx
        exact .inr ⟨"B", hcoherent.superName⟩
    · simp [finish, attrNames, Pool.utf8, Pool.add, bind, EStateM.bind, pure, EStateM.pure,
        EStateM.run, Constant.width, Constant.isWide, Pool.limit]
  obtain ⟨hfits, bytes, hfinish⟩ := hall
  exact ⟨d, bytes, hcreate, hfits, hfinish, parse_finish hcreate hfits hfinish⟩

end Draft

end PodCompiler.ClassFile
