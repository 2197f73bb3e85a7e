import PodCompiler.Proofs.ClassFile.RoundTrip

namespace PodCompiler.ClassFile

open Bytes (Appending be2 be4 written)

-- A stretch of a class: bytes as they are, or two bytes for a number of items or of bytes.
inductive Part where
  | bytes (bs : List UInt8)
  | count (n : Nat)

namespace Part

def written : Part → List UInt8
  | .bytes bs => bs
  | .count n => (be2 n.toUInt16).toList

-- Whether two bytes hold the number.
def Fits : Part → Prop
  | .bytes _ => True
  | .count n => n ≤ 0xFFFF

@[simp] theorem written_bytes (bs : List UInt8) : (bytes bs).written = bs :=
  rfl

@[simp] theorem written_count (n : Nat) : (count n).written = (be2 n.toUInt16).toList :=
  rfl

@[simp] theorem fits_bytes (bs : List UInt8) : (bytes bs).Fits :=
  trivial

@[simp] theorem fits_count (n : Nat) : (count n).Fits ↔ n ≤ 0xFFFF :=
  Iff.rfl

end Part

-- From a position on to the end, the bytes are those of the parts, with each number as it is.
def Says (b : Bytes) : Nat → List Part → Prop
  | pos, [] => pos = b.size
  | pos, .bytes bs :: rest => b.Spells pos bs ∧ Says b (pos + bs.length) rest
  | pos, .count n :: rest => (b.be2? pos).map UInt16.toNat = some n ∧ Says b (pos + 2) rest

theorem toNat_toUInt16_eq_iff (n : Nat) : n.toUInt16.toNat = n ↔ n ≤ 0xFFFF := by
  rw [UInt16.toNat_ofNat']
  omega

-- Parts that were written say their numbers just if these fit.
theorem says_iff {b : Bytes} {parts : List Part} {pos : Nat}
    (h : b.Spells pos (parts.flatMap Part.written))
    (hend : pos + (parts.flatMap Part.written).length = b.size) :
    Says b pos parts ↔ ∀ part ∈ parts, part.Fits := by
  induction parts generalizing pos with
  | nil => simpa [Says] using hend
  | cons part rest ih =>
    rw [List.flatMap_cons] at h hend
    rw [List.length_append] at hend
    obtain ⟨hfirst, hrest⟩ := Bytes.spells_append.mp h
    rw [List.forall_mem_cons, ← ih hrest (by omega)]
    cases part with
    | bytes bs =>
      rw [and_iff_right (Part.fits_bytes bs)]
      exact and_iff_right hfirst
    | count n =>
      have hword : b.be2? pos = some n.toUInt16 := Bytes.be2?_of_spells hfirst
      have hfits : (b.be2? pos).map UInt16.toNat = some n ↔ (Part.count n).Fits := by
        rw [hword, Option.map_some, Option.some_inj]
        exact toNat_toUInt16_eq_iff n
      exact and_congr_left' hfits

section Tables

variable {α : Type}

-- A table: the number of its items, and the items.
def tableParts (items : List α) (parts : α → List Part) : List Part :=
  .count items.length :: items.flatMap parts

theorem written_tableParts {items : List α} {parts : α → List Part} {put : Bytes → α → Bytes}
    (hput : Appending put) (hparts : ∀ x, (parts x).flatMap Part.written = written (put · x)) :
    (tableParts items parts).flatMap Part.written = written (·.putTable items put) := by
  rw [Bytes.written_putTable hput, tableParts, List.flatMap_cons, List.flatMap_assoc]
  simp only [hparts]
  rfl

theorem fits_tableParts {items : List α} {parts : α → List Part} :
    (∀ part ∈ tableParts items parts, part.Fits) ↔
      items.length ≤ 0xFFFF ∧ ∀ x ∈ items, ∀ part ∈ parts x, part.Fits := by
  rw [tableParts, List.forall_mem_cons]
  refine and_congr Iff.rfl ?_
  simp only [List.mem_flatMap]
  exact ⟨fun h x hx part hpart => h part ⟨x, hx, hpart⟩, fun h part ⟨x, hx, hpart⟩ =>
    h x hx part hpart⟩

end Tables

-- A text has the number of its bytes before it.
def Constant.parts : Constant → List Part
  | .utf8 s => [.bytes [tag (.utf8 s)], .count (Text.ModifiedUtf8.encode s).size,
    .bytes (Text.ModifiedUtf8.encode s).toList]
  | c => [.bytes (Bytes.written (put · c))]

theorem Constant.written_utf8 (s : String) : Bytes.written (put · (.utf8 s)) =
    [1] ++ (be2 (Text.ModifiedUtf8.encode s).size.toUInt16).toList ++
      (Text.ModifiedUtf8.encode s).toList := by
  have hput : Bytes.written (put · (.utf8 s)) = [1] ++ Bytes.written (·.putUtf s) := by
    unfold Bytes.written
    simp [put, tag]
  have htext : Bytes.written (·.putUtf s) =
      Bytes.written (·.putBuf (Text.ModifiedUtf8.encode s)) :=
    rfl
  rw [hput, htext, Bytes.written_putBuf, List.append_assoc]

theorem Constant.written_parts (c : Constant) :
    c.parts.flatMap Part.written = Bytes.written (put · c) := by
  cases c
  case utf8 s =>
    rw [written_utf8]
    simp [parts, tag]
  all_goals simp [parts]

theorem Constant.fits_parts (c : Constant) : (∀ part ∈ c.parts, part.Fits) ↔ c.Short := by
  unfold Short
  cases c <;> simp [parts]

namespace Draft

-- The parts of a method with its code, the exceptions that it catches, and its lines.
def lineParts (name : UInt16) (lines : List LineEntry) : List Part :=
  .bytes ((be2 name).toList ++ (be4 (2 + 4 * lines.length).toUInt32).toList) ::
    tableParts lines fun l => [.bytes (written (putLine · l))]

def codeParts (attrs : AttrIndices) (c : CodeBuffer) : List Part :=
  .bytes ((be2 attrs.code).toList ++ (be4 (codeAttrSize c).toUInt32).toList ++
      (be2 c.maxStack).toList ++ (be2 c.maxLocals).toList ++ (be4 c.code.size.toUInt32).toList ++
      c.code.toList) ::
    (tableParts c.exceptions.toList (fun e => [.bytes (written (putException · e))]) ++
      tableParts (lineTables c) (lineParts attrs.lines))

def methodParts (attrs : AttrIndices) (m : MethodInfo) : List Part :=
  .bytes ((be2 m.access).toList ++ (be2 m.nameIndex).toList ++ (be2 m.descIndex).toList) ::
    tableParts m.code.toList (codeParts attrs)

def fieldParts (f : FieldInfo) : List Part :=
  [.bytes ((be2 f.access).toList ++ (be2 f.nameIndex).toList ++ (be2 f.descIndex).toList), .count 0]

-- The parts of a class: the constants, and the members of each kind.
def classParts (d : Draft) (p : Pool) (attrs : AttrIndices) : List Part :=
  .bytes ((be4 magic).toList ++ (be2 d.minor).toList ++ (be2 d.major).toList) :: .count p.next ::
    (p.entries.toList.flatMap Constant.parts ++
      (.bytes ((be2 d.access).toList ++ (be2 d.thisIndex).toList ++ (be2 d.superIndex).toList) ::
        (tableParts d.interfaces.toList (fun x => [.bytes (written (putInterface · x))]) ++
          (tableParts d.fields.toList fieldParts ++
            (tableParts d.methods.toList (methodParts attrs) ++
              tableParts attrs.source.toList fun s => [.bytes (written (putSourceAttr · s))])))))

theorem written_lineParts (name : UInt16) (lines : List LineEntry) :
    (lineParts name lines).flatMap Part.written = written (putLineAttr name · lines) := by
  rw [lineParts, List.flatMap_cons, written_tableParts appending_putLine
    (fun l => by simp), written_putLineAttr]
  simp

theorem written_codeParts (attrs : AttrIndices) (c : CodeBuffer) :
    (codeParts attrs c).flatMap Part.written = written (putCodeAttr attrs · c) := by
  rw [codeParts, List.flatMap_cons, List.flatMap_append,
    written_tableParts appending_putException (fun e => by simp),
    written_tableParts (appending_putLineAttr _) (written_lineParts _), written_putCodeAttr]
  simp [codeBody]

theorem written_methodParts (attrs : AttrIndices) (m : MethodInfo) :
    (methodParts attrs m).flatMap Part.written = written (putMethod attrs · m) := by
  rw [methodParts, List.flatMap_cons,
    written_tableParts (appending_putCodeAttr attrs) (written_codeParts attrs), written_putMethod]
  simp

theorem written_fieldParts (f : FieldInfo) :
    (fieldParts f).flatMap Part.written = written (putField · f) := by
  unfold written
  simp [fieldParts, putField]

-- A class is written as its parts.
theorem written_classParts (d : Draft) (p : Pool) (attrs : AttrIndices) :
    (classParts d p attrs).flatMap Part.written = (serialize d p attrs).toList := by
  have hsource : written (putSource · attrs.source) =
      written (·.putTable attrs.source.toList putSourceAttr) := by
    simp only [putSource_eq]
  have hentries : (p.entries.toList.flatMap Constant.parts).flatMap Part.written =
      p.entries.toList.flatMap fun c => written (Constant.put · c) := by
    rw [List.flatMap_assoc]
    simp only [Constant.written_parts]
  rw [toList_serialize, beforeMethods, classParts, hsource]
  simp only [List.flatMap_cons, List.flatMap_append, hentries,
    written_tableParts appending_putField written_fieldParts,
    written_tableParts (appending_putMethod attrs) (written_methodParts attrs)]
  rw [written_tableParts appending_putInterface (fun x => by simp),
    written_tableParts appending_putSourceAttr (fun s => by simp)]
  simp [Pool.count]

-- All numbers that a class has in two bytes are small enough: those of the bytes of its texts, of
-- its interfaces and members, and of the exceptions and lines of each code.
structure CountsFit (d : Draft) (p : Pool) : Prop where
  texts : ∀ c ∈ p.entries, c.Short
  interfaces : d.interfaces.size ≤ 0xFFFF
  fields : d.fields.size ≤ 0xFFFF
  methods : d.methods.size ≤ 0xFFFF
  exceptions : ∀ m ∈ d.methods, ∀ c ∈ m.code, c.exceptions.size ≤ 0xFFFF
  lines : ∀ m ∈ d.methods, ∀ c ∈ m.code, c.lines.size ≤ 0xFFFF

theorem fits_codeParts (attrs : AttrIndices) (c : CodeBuffer) :
    (∀ part ∈ codeParts attrs c, part.Fits) ↔
      c.exceptions.size ≤ 0xFFFF ∧ c.lines.size ≤ 0xFFFF := by
  have hlines : (∀ part ∈ tableParts (lineTables c) (lineParts attrs.lines), part.Fits) ↔
      c.lines.size ≤ 0xFFFF := by
    rw [fits_tableParts]
    unfold lineTables
    cases hempty : c.lines.isEmpty with
    | true => simp [Array.isEmpty_iff.mp hempty]
    | false => simp [lineParts, fits_tableParts]
  rw [codeParts, List.forall_mem_cons, List.forall_mem_append, hlines, fits_tableParts]
  simp

theorem fits_methodParts (attrs : AttrIndices) (m : MethodInfo) :
    (∀ part ∈ methodParts attrs m, part.Fits) ↔
      ∀ c ∈ m.code, c.exceptions.size ≤ 0xFFFF ∧ c.lines.size ≤ 0xFFFF := by
  rw [methodParts, List.forall_mem_cons, fits_tableParts]
  simp only [fits_codeParts]
  cases m.code <;> simp

theorem fits_classParts {d : Draft} {p : Pool} {attrs : AttrIndices} (hp : p.Built) :
    (∀ part ∈ classParts d p attrs, part.Fits) ↔ d.CountsFit p := by
  have hnext : p.next ≤ 0xFFFF := hp.next_le
  have htexts : (∀ part ∈ p.entries.toList.flatMap Constant.parts, part.Fits) ↔
      ∀ c ∈ p.entries, c.Short := by
    simp only [List.mem_flatMap, Array.mem_toList_iff, ← Constant.fits_parts]
    exact ⟨fun h c hc part hpart => h part ⟨c, hc, hpart⟩, fun h part ⟨c, hc, hpart⟩ =>
      h c hc part hpart⟩
  have hsource : attrs.source.toList.length ≤ 0xFFFF := by
    cases attrs.source <;> simp
  rw [classParts]
  simp only [List.forall_mem_cons, List.forall_mem_append, htexts, fits_tableParts,
    fits_methodParts]
  constructor
  · rintro ⟨-, -, htexts, -, ⟨hinterfaces, -⟩, ⟨hfields, -⟩, ⟨hmethods, hcodes⟩, -⟩
    exact ⟨htexts, hinterfaces, hfields, hmethods,
      fun m hm c hc => (hcodes m (Array.mem_toList_iff.mpr hm) c hc).1,
      fun m hm c hc => (hcodes m (Array.mem_toList_iff.mpr hm) c hc).2⟩
  · intro h
    refine ⟨Part.fits_bytes _, hnext, h.texts, Part.fits_bytes _, ⟨h.interfaces, by simp⟩,
      ⟨h.fields, by simp [fieldParts]⟩, ⟨h.methods, fun m hm c hc => ?_⟩, hsource,
      by simp⟩
    have hm := Array.mem_toList_iff.mp hm
    exact ⟨h.exceptions m hm c hc, h.lines m hm c hc⟩

-- The bytes of a class say the numbers of what stands in it just if these fit.
theorem says_serialize_iff {d : Draft} {p : Pool} {attrs : AttrIndices} (hp : p.Built) :
    Says (serialize d p attrs) 0 (classParts d p attrs) ↔ d.CountsFit p := by
  rw [← fits_classParts hp]
  apply says_iff
  · rw [written_classParts]
    intro i _
    rw [Nat.zero_add, Array.getElem?_toList]
  · rw [written_classParts, Nat.zero_add, Array.length_toList]

end Draft

end PodCompiler.ClassFile
