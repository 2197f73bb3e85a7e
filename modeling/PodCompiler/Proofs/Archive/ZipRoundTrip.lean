import PodCompiler.Archive.Zip
import PodCompiler.Proofs.Archive.Entries
import PodCompiler.Proofs.Archive.PlainBlocks
import PodCompiler.Proofs.Bytes
import PodCompiler.Proofs.Text.LossyUtf8

namespace PodCompiler.Archive

open Text.LossyUtf8 (encode decode decode_encode)

-- What is packed is unpacked as it was.
def Codec.Lossless (codec : Codec) : Prop :=
  ∀ data, codec.unpack (codec.pack data) = some data

theorem Codec.lossless_deflate : Codec.deflate.Lossless :=
  inflate_deflate

namespace Zip

section Records

variable {data name packed content : Bytes} {pos offset : Nat}

theorem le2_eq_ok {v : UInt16} (h : data.Spells pos (Bytes.le2 v).toList) :
    le2 data pos = .ok v := by
  rw [le2, Bytes.le2?_of_spells h]

theorem le4_eq_ok {v : UInt32} (h : data.Spells pos (Bytes.le4 v).toList) :
    le4 data pos = .ok v := by
  rw [le4, Bytes.le4?_of_spells h]

theorem size_localRecord :
    (localRecord name packed content).size = 30 + name.size + packed.size := by
  simp [localRecord, commonHeader, Bytes.le2, Bytes.le4]
  omega

theorem size_centralRecord :
    (centralRecord name packed content offset).size = 46 + name.size := by
  simp [centralRecord, commonHeader, Bytes.le2, Bytes.le4]
  omega

theorem size_endRecord {count centralSize : Nat} :
    (endRecord count centralSize offset).size = endSize := by
  simp [endRecord, endSize, Bytes.le2, Bytes.le4]

-- The fields of a local header that are read.
theorem spells_localRecord (h : data.Spells pos (localRecord name packed content).toList) :
    data.Spells pos (Bytes.le4 localMark).toList ∧
      data.Spells (pos + 26) (Bytes.le2 name.size.toUInt16).toList ∧
      data.Spells (pos + 28) (Bytes.le2 0).toList ∧
      data.Spells (pos + (30 + name.size)) packed.toList := by
  simp only [localRecord, commonHeader, Array.toList_append, Bytes.spells_append,
    List.length_append, Array.length_toList] at h
  obtain ⟨⟨⟨⟨⟨hmark, -⟩, -, hname⟩, hextra⟩, -⟩, hpacked⟩ := h
  exact ⟨hmark, hname, hextra, hpacked⟩

-- The fields of a central header.
theorem spells_centralRecord
    (h : data.Spells pos (centralRecord name packed content offset).toList) :
    data.Spells pos (Bytes.le4 centralMark).toList ∧
      data.Spells (pos + 4) (Bytes.le2 version).toList ∧
      data.Spells (pos + 6) (Bytes.le2 version).toList ∧
      data.Spells (pos + 8) (Bytes.le2 0).toList ∧
      data.Spells (pos + 10) (Bytes.le2 deflateMethod).toList ∧
      data.Spells (pos + 16) (Bytes.le4 (crc32 content)).toList ∧
      data.Spells (pos + 20) (Bytes.le4 packed.size.toUInt32).toList ∧
      data.Spells (pos + 24) (Bytes.le4 content.size.toUInt32).toList ∧
      data.Spells (pos + 28) (Bytes.le2 name.size.toUInt16).toList ∧
      data.Spells (pos + 30) (Bytes.le2 0).toList ∧
      data.Spells (pos + 32) (Bytes.le2 0).toList ∧
      data.Spells (pos + 42) (Bytes.le4 offset.toUInt32).toList ∧
      data.Spells (pos + 46) name.toList := by
  have hzeros : (Array.replicate 12 0 : Bytes) =
      Bytes.le2 0 ++ (Bytes.le2 0 ++ Array.replicate 8 0) := rfl
  simp only [centralRecord, commonHeader, hzeros, Array.toList_append, Bytes.spells_append,
    List.length_append, Array.length_toList] at h
  obtain ⟨⟨⟨⟨⟨⟨hmark, hmade⟩, hneeded⟩, ⟨⟨⟨⟨⟨hflags, hmethod⟩, -⟩, hcrc⟩, hpacked⟩, hcontent⟩,
    hsize⟩, hextra, hcomment, -⟩, hoffset⟩, hname⟩ := h
  exact ⟨hmark, hmade, hneeded, hflags, hmethod, hcrc, hpacked, hcontent, hsize, hextra, hcomment,
    hoffset, hname⟩

theorem spells_endRecord {count centralSize : Nat}
    (h : data.Spells pos (endRecord count centralSize offset).toList) :
    data.Spells pos (Bytes.le4 endMark).toList ∧
      data.Spells (pos + 10) (Bytes.le2 count.toUInt16).toList ∧
      data.Spells (pos + 16) (Bytes.le4 offset.toUInt32).toList := by
  simp only [endRecord, Array.toList_append, Bytes.spells_append, List.length_append,
    Array.length_toList] at h
  obtain ⟨⟨⟨⟨⟨⟨hmark, -⟩, -⟩, hcount⟩, -⟩, hoffset⟩, -⟩ := h
  exact ⟨hmark, hcount, hoffset⟩

theorem toNat_toUInt16 {n : Nat} (h : n ≤ 0xFFFF) : n.toUInt16.toNat = n := by
  rw [UInt16.toNat_ofNat', Nat.mod_eq_of_lt (by omega)]

theorem toNat_toUInt32 {n : Nat} (h : n < 2 ^ 32) : n.toUInt32.toNat = n := by
  rw [UInt32.toNat_ofNat', Nat.mod_eq_of_lt h]

-- A header of the directory is read as it was written.
theorem centralAt_eq_ok (h : data.Spells pos (centralRecord name packed content offset).toList)
    (hpos : pos ≤ data.size) (hname : name.size ≤ 0xFFFF) (hpacked : packed.size < 2 ^ 32)
    (hcontent : content.size < 2 ^ 32) (hoffset : offset < 2 ^ 32) :
    centralAt data pos = .ok (⟨decode name, deflateMethod, packed.size, content.size, offset,
      version, version, 0, crc32 content, 0, 0⟩, pos + (46 + name.size)) := by
  have hend := h.length_le hpos
  rw [Array.length_toList, size_centralRecord] at hend
  obtain ⟨hmark, hmade, hneeded, hflags, hmethod, hcrc, hpackedAt, hcontentAt, hsize, hextra,
    hcomment, hoffsetAt, hnameAt⟩ := spells_centralRecord h
  have hslice := Bytes.slice?_of_spells hnameAt (by omega)
  unfold centralAt
  rw [le4_eq_ok hmark, le2_eq_ok hmethod, le4_eq_ok hpackedAt, le4_eq_ok hcontentAt,
    le2_eq_ok hsize, le2_eq_ok hextra, le2_eq_ok hcomment, le4_eq_ok hoffsetAt,
    Bytes.le2?_of_spells hmade, Bytes.le2?_of_spells hneeded, Bytes.le2?_of_spells hflags,
    Bytes.le4?_of_spells hcrc]
  dsimp only [bind, Except.bind]
  rw [toNat_toUInt16 hname, toNat_toUInt32 hpacked, toNat_toUInt32 hcontent,
    toNat_toUInt32 hoffset, centralSize, hslice, if_neg (by simp)]
  simp only [pure, Except.pure, Option.getD_some]
  rw [← Nat.add_assoc]
  rfl

-- The data of an entry is taken out as it was.
theorem extract_eq_ok {codec : Codec} {entries : Array ZipEntry} {e : ZipEntry}
    (h : data.Spells e.localOffset (localRecord name packed content).toList)
    (hoffset : e.localOffset ≤ data.size) (hname : name.size ≤ 0xFFFF)
    (hmethod : e.method = deflateMethod) (hpacked : e.packedSize = packed.size)
    (hcontent : e.size = content.size) (hcodec : codec.unpack packed = some content) :
    extract codec ⟨data, entries⟩ e = .ok content := by
  have hend := h.length_le hoffset
  rw [Array.length_toList, size_localRecord] at hend
  obtain ⟨hmark, hsize, hextra, hpackedAt⟩ := spells_localRecord h
  have hslice := Bytes.slice?_of_spells hpackedAt (by omega)
  have hstart : e.localOffset + 30 + name.size + (0 : UInt16).toNat =
      e.localOffset + (30 + name.size) := by
    rw [UInt16.toNat_zero, Nat.add_zero, Nat.add_assoc]
  unfold extract
  dsimp only
  rw [le4_eq_ok hmark, le2_eq_ok hsize, le2_eq_ok hextra]
  dsimp only [bind, Except.bind]
  rw [toNat_toUInt16 hname, hstart, hpacked, hslice, if_neg (by simp)]
  dsimp only [pure, Except.pure]
  rw [hmethod, if_neg (by decide), if_pos rfl, hcodec]
  exact if_pos hcontent.symm

end Records

section Directory

variable (codec : Codec)

-- An item with its local header.
def localPart (item : String × Bytes) : Bytes :=
  localRecord (encode item.1) (codec.pack item.2) item.2

def localParts (items : List (String × Bytes)) : List UInt8 :=
  items.flatMap fun item => (localPart codec item).toList

-- The directory of items whose local parts stand one behind the other from `offset` on.
def directory (offset : Nat) : List (String × Bytes) → List UInt8
  | [] => []
  | item :: rest =>
    (centralRecord (encode item.1) (codec.pack item.2) item.2 offset).toList ++
      directory (offset + (localPart codec item).size) rest

-- What is read of an item whose local header is at `offset`.
def entryOf (item : String × Bytes) (offset : Nat) : ZipEntry where
  name := item.1
  method := deflateMethod
  packedSize := (codec.pack item.2).size
  size := item.2.size
  localOffset := offset
  madeBy := version
  neededVersion := version
  flags := 0
  crc := crc32 item.2
  extraSize := 0
  commentSize := 0

def entriesOf (offset : Nat) : List (String × Bytes) → List ZipEntry
  | [] => []
  | item :: rest =>
    entryOf codec item offset :: entriesOf (offset + (localPart codec item).size) rest

-- An item whose name and data fit the fields of their sizes.
structure Fits (item : String × Bytes) : Prop where
  name : (encode item.1).size ≤ 0xFFFF
  data : item.2.size < 2 ^ 32

variable {codec} {data : Bytes} {items : List (String × Bytes)} {item : String × Bytes}
  {pos offset : Nat}

-- The two parts are written side by side.
theorem foldl_putEntry (items : List (String × Bytes)) (parts : Bytes × Bytes) :
    (items.foldl (putEntry codec) parts).1.toList = parts.1.toList ++ localParts codec items ∧
      (items.foldl (putEntry codec) parts).2.toList =
        parts.2.toList ++ directory codec parts.1.size items := by
  induction items generalizing parts with
  | nil => simp [localParts, directory]
  | cons item rest ih =>
    obtain ⟨hlocal, hcentral⟩ := ih (putEntry codec parts item)
    have hsize : (putEntry codec parts item).1.size =
        parts.1.size + (localPart codec item).size :=
      Array.size_append
    rw [List.foldl_cons, hlocal, hcentral, hsize]
    simp [putEntry, localParts, localPart, directory]

theorem size_localPart :
    (localPart codec item).size = 30 + (encode item.1).size + (codec.pack item.2).size :=
  size_localRecord

theorem length_localParts_cons (rest : List (String × Bytes)) :
    (localParts codec (item :: rest)).length =
      (localPart codec item).size + (localParts codec rest).length := by
  simp [localParts]

theorem map_name_entriesOf (items : List (String × Bytes)) (offset : Nat) :
    (entriesOf codec offset items).map (·.name) = items.map (·.1) := by
  induction items generalizing offset with
  | nil => rfl
  | cons item rest ih =>
    rw [entriesOf, List.map_cons, List.map_cons, ih]
    rfl

-- An entry with a new name goes last.
theorem insertEntry_of_not_mem {entries : Array ZipEntry} {e : ZipEntry}
    (h : e.name ∉ entries.toList.map (·.name)) : insertEntry entries e = entries.push e := by
  rw [insertEntry, if_neg]
  intro hany
  obtain ⟨old, hold, hname⟩ := Array.any_eq_true'.mp hany
  exact h (List.mem_map.mpr ⟨old, Array.mem_toList_iff.mpr hold, of_decide_eq_true hname⟩)

-- The directory is read as it was written, behind the entries that are there.
theorem centralsAfter_eq_ok (done : Array ZipEntry)
    (h : data.Spells pos (directory codec offset items)) (hpos : pos ≤ data.size) (hfits : ∀ item ∈ items, Fits item)
    (hoffset : offset + (localParts codec items).length < 2 ^ 32)
    (hnames : (done.toList.map (·.name) ++ items.map (·.1)).Nodup) :
    centralsAfter data done pos items.length =
      .ok (done ++ (entriesOf codec offset items).toArray) := by
  induction items generalizing done pos offset with
  | nil => simp [centralsAfter, entriesOf]
  | cons item rest ih =>
    rw [directory, Bytes.spells_append, Array.length_toList, size_centralRecord] at h
    obtain ⟨hrecord, hrest⟩ := h
    rw [length_localParts_cons] at hoffset
    have hpart := @size_localPart codec item
    obtain ⟨hname, hdata⟩ := hfits item List.mem_cons_self
    have hentry := centralAt_eq_ok hrecord hpos hname (by omega) hdata (by omega)
    rw [decode_encode] at hentry
    have hend := hrecord.length_le hpos
    rw [Array.length_toList, size_centralRecord] at hend
    have hnew : (entryOf codec item offset).name ∉ done.toList.map (·.name) := fun hmem =>
      List.disjoint_of_nodup_append hnames hmem List.mem_cons_self
    have hnames' : ((done.push (entryOf codec item offset)).toList.map (·.name) ++
        rest.map (·.1)).Nodup := by
      simpa [entryOf] using hnames
    rw [List.length_cons, centralsAfter, hentry]
    change centralsAfter data (insertEntry done (entryOf codec item offset)) _ _ = _
    rw [insertEntry_of_not_mem hnew, ih _ hrest hend
      (fun item hitem => hfits item (List.mem_cons_of_mem _ hitem)) (by omega) hnames', entriesOf]
    simp

-- Looking a name up among the entries finds the item of the name, where its local part is.
theorem find?_entriesOf (name : String) (h : data.Spells offset (localParts codec items))
    (hoffset : offset ≤ data.size) :
    (entriesOf codec offset items).find? (·.name = name) = none ∧
        items.find? (·.1 = name) = none ∨
      ∃ item ∈ items, ∃ at_ ≤ data.size, data.Spells at_ (localPart codec item).toList ∧
        (entriesOf codec offset items).find? (·.name = name) = some (entryOf codec item at_) ∧
        items.find? (·.1 = name) = some item := by
  induction items generalizing offset with
  | nil => exact .inl ⟨rfl, rfl⟩
  | cons item rest ih =>
    have hsplit : localParts codec (item :: rest) =
        (localPart codec item).toList ++ localParts codec rest := List.flatMap_cons
    rw [hsplit, Bytes.spells_append, Array.length_toList] at h
    obtain ⟨hpart, hrest⟩ := h
    have hend := hpart.length_le hoffset
    rw [Array.length_toList] at hend
    by_cases hname : item.1 = name
    · refine .inr ⟨item, List.mem_cons_self, offset, hoffset, hpart, ?_, ?_⟩
      · rw [entriesOf, List.find?_cons_of_pos]
        exact decide_eq_true hname
      · rw [List.find?_cons_of_pos]
        exact decide_eq_true hname
    · have hskip : (entriesOf codec offset (item :: rest)).find? (·.name = name) =
          (entriesOf codec (offset + (localPart codec item).size) rest).find? (·.name = name) := by
        rw [entriesOf, List.find?_cons_of_neg]
        exact fun h => hname (of_decide_eq_true h)
      have hskip' : (item :: rest).find? (·.1 = name) = rest.find? (·.1 = name) := by
        rw [List.find?_cons_of_neg]
        exact fun h => hname (of_decide_eq_true h)
      rw [hskip, hskip']
      obtain hnone | ⟨other, hmem, hother⟩ := ih hrest hend
      · exact .inl hnone
      · exact .inr ⟨other, List.mem_cons_of_mem _ hmem, hother⟩

end Directory

-- The scan for the end record stops at once where it starts at one.
theorem findEndBefore_of_mark {data : Bytes} {pos : Nat} (h : data.le4? pos = some endMark) :
    findEndBefore data pos = some pos := by
  cases pos with
  | zero => rw [findEndBefore, if_pos h]
  | succ pos => rw [findEndBefore, if_pos h]

-- The last bytes of an archive are its end record.
theorem findEnd_eq_ok {front : Bytes} {count centralSize offset : Nat} :
    findEnd (front ++ endRecord count centralSize offset) = .ok front.size := by
  have hsize : (front ++ endRecord count centralSize offset).size = front.size + endSize := by
    rw [Array.size_append, size_endRecord]
  obtain ⟨hmark, -, -⟩ :=
    spells_endRecord (Bytes.spells_append_self front (endRecord count centralSize offset))
  rw [findEnd, if_neg (by omega), hsize, Nat.add_sub_cancel,
    findEndBefore_of_mark (Bytes.le4?_of_spells hmark)]

-- The parts of an archive, as they are written.
theorem exists_parts (codec : Codec) {e : Entries} (hcount : e.size ≤ maxEntries) :
    ∃ locals central : Bytes, locals.toList = localParts codec e.items.toList ∧
      central.toList = directory codec 0 e.items.toList ∧
      writeWith? codec e =
        some (locals ++ central ++ endRecord e.size central.size locals.size) := by
  obtain ⟨hlocals, hcentral⟩ := @foldl_putEntry codec e.items.toList (#[], #[])
  rw [Array.foldl_toList] at hlocals hcentral
  refine ⟨_, _, hlocals, hcentral, ?_⟩
  rw [writeWith?, if_pos hcount]

-- The directory that the end record points to lists all items.
theorem ofBytes_eq_ok {codec : Codec} {items : List (String × Bytes)} {locals central : Bytes}
    (hlocals : locals.toList = localParts codec items)
    (hcentral : central.toList = directory codec 0 items) (hcount : items.length ≤ maxEntries)
    (hsize : locals.size < 2 ^ 32) (hfits : ∀ item ∈ items, Fits item)
    (hnames : (items.map (·.1)).Nodup) :
    ofBytes (locals ++ central ++ endRecord items.length central.size locals.size) =
      .ok ⟨locals ++ central ++ endRecord items.length central.size locals.size,
        (entriesOf codec 0 items).toArray⟩ := by
  have hdirectory : (locals ++ central ++ endRecord items.length central.size locals.size).Spells
      locals.size (directory codec 0 items) := by
    rw [← hcentral]
    exact (Bytes.spells_append_self locals central).append_right _
  obtain ⟨-, hcountAt, hstartAt⟩ := spells_endRecord
    (Bytes.spells_append_self (locals ++ central) (endRecord items.length central.size locals.size))
  have hlength : (localParts codec items).length = locals.size := by
    rw [← hlocals, Array.length_toList]
  have hentries := centralsAfter_eq_ok #[] hdirectory (by simp) hfits (by omega)
    (by simpa using hnames)
  unfold ofBytes
  rw [findEnd_eq_ok]
  dsimp only [bind, Except.bind]
  rw [le2_eq_ok hcountAt, le4_eq_ok hstartAt]
  dsimp only
  rw [toNat_toUInt16 hcount, toNat_toUInt32 hsize, hentries, Array.empty_append]
  rfl

-- Where no name stands twice, an item is found by its name.
theorem find?_of_nodup {items : List (String × Bytes)} (h : (items.map (·.1)).Nodup)
    {item : String × Bytes} (hitem : item ∈ items) :
    items.find? (·.1 = item.1) = some item := by
  cases hfind : items.find? (·.1 = item.1) with
  | none => exact absurd (decide_eq_true rfl) (List.find?_eq_none.mp hfind item hitem)
  | some other =>
    have hname : other.1 = item.1 := by simpa using List.find?_some hfind
    rw [List.inj_on_of_nodup_map h (List.mem_of_find?_eq_some hfind) hitem hname]

-- Reading a name gives the data of the item of the name.
theorem readWith_eq {codec : Codec} (hcodec : codec.Lossless) {data : Bytes}
    {items : List (String × Bytes)} (h : data.Spells 0 (localParts codec items))
    (hfits : ∀ item ∈ items, Fits item) (name : String) :
    readWith codec ⟨data, (entriesOf codec 0 items).toArray⟩ name =
      .ok ((items.find? (·.1 = name)).map (·.2)) := by
  unfold readWith
  dsimp only
  rw [List.find?_toArray]
  obtain ⟨hnone, hnone'⟩ | ⟨item, hitem, pos, hpos, hpart, hfind, hfind'⟩ :=
    find?_entriesOf name h (Nat.zero_le _)
  · rw [hnone, hnone']
    rfl
  · rw [hfind, hfind']
    dsimp only [Option.map_some]
    rw [extract_eq_ok hpart hpos (hfits item hitem).name rfl rfl rfl (hcodec item.2)]
    rfl

end Zip

-- A store that the format has room for, whatever the names and the data are. No name stands twice,
-- as in every store.
structure Entries.Packable (e : Entries) : Prop where
  nodup : e.names.toList.Nodup
  count : e.size ≤ Zip.maxEntries
  fits : ∀ item ∈ e.items, Zip.Fits item

namespace Zip

-- What is written is read back: the same names in the same order, each with the data it had, and no
-- other name.
theorem read_write {codec : Codec} (hcodec : codec.Lossless) {e : Entries} (he : e.Packable)
    (hsize : ∀ archive, writeWith? codec e = some archive → archive.size < 2 ^ 32) :
    ∃ archive z, writeWith? codec e = some archive ∧ ofBytes archive = .ok z ∧
      z.names = e.names ∧
      (∀ item ∈ e.items, z.readWith codec item.1 = .ok (some item.2)) ∧
      ∀ name, name ∉ e.names → z.readWith codec name = .ok none := by
  obtain ⟨locals, central, hlocals, hcentral, hwrite⟩ := exists_parts codec he.count
  have hnames : e.names.toList = e.items.toList.map (·.1) := Array.toList_map
  have hnodup : (e.items.toList.map (·.1)).Nodup := hnames ▸ he.nodup
  have hfits : ∀ item ∈ e.items.toList, Fits item := fun item hitem =>
    he.fits item (Array.mem_toList_iff.mp hitem)
  have hlength : e.items.toList.length = e.size := Array.length_toList
  have htotal := hsize _ hwrite
  rw [Array.size_append, Array.size_append] at htotal
  have hof := ofBytes_eq_ok hlocals hcentral (by rw [hlength]; exact he.count) (by omega) hfits
    hnodup
  rw [hlength] at hof
  have hspells : (locals ++ central ++ endRecord e.size central.size locals.size).Spells 0
      (localParts codec e.items.toList) := by
    rw [← hlocals, Array.append_assoc]
    exact ((Bytes.spells_append_self #[] locals).append_right _).congr fun _ _ _ => by
      rw [Array.empty_append]
  refine ⟨_, _, hwrite, hof, ?_, fun item hitem => ?_, fun name hname => ?_⟩
  · refine Array.toList_inj.mp ?_
    rw [hnames, names, Array.toList_map]
    exact map_name_entriesOf e.items.toList 0
  · rw [readWith_eq hcodec hspells hfits]
    rw [find?_of_nodup hnodup (Array.mem_toList_iff.mpr hitem)]
    rfl
  · rw [readWith_eq hcodec hspells hfits]
    have hnone : e.items.toList.find? (·.1 = name) = none := by
      rw [List.find?_eq_none]
      intro item hitem heq
      refine hname (Array.mem_toList_iff.mp ?_)
      rw [hnames, ← of_decide_eq_true heq]
      exact List.mem_map_of_mem hitem
    rw [hnone]
    rfl

-- Entries that look like the records of an archive.
def lookalikes : Entries :=
  ⟨#[("PK\u0005\u0006", Bytes.le4 endMark ++ Array.replicate 18 0),
    ("é", Bytes.le4 centralMark ++ Bytes.le4 localMark), ("", #[])]⟩

theorem read_write_lookalikes : Codec.deflate.Lossless ∧ lookalikes.Packable ∧
    ∃ archive z, write? lookalikes = some archive ∧ ofBytes archive = .ok z ∧
      z.names = #["PK\u0005\u0006", "é", ""] ∧
      z.read "PK\u0005\u0006" = .ok (some (Bytes.le4 endMark ++ Array.replicate 18 0)) ∧
      z.read "e" = .ok none := by
  have hpackable : lookalikes.Packable := ⟨by decide +kernel, by decide, by
    simp only [lookalikes, List.mem_toArray, List.forall_mem_cons]
    refine ⟨⟨?_, ?_⟩, ⟨?_, ?_⟩, ⟨?_, ?_⟩, by simp⟩ <;> decide +kernel⟩
  have hsize : ∀ archive, writeWith? .deflate lookalikes = some archive → archive.size < 2 ^ 32 := by
    have hwritten : ∀ n ∈ (writeWith? .deflate lookalikes).map (·.size), n < 2 ^ 32 := by
      decide +kernel
    intro archive harchive
    exact hwritten archive.size (by rw [harchive]; rfl)
  obtain ⟨archive, z, hwrite, hof, hnames, hdata, hother⟩ :=
    read_write Codec.lossless_deflate hpackable hsize
  have hmem : ("PK\u0005\u0006", Bytes.le4 endMark ++ Array.replicate 18 0) ∈ lookalikes.items := by
    simp [lookalikes]
  exact ⟨Codec.lossless_deflate, hpackable, archive, z, hwrite, hof,
    hnames.trans (by decide +kernel), hdata _ hmem, hother _ (by decide +kernel)⟩

end Zip

end PodCompiler.Archive
