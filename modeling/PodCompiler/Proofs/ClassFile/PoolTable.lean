import PodCompiler.ClassFile.Parsed
import PodCompiler.Proofs.ClassFile.Draft
import PodCompiler.Proofs.Pod.Reads

namespace PodCompiler.ClassFile

open Pod (Cursor Read Reads)

namespace ParseM

variable {α β : Type}

theorem reads_ofRead {r : Read α} {bs : List UInt8} {a : α} (h : Reads r bs a) :
    Reads (ofRead r) bs a := by
  intro c hc
  simp only [ofRead, h c hc]

theorem reads_ofExcept {x : Except ClassError α} {a : α} (h : x = .ok a) :
    Reads (ofExcept x) [] a := by
  rw [h]
  exact Pod.reads_pure a

theorem reads_u2 (v : UInt16) : Reads (ofRead Read.u2) (Bytes.be2 v).toList v :=
  reads_ofRead (Read.reads_u2 v)

theorem reads_u4 (v : UInt32) : Reads (ofRead Read.u4) (Bytes.be4 v).toList v :=
  reads_ofRead (Read.reads_u4 v)

-- A table is read if its items are and if their number fits its field.
theorem reads_table {r : ParseM α} {put : Bytes → β → Bytes} {g : β → α} {l : List β}
    (hput : Bytes.Appending put) (hcount : l.length ≤ 0xFFFF)
    (hr : ∀ x ∈ l, Reads r (Bytes.written (put · x)) (g x)) :
    Reads (table r) (Bytes.written (·.putTable l put)) (l.map g).toArray := by
  rw [Bytes.written_putTable hput]
  refine (reads_u2 l.length.toUInt16).bind ?_
  rw [UInt16.toNat_ofNat', Nat.mod_eq_of_lt (by omega)]
  have h := Pod.reads_repeat (t := timesAfter r) (fun _ => rfl) (fun _ _ => rfl)
    (List.forall₂_map_right_iff.mpr (List.forall₂_same.mpr hr)) #[]
  rwa [Array.empty_append] at h

end ParseM

namespace Constant

-- A text whose encoding fits the field of its length.
def Short (c : Constant) : Prop :=
  ∀ s, c = .utf8 s → (Text.ModifiedUtf8.encode s).size ≤ 0xFFFF

theorem width_pos (c : Constant) : 0 < c.width := by
  unfold width
  split <;> decide

theorem appending_put : Bytes.Appending put := by
  intro b c
  unfold Bytes.written
  cases c <;> simp [put]

end Constant

theorem Parsed.reads_bytes (run : Bytes) : Reads (bytes run.size) run.toList run := by
  intro c hc
  have hroom := hc.le_remaining
  rw [Array.length_toList] at hroom
  rw [bytes, if_pos hroom]
  exact Read.reads_take run c hc

theorem Parsed.reads_text (s : String) :
    Reads (text (Text.ModifiedUtf8.encode s).size) (Text.ModifiedUtf8.encode s).toList s := by
  refine (ParseM.reads_ofRead (reads_bytes _)).nil_bind ?_
  rw [Text.ModifiedUtf8.decode_encode]
  exact Pod.reads_pure s

-- A constant is read back from its tag and its parts.
theorem Parsed.reads_constant {c : Constant} (h : c.Short) :
    Reads constant (Bytes.written (Constant.put · c)) c := by
  have hput : Bytes.written (Constant.put · c) = [c.tag] ++ (Constant.put #[] c).toList.tail := by
    unfold Bytes.written
    cases c <;> simp [Constant.put]
  rw [hput]
  refine (ParseM.reads_ofRead (Read.reads_u1 c.tag)).bind ?_
  cases c with
  | utf8 s =>
    have hbytes : (Constant.put #[] (.utf8 s)).toList.tail =
        (Bytes.be2 (Text.ModifiedUtf8.encode s).size.toUInt16).toList ++
          (Text.ModifiedUtf8.encode s).toList := by
      simp [Constant.put, Bytes.putUtf, Bytes.written_putBuf]
    have hsize : (Text.ModifiedUtf8.encode s).size.toUInt16.toNat =
        (Text.ModifiedUtf8.encode s).size := by
      rw [UInt16.toNat_ofNat', Nat.mod_eq_of_lt (by have := h s rfl; omega)]
    rw [hbytes]
    refine (ParseM.reads_u2 _).bind ?_
    rw [hsize]
    exact (reads_text s).nil_bind (Pod.reads_pure _)
  | integer v => exact (ParseM.reads_u4 v.toUInt32).nil_bind (Pod.reads_pure _)
  | float bits => exact (ParseM.reads_u4 bits).nil_bind (Pod.reads_pure _)
  | long v => exact (ParseM.reads_ofRead (Read.reads_i8 v)).nil_bind (Pod.reads_pure _)
  | double bits => exact (ParseM.reads_ofRead (Read.reads_u8 bits)).nil_bind (Pod.reads_pure _)
  | «class» n | string n => exact (ParseM.reads_u2 n).nil_bind (Pod.reads_pure _)
  | fieldref m n | methodref m n | interfaceMethodref m n | nameAndType m n =>
    exact (ParseM.reads_u2 m).bind ((ParseM.reads_u2 n).nil_bind (Pod.reads_pure _))

namespace ConstantTable

-- A constant behind those of a table, with an empty place behind a wide one.
def place (t : ConstantTable) (c : Constant) : ConstantTable :=
  if c.isWide then (t.push (some c)).push none else t.push (some c)

@[simp] theorem size_place (t : ConstantTable) (c : Constant) :
    (t.place c).size = t.size + c.width := by
  unfold place Constant.width
  split <;> simp

theorem getElem?_place_of_lt {t : ConstantTable} {c : Constant} {i : Nat} (h : i < t.size) :
    (t.place c)[i]? = t[i]? := by
  unfold place
  split
  · rw [Array.getElem?_push_lt (by simp; omega), Array.getElem_push_lt h,
      Array.getElem?_eq_getElem h]
  · rw [Array.getElem?_push_lt h, Array.getElem?_eq_getElem h]

theorem getElem?_place_size (t : ConstantTable) (c : Constant) :
    (t.place c)[t.size]? = some (some c) := by
  unfold place
  split
  · rw [Array.getElem?_push_lt (by simp), Array.getElem_push_eq]
  · exact Array.getElem?_push_size

-- There is no other constant in the places that are new.
theorem eq_of_getElem?_place {t : ConstantTable} {c d : Constant} {i : Nat} (hi : t.size ≤ i)
    (h : (t.place c)[i]? = some (some d)) : i = t.size ∧ d = c := by
  unfold place at h
  split at h
  all_goals
    simp only [Array.getElem?_push, Array.size_push] at h
    grind

theorem size_le_foldl_place (cs : List Constant) (t : ConstantTable) :
    t.size ≤ (cs.foldl place t).size := by
  induction cs generalizing t with
  | nil => exact Nat.le_refl _
  | cons c cs ih =>
    have hrest := ih (t.place c)
    rw [size_place] at hrest
    rw [List.foldl_cons]
    omega

end ConstantTable

-- Constants are read up to the count, each behind the places of those before it.
theorem Parsed.reads_constants (cs : List Constant) (hshort : ∀ c ∈ cs, c.Short)
    (t : ConstantTable) :
    Reads (constants (cs.foldl ConstantTable.place t).size t)
      (cs.flatMap fun c => Bytes.written (Constant.put · c)) (cs.foldl ConstantTable.place t) := by
  induction cs generalizing t with
  | nil =>
    rw [constants]
    simpa using Pod.reads_pure t
  | cons c cs ih =>
    have hroom := ConstantTable.size_le_foldl_place cs (t.place c)
    rw [ConstantTable.size_place] at hroom
    have hwidth := c.width_pos
    rw [constants, List.foldl_cons, if_pos (by omega), List.flatMap_cons]
    refine (reads_constant (hshort c List.mem_cons_self)).bind ?_
    -- A wide constant has its second place before the count.
    have hplace : (if c.isWide && t.size + 1 < (cs.foldl ConstantTable.place (t.place c)).size then
        (t.push (some c)).push none else t.push (some c)) = t.place c := by
      unfold Constant.width at hroom
      unfold ConstantTable.place at hroom ⊢
      cases hwide : c.isWide with
      | true =>
        simp only [hwide, if_true] at hroom
        simp only [Bool.true_and, decide_eq_true_eq, if_true]
        rw [if_pos (by omega)]
      | false => simp
    rw [hplace]
    exact ih (fun d hd => hshort d (List.mem_cons_of_mem _ hd)) (t.place c)

namespace Pool

variable {p p' : Pool}

-- The constants by index.
def table (p : Pool) : ConstantTable :=
  p.entries.foldl ConstantTable.place #[none]

-- Each constant stands in the table at its index, and nowhere else; the next index is the first
-- behind the table.
structure Filled (p : Pool) : Prop where
  built : p.Built
  size : p.table.size = p.next
  index : ∀ (c : Constant) (i : UInt16), p.index[c]? = some i ↔ p.table[i.toNat]? = some (some c)

theorem filled_empty : Filled {} where
  built := built_empty
  size := rfl
  index c i := by
    simp only [table, Array.foldl_empty, Std.HashMap.getElem?_empty, reduceCtorEq, false_iff]
    cases hi : i.toNat <;> simp

-- The table holds the constant of each index.
theorem Filled.join_getElem? (h : p.Filled) (i : UInt16) :
    p.table[i.toNat]?.join = p.get? i := by
  ext c
  constructor
  · intro hc
    exact get?_eq_some h.built ((h.index c i).mpr (Option.join_eq_some_iff.mp hc))
  · intro hc
    have hfound := Array.find?_some hc
    rw [(h.index c i).mp (by simpa using hfound)]
    rfl

theorem Filled.get_table (h : p.Filled) {i : UInt16} {c : Constant} (hc : p.get? i = some c) :
    p.table.get i = .ok c := by
  have hfound := Array.find?_some hc
  rw [ConstantTable.get, (h.index c i).mp (by simpa using hfound)]

theorem Filled.utf8_table (h : p.Filled) {i : UInt16} {s : String}
    (hs : Constants.text? p.get? i = some s) : p.table.utf8 i = .ok s := by
  unfold Constants.text? at hs
  split at hs
  · rename_i t hi
    cases hs
    rw [ConstantTable.utf8, h.get_table hi]
    rfl
  · cases hs

theorem Filled.className_table (h : p.Filled) {i : UInt16} {s : String}
    (hs : Constants.className? p.get? i = some s) : p.table.className i = .ok s := by
  unfold Constants.className? at hs
  split at hs
  · rename_i n hi
    rw [ConstantTable.className, h.get_table hi]
    exact h.utf8_table hs
  · cases hs

theorem Filled.add {c : Constant} {i : UInt16} (h : p.Filled) (hadd : add c p = .ok i p') :
    p'.Filled := by
  have hadds := add_eq_ok h.built hadd
  unfold Pool.add at hadd
  split at hadd
  · cases hadd
    exact h
  · rename_i hnew
    split at hadd
    · rename_i hroom
      cases hadd
      have hwidth := c.width_pos
      have hnext : p.next.toUInt16.toNat = p.next := by
        unfold limit at hroom
        rw [UInt16.toNat_ofNat', Nat.mod_eq_of_lt (by omega)]
      have htable : (Pool.mk (p.entries.push c) (p.index.insert c p.next.toUInt16)
          (p.next + c.width)).table = p.table.place c := by
        simp [table]
      refine ⟨hadds.built, ?_, ?_⟩
      · rw [htable, ConstantTable.size_place, h.size]
      · intro d j
        rw [htable, Std.HashMap.getElem?_insert]
        have hindex := h.index d j
        by_cases hlt : j.toNat < p.table.size
        · rw [ConstantTable.getElem?_place_of_lt hlt, ← hindex]
          have hne : p.next.toUInt16 ≠ j := by
            intro heq
            rw [← heq, hnext, h.size] at hlt
            omega
          by_cases hcd : c = d
          · subst hcd
            simp [hnew, hne]
          · simp [hcd]
        · have hnone : ¬p.index[d]? = some j := by
            rw [hindex, Array.getElem?_eq_none (by omega)]
            simp
          constructor
          · intro hj
            by_cases hcd : c = d
            · subst hcd
              simp only [beq_self_eq_true, if_true, Option.some.injEq] at hj
              rw [← hj, hnext, ← h.size]
              exact ConstantTable.getElem?_place_size _ _
            · simp only [beq_iff_eq, hcd, if_false] at hj
              exact absurd hj hnone
          · intro hj
            obtain ⟨hat, rfl⟩ := ConstantTable.eq_of_getElem?_place (by omega) hj
            have hj' : p.next.toUInt16 = j := by
              apply UInt16.toNat_inj.mp
              rw [hnext, hat, h.size]
            simp [hj']
    · cases hadd

-- The written pool is read as its table.
theorem Filled.reads (h : p.Filled) (hshort : ∀ c ∈ p.entries, c.Short) :
    Reads (Parsed.constants p.count.toNat #[none])
      (p.entries.toList.flatMap fun c => Bytes.written (Constant.put · c)) p.table := by
  have hcount : p.count.toNat = p.table.size := by
    have hlimit := h.built.next_le
    unfold limit at hlimit
    rw [h.size, count, UInt16.toNat_ofNat', Nat.mod_eq_of_lt (by omega)]
  have hreads := Parsed.reads_constants p.entries.toList (by simpa using hshort) #[none]
  rw [Array.foldl_toList] at hreads
  rw [hcount]
  exact hreads

end Pool

end PodCompiler.ClassFile
