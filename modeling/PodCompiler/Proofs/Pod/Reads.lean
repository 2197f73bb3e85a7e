import Mathlib
import PodCompiler.Pod.Cursor
import PodCompiler.Pod.Writer
import PodCompiler.Proofs.Bytes
import PodCompiler.Proofs.Text.ModifiedUtf8

namespace PodCompiler

namespace Bytes

variable {α : Type}

-- What is written to an empty run.
def written (put : Bytes → Bytes) : List UInt8 :=
  (put #[]).toList

-- Each item is written behind what is there, and in the same way everywhere.
def Appending (put : Bytes → α → Bytes) : Prop :=
  ∀ b x, (put b x).toList = b.toList ++ written (put · x)

@[simp] theorem toList_put1 (b : Bytes) (v : UInt8) : (b.put1 v).toList = b.toList ++ [v] := by
  simp [put1]

@[simp] theorem toList_put2 (b : Bytes) (v : UInt16) :
    (b.put2 v).toList = b.toList ++ (be2 v).toList := by
  simp [put2]

@[simp] theorem toList_put4 (b : Bytes) (v : UInt32) :
    (b.put4 v).toList = b.toList ++ (be4 v).toList := by
  simp [put4]

@[simp] theorem toList_put8 (b : Bytes) (v : UInt64) :
    (b.put8 v).toList = b.toList ++ (be8 v).toList := by
  simp [put8]

@[simp] theorem written_put2 (v : UInt16) : written (·.put2 v) = (be2 v).toList := by
  simp [written]

@[simp] theorem written_put8 (v : UInt64) : written (·.put8 v) = (be8 v).toList := by
  simp [written]

theorem written_putBuf (run : Bytes) :
    written (·.putBuf run) = (be2 run.size.toUInt16).toList ++ run.toList := by
  simp [written, putBuf]

@[simp] theorem toList_putBuf (b run : Bytes) :
    (b.putBuf run).toList = b.toList ++ written (·.putBuf run) := by
  rw [written_putBuf]
  simp [putBuf]

@[simp] theorem toList_putUtf (b : Bytes) (s : String) :
    (b.putUtf s).toList = b.toList ++ written (·.putUtf s) := by
  simp [putUtf]

theorem appending_put2 : Appending put2 := by
  intro b v
  simp

theorem appending_put8 : Appending put8 := by
  intro b v
  simp

theorem appending_putUtf : Appending putUtf :=
  toList_putUtf

theorem toList_foldl {put : Bytes → α → Bytes} (hput : Appending put) (items : List α) (b : Bytes) :
    (items.foldl put b).toList = b.toList ++ items.flatMap fun x => written (put · x) := by
  induction items generalizing b with
  | nil => simp
  | cons x items ih => rw [List.foldl_cons, ih, hput, List.flatMap_cons, List.append_assoc]

theorem written_putTable {put : Bytes → α → Bytes} (hput : Appending put) (items : List α) :
    written (·.putTable items put) =
      (be2 items.length.toUInt16).toList ++ items.flatMap fun x => written (put · x) := by
  unfold written putTable
  rw [toList_foldl hput]
  simp [written]

theorem toList_putTable {put : Bytes → α → Bytes} (hput : Appending put) (b : Bytes)
    (items : List α) :
    (b.putTable items put).toList = b.toList ++ written (·.putTable items put) := by
  rw [written_putTable hput]
  unfold putTable
  rw [toList_foldl hput]
  simp

end Bytes

namespace Pod

open Bytes

-- The bytes from the cursor on are the given ones.
def Cursor.Faces (c : Cursor) (bs : List UInt8) : Prop :=
  c.bytes.Spells c.pos bs

-- The cursor behind so many bytes more.
def Cursor.after (c : Cursor) (n : Nat) : Cursor :=
  { c with pos := c.pos + n }

-- Wherever the bytes stand, the step takes them and gives the value.
def Reads {ε α : Type} (r : EStateM ε Cursor α) (bs : List UInt8) (a : α) : Prop :=
  ∀ c : Cursor, c.Faces bs → r c = .ok a (c.after bs.length)

theorem Cursor.faces_append {c : Cursor} {bs bs' : List UInt8} :
    c.Faces (bs ++ bs') ↔ c.Faces bs ∧ (c.after bs.length).Faces bs' :=
  spells_append

theorem Cursor.Faces.le_remaining {c : Cursor} {bs : List UInt8} (h : c.Faces bs) :
    bs.length ≤ c.remaining := by
  cases hbs : bs.length with
  | zero => omega
  | succ n =>
    have hlast := h n (by omega)
    rw [List.getElem?_eq_getElem (by omega)] at hlast
    obtain ⟨hlt, -⟩ := Array.getElem?_eq_some_iff.mp hlast
    unfold Cursor.remaining
    omega

section Steps

variable {ε α β : Type} {m : EStateM ε Cursor α} {k : α → EStateM ε Cursor β}
  {bs bs' : List UInt8} {a : α} {b : β}

theorem reads_pure (a : α) : Reads (pure a : EStateM ε Cursor α) [] a :=
  fun _ _ => rfl

theorem Reads.bind (hm : Reads m bs a) (hk : Reads (k a) bs' b) : Reads (m >>= k) (bs ++ bs') b := by
  intro c hc
  obtain ⟨hbs, hbs'⟩ := Cursor.faces_append.mp hc
  change EStateM.bind m k c = _
  rw [EStateM.bind, hm c hbs]
  dsimp only
  rw [hk _ hbs', List.length_append]
  simp only [Cursor.after, Nat.add_assoc]

-- A step that takes no bytes, before or after the others.
theorem Reads.bind_nil (hm : Reads m [] a) (hk : Reads (k a) bs b) : Reads (m >>= k) bs b :=
  hm.bind hk

theorem Reads.nil_bind (hm : Reads m bs a) (hk : Reads (k a) [] b) : Reads (m >>= k) bs b := by
  have h := hm.bind hk
  rwa [List.append_nil] at h

theorem Reads.map (hm : Reads m bs a) (f : α → β) : Reads (f <$> m) bs (f a) := by
  rw [map_eq_pure_bind]
  exact hm.nil_bind (reads_pure _)

-- A step that is repeated reads what was written for each item in turn.
theorem reads_repeat {t : Array α → Nat → EStateM ε Cursor (Array α)}
    (hzero : ∀ done, t done 0 = pure done)
    (hsucc : ∀ done n, t done (n + 1) = m >>= fun a => t (done.push a) n)
    {bytes : β → List UInt8} {items : List β} {values : List α}
    (hm : List.Forall₂ (fun x a => Reads m (bytes x) a) items values) (done : Array α) :
    Reads (t done items.length) (items.flatMap bytes) (done ++ values.toArray) := by
  induction hm generalizing done with
  | nil =>
    rw [List.length_nil, hzero]
    simpa using reads_pure done
  | @cons x a items values hx _ ih =>
    rw [List.length_cons, hsucc, List.flatMap_cons]
    refine hx.bind ?_
    simpa using ih (done.push a)

-- The entry is read if it holds just those bytes.
theorem Reads.run_start (hm : Reads m bs a) (what : String) :
    m.run (Cursor.start bs.toArray what) = .ok a ⟨bs.toArray, bs.length, what⟩ := by
  have h := hm (Cursor.start bs.toArray what) (by
    intro i hi
    simp [Cursor.start])
  simpa [Cursor.after, Cursor.start, EStateM.run] using h

end Steps

namespace Read

variable {α β : Type}

theorem reads_u1 (v : UInt8) : Reads u1 [v] v := by
  intro c hc
  have hv : c.bytes[c.pos]? = some v := by simpa using hc 0 (by simp)
  simp only [u1, hv]
  rfl

theorem reads_u2 (v : UInt16) : Reads u2 (be2 v).toList v := by
  intro c hc
  simp only [u2, be2?_of_spells hc]
  rfl

theorem reads_u4 (v : UInt32) : Reads u4 (be4 v).toList v := by
  intro c hc
  simp only [u4, be4?_of_spells hc]
  rfl

theorem reads_u8 (v : UInt64) : Reads u8 (be8 v).toList v := by
  intro c hc
  simp only [u8, be8?_of_spells hc]
  rfl

theorem reads_i8 (v : Int64) : Reads i8 (be8 v.toUInt64).toList v :=
  (reads_u8 v.toUInt64).map UInt64.toInt64

theorem reads_take (run : Bytes) : Reads (take run.size) run.toList run := by
  intro c hc
  have hroom := hc.le_remaining
  rw [Array.length_toList] at hroom
  have hrun : c.bytes.extract c.pos (c.pos + run.size) = run := by
    unfold Cursor.remaining at hroom
    apply Array.ext
    · simp only [Array.size_extract]
      omega
    · intro i _ hi
      have hbyte := hc i (by simpa using hi)
      rw [Array.getElem_extract]
      rw [Array.getElem?_toList, Array.getElem?_eq_getElem hi] at hbyte
      exact (Array.getElem?_eq_some_iff.mp hbyte).2
  rw [take, if_neg (by omega), hrun, Array.length_toList]
  rfl

theorem reads_buf {run : Bytes} (h : run.size ≤ 0xFFFF) : Reads buf (written (·.putBuf run)) run := by
  rw [written_putBuf]
  refine (reads_u2 run.size.toUInt16).bind ?_
  rw [UInt16.toNat_ofNat', Nat.mod_eq_of_lt (by omega)]
  exact reads_take run

theorem reads_utf {s : String} (h : (Text.ModifiedUtf8.encode s).size ≤ 0xFFFF) :
    Reads utf (written (·.putUtf s)) s := by
  refine (reads_buf h).nil_bind ?_
  rw [Text.ModifiedUtf8.decode_encode]
  exact reads_pure s

theorem reads_times {r : Read α} {f : β → List UInt8} {l : List β} {values : List α}
    (hr : List.Forall₂ (fun x a => Reads r (f x) a) l values) :
    Reads (times l.length r) (l.flatMap f) values.toArray := by
  have h := reads_repeat (t := timesAfter r) (fun _ => rfl) (fun _ _ => rfl) hr #[]
  rwa [Array.empty_append] at h

-- A table is read if its items are and if their number fits its field.
theorem reads_table_of_forall₂ {r : Read α} {put : Bytes → β → Bytes} {l : List β}
    {values : List α} (hput : Appending put) (hcount : l.length ≤ 0xFFFF)
    (hr : List.Forall₂ (fun x a => Reads r (written (put · x)) a) l values) :
    Reads (table r) (written (·.putTable l put)) values.toArray := by
  rw [written_putTable hput]
  refine (reads_u2 l.length.toUInt16).bind ?_
  rw [UInt16.toNat_ofNat', Nat.mod_eq_of_lt (by omega)]
  exact reads_times hr

theorem reads_table {r : Read α} {put : Bytes → β → Bytes} {g : β → α} {l : List β}
    (hput : Appending put) (hcount : l.length ≤ 0xFFFF)
    (hr : ∀ x ∈ l, Reads r (written (put · x)) (g x)) :
    Reads (table r) (written (·.putTable l put)) (l.map g).toArray :=
  reads_table_of_forall₂ hput hcount
    (List.forall₂_map_right_iff.mpr (List.forall₂_same.mpr hr))

theorem reads_ofExcept {x : Except FormatError α} {a : α} (h : x = .ok a) :
    Reads (ofExcept x) [] a := by
  rw [h]
  exact reads_pure a

end Read

end Pod

end PodCompiler
