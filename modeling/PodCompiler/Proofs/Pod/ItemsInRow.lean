import Mathlib
import PodCompiler.Proofs.Pod.Reads

namespace PodCompiler.Pod

-- The kinds of items: words of one, two, four and eight bytes, texts and byte runs.
inductive ItemKind where
  | u1
  | u2
  | u4
  | u8
  | utf
  | buf

namespace ItemKind

-- What an item of a kind holds.
def Value : ItemKind → Type
  | u1 => UInt8
  | u2 => UInt16
  | u4 => UInt32
  | u8 => UInt64
  | utf => String
  | buf => Bytes

def read : (k : ItemKind) → Read k.Value
  | u1 => Read.u1
  | u2 => Read.u2
  | u4 => Read.u4
  | u8 => Read.u8
  | utf => Read.utf
  | buf => Read.buf

def put : (k : ItemKind) → Bytes → k.Value → Bytes
  | u1 => Bytes.put1
  | u2 => Bytes.put2
  | u4 => Bytes.put4
  | u8 => Bytes.put8
  | utf => Bytes.putUtf
  | buf => Bytes.putBuf

-- The number of bytes that a text or a byte run has behind its length.
def payload : (k : ItemKind) → k.Value → Nat
  | utf, s => (Text.ModifiedUtf8.encode s).size
  | buf, run => run.size
  | u1, _ | u2, _ | u4, _ | u8, _ => 0

end ItemKind

structure Item where
  kind : ItemKind
  value : kind.Value

-- A length has two bytes.
def Item.Fits (x : Item) : Prop :=
  x.kind.payload x.value ≤ 0xFFFF

def putItems (b : Bytes) (items : List Item) : Bytes :=
  items.foldl (fun b x => x.kind.put b x.value) b

def readItems : List ItemKind → Read (List Item)
  | [] => pure []
  | k :: ks => do
    let v ← k.read
    let items ← readItems ks
    return ⟨k, v⟩ :: items

-- The bytes of the length at a cursor and those that it counts, if there is a length.
def Cursor.runBound (c : Cursor) : Nat :=
  ((c.bytes.be2? c.pos).map fun n => 2 + n.toNat).getD 0

-- What can be asked of a cursor. A floating-point number is asked for by its eight bytes.
inductive Cursor.Move where
  | item (k : ItemKind)
  | i8
  | skip (n : Nat)
  | seek (pos : Nat)

namespace Cursor.Move

def Answer : Move → Type
  | item k => k.Value
  | i8 => Int64
  | skip _ | seek _ => Unit

def run : (r : Move) → Read r.Answer
  | item k => k.read
  | i8 => Read.i8
  | skip n => Read.skip n
  | seek pos => Read.seek pos

end Cursor.Move

namespace Cursor

-- Where the cursor is then, whether it could be answered or not.
def moved (c : Cursor) (r : Move) : Cursor :=
  match r.run c with
  | .ok _ c' | .error _ c' => c'

def movedAll (c : Cursor) (rs : List Move) : Cursor :=
  rs.foldl moved c

variable {c : Cursor} {bs : List UInt8}

-- The bytes from the cursor on.
def rest (c : Cursor) : List UInt8 :=
  c.bytes.toList.drop c.pos

theorem length_rest (c : Cursor) : c.rest.length = c.remaining := by
  simp [rest, remaining]

theorem rest_after (c : Cursor) (n : Nat) : (c.after n).rest = c.rest.drop n := by
  simp [rest, after]

theorem faces_iff : c.Faces bs ↔ bs <+: c.rest := by
  rw [List.prefix_iff_getElem?]
  refine forall₂_congr fun i hi => ?_
  rw [rest, List.getElem?_drop, List.getElem?_eq_getElem hi, Array.getElem?_toList]

end Cursor

namespace Read

variable {α β : Type} {c : Cursor} {n : Nat}

-- A read of so many bytes. If there are fewer it says so, and does not move.
structure Takes (r : Read α) (n : Nat) : Prop where
  ok : ∀ c : Cursor, n ≤ c.remaining → ∃ a, r c = .ok a (c.after n)
  short : ∀ c : Cursor, c.remaining < n → r c = .error (.truncated c.what c.pos) c

theorem takes_take (n : Nat) : Takes (take n) n where
  ok c hroom := ⟨_, by rw [take, if_neg (by omega)]; rfl⟩
  short c hroom := by rw [take, if_pos hroom]

theorem takes_u1 : Takes u1 1 where
  ok c hroom := by
    unfold Cursor.remaining at hroom
    rw [u1, Array.getElem?_eq_getElem (by omega)]
    exact ⟨_, rfl⟩
  short c hroom := by
    unfold Cursor.remaining at hroom
    rw [u1, Array.getElem?_eq_none (by omega)]

theorem takes_u2 : Takes u2 2 where
  ok c hroom := by
    unfold Cursor.remaining at hroom
    rw [u2, Bytes.be2?, dif_pos (by omega)]
    exact ⟨_, rfl⟩
  short c hroom := by
    unfold Cursor.remaining at hroom
    rw [u2, Bytes.be2?, dif_neg (by omega)]

theorem takes_u4 : Takes u4 4 where
  ok c hroom := by
    unfold Cursor.remaining at hroom
    rw [u4, Bytes.be4?, dif_pos (by omega)]
    exact ⟨_, rfl⟩
  short c hroom := by
    unfold Cursor.remaining at hroom
    rw [u4, Bytes.be4?, dif_neg (by omega)]

theorem takes_u8 : Takes u8 8 where
  ok c hroom := by
    unfold Cursor.remaining at hroom
    rw [u8, Bytes.be8?, Bytes.be4?, dif_pos (by omega), Bytes.be4?, dif_pos (by omega)]
    exact ⟨_, rfl⟩
  short c hroom := by
    unfold Cursor.remaining at hroom
    have hlow : c.bytes.be4? (c.pos + 4) = none := by rw [Bytes.be4?, dif_neg (by omega)]
    rw [u8, Bytes.be8?, hlow]
    cases c.bytes.be4? c.pos <;> rfl

theorem Takes.map {r : Read α} (h : Takes r n) (f : α → β) : Takes (f <$> r) n where
  ok c hroom := by
    obtain ⟨a, ha⟩ := h.ok c hroom
    exact ⟨f a, by change EStateM.map f r c = _; rw [EStateM.map, ha]⟩
  short c hroom := by
    change EStateM.map f r c = _
    rw [EStateM.map, h.short c hroom]

theorem takes_i8 : Takes i8 8 :=
  takes_u8.map _

theorem takes_skip (n : Nat) : Takes (skip n) n :=
  (takes_take n).map fun _ => ()

-- A byte run is behind its length. Where that counts more bytes than there are, the cursor is left
-- behind it.
theorem buf_eq (c : Cursor) : buf c =
    match c.bytes.be2? c.pos with
    | some n =>
      if (c.after 2).remaining < n.toNat then
        .error (.truncated c.what (c.pos + 2)) (c.after 2)
      else .ok (c.bytes.extract (c.pos + 2) (c.pos + 2 + n.toNat)) ((c.after 2).after n.toNat)
    | none => .error (.truncated c.what c.pos) c := by
  change EStateM.bind u2 _ c = _
  unfold EStateM.bind u2
  cases c.bytes.be2? c.pos with
  | none => rfl
  | some n =>
    dsimp only
    rw [take]
    rfl

-- A text is a byte run that is decoded; where that fails, the run was read.
theorem utf_eq (c : Cursor) : utf c =
    match buf c with
    | .ok run c' =>
      match Text.ModifiedUtf8.decode run with
      | .ok s => .ok s c'
      | .error fault => .error (.text fault) c'
    | .error e c' => .error e c' := by
  change EStateM.bind buf _ c = _
  unfold EStateM.bind
  cases buf c with
  | error e c' => rfl
  | ok run c' =>
    dsimp only
    cases Text.ModifiedUtf8.decode run <;> rfl

-- Where a read leaves a cursor that is within the bytes: still within them, and if it fails, no
-- further than behind the bytes that a length at the cursor counts.
structure Within (r : Read α) : Prop where
  ok : ∀ (c : Cursor) a c', c.pos ≤ c.bytes.size → r c = .ok a c' →
    c'.bytes = c.bytes ∧ c'.pos ≤ c.bytes.size
  error : ∀ (c : Cursor) e c', c.pos ≤ c.bytes.size → r c = .error e c' →
    c'.bytes = c.bytes ∧ c'.pos ≤ c.bytes.size ∧ c.pos ≤ c'.pos ∧ c'.pos ≤ c.pos + c.runBound

theorem Takes.error {r : Read α} (h : Takes r n) {e : FormatError} {c' : Cursor}
    (hrun : r c = .error e c') : c' = c := by
  by_cases hroom : n ≤ c.remaining
  · obtain ⟨b, hb⟩ := h.ok c hroom
    rw [hb] at hrun
    cases hrun
  · rw [h.short c (by omega)] at hrun
    cases hrun
    rfl

theorem Takes.within {r : Read α} (h : Takes r n) : Within r where
  ok c a c' hc hrun := by
    by_cases hroom : n ≤ c.remaining
    · obtain ⟨b, hb⟩ := h.ok c hroom
      rw [hb] at hrun
      cases hrun
      unfold Cursor.remaining at hroom
      refine ⟨rfl, ?_⟩
      simp only [Cursor.after]
      omega
    · rw [h.short c (by omega)] at hrun
      cases hrun
  error c e c' hc hrun := by
    obtain rfl := h.error hrun
    exact ⟨rfl, hc, Nat.le_refl _, Nat.le_add_right _ _⟩

theorem pos_add_two_le {n : UInt16} (h : c.bytes.be2? c.pos = some n) :
    c.pos + 2 ≤ c.bytes.size := by
  unfold Bytes.be2? at h
  split at h
  · assumption
  · cases h

theorem within_buf : Within buf where
  ok c a c' hc hrun := by
    rw [buf_eq] at hrun
    split at hrun
    · rename_i n hn
      have htwo := pos_add_two_le hn
      split at hrun
      · cases hrun
      · rename_i hroom
        cases hrun
        simp only [Cursor.remaining, Cursor.after] at hroom ⊢
        exact ⟨trivial, by omega⟩
    · cases hrun
  error c e c' hc hrun := by
    rw [buf_eq] at hrun
    unfold Cursor.runBound
    split at hrun
    · rename_i n hn
      have htwo := pos_add_two_le hn
      split at hrun
      · cases hrun
        simp only [hn, Cursor.after, Option.map_some, Option.getD_some]
        exact ⟨trivial, by omega, by omega, by omega⟩
      · cases hrun
    · cases hrun
      exact ⟨rfl, hc, Nat.le_refl _, Nat.le_add_right _ _⟩

theorem within_utf : Within utf where
  ok c a c' hc hrun := by
    rw [utf_eq] at hrun
    split at hrun
    · rename_i run c₁ hbuf
      split at hrun
      · cases hrun
        exact within_buf.ok c run c' hc hbuf
      · cases hrun
    · cases hrun
  error c e c' hc hrun := by
    rw [utf_eq] at hrun
    split at hrun
    · rename_i run c₁ hbuf
      split at hrun
      · cases hrun
      · cases hrun
        obtain ⟨hbytes, hsize⟩ := within_buf.ok c run c' hc hbuf
        rw [buf_eq] at hbuf
        unfold Cursor.runBound
        split at hbuf
        · rename_i n hn
          split at hbuf
          · cases hbuf
          · cases hbuf
            simp only [hn, Cursor.after, Option.map_some, Option.getD_some] at hsize ⊢
            exact ⟨trivial, hsize, by omega, by omega⟩
        · cases hbuf
    · rename_i e' c₁ hbuf
      cases hrun
      exact within_buf.error c e c' hc hbuf

end Read

namespace Cursor

-- All that is asked stays within the bytes, and only a text or a byte run moves when it fails.
theorem Move.within (r : Move) : Read.Within r.run ∧
    (r ≠ item .utf → r ≠ item .buf → ∀ c e c', r.run c = .error e c' → c' = c) := by
  have hword : ∀ {n}, Read.Takes r.run n → Read.Within r.run ∧
      (r ≠ item .utf → r ≠ item .buf → ∀ c e c', r.run c = .error e c' → c' = c) :=
    fun h => ⟨h.within, fun _ _ _ _ _ => h.error⟩
  cases r with
  | item k =>
    cases k with
    | u1 => exact hword Read.takes_u1
    | u2 => exact hword Read.takes_u2
    | u4 => exact hword Read.takes_u4
    | u8 => exact hword Read.takes_u8
    | utf => exact ⟨Read.within_utf, fun h => absurd rfl h⟩
    | buf => exact ⟨Read.within_buf, fun _ h => absurd rfl h⟩
  | i8 => exact hword Read.takes_i8
  | skip n => exact hword (Read.takes_skip n)
  | seek pos =>
    refine ⟨⟨?_, ?_⟩, ?_⟩
    · intro c a c' hc hrun
      cases hrun
      exact ⟨rfl, Nat.min_le_right _ _⟩
    · intro c e c' hc hrun
      cases hrun
    · intro _ _ c e c' hrun
      cases hrun

theorem moved_within {c : Cursor} (hc : c.pos ≤ c.bytes.size) (r : Move) :
    (c.moved r).bytes = c.bytes ∧ (c.moved r).pos ≤ c.bytes.size := by
  unfold moved
  split
  · rename_i a c' hrun
    exact r.within.1.ok c a c' hc hrun
  · rename_i e c' hrun
    obtain ⟨hbytes, hsize, -, -⟩ := r.within.1.error c e c' hc hrun
    exact ⟨hbytes, hsize⟩

theorem movedAll_within {c : Cursor} (hc : c.pos ≤ c.bytes.size) (rs : List Move) :
    (c.movedAll rs).bytes = c.bytes ∧ (c.movedAll rs).pos ≤ c.bytes.size := by
  induction rs generalizing c with
  | nil => exact ⟨rfl, hc⟩
  | cons r rs ih =>
    obtain ⟨hbytes, hsize⟩ := moved_within hc r
    have hrest := ih (c := c.moved r) (by rw [hbytes]; exact hsize)
    rwa [hbytes] at hrest

end Cursor

section Row

variable {ε α β : Type} {m : Read α} {k : α → Read β} {bs bs' : List UInt8} {a : α}

-- Where the given bytes end too early, the read ends with the error that bytes are missing.
def Truncates (m : Read α) (bs : List UInt8) : Prop :=
  ∀ c : Cursor, c.rest <+: bs → c.rest.length < bs.length →
    ∃ pos c', m c = .error (.truncated c.what pos) c'

theorem Read.Takes.truncates (h : Takes m bs.length) : Truncates m bs := by
  intro c _ hlt
  rw [Cursor.length_rest] at hlt
  exact ⟨c.pos, c, h.short c hlt⟩

theorem truncates_pure (a : α) : Truncates (pure a) [] := by
  intro c _ hlt
  simp at hlt

-- Of reads in a row, the bytes end within the first or within the others.
theorem Truncates.bind (hm : Truncates m bs) (hreads : Reads m bs a) (hk : Truncates (k a) bs') :
    Truncates (m >>= k) (bs ++ bs') := by
  intro c hprefix hlt
  change ∃ pos c', EStateM.bind m k c = _
  unfold EStateM.bind
  by_cases hfirst : c.rest.length < bs.length
  · have hbs : c.rest <+: bs :=
      List.prefix_of_prefix_length_le hprefix (List.prefix_append bs bs') hfirst.le
    obtain ⟨pos, c', hrun⟩ := hm c hbs hfirst
    exact ⟨pos, c', by rw [hrun]⟩
  · have hbs : bs <+: c.rest :=
      List.prefix_of_prefix_length_le (List.prefix_append bs bs') hprefix (Nat.le_of_not_lt hfirst)
    obtain ⟨tail, htail⟩ := hbs
    have hafter : (c.after bs.length).rest = tail := by rw [Cursor.rest_after, ← htail]; simp
    rw [← htail] at hprefix hlt
    rw [List.prefix_append_right_inj] at hprefix
    rw [List.length_append, List.length_append] at hlt
    obtain ⟨pos, c', hrun⟩ := hk (c.after bs.length) (by rwa [hafter]) (by rw [hafter]; omega)
    rw [hreads c (Cursor.faces_iff.mpr ⟨tail, htail⟩)]
    exact ⟨pos, c', hrun⟩

theorem truncates_buf {run : Bytes} (h : run.size ≤ 0xFFFF) :
    Truncates Read.buf (Bytes.written (·.putBuf run)) := by
  have hsize : run.size.toUInt16.toNat = run.size := by
    rw [UInt16.toNat_ofNat', Nat.mod_eq_of_lt (by omega)]
  rw [Bytes.written_putBuf]
  refine (Read.takes_u2.truncates : Truncates Read.u2 (Bytes.be2 _).toList).bind
    (Read.reads_u2 run.size.toUInt16) ?_
  rw [hsize]
  exact (Read.takes_take run.size).truncates

theorem truncates_utf {s : String} (h : (Text.ModifiedUtf8.encode s).size ≤ 0xFFFF) :
    Truncates Read.utf (Bytes.written (·.putUtf s)) := by
  have hbuf := truncates_buf h
  intro c hprefix hlt
  obtain ⟨pos, c', hrun⟩ := hbuf c hprefix hlt
  exact ⟨pos, c', by rw [Read.utf_eq, hrun]⟩

-- What an item is written as.
def Item.written (x : Item) : List UInt8 :=
  Bytes.written (x.kind.put · x.value)

theorem ItemKind.appending_put (k : ItemKind) : Bytes.Appending k.put := by
  cases k with
  | u1 => exact fun (b : Bytes) (v : UInt8) => by simp [put, Bytes.written]
  | u2 => exact Bytes.appending_put2
  | u4 => exact fun (b : Bytes) (v : UInt32) => by simp [put, Bytes.written]
  | u8 => exact Bytes.appending_put8
  | utf => exact Bytes.appending_putUtf
  | buf => exact Bytes.toList_putBuf

theorem toList_putItems (b : Bytes) (items : List Item) :
    (putItems b items).toList = b.toList ++ items.flatMap Item.written := by
  have hput : Bytes.Appending fun b (x : Item) => x.kind.put b x.value :=
    fun b x => x.kind.appending_put b x.value
  exact Bytes.toList_foldl hput items b

-- An item is read from what it is written as, and from nothing that ends before.
theorem Item.reads {x : Item} (h : x.Fits) :
    Reads x.kind.read x.written x.value ∧ Truncates x.kind.read x.written := by
  obtain ⟨k, v⟩ := x
  cases k with
  | u1 => exact ⟨Read.reads_u1 v, Read.takes_u1.truncates⟩
  | u2 => exact ⟨Read.reads_u2 v, Read.takes_u2.truncates⟩
  | u4 => exact ⟨Read.reads_u4 v, Read.takes_u4.truncates⟩
  | u8 => exact ⟨Read.reads_u8 v, Read.takes_u8.truncates⟩
  | utf => exact ⟨Read.reads_utf h, truncates_utf h⟩
  | buf => exact ⟨Read.reads_buf h, truncates_buf h⟩

theorem reads_items {items : List Item} (h : ∀ x ∈ items, x.Fits) :
    Reads (readItems (items.map Item.kind)) (items.flatMap Item.written) items ∧
      Truncates (readItems (items.map Item.kind)) (items.flatMap Item.written) := by
  induction items with
  | nil => exact ⟨reads_pure [], truncates_pure []⟩
  | cons x items ih =>
    obtain ⟨hx, hrest⟩ := List.forall_mem_cons.mp h
    obtain ⟨hreads, htruncates⟩ := x.reads hx
    obtain ⟨hreads', htruncates'⟩ := ih hrest
    have hcons : Reads (readItems (items.map Item.kind) >>= fun xs => pure (x :: xs))
        (items.flatMap Item.written) (x :: items) := hreads'.nil_bind (reads_pure _)
    refine ⟨hreads.bind hcons, htruncates.bind hreads ?_⟩
    have htail : Truncates (readItems (items.map Item.kind) >>= fun xs => pure (x :: xs))
        (items.flatMap Item.written ++ []) := htruncates'.bind hreads' (truncates_pure _)
    rwa [List.append_nil] at htail

end Row

-- Items in a row are read back from what they are written as, and the cursor is at its end then; if
-- any bytes are missing there, one of the reads says so. Whatever is asked of a cursor and whatever
-- fails, it stays within the bytes: a word or a skip that fails leaves it where it is, a text or a
-- byte run leaves it no further than behind its length and the bytes that this counts.
theorem items_read_within (what : String) :
    (∀ items : List Item, (∀ x ∈ items, x.Fits) →
      (readItems (items.map Item.kind)).run (Cursor.start (putItems #[] items) what) =
          .ok items ⟨putItems #[] items, (putItems #[] items).size, what⟩ ∧
        ∀ n < (putItems #[] items).size, ∃ pos c',
          (readItems (items.map Item.kind)).run
              (Cursor.start ((putItems #[] items).extract 0 n) what) =
            .error (.truncated what pos) c') ∧
    ∀ (bytes : Bytes) (before : List Cursor.Move) (c : Cursor),
      c = (Cursor.start bytes what).movedAll before →
      c.bytes = bytes ∧ c.pos ≤ bytes.size ∧
        ∀ (r : Cursor.Move) e c', r.run c = .error e c' →
          (r ≠ .item .utf → r ≠ .item .buf → c' = c) ∧
            c.pos ≤ c'.pos ∧ c'.pos ≤ c.pos + c.runBound := by
  constructor
  · intro items hfits
    obtain ⟨hreads, htruncates⟩ := reads_items hfits
    have hbytes : (putItems #[] items).toList = items.flatMap Item.written := by
      simpa using toList_putItems #[] items
    rw [← hbytes] at hreads htruncates
    refine ⟨by simpa using hreads.run_start what, ?_⟩
    intro n hn
    have hrest : (Cursor.start ((putItems #[] items).extract 0 n) what).rest =
        (putItems #[] items).toList.take n := by
      simp [Cursor.rest, Cursor.start]
    refine htruncates _ ?_ ?_
    · rw [hrest]
      exact List.take_prefix n _
    · rw [hrest, List.length_take, Array.length_toList]
      omega
  · rintro bytes before c rfl
    obtain ⟨hbytes, hpos⟩ := Cursor.movedAll_within (c := Cursor.start bytes what)
      (Nat.zero_le _) before
    refine ⟨hbytes, hpos, ?_⟩
    intro r e c' hrun
    obtain ⟨hwithin, hunmoved⟩ := r.within
    obtain ⟨-, -, hle, hbound⟩ := hwithin.error _ e c' (by rw [hbytes]; exact hpos) hrun
    exact ⟨fun hutf hbuf => hunmoved hutf hbuf _ e c' hrun, hle, hbound⟩

-- A byte, a text and a run of two bytes; without the last byte the run is cut off. A run that says
-- it has five bytes and has one fails behind its length.
def mixedItems : List Item :=
  [⟨.u1, (7 : UInt8)⟩, ⟨.utf, "é"⟩, ⟨.buf, #[1, 2]⟩]

theorem items_read_within_mixed :
    (∀ x ∈ mixedItems, x.Fits) ∧
      (readItems [.u1, .utf, .buf]).run (Cursor.start #[7, 0, 2, 0xC3, 0xA9, 0, 2, 1, 2] "test") =
        .ok mixedItems ⟨#[7, 0, 2, 0xC3, 0xA9, 0, 2, 1, 2], 9, "test"⟩ ∧
      (∃ pos c', (readItems [.u1, .utf, .buf]).run
        (Cursor.start #[7, 0, 2, 0xC3, 0xA9, 0, 2, 1] "test") = .error (.truncated "test" pos) c') ∧
      ∃ e c', (Cursor.Move.item .buf).run (Cursor.start #[0, 5, 1] "test") = .error e c' ∧
        c'.pos ≤ 7 := by
  have hfits : ∀ x ∈ mixedItems, x.Fits := by
    unfold mixedItems Item.Fits
    simp only [List.forall_mem_cons]
    decide +kernel
  have hput : putItems #[] mixedItems = #[7, 0, 2, 0xC3, 0xA9, 0, 2, 1, 2] := by decide +kernel
  obtain ⟨hitems, hcursor⟩ := items_read_within "test"
  obtain ⟨hread, hshort⟩ := hitems mixedItems hfits
  rw [hput] at hread hshort
  refine ⟨hfits, hread, hshort 8 (by decide), ?_⟩
  obtain ⟨-, -, hfail⟩ := hcursor #[0, 5, 1] [] _ rfl
  obtain ⟨-, -, hbound⟩ := hfail (.item .buf) (.truncated "test" 2) ⟨#[0, 5, 1], 2, "test"⟩ rfl
  exact ⟨_, _, rfl, hbound⟩

end PodCompiler.Pod
