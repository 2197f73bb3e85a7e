import PodCompiler.Proofs.ClassFile.Edits

namespace PodCompiler.ClassFile

namespace Constant

-- The indices that constants take together.
def widths (cs : List Constant) : Nat :=
  (cs.map width).sum

@[simp] theorem widths_nil : widths [] = 0 := rfl

@[simp] theorem widths_cons (c : Constant) (cs : List Constant) :
    widths (c :: cs) = c.width + widths cs := by
  simp [widths]

@[simp] theorem widths_append (cs ds : List Constant) :
    widths (cs ++ ds) = widths cs + widths ds := by
  simp [widths]

-- What a constant at an index refers to is there, is of the kind that it needs, and stands before it.
def Backed (k : Constants) (i : UInt16) : Constant → Prop
  | .class n | .string n => n < i ∧ ∃ s, k n = some (.utf8 s)
  | .nameAndType n d => (n < i ∧ ∃ s, k n = some (.utf8 s)) ∧ d < i ∧ ∃ s, k d = some (.utf8 s)
  | .fieldref c m | .methodref c m | .interfaceMethodref c m =>
    (c < i ∧ ∃ n, k c = some (.class n)) ∧ m < i ∧ ∃ n d, k m = some (.nameAndType n d)
  | .utf8 _ | .integer _ | .float _ | .long _ | .double _ => True

theorem Backed.extends {k k' : Constants} {i : UInt16} {c : Constant} (h : c.Backed k i)
    (hk : Constants.Extends k' k) : c.Backed k' i := by
  cases c with
  | «class» n | string n =>
    obtain ⟨hlt, s, hs⟩ := h
    exact ⟨hlt, s, hk _ _ hs⟩
  | nameAndType n d =>
    obtain ⟨⟨hn, s, hs⟩, hd, t, ht⟩ := h
    exact ⟨⟨hn, s, hk _ _ hs⟩, hd, t, hk _ _ ht⟩
  | fieldref c m | methodref c m | interfaceMethodref c m =>
    obtain ⟨⟨hc, s, hs⟩, hm, n, d, hnd⟩ := h
    exact ⟨⟨hc, s, hk _ _ hs⟩, hm, n, d, hk _ _ hnd⟩
  | utf8 _ | integer _ | float _ | long _ | double _ => trivial

end Constant

-- The constant of an insertion stands under an index, with its parts.
def PoolEdit.Stands (k : Constants) (i : UInt16) : PoolEdit → Prop
  | .add c => k i = some c
  | .utf8 s => k.text? i = some s
  | .class name => k.className? i = some name
  | .string s => k.string? i = some s
  | .nameAndType name desc => k.nameAndType? i = some (name, desc)
  | .field sig => ∃ m c n, Member.ofField sig = .ok m ∧ k i = some (.fieldref c n) ∧
      k.member? c n = some m
  | .method sig => ∃ m c n, Member.ofMethod sig = .ok m ∧ k i = some (.methodref c n) ∧
      k.member? c n = some m
  | .interfaceMethod sig => ∃ m c n, Member.ofMethod sig = .ok m ∧
      k i = some (.interfaceMethodref c n) ∧ k.member? c n = some m

theorem PoolEdit.Stands.extends {k k' : Constants} {i : UInt16} {e : PoolEdit} (h : e.Stands k i)
    (hk : Constants.Extends k' k) : e.Stands k' i := by
  cases e with
  | add c => exact hk i c h
  | utf8 s => exact hk.text? h
  | «class» name => exact hk.className? h
  | string s => exact hk.string? h
  | nameAndType name desc => exact hk.nameAndType? h
  | field sig | method sig | interfaceMethod sig =>
    obtain ⟨m, c, n, hm, hi, hmember⟩ := h
    exact ⟨m, c, n, hm, hk _ _ hi, hk.member? hmember⟩

namespace Constants

variable {k : Constants} {i : UInt16}

theorem eq_utf8_of_text? {s : String} (h : k.text? i = some s) : k i = some (.utf8 s) := by
  unfold text? at h
  split at h
  · rename_i t hi
    cases h
    exact hi
  · cases h

theorem eq_class_of_className? {name : String} (h : k.className? i = some name) :
    ∃ n, k i = some (.class n) := by
  unfold className? at h
  split at h
  · rename_i n hi
    exact ⟨n, hi⟩
  · cases h

theorem eq_nameAndType_of_nameAndType? {m : String × String} (h : k.nameAndType? i = some m) :
    ∃ n d, k i = some (.nameAndType n d) := by
  unfold nameAndType? at h
  split at h
  · rename_i n d hi
    exact ⟨n, d, hi⟩
  · cases h

end Constants

open Constant (widths)

namespace ConstantTable

variable {t : ConstantTable} {c : Constant} {before after : List Constant}

theorem size_foldl_place (cs : List Constant) (t : ConstantTable) :
    (cs.foldl place t).size = t.size + widths cs := by
  induction cs generalizing t with
  | nil => rfl
  | cons c cs ih =>
    rw [List.foldl_cons, ih, size_place, Constant.widths_cons]
    omega

theorem getElem?_foldl_place_of_lt {i : Nat} (cs : List Constant) (h : i < t.size) :
    (cs.foldl place t)[i]? = t[i]? := by
  induction cs generalizing t with
  | nil => rfl
  | cons c cs ih =>
    rw [List.foldl_cons, ih (by rw [size_place]; omega), getElem?_place_of_lt h]

-- The second place of a wide constant is empty.
theorem getElem?_place_succ_size (hwide : c.isWide = true) : (t.place c)[t.size + 1]? = some none := by
  unfold place
  rw [if_pos hwide, Array.getElem?_push]
  simp

-- Each constant stands behind those before it.
theorem getElem?_foldl_place (before after : List Constant) (c : Constant) (t : ConstantTable) :
    ((before ++ c :: after).foldl place t)[t.size + widths before]? = some (some c) ∧
      (c.isWide = true →
        ((before ++ c :: after).foldl place t)[t.size + widths before + 1]? = some none) := by
  have hsize := size_foldl_place before t
  have hwidth := size_place (before.foldl place t) c
  rw [List.foldl_append, List.foldl_cons, ← hsize]
  constructor
  · have hpos := c.width_pos
    rw [getElem?_foldl_place_of_lt _ (by omega), getElem?_place_size]
  · intro hwide
    have htwo : c.width = 2 := if_pos hwide
    rw [getElem?_foldl_place_of_lt _ (by omega), getElem?_place_succ_size hwide]

end ConstantTable

namespace Pool

variable {p p' : Pool} {i : UInt16} {c : Constant} {before after : List Constant}

theorem Filled.next_eq (h : p.Filled) : p.next = 1 + widths p.entries.toList := by
  rw [← h.size, table, ← Array.foldl_toList, ConstantTable.size_foldl_place]
  rfl

theorem Filled.get?_iff (h : p.Filled) : p.get? i = some c ↔ p.index[c]? = some i := by
  constructor
  · intro hc
    simpa using Array.find?_some hc
  · exact get?_eq_some h.built

-- The index of a constant is counted from those before it.
theorem Filled.index_eq (h : p.Filled) (hsplit : p.entries.toList = before ++ c :: after) :
    ∃ i : UInt16, i.toNat = 1 + widths before ∧ p.index[c]? = some i ∧
      (c.isWide = true → p.get? (i + 1) = none) := by
  have htable : p.table = (before ++ c :: after).foldl ConstantTable.place #[none] := by
    rw [table, ← Array.foldl_toList, hsplit]
  obtain ⟨hat, hbehind⟩ := ConstantTable.getElem?_foldl_place before after c #[none]
  rw [← htable] at hat hbehind
  have hnext := h.next_eq
  have hlimit := h.built.next_le
  have hwidth := c.width_pos
  unfold limit at hlimit
  rw [hsplit, Constant.widths_append, Constant.widths_cons] at hnext
  have hi : (1 + widths before).toUInt16.toNat = 1 + widths before := by
    rw [UInt16.toNat_ofNat', Nat.mod_eq_of_lt (by omega)]
  refine ⟨_, hi, (h.index c _).mpr (by rw [hi]; exact hat), ?_⟩
  intro hwide
  have htwo : c.width = 2 := if_pos hwide
  have hsucc : ((1 + widths before).toUInt16 + 1).toNat = 1 + widths before + 1 := by
    have hone : (1 : UInt16).toNat = 1 := rfl
    rw [UInt16.toNat_add, hi, hone, Nat.mod_eq_of_lt (by omega)]
  have hempty : p.table[1 + widths before + 1]? = some none := hbehind hwide
  rw [← h.join_getElem?, hsucc, hempty]
  rfl

theorem Filled.mem_iff (h : p.Filled) : c ∈ p.entries ↔ ∃ i, p.index[c]? = some i := by
  constructor
  · intro hc
    obtain ⟨before, after, hsplit⟩ := List.append_of_mem (Array.mem_toList_iff.mpr hc)
    obtain ⟨i, -, hi, -⟩ := h.index_eq hsplit
    exact ⟨i, hi⟩
  · rintro ⟨i, hi⟩
    exact (h.built.mem c i hi).1

-- No constant is there twice: its index would be counted from more constants and from fewer.
theorem Filled.not_mem_before (h : p.Filled) (hsplit : p.entries.toList = before ++ c :: after) :
    c ∉ before := by
  intro hc
  obtain ⟨first, rest, rfl⟩ := List.append_of_mem hc
  rw [List.append_assoc, List.cons_append] at hsplit
  obtain ⟨i, hi, hindex, -⟩ := h.index_eq hsplit
  rw [← List.cons_append, ← List.append_assoc] at hsplit
  obtain ⟨j, hj, hindex', -⟩ := h.index_eq hsplit
  have hwidth := c.width_pos
  rw [hindex] at hindex'
  cases hindex'
  rw [Constant.widths_append, Constant.widths_cons] at hj
  omega

-- A constant that is there keeps its index.
theorem add_of_index (h : p.index[c]? = some i) : add c p = .ok i p := by
  rw [add, h]

-- A new one takes the next index if there is room, and if there is none, nothing changes.
theorem add_of_not_mem (h : p.Filled) (hc : c ∉ p.entries) :
    (p.next + c.width ≤ limit → ∃ p', add c p = .ok p.next.toUInt16 p' ∧
      p'.entries = p.entries.push c ∧ p'.next = p.next + c.width) ∧
    (limit < p.next + c.width → add c p = .error .poolOverflow p) := by
  have hnew : p.index[c]? = none := by
    rw [h.mem_iff] at hc
    rw [Option.eq_none_iff_forall_ne_some]
    exact fun i hi => hc ⟨i, hi⟩
  constructor
  · intro hroom
    rw [add, hnew, if_pos hroom]
    exact ⟨_, rfl, rfl, rfl⟩
  · intro hfull
    rw [add, hnew, if_neg (by omega)]

-- The pool after insertions of which any may have failed.
def edited (p : Pool) (es : List PoolEdit) : Pool :=
  es.foldl (fun p e => stateAfter (e.run p)) p

theorem edited_filled (es : List PoolEdit) (hp : p.Filled) :
    (p.edited es).Filled ∧ p.Grows (p.edited es) := by
  induction es generalizing p with
  | nil => exact ⟨hp, .refl p⟩
  | cons e es ih =>
    obtain ⟨hfirst, hgrows⟩ := filling_run e p hp
    obtain ⟨hrest, hgrows'⟩ := ih hfirst
    exact ⟨hrest, hgrows.trans hgrows'⟩

-- An insertion gives the index of its constant.
theorem stands_of_run {e : PoolEdit} (hp : p.Filled) (h : e.run p = .ok i p') :
    e.Stands p'.get? i := by
  have hbuilt := hp.built
  cases e with
  | add c =>
    have hadds := add_eq_ok hbuilt h
    exact get?_eq_some hadds.built hadds.has
  | utf8 s => exact (utf8_eq_ok hbuilt h).2.2
  | «class» name => exact (class_eq_ok hbuilt h).2.2
  | string s => exact (string_eq_ok hbuilt h).2.2
  | nameAndType name desc => exact (nameAndType_eq_ok hbuilt h).2.2
  | field sig | method sig | interfaceMethod sig =>
    obtain ⟨-, -, m, c, n, hm, hi, hmember⟩ := member_eq_ok hbuilt h
    exact ⟨m, c, n, hm, hi, hmember⟩

section Backing

variable {α β : Type} {m : PoolM α} {k : α → PoolM β}

-- What a step puts into a pool stands behind all that it refers to.
def Backing (p : Pool) (m : PoolM α) : Prop :=
  ∀ c ∈ (stateAfter (m p)).entries, c ∉ p.entries →
    ∃ i, (stateAfter (m p)).get? i = some c ∧ c.Backed (stateAfter (m p)).get? i

theorem backing_add (hp : p.Filled) (hc : ∀ i : UInt16, i.toNat = p.next → c.Backed p.get? i) :
    Backing p (add c) := by
  intro d hd hnew
  by_cases hmem : c ∈ p.entries
  · obtain ⟨i, hi⟩ := hp.mem_iff.mp hmem
    rw [add_of_index hi] at hd
    exact absurd hd hnew
  · obtain ⟨hroom, hfull⟩ := add_of_not_mem hp hmem
    by_cases hlimit : p.next + c.width ≤ limit
    · obtain ⟨p', hadd, hentries, -⟩ := hroom hlimit
      have hadds := add_eq_ok hp.built hadd
      rw [hadd] at hd ⊢
      simp only [stateAfter, hentries, Array.mem_push] at hd ⊢
      obtain hd | rfl := hd
      · exact absurd hd hnew
      · have hwidth := d.width_pos
        have hindex : p.next.toUInt16.toNat = p.next := by
          unfold limit at hlimit
          rw [UInt16.toNat_ofNat', Nat.mod_eq_of_lt (by omega)]
        exact ⟨_, get?_eq_some hadds.built hadds.has,
          (hc _ hindex).extends (hadds.grows.extends hadds.built)⟩
    · rw [hfull (by omega)] at hd
      exact absurd hd hnew

-- Steps in a row: what the first has put there is still there behind the second.
theorem backing_bind (hp : p.Filled) (hfill : Filling m) (hfill' : ∀ a, Filling (k a))
    (hm : Backing p m) (hk : ∀ a p', m p = .ok a p' → p'.Filled → Backing p' (k a)) :
    Backing p (m >>= k) := by
  have hafter := hfill p hp
  unfold Backing at hm ⊢
  change ∀ c ∈ (stateAfter (EStateM.bind m k p)).entries, c ∉ p.entries →
    ∃ i, (stateAfter (EStateM.bind m k p)).get? i = some c ∧
      c.Backed (stateAfter (EStateM.bind m k p)).get? i
  unfold EStateM.bind
  cases h : m p with
  | error e p₁ =>
    rw [h] at hm
    exact hm
  | ok a p₁ =>
    rw [h] at hm hafter
    obtain ⟨hp₁, -⟩ := hafter
    obtain ⟨hp', hgrows⟩ := hfill' a p₁ hp₁
    intro c hc hnew
    by_cases hfirst : c ∈ p₁.entries
    · obtain ⟨i, hi, hbacked⟩ := hm c hfirst hnew
      exact ⟨i, hgrows.extends hp'.built i c hi, hbacked.extends (hgrows.extends hp'.built)⟩
    · exact hk a p₁ h hp₁ c hc hfirst

theorem backing_throw (e : ClassError) : Backing p (throw e : PoolM α) :=
  fun _ hd hnew => absurd hd hnew

-- A constant that is there stands before the next one.
theorem Filled.lt_of_get? (hp : p.Filled) {n i : UInt16} (h : p.get? n = some c)
    (hi : i.toNat = p.next) : n < i := by
  rw [UInt16.lt_iff_toNat_lt, hi]
  exact (hp.built.mem c n (hp.get?_iff.mp h)).2

-- A text is in the pool, and the next constant stands behind it.
theorem text_before {s : String} {n : UInt16} (hp : p.Filled) (h : utf8 s p = .ok n p') {i : UInt16}
    (hi : i.toNat = p'.next) : n < i ∧ ∃ t, p'.get? n = some (.utf8 t) := by
  obtain ⟨hp', -⟩ := (filling_add _).of_ok hp h
  obtain ⟨-, -, htext⟩ := utf8_eq_ok hp.built h
  have hn := Constants.eq_utf8_of_text? htext
  exact ⟨hp'.lt_of_get? hn hi, s, hn⟩

theorem backing_utf8 (s : String) (hp : p.Filled) : Backing p (utf8 s) :=
  backing_add hp fun _ _ => trivial

theorem backing_class (name : String) (hp : p.Filled) : Backing p (class_ name) := by
  refine backing_bind hp (filling_add _) (fun _ => filling_add _) (backing_utf8 name hp) ?_
  intro n p₁ hn hp₁
  exact backing_add hp₁ fun i hi => text_before hp hn hi

theorem backing_string (s : String) (hp : p.Filled) : Backing p (string s) := by
  refine backing_bind hp (filling_add _) (fun _ => filling_add _) (backing_utf8 s hp) ?_
  intro n p₁ hn hp₁
  exact backing_add hp₁ fun i hi => text_before hp hn hi

theorem backing_nameAndType (name desc : String) (hp : p.Filled) :
    Backing p (nameAndType name desc) := by
  refine backing_bind hp (filling_add _)
    (fun _ => filling_bind (filling_add _) fun _ => filling_add _) (backing_utf8 name hp) ?_
  intro n p₁ hn hp₁
  refine backing_bind hp₁ (filling_add _) (fun _ => filling_add _) (backing_utf8 desc hp₁) ?_
  intro d p₂ hd hp₂
  refine backing_add hp₂ fun i hi => ⟨?_, text_before hp₁ hd hi⟩
  -- The name is still there behind the descriptor.
  obtain ⟨-, -, htext⟩ := utf8_eq_ok hp.built hn
  obtain ⟨-, hgrows⟩ := (filling_add _).of_ok hp₁ hd
  have hname := hgrows.extends hp₂.built _ _ (Constants.eq_utf8_of_text? htext)
  exact ⟨hp₂.lt_of_get? hname hi, name, hname⟩

theorem backing_member {mk : UInt16 → UInt16 → Constant} (m : Except ClassError Member)
    (hmk : ∀ (k : Constants) (i o n : UInt16), (mk o n).Backed k i ↔
      (o < i ∧ ∃ m, k o = some (.class m)) ∧ n < i ∧ ∃ m d, k n = some (.nameAndType m d))
    (hp : p.Filled) : Backing p (member mk m) := by
  cases m with
  | error e => exact backing_throw e
  | ok m =>
    refine backing_bind hp (filling_class _)
      (fun _ => filling_bind (filling_nameAndType _ _) fun _ => filling_add _)
      (backing_class m.owner hp) ?_
    intro o p₁ ho hp₁
    refine backing_bind hp₁ (filling_nameAndType _ _) (fun _ => filling_add _)
      (backing_nameAndType m.name m.desc hp₁) ?_
    intro n p₂ hn hp₂
    refine backing_add hp₂ fun i hi => (hmk _ _ _ _).mpr ?_
    obtain ⟨-, -, howner⟩ := class_eq_ok hp.built ho
    obtain ⟨-, hgrows, hpair⟩ := nameAndType_eq_ok hp₁.built hn
    obtain ⟨x, hx⟩ := Constants.eq_class_of_className? howner
    have hclass := hgrows.extends hp₂.built _ _ hx
    obtain ⟨y, z, hyz⟩ := Constants.eq_nameAndType_of_nameAndType? hpair
    exact ⟨⟨hp₂.lt_of_get? hclass hi, x, hclass⟩, hp₂.lt_of_get? hyz hi, y, z, hyz⟩

-- An insertion by name makes whatever its constant refers to, in this order.
theorem backing_run {e : PoolEdit} (he : ∀ c, e ≠ .add c) (hp : p.Filled) : Backing p e.run := by
  cases e with
  | add c => exact absurd rfl (he c)
  | utf8 s => exact backing_utf8 s hp
  | «class» name => exact backing_class name hp
  | string s => exact backing_string s hp
  | nameAndType name desc => exact backing_nameAndType name desc hp
  | field sig | method sig | interfaceMethod sig =>
    exact backing_member _ (fun _ _ _ _ => Iff.rfl) hp

end Backing

-- The indices of a pool are those that reading the written pool will count.
structure Counted (p : Pool) : Prop where
  next : p.next = 1 + widths p.entries.toList
  room : p.next ≤ limit
  place : ∀ before c after, p.entries.toList = before ++ c :: after →
    c ∉ before ∧ ∃ i : UInt16, i.toNat = 1 + widths before ∧ p.get? i = some c ∧
      add c p = .ok i p ∧ (c.isWide = true → p.get? (i + 1) = none)
  only : ∀ i c, p.get? i = some c →
    ∃ before after, p.entries.toList = before ++ c :: after ∧ i.toNat = 1 + widths before
  new : ∀ c, c ∉ p.entries →
    (p.next + c.width ≤ limit → ∃ p', add c p = .ok p.next.toUInt16 p' ∧
      p'.entries = p.entries.push c ∧ p'.next = p.next + c.width) ∧
    (limit < p.next + c.width → add c p = .error .poolOverflow p)

theorem Filled.counted (h : p.Filled) : p.Counted where
  next := h.next_eq
  room := h.built.next_le
  place before c after hsplit := by
    obtain ⟨i, hi, hindex, hempty⟩ := h.index_eq hsplit
    exact ⟨h.not_mem_before hsplit, i, hi, h.get?_iff.mpr hindex, add_of_index hindex, hempty⟩
  only i c hc := by
    have hc := h.get?_iff.mp hc
    obtain ⟨before, after, hsplit⟩ :=
      List.append_of_mem (Array.mem_toList_iff.mpr (h.built.mem c i hc).1)
    obtain ⟨j, hj, hindex, -⟩ := h.index_eq hsplit
    rw [hc] at hindex
    cases hindex
    exact ⟨before, after, hsplit, hj⟩
  new c hc := add_of_not_mem h hc

-- Whatever is inserted into an empty pool, and whichever of it fails: the pool keeps count, each
-- insertion that succeeds gives the index under which its constant stands from then on, and the
-- constants of an insertion by name stand behind those that they refer to.
theorem pool_keeps_count (edits : List PoolEdit) :
    (edited {} edits).Counted ∧
      ∀ before e after, edits = before ++ e :: after →
        (∀ i p, e.run (edited {} before) = .ok i p → e.Stands (edited {} edits).get? i) ∧
        ((∀ c, e ≠ .add c) →
          ∀ c ∈ (stateAfter (e.run (edited {} before))).entries, c ∉ (edited {} before).entries →
            ∃ i, (edited {} edits).get? i = some c ∧ c.Backed (edited {} edits).get? i) := by
  obtain ⟨hfilled, -⟩ := edited_filled edits filled_empty
  refine ⟨hfilled.counted, ?_⟩
  rintro before e after rfl
  obtain ⟨hbefore, -⟩ := edited_filled before filled_empty
  obtain ⟨hafter, -⟩ := filling_run e _ hbefore
  -- What stands after one insertion stands after all.
  have hsplit : edited {} (before ++ e :: after) =
      edited (stateAfter (e.run (edited {} before))) after := by
    rw [edited, List.foldl_append, List.foldl_cons]
    rfl
  rw [hsplit] at hfilled ⊢
  have hextends : Constants.Extends (edited (stateAfter (e.run (edited {} before))) after).get?
      (stateAfter (e.run (edited {} before))).get? :=
    (edited_filled after hafter).2.extends hfilled.built
  constructor
  · intro i p hrun
    rw [hrun] at hextends ⊢
    exact (stands_of_run hbefore hrun).extends hextends
  · intro he c hc hnew
    obtain ⟨i, hi, hbacked⟩ := backing_run he hbefore c hc hnew
    exact ⟨i, hextends i c hi, hbacked.extends hextends⟩

-- A class behind a long, with its name before it.
theorem pool_keeps_count_class :
    (∃ p, (PoolEdit.class "A").run (edited {} [.add (.long 7)]) = .ok 4 p) ∧
      (PoolEdit.class "A").Stands (edited {} [.add (.long 7), .class "A"]).get? 4 := by
  have hrun : ∃ p, (PoolEdit.class "A").run (edited {} [.add (.long 7)]) = .ok 4 p := by
    simp [edited, stateAfter, PoolEdit.run, class_, utf8, add, bind, EStateM.bind, Constant.width,
      Constant.isWide, limit]
  obtain ⟨p, hp⟩ := hrun
  obtain ⟨-, hstands⟩ := pool_keeps_count [.add (.long 7), .class "A"]
  exact ⟨⟨p, hp⟩, (hstands [.add (.long 7)] (.class "A") [] rfl).1 4 p hp⟩

end Pool

end PodCompiler.ClassFile
