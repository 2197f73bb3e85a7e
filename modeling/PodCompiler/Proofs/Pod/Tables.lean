import PodCompiler.Proofs.Pod.TypeBodies

namespace PodCompiler.Pod

namespace Builder

variable {b b' : Builder}

-- What is done to the tables of a pod before its types are written.
inductive TableEntry where
  | name (s : String)
  | typeRef (t : TypeRef)
  | fieldRef (r : FieldRef)
  | methodRef (r : MethodRef)

def TableEntry.put : TableEntry → BuildM Unit
  | .name s => do let _ ← intern s
  | .typeRef t => do let _ ← Builder.typeRef t.pod t.name t.sig
  | .fieldRef r => Builder.fieldRef r.parent r.name r.type
  | .methodRef r => Builder.methodRef r.parent r.name r.ret r.params.toList

-- A pod with literals and entries of its tables.
def assemble (name : String) (literals : Literals) (entries : List TableEntry) : Builder :=
  entries.foldl (fun b e => (e.put.run b).2) { name, literals }

theorem Numbered.mono {names names' : Array String} {i : UInt16} {s : String}
    (h : Numbered names i s) (hnames : names.toList <+: names'.toList) : Numbered names' i s :=
  fun all hsize hall => h all hsize (hnames.trans hall)

-- Under one index stands one name, and a name stands under one index.
theorem Numbered.eq {names : Array String} {i : UInt16} {s t : String}
    (hsize : names.size ≤ 0xFFFF) (hs : Numbered names i s) (ht : Numbered names i t) : s = t := by
  have h := (hs names hsize (List.prefix_refl _)).symm.trans (ht names hsize (List.prefix_refl _))
  exact Option.some_inj.mp h

theorem Numbered.index_eq {names : Array String} {i j : UInt16} {s : String}
    (hsize : names.size ≤ 0xFFFF) (hnodup : names.toList.Nodup) (hi : Numbered names i s)
    (hj : Numbered names j s) : i = j := by
  obtain ⟨hilt, hi⟩ := Array.getElem?_eq_some_iff.mp (hi names hsize (List.prefix_refl _))
  obtain ⟨hjlt, hj⟩ := Array.getElem?_eq_some_iff.mp (hj names hsize (List.prefix_refl _))
  apply UInt16.toNat_inj.mp
  refine (@List.Nodup.getElem_inj_iff _ _ hnodup _ (by simpa using hilt) _
    (by simpa using hjlt)).mp ?_
  simp [hi, hj]

-- The names stay different from each other.
theorem nodup_intern (s : String) (h : b.names.toList.Nodup) :
    ((intern s).run b).2.names.toList.Nodup := by
  change (intern s b).2.names.toList.Nodup
  unfold intern
  split
  · exact h
  · rename_i hnew
    have hs := Array.idxOf?_eq_none_iff.mp hnew
    simp only [Array.toList_push]
    rw [List.nodup_append]
    refine ⟨h, by simp, ?_⟩
    rintro a ha _ hb rfl
    obtain rfl := List.mem_singleton.mp hb
    exact hs (Array.mem_toList_iff.mp ha)

-- The indices of a table entry stand for its names.
def TypeRefKey (names : Array String) (key : UInt16 × UInt16 × String) (t : TypeRef) : Prop :=
  Numbered names key.1 t.pod ∧ Numbered names key.2.1 t.name ∧ key.2.2 = t.sig

def FieldRefKey (names : Array String) (key : UInt16 × UInt16 × UInt16) (r : FieldRef) : Prop :=
  key.1 = r.parent ∧ Numbered names key.2.1 r.name ∧ key.2.2 = r.type

def MethodRefKey (names : Array String) (key : UInt16 × UInt16 × UInt16 × List UInt16)
    (r : MethodRef) : Prop :=
  key.1 = r.parent ∧ Numbered names key.2.1 r.name ∧ key.2.2.1 = r.ret ∧ key.2.2.2 = r.params.toList

theorem TypeRefKey.mono {names names' : Array String} {key : UInt16 × UInt16 × String} {t : TypeRef}
    (h : TypeRefKey names key t) (hnames : names.toList <+: names'.toList) :
    TypeRefKey names' key t :=
  ⟨h.1.mono hnames, h.2.1.mono hnames, h.2.2⟩

theorem FieldRefKey.mono {names names' : Array String} {key : UInt16 × UInt16 × UInt16}
    {r : FieldRef} (h : FieldRefKey names key r) (hnames : names.toList <+: names'.toList) :
    FieldRefKey names' key r :=
  ⟨h.1, h.2.1.mono hnames, h.2.2⟩

theorem MethodRefKey.mono {names names' : Array String}
    {key : UInt16 × UInt16 × UInt16 × List UInt16} {r : MethodRef} (h : MethodRefKey names key r)
    (hnames : names.toList <+: names'.toList) : MethodRefKey names' key r :=
  ⟨h.1, h.2.1.mono hnames, h.2.2⟩

end Builder

-- The tables with an entry more; a type ref that is there already is not put in again.
def Symbols.put (s : Symbols) : Builder.TableEntry → Symbols
  | .name _ => s
  | .typeRef t => if t ∈ s.typeRefs then s else { s with typeRefs := s.typeRefs.push t }
  | .fieldRef r => { s with fieldRefs := s.fieldRefs.push r }
  | .methodRef r => { s with methodRefs := s.methodRefs.push r }

namespace Builder

variable {b b' : Builder} {s : Symbols}

-- The tables of a pod hold the given entries, with indices in the place of names.
structure Holds (b : Builder) (s : Symbols) : Prop where
  nodup : b.names.toList.Nodup
  typeRefs : List.Forall₂ (TypeRefKey b.names) b.typeRefs.toList s.typeRefs.toList
  fieldRefs : List.Forall₂ (FieldRefKey b.names) b.fieldRefs.toList s.fieldRefs.toList
  methodRefs : List.Forall₂ (MethodRefKey b.names) b.methodRefs.toList s.methodRefs.toList

theorem Holds.extends (h : b.Holds s) (hb : Extends b b') (hnodup : b'.names.toList.Nodup) :
    b'.Holds s := by
  have hrest := hb.rest
  refine ⟨hnodup, ?_, ?_, ?_⟩
  · rw [hrest]
    exact h.typeRefs.imp fun _ _ hkey => hkey.mono hb.names
  · rw [hrest]
    exact h.fieldRefs.imp fun _ _ hkey => hkey.mono hb.names
  · rw [hrest]
    exact h.methodRefs.imp fun _ _ hkey => hkey.mono hb.names

theorem Holds.intern (h : b.Holds s) (n : String) : ((intern n).run b).2.Holds s :=
  h.extends (intern_numbered n b).1 (nodup_intern n h.nodup)

-- Of two lists whose items stand for each other one by one, both or neither have an item.
theorem mem_iff_of_forall₂ {α β : Type} {R : α → β → Prop} {xs : List α} {ys : List β} {x : α}
    {y : β} (h : List.Forall₂ R xs ys) (hR : ∀ x' y', R x' y' → (x' = x ↔ y' = y)) :
    x ∈ xs ↔ y ∈ ys := by
  induction h with
  | nil => simp
  | cons hxy _ ih =>
    rw [List.mem_cons, List.mem_cons, ih, eq_comm, hR _ _ hxy, eq_comm]

-- A type ref is in the table iff its indices are.
theorem Holds.mem_typeRefs_iff (h : b.Holds s) (hsize : b.names.size ≤ 0xFFFF)
    {key : UInt16 × UInt16 × String} {t : TypeRef} (hkey : TypeRefKey b.names key t) :
    key ∈ b.typeRefs ↔ t ∈ s.typeRefs := by
  rw [← Array.mem_toList_iff, ← Array.mem_toList_iff]
  refine mem_iff_of_forall₂ h.typeRefs fun key' t' hkey' => ?_
  constructor
  · rintro rfl
    have hpod := hkey'.1.eq hsize hkey.1
    have hname := hkey'.2.1.eq hsize hkey.2.1
    have hsig := hkey'.2.2.symm.trans hkey.2.2
    cases t
    cases t'
    simp_all
  · rintro rfl
    have hpod := hkey'.1.index_eq hsize h.nodup hkey.1
    have hname := hkey'.2.1.index_eq hsize h.nodup hkey.2.1
    have hsig := hkey'.2.2.trans hkey.2.2.symm
    exact Prod.ext hpod (Prod.ext hname hsig)

theorem forall₂_push {α β : Type} {R : α → β → Prop} {xs : Array α} {ys : Array β} {x : α} {y : β}
    (h : List.Forall₂ R xs.toList ys.toList) (hxy : R x y) :
    List.Forall₂ R (xs.push x).toList (ys.push y).toList := by
  rw [Array.toList_push, Array.toList_push]
  exact List.rel_append h (.cons hxy .nil)

-- The pod with an entry more, after its names have their numbers.
theorem run_typeRef (t : TypeRef) (b : Builder) :
    ∃ b₂ key, Extends b b₂ ∧ (b.names.toList.Nodup → b₂.names.toList.Nodup) ∧
      TypeRefKey b₂.names key t ∧ ((TableEntry.put (.typeRef t)).run b).2 =
        if key ∈ b₂.typeRefs then b₂ else { b₂ with typeRefs := b₂.typeRefs.push key } := by
  obtain ⟨hpod, hpodKey⟩ := intern_numbered t.pod b
  obtain ⟨hname, hnameKey⟩ := intern_numbered t.name ((intern t.pod).run b).2
  refine ⟨_, (((intern t.pod).run b).1, ((intern t.name).run ((intern t.pod).run b).2).1, t.sig),
    hpod.trans hname, fun h => nodup_intern _ (nodup_intern _ h),
    ⟨hpodKey.mono hname.names, hnameKey, rfl⟩, ?_⟩
  rcases hfst : (intern t.pod).run b with ⟨p, b₁⟩
  rcases hsnd : (intern t.name).run b₁ with ⟨n, b₂⟩
  simp only [TableEntry.put, typeRef, bind_assoc, StateT.run_bind, hfst, StateT.run_modifyGet,
    pure_bind]
  dsimp only [bind]
  rw [hsnd]
  dsimp only [StateT.run, pure, StateT.pure]
  split
  · rename_i i hi
    have hmem := Array.isSome_idxOf?.mp (Option.isSome_iff_exists.mpr ⟨i, hi⟩)
    rw [if_pos hmem]
  · rename_i hnone
    rw [if_neg (Array.idxOf?_eq_none_iff.mp hnone)]

theorem Holds.put (h : b.Holds s) (e : TableEntry) (hsize : (e.put.run b).2.names.size ≤ 0xFFFF) :
    (e.put.run b).2.Holds (s.put e) := by
  cases e with
  | name n => exact h.intern n
  | typeRef t =>
    obtain ⟨b₂, key, hextends, hnodup, hkey, hrun⟩ := run_typeRef t b
    have h₂ := h.extends hextends (hnodup h.nodup)
    rw [hrun] at hsize ⊢
    have hsize₂ : b₂.names.size ≤ 0xFFFF := by
      split at hsize <;> exact hsize
    unfold Symbols.put
    dsimp only
    by_cases hmem : t ∈ s.typeRefs
    · rw [if_pos ((h₂.mem_typeRefs_iff hsize₂ hkey).mpr hmem), if_pos hmem]
      exact h₂
    · rw [if_neg (mt (h₂.mem_typeRefs_iff hsize₂ hkey).mp hmem), if_neg hmem]
      exact ⟨h₂.nodup, forall₂_push h₂.typeRefs hkey, h₂.fieldRefs, h₂.methodRefs⟩
  | fieldRef r =>
    obtain ⟨-, hnumbered⟩ := intern_numbered r.name b
    have h' := h.intern r.name
    exact ⟨h'.nodup, h'.typeRefs, forall₂_push h'.fieldRefs ⟨rfl, hnumbered, rfl⟩, h'.methodRefs⟩
  | methodRef r =>
    obtain ⟨-, hnumbered⟩ := intern_numbered r.name b
    have h' := h.intern r.name
    exact ⟨h'.nodup, h'.typeRefs, h'.fieldRefs,
      forall₂_push h'.methodRefs ⟨rfl, hnumbered, rfl, rfl⟩⟩

-- What an entry of the tables does not change.
structure Same (b b' : Builder) : Prop where
  names : b.names.toList <+: b'.names.toList
  name : b'.name = b.name
  version : b'.version = b.version
  depends : b'.depends = b.depends
  literals : b'.literals = b.literals
  magic : b'.magic = b.magic
  formatVersion : b'.formatVersion = b.formatVersion

theorem Extends.same (h : Extends b b') : Same b b' := by
  have hrest := h.rest
  exact ⟨h.names, by rw [hrest], by rw [hrest], by rw [hrest], by rw [hrest], by rw [hrest],
    by rw [hrest]⟩

theorem Same.trans {b₁ : Builder} (h : Same b b₁) (h' : Same b₁ b') : Same b b' :=
  ⟨h.names.trans h'.names, h'.name.trans h.name, h'.version.trans h.version,
    h'.depends.trans h.depends, h'.literals.trans h.literals, h'.magic.trans h.magic,
    h'.formatVersion.trans h.formatVersion⟩

theorem same_put (e : TableEntry) (b : Builder) : Same b (e.put.run b).2 := by
  cases e with
  | name n => exact (intern_numbered n b).1.same
  | typeRef t =>
    obtain ⟨b₂, key, hextends, -, -, hrun⟩ := run_typeRef t b
    rw [hrun]
    split
    · exact hextends.same
    · obtain ⟨hnames, hname, hversion, hdepends, hliterals, hmagic, hformat⟩ := hextends.same
      exact ⟨hnames, hname, hversion, hdepends, hliterals, hmagic, hformat⟩
  | fieldRef r | methodRef r =>
    obtain ⟨hnames, hname, hversion, hdepends, hliterals, hmagic, hformat⟩ :=
      (intern_numbered r.name b).1.same
    exact ⟨hnames, hname, hversion, hdepends, hliterals, hmagic, hformat⟩

theorem same_foldl (entries : List TableEntry) (b : Builder) :
    Same b (entries.foldl (fun b e => (e.put.run b).2) b) := by
  induction entries generalizing b with
  | nil => exact (Extends.refl b).same
  | cons e entries ih => exact (same_put e b).trans (ih _)

-- The tables hold what was put in, as long as the names have room.
theorem Holds.foldl (entries : List TableEntry) (h : b.Holds s)
    (hsize : (entries.foldl (fun b e => (e.put.run b).2) b).names.size ≤ 0xFFFF) :
    (entries.foldl (fun b e => (e.put.run b).2) b).Holds (entries.foldl Symbols.put s) := by
  induction entries generalizing b s with
  | nil => exact h
  | cons e entries ih =>
    have hgrows := (same_foldl entries (e.put.run b).2).names.length_le
    simp only [Array.length_toList] at hgrows
    exact ih (h.put e (hgrows.trans hsize)) hsize

theorem holds_assemble {name : String} {literals : Literals} {entries : List TableEntry}
    (hsize : (assemble name literals entries).names.size ≤ 0xFFFF) :
    (assemble name literals entries).Holds (entries.foldl Symbols.put {}) :=
  Holds.foldl entries ⟨List.nodup_nil, .nil, .nil, .nil⟩ hsize

end Builder

end PodCompiler.Pod
