import Mathlib
import PodCompiler.ClassFile.Pool

namespace PodCompiler.ClassFile

-- What the machine finds under the indices of a class.
abbrev Constants := UInt16 → Option Constant

namespace Constants

variable (k : Constants)

def text? (i : UInt16) : Option String :=
  match k i with
  | some (.utf8 s) => some s
  | _ => none

def className? (i : UInt16) : Option String :=
  match k i with
  | some (.class n) => k.text? n
  | _ => none

-- The name and the descriptor of a member.
def nameAndType? (i : UInt16) : Option (String × String) :=
  match k i with
  | some (.nameAndType n d) => do return (← k.text? n, ← k.text? d)
  | _ => none

def member? (owner member : UInt16) : Option Member := do
  let owner ← k.className? owner
  let (name, desc) ← k.nameAndType? member
  return ⟨owner, name, desc⟩

-- The signature of the field under an index.
def field? (i : UInt16) : Option String :=
  match k i with
  | some (.fieldref c m) => (k.member? c m).map fun m => m.owner ++ "." ++ m.name ++ ":" ++ m.desc
  | _ => none

-- The signature of the method under an index.
def method? (i : UInt16) : Option String :=
  match k i with
  | some (.methodref c m) => (k.member? c m).map fun m => m.owner ++ "." ++ m.name ++ m.desc
  | _ => none

-- The text of the string under an index.
def string? (i : UInt16) : Option String :=
  match k i with
  | some (.string n) => k.text? n
  | _ => none

-- All that is in one class is in another under the same index.
def Extends (k' k : Constants) : Prop :=
  ∀ i c, k i = some c → k' i = some c

variable {k} {k' : Constants} {i : UInt16}

theorem Extends.trans {k'' : Constants} (h : Extends k'' k') (h' : Extends k' k) : Extends k'' k :=
  fun i c hc => h i c (h' i c hc)

theorem Extends.text? (h : Extends k' k) {s : String} (hs : k.text? i = some s) :
    k'.text? i = some s := by
  unfold Constants.text? at hs ⊢
  split at hs
  · rename_i hi
    rw [h i _ hi]
    exact hs
  · cases hs

theorem Extends.className? (h : Extends k' k) {s : String} (hs : k.className? i = some s) :
    k'.className? i = some s := by
  unfold Constants.className? at hs ⊢
  split at hs
  · rename_i hi
    rw [h i _ hi]
    exact h.text? hs
  · cases hs

theorem Extends.nameAndType? (h : Extends k' k) {p : String × String}
    (hp : k.nameAndType? i = some p) : k'.nameAndType? i = some p := by
  unfold Constants.nameAndType? at hp ⊢
  split at hp
  · rename_i hi
    rw [h i _ hi]
    obtain ⟨n, hn, hrest⟩ := Option.bind_eq_some_iff.mp hp
    obtain ⟨d, hd, hpure⟩ := Option.bind_eq_some_iff.mp hrest
    simp only [h.text? hn, h.text? hd]
    exact hpure
  · cases hp

theorem Extends.member? (h : Extends k' k) {c n : UInt16} {m : Member}
    (hm : k.member? c n = some m) : k'.member? c n = some m := by
  unfold Constants.member? at hm ⊢
  obtain ⟨owner, ho, hrest⟩ := Option.bind_eq_some_iff.mp hm
  obtain ⟨p, hp, hpure⟩ := Option.bind_eq_some_iff.mp hrest
  simp only [h.className? ho, h.nameAndType? hp]
  exact hpure

theorem Extends.field? (h : Extends k' k) {s : String} (hs : k.field? i = some s) :
    k'.field? i = some s := by
  unfold Constants.field? at hs ⊢
  split at hs
  · rename_i hi
    rw [h i _ hi]
    obtain ⟨m, hm, rfl⟩ := Option.map_eq_some_iff.mp hs
    simp only [h.member? hm, Option.map_some]
  · cases hs

theorem Extends.method? (h : Extends k' k) {s : String} (hs : k.method? i = some s) :
    k'.method? i = some s := by
  unfold Constants.method? at hs ⊢
  split at hs
  · rename_i hi
    rw [h i _ hi]
    obtain ⟨m, hm, rfl⟩ := Option.map_eq_some_iff.mp hs
    simp only [h.member? hm, Option.map_some]
  · cases hs

theorem Extends.string? (h : Extends k' k) {s : String} (hs : k.string? i = some s) :
    k'.string? i = some s := by
  unfold Constants.string? at hs ⊢
  split at hs
  · rename_i hi
    rw [h i _ hi]
    exact h.text? hs
  · cases hs

end Constants

namespace Pool

variable {p p₁ p' : Pool} {i : UInt16} {c : Constant}

-- A pool that was built by insertions: an index stands for one constant, which is there, and the
-- next index is free.
structure Built (p : Pool) : Prop where
  mem : ∀ (c : Constant) i, p.index[c]? = some i → c ∈ p.entries ∧ i.toNat < p.next
  inj : ∀ (c d : Constant) i, p.index[c]? = some i → p.index[d]? = some i → c = d
  next_le : p.next ≤ limit

-- No constant is lost or moved.
def Grows (p p' : Pool) : Prop :=
  ∀ (c : Constant) i, p.index[c]? = some i → p'.index[c]? = some i

theorem Grows.refl (p : Pool) : p.Grows p :=
  fun _ _ h => h

theorem Grows.trans (h : p.Grows p₁) (h' : p₁.Grows p') : p.Grows p' :=
  fun c i hi => h' c i (h c i hi)

theorem built_empty : Built {} where
  mem c i h := by simp at h
  inj c d i h := by simp at h
  next_le := by decide

-- The constant of an index is the one that has it.
theorem get?_eq_some (hp : p.Built) (h : p.index[c]? = some i) : p.get? i = some c := by
  unfold get?
  obtain ⟨d, hd⟩ : ∃ d, p.entries.find? (fun c => p.index[c]? = some i) = some d := by
    rw [← Option.isSome_iff_exists, Array.find?_isSome]
    exact ⟨c, (hp.mem c i h).1, by simpa using h⟩
  have hfound := Array.find?_some hd
  rw [hd, hp.inj c d i h (by simpa using hfound)]

theorem Grows.extends (hp' : p'.Built) (h : p.Grows p') :
    Constants.Extends p'.get? p.get? := by
  intro i c hc
  have hfound := Array.find?_some hc
  exact get?_eq_some hp' (h c i (by simpa using hfound))

-- What an insertion does.
structure Adds (p : Pool) (c : Constant) (i : UInt16) (p' : Pool) : Prop where
  built : p'.Built
  grows : p.Grows p'
  has : p'.index[c]? = some i

theorem add_eq_ok (hp : p.Built) (h : add c p = .ok i p') : Adds p c i p' := by
  unfold add at h
  split at h
  · rename_i j hj
    cases h
    exact ⟨hp, .refl p, hj⟩
  · rename_i hnew
    split at h
    · rename_i hroom
      cases h
      have hnext : p.next.toUInt16.toNat = p.next := by
        have hwidth : 0 < c.width := by
          unfold Constant.width
          split <;> decide
        rw [UInt16.toNat_ofNat', Nat.mod_eq_of_lt]
        unfold limit at hroom
        omega
      -- The new index is behind all that are there.
      have hold : ∀ (d : Constant) j, p.index[d]? = some j → j ≠ p.next.toUInt16 := by
        intro d j hd heq
        have := (hp.mem d j hd).2
        rw [heq, hnext] at this
        omega
      have hlookup : ∀ d : Constant, (p.index.insert c p.next.toUInt16)[d]? =
          if c = d then some p.next.toUInt16 else p.index[d]? := by
        intro d
        rw [Std.HashMap.getElem?_insert]
        simp
      refine ⟨⟨?_, ?_, hroom⟩, ?_, ?_⟩
      · intro d j hd
        rw [hlookup] at hd
        have hwidth : 0 < c.width := by
          unfold Constant.width
          split <;> decide
        split at hd
        · cases hd
          subst d
          exact ⟨Array.mem_push_self, by simp only [hnext]; omega⟩
        · obtain ⟨hmem, hlt⟩ := hp.mem d j hd
          exact ⟨Array.mem_push_of_mem _ hmem, by dsimp only; omega⟩
      · intro d d' j hd hd'
        rw [hlookup] at hd hd'
        split at hd
        · split at hd'
          · simp_all
          · cases hd
            exact absurd rfl (hold d' _ hd')
        · split at hd'
          · cases hd'
            exact absurd rfl (hold d _ hd)
          · exact hp.inj d d' j hd hd'
      · intro d j hd
        dsimp only
        rw [hlookup]
        split
        · subst d
          rw [hnew] at hd
          cases hd
        · exact hd
      · dsimp only
        rw [hlookup, if_pos rfl]
    · cases h

-- Two steps succeed if the first does and then the second.
theorem bind_eq_ok {α β : Type} {x : PoolM α} {k : α → PoolM β} {b : β} :
    (x >>= k) p = .ok b p' ↔ ∃ a p₁, x p = .ok a p₁ ∧ k a p₁ = .ok b p' := by
  change EStateM.bind x k p = _ ↔ _
  unfold EStateM.bind
  constructor
  · intro h
    split at h
    · rename_i a p₁ hx
      exact ⟨a, p₁, hx, h⟩
    · cases h
  · rintro ⟨a, p₁, hx, hk⟩
    rw [hx]
    exact hk

-- A text can be read back.
theorem utf8_eq_ok {s : String} (hp : p.Built) (h : utf8 s p = .ok i p') :
    p'.Built ∧ p.Grows p' ∧ Constants.text? p'.get? i = some s := by
  obtain ⟨hbuilt, hgrows, hhas⟩ := add_eq_ok hp h
  refine ⟨hbuilt, hgrows, ?_⟩
  rw [Constants.text?, get?_eq_some hbuilt hhas]

theorem class_eq_ok {name : String} (hp : p.Built) (h : class_ name p = .ok i p') :
    p'.Built ∧ p.Grows p' ∧ Constants.className? p'.get? i = some name := by
  obtain ⟨n, p₁, hn, hc⟩ := bind_eq_ok.mp h
  obtain ⟨hbuilt₁, hgrows₁, hname⟩ := utf8_eq_ok hp hn
  obtain ⟨hbuilt, hgrows, hhas⟩ := add_eq_ok hbuilt₁ hc
  refine ⟨hbuilt, hgrows₁.trans hgrows, ?_⟩
  rw [Constants.className?, get?_eq_some hbuilt hhas]
  exact (hgrows.extends hbuilt).text? hname

theorem string_eq_ok {text : String} (hp : p.Built) (h : string text p = .ok i p') :
    p'.Built ∧ p.Grows p' ∧ Constants.string? p'.get? i = some text := by
  obtain ⟨n, p₁, hn, hc⟩ := bind_eq_ok.mp h
  obtain ⟨hbuilt₁, hgrows₁, htext⟩ := utf8_eq_ok hp hn
  obtain ⟨hbuilt, hgrows, hhas⟩ := add_eq_ok hbuilt₁ hc
  refine ⟨hbuilt, hgrows₁.trans hgrows, ?_⟩
  rw [Constants.string?, get?_eq_some hbuilt hhas]
  exact (hgrows.extends hbuilt).text? htext

theorem nameAndType_eq_ok {name desc : String} (hp : p.Built)
    (h : nameAndType name desc p = .ok i p') :
    p'.Built ∧ p.Grows p' ∧ Constants.nameAndType? p'.get? i = some (name, desc) := by
  obtain ⟨n, p₁, hn, hrest⟩ := bind_eq_ok.mp h
  obtain ⟨d, p₂, hd, hnt⟩ := bind_eq_ok.mp hrest
  obtain ⟨hbuilt₁, hgrows₁, hname⟩ := utf8_eq_ok hp hn
  obtain ⟨hbuilt₂, hgrows₂, hdesc⟩ := utf8_eq_ok hbuilt₁ hd
  obtain ⟨hbuilt, hgrows, hhas⟩ := add_eq_ok hbuilt₂ hnt
  refine ⟨hbuilt, (hgrows₁.trans hgrows₂).trans hgrows, ?_⟩
  have hname' := ((hgrows₂.trans hgrows).extends hbuilt).text? hname
  have hdesc' := (hgrows.extends hbuilt).text? hdesc
  rw [Constants.nameAndType?, get?_eq_some hbuilt hhas]
  simp only [hname', hdesc']
  rfl

-- The parts of a member can be read back.
theorem member_eq_ok {mk : UInt16 → UInt16 → Constant} {m : Except ClassError Member}
    (hp : p.Built) (h : member mk m p = .ok i p') :
    p'.Built ∧ p.Grows p' ∧ ∃ m' c n, m = .ok m' ∧ p'.get? i = some (mk c n) ∧
      Constants.member? p'.get? c n = some m' := by
  unfold member at h
  split at h
  · cases h
  · rename_i m'
    obtain ⟨c, p₁, hc, hrest⟩ := bind_eq_ok.mp h
    obtain ⟨n, p₂, hn, hadd⟩ := bind_eq_ok.mp hrest
    obtain ⟨hbuilt₁, hgrows₁, howner⟩ := class_eq_ok hp hc
    obtain ⟨hbuilt₂, hgrows₂, hmember⟩ := nameAndType_eq_ok hbuilt₁ hn
    obtain ⟨hbuilt, hgrows, hhas⟩ := add_eq_ok hbuilt₂ hadd
    refine ⟨hbuilt, (hgrows₁.trans hgrows₂).trans hgrows, m', c, n, rfl,
      get?_eq_some hbuilt hhas, ?_⟩
    have howner' := ((hgrows₂.trans hgrows).extends hbuilt).className? howner
    have hmember' := (hgrows.extends hbuilt).nameAndType? hmember
    simp only [Constants.member?, howner', hmember']
    rfl

end Pool

namespace Member

-- A list is what stands before the first character of a kind, that character, and the rest.
theorem append_of_span {cs left right : List Char} {c d : Char}
    (h : cs.span (· ≠ d) = (left, c :: right)) : cs = left ++ d :: right := by
  rw [List.span_eq_takeWhile_dropWhile, Prod.mk.injEq] at h
  obtain ⟨rfl, hdrop⟩ := h
  have hhead : ¬decide (c ≠ d) = true := by
    have hne : cs.dropWhile (· ≠ d) ≠ [] := by
      rw [hdrop]
      simp
    have hfirst := List.head_dropWhile_not (fun x => decide (x ≠ d)) hne
    simp only [hdrop, List.head_cons] at hfirst
    simpa using hfirst
  have hc : c = d := by simpa using hhead
  rw [hc] at hdrop
  rw [← hdrop, List.takeWhile_append_dropWhile]

theorem splitOwner_eq_some {cs owner name : List Char}
    (h : splitOwner cs = some (owner, name)) : cs = owner ++ '.' :: name := by
  unfold splitOwner at h
  split at h
  · cases h
  · rename_i name' c owner' hspan
    cases h
    have hcs := congrArg List.reverse (append_of_span hspan)
    simpa using hcs

theorem ofParts?_eq_some {left desc : List Char} {m : Member} (h : ofParts? left desc = some m) :
    left = m.owner.toList ++ '.' :: m.name.toList ∧ desc = m.desc.toList := by
  unfold ofParts? at h
  split at h
  · cases h
  · rename_i owner name hsplit
    split at h
    · cases h
    · cases h
      simp [splitOwner_eq_some hsplit]

-- The parts of a field give its signature again.
theorem ofField_eq_ok {sig : String} {m : Member} (h : ofField sig = .ok m) :
    m.owner ++ "." ++ m.name ++ ":" ++ m.desc = sig := by
  unfold ofField at h
  split at h
  · cases h
  · rename_i left c desc hspan
    split at h
    · rename_i m' hparts
      cases h
      split at hparts
      · cases hparts
      · obtain ⟨hleft, hdesc⟩ := ofParts?_eq_some hparts
        have hsig := append_of_span hspan
        apply String.toList_injective
        rw [hsig, hleft, hdesc]
        simp
    · cases h

-- The parts of a method give its signature again.
theorem ofMethod_eq_ok {sig : String} {m : Member} (h : ofMethod sig = .ok m) :
    m.owner ++ "." ++ m.name ++ m.desc = sig := by
  unfold ofMethod at h
  split at h
  · cases h
  · rename_i left desc _ hspan
    split at h
    · rename_i m' hparts
      cases h
      obtain ⟨hleft, hdesc⟩ := ofParts?_eq_some hparts
      have hsig : sig.toList = left ++ desc := by
        have hall := List.span_eq_takeWhile_dropWhile (fun c => decide (c ≠ '(')) sig.toList
        rw [hspan, Prod.mk.injEq] at hall
        rw [hall.1, hall.2, List.takeWhile_append_dropWhile]
      apply String.toList_injective
      rw [hsig, hleft, hdesc]
      simp
    · cases h

end Member

namespace Pool

variable {p p' : Pool} {i : UInt16} {sig : String}

-- A field is found under its index by its signature.
theorem field_eq_ok (hp : p.Built) (h : field sig p = .ok i p') :
    p'.Built ∧ p.Grows p' ∧ Constants.field? p'.get? i = some sig := by
  obtain ⟨hbuilt, hgrows, m, c, n, hm, hi, hmember⟩ := member_eq_ok hp h
  refine ⟨hbuilt, hgrows, ?_⟩
  rw [Constants.field?, hi]
  simp only [hmember, Option.map_some, Member.ofField_eq_ok hm]

theorem method_eq_ok (hp : p.Built) (h : method sig p = .ok i p') :
    p'.Built ∧ p.Grows p' ∧ Constants.method? p'.get? i = some sig := by
  obtain ⟨hbuilt, hgrows, m, c, n, hm, hi, hmember⟩ := member_eq_ok hp h
  refine ⟨hbuilt, hgrows, ?_⟩
  rw [Constants.method?, hi]
  simp only [hmember, Option.map_some, Member.ofMethod_eq_ok hm]

end Pool

end PodCompiler.ClassFile
