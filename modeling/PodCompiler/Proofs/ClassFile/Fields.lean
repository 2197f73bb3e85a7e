import PodCompiler.Proofs.ClassFile.Edits

namespace PodCompiler.ClassFile

-- The field under an index, in its parts.
def Constants.fieldMember? (k : Constants) (i : UInt16) : Option Member :=
  match k i with
  | some (.fieldref c m) => k.member? c m
  | _ => none

-- The method under an index, in its parts.
def Constants.methodMember? (k : Constants) (i : UInt16) : Option Member :=
  match k i with
  | some (.methodref c m) => k.member? c m
  | _ => none

theorem Constants.Extends.methodMember? {k k' : Constants} (h : Extends k' k) {i : UInt16}
    {m : Member} (hm : k.methodMember? i = some m) : k'.methodMember? i = some m := by
  unfold Constants.methodMember? at hm ⊢
  split at hm
  · rename_i c n hi
    rw [h _ _ hi]
    exact h.member? hm
  · cases hm

theorem Constants.Extends.fieldMember? {k k' : Constants} (h : Extends k' k) {i : UInt16}
    {m : Member} (hm : k.fieldMember? i = some m) : k'.fieldMember? i = some m := by
  unfold Constants.fieldMember? at hm ⊢
  split at hm
  · rename_i c n hi
    rw [h _ _ hi]
    exact h.member? hm
  · cases hm

namespace Pool

variable {p p' : Pool} {i : UInt16} {sig : String}

-- A member that is inserted by its signature is found in its parts.
theorem fieldMember_eq_ok (hp : p.Built) (h : field sig p = .ok i p') :
    ∃ m, Member.ofField sig = .ok m ∧ Constants.fieldMember? p'.get? i = some m := by
  obtain ⟨-, -, m, c, n, hm, hi, hmember⟩ := member_eq_ok hp h
  refine ⟨m, hm, ?_⟩
  rw [Constants.fieldMember?, hi]
  exact hmember

theorem methodMember_eq_ok (hp : p.Built) (h : method sig p = .ok i p') :
    ∃ m, Member.ofMethod sig = .ok m ∧ Constants.methodMember? p'.get? i = some m := by
  obtain ⟨-, -, m, c, n, hm, hi, hmember⟩ := member_eq_ok hp h
  refine ⟨m, hm, ?_⟩
  rw [Constants.methodMember?, hi]
  exact hmember

end Pool

namespace Member

theorem span_append {left right : List Char} {c : Char} (h : c ∉ left) :
    (left ++ c :: right).span (· ≠ c) = (left, c :: right) := by
  have hleft : ∀ x ∈ left, decide (x ≠ c) = true := by
    intro x hx
    have hne : x ≠ c := fun heq => h (heq ▸ hx)
    simpa using hne
  rw [List.span_eq_takeWhile_dropWhile, List.takeWhile_append_of_pos hleft,
    List.dropWhile_append_of_pos hleft]
  simp

theorem splitOwner_append {owner name : List Char} (h : '.' ∉ name) :
    splitOwner (owner ++ '.' :: name) = some (owner, name) := by
  have hname : '.' ∉ name.reverse := by simpa using h
  have hspan : (name.reverse ++ '.' :: owner.reverse).span (· ≠ '.') =
      (name.reverse, '.' :: owner.reverse) := span_append hname
  have hreverse : (owner ++ '.' :: name).reverse = name.reverse ++ '.' :: owner.reverse := by simp
  unfold splitOwner
  rw [hreverse, hspan]
  simp

theorem isEmpty_toList {s : String} (h : s ≠ "") : s.toList.isEmpty = false := by
  rw [List.isEmpty_eq_false_iff]
  exact fun hnil => h (String.toList_injective hnil)

-- A signature is cut into the parts it was made of.
theorem ofField_append {owner name desc : String} (howner : owner ≠ "") (hname : name ≠ "")
    (hdesc : desc ≠ "") (hcolon : ':' ∉ owner.toList ++ name.toList) (hdot : '.' ∉ name.toList) :
    ofField (owner ++ "." ++ name ++ ":" ++ desc) = .ok ⟨owner, name, desc⟩ := by
  have hleft : ':' ∉ owner.toList ++ '.' :: name.toList := by simpa using hcolon
  have hchars : (owner ++ "." ++ name ++ ":" ++ desc).toList =
      (owner.toList ++ '.' :: name.toList) ++ ':' :: desc.toList := by simp
  unfold ofField
  rw [hchars, span_append hleft]
  dsimp only
  rw [isEmpty_toList hdesc, ofParts?, splitOwner_append hdot]
  simp [isEmpty_toList howner, isEmpty_toList hname]

theorem ofMethod_append {owner name desc : String} (howner : owner ≠ "") (hname : name ≠ "")
    (hbracket : '(' ∉ owner.toList ++ name.toList) (hdot : '.' ∉ name.toList) :
    ofMethod (owner ++ "." ++ name ++ ("(" ++ desc)) = .ok ⟨owner, name, "(" ++ desc⟩ := by
  have hleft : '(' ∉ owner.toList ++ '.' :: name.toList := by simpa using hbracket
  have hchars : (owner ++ "." ++ name ++ ("(" ++ desc)).toList =
      (owner.toList ++ '.' :: name.toList) ++ '(' :: desc.toList := by simp
  have hdesc : String.ofList ('(' :: desc.toList) = "(" ++ desc := String.toList_injective (by simp)
  unfold ofMethod
  rw [hchars, span_append hleft]
  dsimp only
  rw [ofParts?, splitOwner_append hdot]
  simp [isEmpty_toList howner, isEmpty_toList hname, hdesc]

theorem eq_of_ofMethod {owner name desc : String} {m : Member}
    (h : ofMethod (owner ++ "." ++ name ++ ("(" ++ desc)) = .ok m)
    (hbracket : '(' ∉ owner.toList ++ name.toList) (hdot : '.' ∉ name.toList) :
    m = ⟨owner, name, "(" ++ desc⟩ := by
  have hleft : '(' ∉ owner.toList ++ '.' :: name.toList := by simpa using hbracket
  have hchars : (owner ++ "." ++ name ++ ("(" ++ desc)).toList =
      (owner.toList ++ '.' :: name.toList) ++ '(' :: desc.toList := by simp
  have hdesc : String.ofList ('(' :: desc.toList) = "(" ++ desc := String.toList_injective (by simp)
  unfold ofMethod at h
  rw [hchars, span_append hleft] at h
  dsimp only at h
  rw [ofParts?, splitOwner_append hdot] at h
  dsimp only at h
  split at h
  · rename_i m' hparts
    split at hparts
    · cases hparts
    · cases hparts
      cases h
      simp [hdesc]
  · cases h

-- What stands before the first colon of a field has a dot.
theorem dot_mem_of_ofField {sig : String} {m : Member} (h : ofField sig = .ok m) :
    '.' ∈ sig.toList.takeWhile (· ≠ ':') := by
  unfold ofField at h
  rw [List.span_eq_takeWhile_dropWhile] at h
  split at h
  · cases h
  · rename_i left c desc hspan
    rw [Prod.mk.injEq] at hspan
    split at h
    · rename_i m' hparts
      split at hparts
      · cases hparts
      · obtain ⟨hleft, -⟩ := ofParts?_eq_some hparts
        rw [hspan.1, hleft]
        simp
    · cases h

-- The descriptor of a field is what stands behind the first colon.
theorem desc_of_ofField {sig : String} {m : Member} (h : ofField sig = .ok m) :
    m.desc.toList = (sig.toList.dropWhile (· ≠ ':')).tail := by
  unfold ofField at h
  rw [List.span_eq_takeWhile_dropWhile] at h
  split at h
  · cases h
  · rename_i left c desc hspan
    rw [Prod.mk.injEq] at hspan
    rw [hspan.2]
    split at h
    · rename_i m' hparts
      cases h
      split at hparts
      · cases hparts
      · exact (ofParts?_eq_some hparts).2.symm
    · cases h

-- That of a method begins with the first bracket.
theorem desc_of_ofMethod {sig : String} {m : Member} (h : ofMethod sig = .ok m) :
    m.desc.toList = sig.toList.dropWhile (· ≠ '(') := by
  unfold ofMethod at h
  rw [List.span_eq_takeWhile_dropWhile] at h
  split at h
  · cases h
  · rename_i left desc _ hspan
    rw [Prod.mk.injEq] at hspan
    rw [hspan.2]
    split at h
    · rename_i m' hparts
      cases h
      exact (ofParts?_eq_some hparts).2.symm
    · cases h

end Member

theorem FieldInfo.Named.extends {k k' : Constants} {f : FieldInfo} (h : f.Named k)
    (hk : Constants.Extends k' k) : f.Named k' :=
  ⟨hk.text? h.name, hk.text? h.desc⟩

-- A field by its access, its name and its descriptor.
def FieldInfo.signature (f : FieldInfo) : UInt16 × String × String :=
  (f.access, f.name, f.desc)

namespace Draft

variable {d d' : Draft}

-- A field is put behind the others.
theorem addField_eq_ok {access : UInt16} {name desc : String} {u : Unit} (hd : d.pool.Built)
    (h : addField access name desc d = .ok u d') :
    ∃ f, d'.fields = d.fields.push f ∧ f.signature = (access, name, desc) ∧
      f.Named d'.pool.get? := by
  obtain ⟨i, d₁, hname, hrest⟩ := bind_eq_ok.mp h
  obtain ⟨j, d₂, hdesc, hpush⟩ := bind_eq_ok.mp hrest
  obtain ⟨p₁, hp₁, rfl⟩ := onPool_eq_ok hname
  obtain ⟨p₂, hp₂, rfl⟩ := onPool_eq_ok hdesc
  cases hpush
  obtain ⟨hbuilt₁, -, htext₁⟩ := Pool.utf8_eq_ok hd hp₁
  obtain ⟨hbuilt₂, hgrows₂, htext₂⟩ := Pool.utf8_eq_ok hbuilt₁ hp₂
  exact ⟨⟨access, name, desc, i, j⟩, rfl, rfl, (hgrows₂.extends hbuilt₂).text? htext₁, htext₂⟩

-- The fields of a class are those of the list, and the pool names them.
structure HasFields (d : Draft) (fields : List (UInt16 × String × String)) : Prop where
  eq : d.fields.toList.map FieldInfo.signature = fields
  named : ∀ f ∈ d.fields, f.Named d.pool.get?

-- Fields one behind the other.
theorem hasFields_of_forM {access : UInt16} {fields : List (String × String)} {u : PUnit}
    {before : List (UInt16 × String × String)} (hd : d.pool.Built) (hbefore : d.HasFields before)
    (h : fields.forM (fun p => addField access p.1 p.2) d = .ok u d') :
    d.Declares [] d' ∧ d'.HasFields (before ++ fields.map fun p => (access, p.1, p.2)) := by
  induction fields generalizing d before with
  | nil =>
    cases h
    exact ⟨.refl hd, by simpa using hbefore⟩
  | cons p rest ih =>
    obtain ⟨v, d₁, hfirst, hrest⟩ := bind_eq_ok.mp h
    have hdeclares := addField_declares hd hfirst
    obtain ⟨f, hfields, hsig, hnamed⟩ := addField_eq_ok hd hfirst
    have hone : d₁.HasFields (before ++ [(access, p.1, p.2)]) := by
      constructor
      · rw [hfields, Array.toList_push, List.map_append, hbefore.eq, List.map_singleton, hsig]
      · intro g hg
        rw [hfields, Array.mem_push] at hg
        obtain hg | rfl := hg
        · exact (hbefore.named g hg).extends (hdeclares.grows.extends hdeclares.built)
        · exact hnamed
    obtain ⟨hrest, hhas⟩ := ih hdeclares.built hone hrest
    exact ⟨hdeclares.trans hrest, by simpa using hhas⟩

theorem HasFields.extends {fields : List (UInt16 × String × String)} (h : d.HasFields fields)
    {k : Constants} (hk : Constants.Extends k d.pool.get?) : ∀ f ∈ d.fields, f.Named k :=
  fun f hf => (h.named f hf).extends hk

-- A class that was just created has no fields.
theorem hasFields_create {name superName : String} {access major : UInt16}
    (h : create name superName access major = .ok d) : d.HasFields [] := by
  unfold create at h
  dsimp only at h
  split at h
  · cases h
    exact ⟨rfl, by simp⟩
  · cases h

end Draft

end PodCompiler.ClassFile
