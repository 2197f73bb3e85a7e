import PodCompiler.TypeRef.Basic

namespace PodCompiler

namespace ClassFile.Descriptor

-- The primitives by their letters.
def primitive? : Char → Option StackType
  | 'Z' => some .bool
  | 'B' => some .byte
  | 'S' => some .short
  | 'C' => some .char
  | 'I' => some .int
  | 'J' => some .long
  | 'F' => some .float
  | 'D' => some .double
  | _ => none

-- Whether characters end the name of a class: its parts are not empty, and hold none of the
-- characters that have a meaning in a descriptor. `first` says that a part begins here.
def isNameFrom (first : Bool) : List Char → Bool
  | [] => !first
  | c :: rest =>
    if c = '/' then !first && isNameFrom true rest
    else c ≠ '.' && c ≠ ';' && c ≠ '[' && isNameFrom false rest

def isClassName (name : String) : Bool :=
  isNameFrom true name.toList

-- What is behind the name of a class, which a semicolon ends.
def afterClass? (cs : List Char) : Option (List Char) :=
  match cs.dropWhile (· ≠ ';') with
  | [] => none
  | _ :: rest => if isNameFrom true (cs.takeWhile (· ≠ ';')) then some rest else none

-- The type at the start, and what is behind it.
def field? : List Char → Option (StackType × List Char)
  | [] => none
  | c :: rest =>
    match primitive? c with
    | some t => some (t, rest)
    | none =>
      if c = 'L' then (afterClass? rest).map (.obj, ·)
      else if c = '[' then (field? rest).map (.obj, ·.2)
      else none

theorem length_afterClass? {cs rest : List Char} (h : afterClass? cs = some rest) :
    rest.length < cs.length := by
  unfold afterClass? at h
  split at h
  · cases h
  · rename_i c tail hdrop
    split at h
    · cases h
      have hlen := (List.dropWhile_suffix (· ≠ ';') (l := cs)).length_le
      rw [hdrop] at hlen
      exact hlen
    · cases h

theorem length_field? {cs rest : List Char} {t : StackType} (h : field? cs = some (t, rest)) :
    rest.length < cs.length := by
  induction cs generalizing t rest with
  | nil => cases h
  | cons c cs ih =>
    unfold field? at h
    split at h
    · cases h
      exact Nat.lt_succ_self _
    · split at h
      · obtain ⟨tail, htail, heq⟩ := Option.map_eq_some_iff.mp h
        cases heq
        exact Nat.lt_succ_of_lt (length_afterClass? htail)
      · split at h
        · obtain ⟨⟨u, tail⟩, htail, heq⟩ := Option.map_eq_some_iff.mp h
          cases heq
          exact Nat.lt_succ_of_lt (ih htail)
        · cases h

-- The types up to the closing bracket, and what is behind it.
def params? (cs : List Char) : Option (List StackType × List Char) :=
  if cs.head? = some ')' then some ([], cs.tail)
  else
    match _h : field? cs with
    | none => none
    | some (t, rest) => (params? rest).map fun found => (t :: found.1, found.2)
termination_by cs.length
decreasing_by exact length_field? _h

-- The type of a result, which may be none.
def result? (cs : List Char) : Option StackType :=
  if cs = ['V'] then some .void
  else
    match field? cs with
    | some (t, []) => some t
    | _ => none

-- The types of the arguments of a method, and what is behind them.
def method? (desc : String) : Option (List StackType × List Char) :=
  match desc.toList with
  | '(' :: cs => params? cs
  | _ => none

-- The types of the arguments of a method.
def arguments? (desc : String) : Option (List StackType) :=
  (method? desc).map (·.1)

-- The type of what a method returns.
def returned? (desc : String) : Option StackType :=
  (method? desc).bind fun found => result? found.2

theorem result?_of_field? {cs : List Char} {t : StackType} (hcs : cs ≠ ['V'])
    (h : field? cs = some (t, [])) : result? cs = some t := by
  rw [result?, if_neg hcs, h]

theorem afterClass?_append {cs rest : List Char} (h : afterClass? cs = some rest)
    (more : List Char) : afterClass? (cs ++ more) = some (rest ++ more) := by
  unfold afterClass? at h ⊢
  split at h
  · cases h
  · rename_i c tail hdrop
    have hlt : (cs.takeWhile (· ≠ ';')).length ≠ cs.length := by
      have hlen := congrArg List.length (List.takeWhile_append_dropWhile (p := (· ≠ ';')) (l := cs))
      rw [hdrop, List.length_append, List.length_cons] at hlen
      omega
    rw [List.dropWhile_append, hdrop, List.takeWhile_append, if_neg hlt]
    split at h
    · rename_i hname
      cases h
      dsimp only [List.isEmpty_cons]
      rw [if_neg Bool.false_ne_true]
      exact if_pos hname
    · cases h

-- What is behind a type does not change it.
theorem field?_append {cs rest : List Char} {t : StackType} (h : field? cs = some (t, rest))
    (more : List Char) : field? (cs ++ more) = some (t, rest ++ more) := by
  induction cs generalizing t rest with
  | nil => cases h
  | cons c cs ih =>
    rw [List.cons_append]
    unfold field? at h ⊢
    split at h
    · cases h
      rfl
    · split at h
      · rename_i hclass
        obtain ⟨tail, htail, heq⟩ := Option.map_eq_some_iff.mp h
        cases heq
        rw [if_pos hclass, afterClass?_append htail]
        rfl
      · rename_i hclass
        split at h
        · rename_i harray
          obtain ⟨⟨u, tail⟩, htail, heq⟩ := Option.map_eq_some_iff.mp h
          cases heq
          rw [if_neg hclass, if_pos harray, ih htail]
          rfl
        · cases h

-- The name of a class holds no character that has a meaning in a descriptor.
theorem of_isNameFrom {first : Bool} {cs : List Char} (h : isNameFrom first cs = true) :
    ∀ c ∈ cs, c ≠ '.' ∧ c ≠ ';' ∧ c ≠ '[' := by
  induction cs generalizing first with
  | nil => simp
  | cons c cs ih =>
    unfold isNameFrom at h
    rw [List.forall_mem_cons]
    split at h
    · rename_i hslash
      rw [Bool.and_eq_true] at h
      exact ⟨by simp [hslash], ih h.2⟩
    · simp only [Bool.and_eq_true, decide_eq_true_eq] at h
      exact ⟨⟨h.1.1.1, h.1.1.2, h.1.2⟩, ih h.2⟩

theorem ne_of_isNameFrom {first : Bool} {cs : List Char} (h : isNameFrom first cs = true) :
    ∀ c ∈ cs, (c ≠ ';' : Bool) = true :=
  fun c hc => decide_eq_true (of_isNameFrom h c hc).2.1

-- A class is its name, and what ends it.
theorem afterClass?_eq_some {cs rest : List Char} (h : afterClass? cs = some rest) :
    ∃ name, cs = name ++ ';' :: rest ∧ isNameFrom true name = true := by
  unfold afterClass? at h
  split at h
  · cases h
  · rename_i c tail hdrop
    split at h
    · rename_i hname
      cases h
      have hne : cs.dropWhile (· ≠ ';') ≠ [] := by
        rw [hdrop]
        simp
      have hhead := List.head_dropWhile_not (fun x => decide (x ≠ ';')) hne
      simp only [hdrop, List.head_cons] at hhead
      have hc : c = ';' := by simpa using hhead
      rw [hc] at hdrop
      refine ⟨_, ?_, hname⟩
      rw [← hdrop, List.takeWhile_append_dropWhile]
    · cases h

-- A type that is read to its end holds no dot.
theorem dot_notMem_of_field? {cs : List Char} {t : StackType} (h : field? cs = some (t, [])) :
    '.' ∉ cs := by
  induction cs generalizing t with
  | nil => simp
  | cons c cs ih =>
    unfold field? at h
    rw [List.mem_cons, not_or]
    split at h
    · rename_i hc
      cases h
      refine ⟨?_, by simp⟩
      rintro rfl
      cases hc
    · split at h
      · rename_i hclass
        obtain ⟨rest, hafter, heq⟩ := Option.map_eq_some_iff.mp h
        cases heq
        refine ⟨by rw [hclass]; decide, ?_⟩
        obtain ⟨name, rfl, hname⟩ := afterClass?_eq_some hafter
        intro hdot
        obtain hdot | hdot := List.mem_append.mp hdot
        · exact (of_isNameFrom hname _ hdot).1 rfl
        · exact absurd hdot (by decide)
      · split at h
        · rename_i harray
          obtain ⟨⟨u, tail⟩, htail, heq⟩ := Option.map_eq_some_iff.mp h
          cases heq
          exact ⟨by rw [harray]; decide, ih htail⟩
        · cases h

-- A type of more than one character is a reference.
theorem eq_obj_of_length {cs : List Char} {t : StackType} (h : field? cs = some (t, []))
    (hlength : 2 ≤ cs.length) : t = .obj := by
  cases cs with
  | nil => cases h
  | cons c cs =>
    unfold field? at h
    split at h
    · cases h
      exact absurd hlength (by simp)
    · split at h
      · obtain ⟨_, _, heq⟩ := Option.map_eq_some_iff.mp h
        cases heq
        rfl
      · split at h
        · obtain ⟨⟨u, tail⟩, _, heq⟩ := Option.map_eq_some_iff.mp h
          cases heq
          rfl
        · cases h

-- The descriptor of a class.
theorem field?_class {name : String} (h : isClassName name = true) :
    field? ("L" ++ name ++ ";").toList = some (.obj, []) := by
  have hne := ne_of_isNameFrom h
  have hafter : afterClass? (name.toList ++ [';']) = some [] := by
    unfold afterClass?
    rw [List.dropWhile_append_of_pos hne, List.takeWhile_append_of_pos hne]
    have hname : isNameFrom true name.toList = true := h
    simp [hname]
  simp only [String.toList_append]
  change field? ('L' :: (name.toList ++ [';'])) = _
  unfold field?
  simp [primitive?, hafter]

theorem params?_close (rest : List Char) : params? (')' :: rest) = some ([], rest) := by
  rw [params?, List.head?_cons, if_pos rfl, List.tail_cons]

theorem params?_field {cs rest : List Char} {t : StackType} (h : field? cs = some (t, rest)) :
    params? cs = (params? rest).map fun found => (t :: found.1, found.2) := by
  have hhead : ¬cs.head? = some ')' := by
    intro hhead
    cases cs with
    | nil => cases hhead
    | cons c cs =>
      cases hhead
      cases h
  rw [params?, if_neg hhead]
  split
  · rename_i hnone
    rw [h] at hnone
    cases hnone
  · rename_i t' rest' hsome
    rw [h] at hsome
    cases hsome
    rfl

end ClassFile.Descriptor

open ClassFile.Descriptor

namespace TypeRef

variable {t : TypeRef}

-- A keyword of the nameless package.
theorem ofType_keyword {name : String} {k : StackType} (h : JavaName.keyword? name = some k)
    (nullable : Bool) :
    JavaName.ofType JavaName.ffiMark name nullable = String.singleton k.letter := by
  have hmark : JavaName.ffiMark.startsWith "[" = true := by
    rw [String.startsWith_string_iff]
    decide
  have hpackage : JavaName.package JavaName.ffiMark = "" := by
    unfold JavaName.package
    rw [if_pos (String.startsWith_string_iff.mpr (List.prefix_rfl))]
    rfl
  unfold JavaName.ofType JavaName.ofFfi
  dsimp only
  rw [if_neg (by decide), hpackage, h]
  dsimp only
  rw [if_pos hmark]
  rfl

-- A type that is held as a primitive, or not at all, is known by its letter.
theorem jname_of_stack (h : t.stack ≠ .obj) : t.jname = String.singleton t.stack.letter := by
  unfold jname
  unfold stack at h ⊢
  split at h
  · rename_i hpod
    rw [if_pos hpod, hpod]
    cases hkeyword : JavaName.keyword? t.name with
    | none =>
      rw [hkeyword] at h
      exact absurd rfl h
    | some k => exact ofType_keyword hkeyword _
  · rename_i hpod
    rw [if_neg hpod]
    split at h
    · rename_i hsys
      have hpod : t.pod = "sys" := by simpa [isSys] using hsys
      rw [if_pos hsys, hpod]
      split at h
      · rename_i hvoid
        rw [if_pos hvoid, hvoid]
        rfl
      · rename_i hvoid
        rw [if_neg hvoid]
        split at h
        · exact absurd rfl h
        · rename_i hnullable
          have hnullable : t.isNullable = false := by simpa using hnullable
          rw [hnullable, if_neg Bool.false_ne_true]
          unfold sysPrimitive? at h ⊢
          split at h
          · rename_i hname
            rw [hname]
            rfl
          · rename_i hname
            rw [hname]
            rfl
          · rename_i hname
            rw [hname]
            rfl
          · exact absurd rfl h
    · exact absurd rfl h

theorem jsig_of_stack (h : t.stack ≠ .obj) : t.jsig = String.singleton t.stack.letter := by
  unfold jsig
  dsimp only
  rw [if_pos (by simp [h]), jname_of_stack h]

-- The descriptor of a reference says so.
theorem jsig_of_obj (h : t.stack = .obj) :
    ∃ rest, t.jsig.toList = '[' :: rest ∨ t.jsig.toList = 'L' :: rest := by
  unfold jsig
  dsimp only
  rw [h]
  split
  · rename_i hstart
    have hstart : t.jname.startsWith "[" = true := by simpa using hstart
    obtain ⟨rest, hrest⟩ := String.startsWith_string_iff.mp hstart
    exact ⟨rest, .inl hrest.symm⟩
  · exact ⟨t.jname.toList ++ [';'], .inr (by simp [toString])⟩

-- Whether the type has a descriptor.
def IsField (t : TypeRef) : Prop :=
  (field? t.jsig.toList).map (·.2) = some []

instance : Decidable t.IsField :=
  inferInstanceAs (Decidable (_ = _))

-- Whether a method can return the type.
def IsResult (t : TypeRef) : Prop :=
  (result? t.jsig.toList).isSome = true

instance : Decidable t.IsResult :=
  inferInstanceAs (Decidable (_ = _))

-- A reference is read as one.
theorem eq_obj_of_field? (h : t.stack = .obj) {k : StackType} {rest : List Char}
    (hfield : field? t.jsig.toList = some (k, rest)) : k = .obj := by
  obtain ⟨cs, hcs | hcs⟩ := jsig_of_obj h
  · rw [hcs] at hfield
    obtain ⟨⟨u, tail⟩, -, heq⟩ := Option.map_eq_some_iff.mp hfield
    cases heq
    rfl
  · rw [hcs] at hfield
    obtain ⟨tail, -, heq⟩ := Option.map_eq_some_iff.mp hfield
    cases heq
    rfl

-- A primitive is read as it is.
theorem field?_of_stack (h : t.stack ≠ .obj) :
    field? t.jsig.toList = if t.stack = .void then none else some (t.stack, []) := by
  rw [jsig_of_stack h]
  cases hstack : t.stack with
  | obj => exact absurd hstack h
  | _ => rfl

-- A type is read from its descriptor as the stack type by which it is held.
theorem IsField.field?_jsig (h : t.IsField) : field? t.jsig.toList = some (t.stack, []) := by
  obtain ⟨⟨k, rest⟩, hfield, rfl⟩ := Option.map_eq_some_iff.mp h
  by_cases hstack : t.stack = .obj
  · rw [hfield, hstack, eq_obj_of_field? hstack hfield]
  · rw [field?_of_stack hstack] at hfield ⊢
    split at hfield
    · cases hfield
    · rename_i hvoid
      rw [if_neg hvoid]

theorem IsResult.result?_jsig (h : t.IsResult) : result? t.jsig.toList = some t.stack := by
  unfold IsResult at h
  by_cases hstack : t.stack = .obj
  · unfold result? at h ⊢
    have hvoid : ¬t.jsig.toList = ['V'] := by
      obtain ⟨cs, hcs | hcs⟩ := jsig_of_obj hstack <;> simp [hcs]
    rw [if_neg hvoid] at h ⊢
    split at h
    · rename_i k hfield
      rw [hstack, eq_obj_of_field? hstack hfield]
    · cases h
  · rw [jsig_of_stack hstack]
    cases hkind : t.stack with
    | obj => exact absurd hkind hstack
    | _ => rfl

end TypeRef

-- Descriptors one after the other are read one after the other.
theorem ClassFile.Descriptor.params?_jsigs {ts : List TypeRef} (h : ∀ t ∈ ts, t.IsField)
    (rest : List Char) :
    params? (ts.flatMap (·.jsig.toList) ++ ')' :: rest) = some (ts.map TypeRef.stack, rest) := by
  induction ts with
  | nil => exact params?_close rest
  | cons t ts ih =>
    obtain ⟨ht, hts⟩ := List.forall_mem_cons.mp h
    rw [List.flatMap_cons, List.append_assoc, params?_field (field?_append ht.field?_jsig _),
      List.nil_append, ih hts]
    rfl

end PodCompiler
