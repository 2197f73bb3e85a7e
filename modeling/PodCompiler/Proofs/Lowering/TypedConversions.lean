import PodCompiler.Proofs.Lowering.TypedItems
import PodCompiler.Proofs.TypeRef.Bits

namespace PodCompiler.Lowering

open ClassFile (Constants Member)
open ClassFile.Op
open Jvm (CallMode Kind Signature opKinds)

section Descriptors

variable {cls : String} {t u : TypeRef}

-- What is behind the first colon of a signature.
theorem tail_dropWhile_colon {front : List Char} (h : ':' ∉ front) (rest : List Char) :
    ((front ++ ':' :: rest).dropWhile (· ≠ ':')).tail = rest := by
  have hall : ∀ c ∈ front, decide (c ≠ ':') = true := by
    intro c hc
    refine decide_eq_true ?_
    rintro rfl
    exact h hc
  rw [List.dropWhile_append_of_pos hall]
  simp

-- It ends with what is behind any colon.
theorem exists_tail_dropWhile_colon (front rest : List Char) :
    ∃ more, ((front ++ ':' :: rest).dropWhile (· ≠ ':')).tail = more ++ rest := by
  by_cases h : ':' ∈ front
  · obtain ⟨before, after, rfl, hbefore⟩ := List.eq_append_cons_of_mem h
    refine ⟨after ++ [':'], ?_⟩
    rw [List.append_assoc, List.cons_append, tail_dropWhile_colon hbefore]
    simp
  · exact ⟨[], tail_dropWhile_colon h rest⟩

theorem colon_notMem_literalField (n : Nat) : ':' ∉ (literalField n).toList := by
  have hchars : (literalField n).toList = "type$".toList ++ (toString n).toList :=
    String.toList_append
  intro h
  rw [hchars, List.mem_append] at h
  obtain h | h := h
  · exact absurd h (by decide)
  · have hdigit : ':' ∈ Nat.toDigits 10 n := by simpa using h
    exact absurd (Nat.isDigit_of_mem_toDigits (by decide) (by decide) hdigit) (by decide)

-- The fields of a class for the types that it keeps can be read unless its name has a colon.
theorem ofSig?_typeLiteral (n : Nat) :
    Kind.ofSig? s!"{cls}.{literalField n}:{typeDesc}" =
      if ':' ∈ cls.toList then none else some .ref := by
  have hchars : s!"{cls}.{literalField n}:{typeDesc}".toList =
      cls.toList ++ '.' :: ((literalField n).toList ++ ':' :: typeDesc.toList) := by
    simp [toString]
  unfold Kind.ofSig?
  rw [hchars]
  split
  · rename_i hcolon
    -- What is behind the colon of the name holds the dot, and is no descriptor.
    obtain ⟨before, after, hcls, hbefore⟩ := List.eq_append_cons_of_mem hcolon
    rw [hcls, List.append_assoc, List.cons_append, tail_dropWhile_colon hbefore]
    unfold Kind.ofDesc?
    rw [String.toList_ofList]
    split
    · rename_i u hfield
      exact absurd (by simp) (ClassFile.Descriptor.dot_notMem_of_field? hfield)
    · rfl
  · rename_i hcolon
    have hfront : ':' ∉ cls.toList ++ '.' :: (literalField n).toList := by
      simp [hcolon, colon_notMem_literalField]
    rw [← List.cons_append, ← List.append_assoc, tail_dropWhile_colon hfront]
    decide +kernel

-- The field in which the runtime keeps a type of `sys`.
def sysTypeField (t : TypeRef) : String :=
  s!"fan/sys/Sys.{t.name}Type:Lfan/sys/Type;"

theorem ofSig?_sysTypeField {k : Kind} (h : Kind.ofSig? (sysTypeField t) = some k) : k = .ref := by
  have hchars : (sysTypeField t).toList = ("fan/sys/Sys.".toList ++ t.name.toList ++ "Type".toList) ++
      ':' :: "Lfan/sys/Type;".toList := by
    simp [sysTypeField, toString]
  obtain ⟨more, hmore⟩ := exists_tail_dropWhile_colon
    ("fan/sys/Sys.".toList ++ t.name.toList ++ "Type".toList) "Lfan/sys/Type;".toList
  unfold Kind.ofSig? at h
  rw [hchars, hmore] at h
  refine Kind.eq_ref_of_ofDesc? h ?_
  simp

end Descriptors

section Sequences

variable {cls : String} {t u : TypeRef} {items : List (Item Ref)}

open Conversion

theorem turns_throwErr {a b : List Kind} : Turns cls throwErr (.ref :: a) b := by
  have hsig : Kind.ofSig? "fan/sys/Err.val:Lfan/sys/Err$Val;" = some .ref := by decide +kernel
  exact ((Turns.getField hsig).above a).cons .throw

theorem turns_nullCheck : Turns cls nullCheck [.ref] [.ref] := by
  have hsig : Signature.ofSig? "fan/sys/NullErr.makeCoerce()Lfan/sys/NullErr;" =
      some ⟨[], some .ref⟩ := by decide +kernel
  have hmake : Turns cls [.callStatic "fan/sys/NullErr.makeCoerce()Lfan/sys/NullErr;"] [] [.ref] :=
    .call .static hsig
  have hthrows : Turns cls (.callStatic "fan/sys/NullErr.makeCoerce()Lfan/sys/NullErr;" :: throwErr)
      [.ref] [.ref] :=
    (hmake.above [.ref]).cons turns_throwErr
  have hdup : Turns cls [.op dup] [.ref] [.ref, .ref] := .op (by decide) rfl
  have hskip : Turns cls (.hop ifNonNull 10 ::
      (.callStatic "fan/sys/NullErr.makeCoerce()Lfan/sys/NullErr;" :: throwErr))
      ([Kind.ref] ++ [Kind.ref]) ([] ++ [Kind.ref]) :=
    .skip (by decide) rfl (by decide) (by decide) rfl hthrows
  exact hdup.cons hskip

-- Whether the machine finds no type for the field from which a type is pushed. The field is cut off at
-- the first colon, which may be one of a name.
def Unreadable (cls : String) (t : TypeRef) : Prop :=
  if t.isSys && !t.isGenericInstance then Kind.ofSig? (sysTypeField t) = none
  else ':' ∈ cls.toList

theorem turns_keptType (hcolon : ':' ∉ cls.toList) :
    Turns cls [.const getStatic (.typeLiteral t.signature)] [] [.ref] ∧
      Turns cls [.const putStatic (.typeLiteral t.signature)] [.ref] [] := by
  have hdesc : ∀ (n : Nat) (m : Member),
      Member.ofField s!"{cls}.{literalField n}:{typeDesc}" = .ok m →
        Kind.ofDesc? m.desc = some .ref := by
    intro n m hm
    rw [Kind.ofDesc?_of_ofField hm, ofSig?_typeLiteral, if_neg hcolon]
  constructor
  · exact .const rfl rfl fun _ _ _ _ hop hi ⟨n, m, hsig, hm⟩ =>
      .getStatic hop hi hm (hdesc n m hsig)
  · exact .const rfl rfl fun _ _ _ _ hop hi ⟨n, m, hsig, hm⟩ =>
      .putStatic hop hi hm (hdesc n m hsig)

theorem turns_pushType (h : ¬Unreadable cls t) : Turns cls (pushType t) [] [.ref] := by
  unfold Unreadable at h
  unfold pushType
  split
  · rename_i hsys
    rw [if_pos hsys] at h
    obtain ⟨k, hk⟩ := Option.ne_none_iff_exists'.mp h
    obtain rfl := ofSig?_sysTypeField hk
    refine (Turns.getStatic hk).cons ?_
    split
    · have hsig : Signature.ofSig? "fan/sys/Type.toNullable()Lfan/sys/Type;" =
          some ⟨[], some .ref⟩ := by decide +kernel
      exact .call .virtual hsig
    · exact .nil
  · rename_i hsys
    rw [if_neg hsys] at h
    obtain ⟨hget, hput⟩ := turns_keptType (t := t) h
    have hdup : Turns cls [.op dup] [.ref] [.ref, .ref] := .op (by decide) rfl
    have hpop : Turns cls [.op ClassFile.Op.pop] [.ref] [] := .op (by decide) rfl
    have hone : Turns cls [.op iconst1] [] [.int] := .op (by decide) rfl
    have hsig : Signature.ofSig? "fan/sys/Type.find(Ljava/lang/String;Z)Lfan/sys/Type;" =
        some ⟨[.ref, .int], some .ref⟩ := by decide +kernel
    have hfind : Turns cls
        [.callStatic "fan/sys/Type.find(Ljava/lang/String;Z)Lfan/sys/Type;"] [.int, .ref] [.ref] :=
      .call .static hsig
    have hlook : Turns cls [.op ClassFile.Op.pop, .const ldcW (.string t.signature), .op iconst1,
        .callStatic "fan/sys/Type.find(Ljava/lang/String;Z)Lfan/sys/Type;", .op dup,
        .const putStatic (.typeLiteral t.signature)] [.ref] [.ref] :=
      hpop.cons ((Turns.string _).cons ((hone.above [.ref]).cons (hfind.cons (hdup.cons
        (hput.above [.ref])))))
    have hskip : Turns cls (.hop ifNonNull 15 :: [.op ClassFile.Op.pop,
        .const ldcW (.string t.signature), .op iconst1,
        .callStatic "fan/sys/Type.find(Ljava/lang/String;Z)Lfan/sys/Type;", .op dup,
        .const putStatic (.typeLiteral t.signature)]) ([Kind.ref] ++ [Kind.ref]) ([] ++ [Kind.ref]) :=
      .skip (by decide) rfl (by decide) (by decide) rfl hlook
    exact hget.cons (hdup.cons hskip)

theorem stuck_pushType {takes : List Kind} (h : Unreadable cls t) :
    Stuck cls (pushType t) takes := by
  unfold Unreadable at h
  unfold pushType
  split
  · rename_i hsys
    rw [if_pos hsys] at h
    have hstuck : Stuck cls [.const getStatic (.field (sysTypeField t))] takes :=
      .getStatic fun k i ⟨m, hsig, hm⟩ => ⟨m, hm, by rw [Kind.ofDesc?_of_ofField hsig, h]⟩
    exact hstuck.append _
  · rename_i hsys
    rw [if_neg hsys] at h
    have hstuck : Stuck cls [.const getStatic (.typeLiteral t.signature)] takes :=
      .getStatic fun k i ⟨n, m, hsig, hm⟩ =>
        ⟨m, hm, by rw [Kind.ofDesc?_of_ofField hsig, ofSig?_typeLiteral, if_pos h]⟩
    exact hstuck.append _

theorem turns_isInstance (h : t.isGenericInstance = true → ¬Unreadable cls t) :
    Turns cls (isInstance t) [.ref] [.int] := by
  unfold isInstance
  split
  · rename_i hgeneric
    have hsig : Signature.ofSig? "fanx/util/OpUtil.is(Ljava/lang/Object;Lfan/sys/Type;)Z" =
        some ⟨[.ref, .ref], some .int⟩ := by decide +kernel
    have hcall : Turns cls
        [.callStatic "fanx/util/OpUtil.is(Ljava/lang/Object;Lfan/sys/Type;)Z"] [.ref, .ref] [.int] :=
      .call .static hsig
    exact ((turns_pushType (h hgeneric)).above [.ref]).append hcall
  · exact .instanceOf _

theorem turns_asInstance (h : t.isGenericInstance = true → ¬Unreadable cls t) :
    Turns cls (asInstance t) [.ref] [.ref] := by
  unfold asInstance
  dsimp only
  split
  · rename_i hgeneric
    have hsig : Signature.ofSig?
        "fanx/util/OpUtil.as(Ljava/lang/Object;Lfan/sys/Type;)Ljava/lang/Object;" =
          some ⟨[.ref, .ref], some .ref⟩ := by decide +kernel
    have hcall : Turns cls
        [.callStatic "fanx/util/OpUtil.as(Ljava/lang/Object;Lfan/sys/Type;)Ljava/lang/Object;"]
        [.ref, .ref] [.ref] :=
      .call .static hsig
    have hpush : Turns cls (.reserve (.class_ t.jnameBoxed) :: pushType t) [.ref] [.ref, .ref] :=
      (Turns.reserve _).cons ((turns_pushType (h hgeneric)).above [.ref])
    exact hpush.append (hcall.cons (.checkCast _))
  · have hdup : Turns cls [.op dup] [.ref] [.ref, .ref] := .op (by decide) rfl
    have hpop : Turns cls [.op ClassFile.Op.pop] [.ref] [] := .op (by decide) rfl
    have hnull : Turns cls [.op aconstNull] [] [.ref] := .op (by decide) rfl
    have hother : Turns cls [.op ClassFile.Op.pop, .op aconstNull] [.ref] [.ref] := hpop.cons hnull
    have hcast : Turns cls [.const checkCast (.class_ t.jnameBoxed)] [.ref] [.ref] := .checkCast _
    have hkinds : (ifne, [.int], []) ∈ opKinds := by decide
    have hjoin : Turns cls (.hop ifne 8 :: ([Item.op ClassFile.Op.pop, .op aconstNull] ++
        Item.hop goto 6 :: [.const checkCast (Ref.class_ t.jnameBoxed)]))
        ([Kind.int] ++ [Kind.ref]) [.ref] :=
      .choose hkinds rfl (by decide) (by decide) (by decide) rfl rfl hother hcast
    exact hdup.cons (((Turns.instanceOf _).above [.ref]).cons hjoin)

-- What asks for a generic instance as a value needs its field first.
theorem stuck_isInstance (hgeneric : t.isGenericInstance = true) (h : Unreadable cls t) :
    Stuck cls (isInstance t) [.ref] := by
  unfold isInstance
  rw [if_pos hgeneric]
  exact (stuck_pushType h).append _

theorem stuck_asInstance (hgeneric : t.isGenericInstance = true) (h : Unreadable cls t) :
    Stuck cls (asInstance t) [.ref] := by
  unfold asInstance
  dsimp only
  rw [if_pos hgeneric]
  exact ((stuck_pushType h).append _).reserve _

-- The classes that box primitives, and their methods, have names that can be told apart.
theorem parts_of_boxing? {s : StackType} {name getter : String}
    (h : s.boxing? = some (name, getter)) :
    ClassFile.Descriptor.primitive? s.letter = some s ∧
      ClassFile.Descriptor.result? [s.letter] = some s ∧ s ≠ .void ∧
      ClassFile.Descriptor.isClassName name = true ∧ '(' ∉ name.toList ∧ '(' ∉ getter.toList := by
  cases s <;> cases h <;> exact ⟨rfl, rfl, by decide, by decide, by decide, by decide⟩

theorem turns_box {s : StackType} (h : box s = .ok items) :
    Turns cls items [.ofStack s] [.ref] := by
  unfold box at h
  split at h
  · rename_i name getter hboxing
    cases h
    obtain ⟨hletter, -, -, hname, hbracket, -⟩ := parts_of_boxing? hboxing
    have hfield : ClassFile.Descriptor.field? (s.letter :: ')' :: ("L" ++ name ++ ";").toList) =
        some (s, ')' :: ("L" ++ name ++ ";").toList) := by
      unfold ClassFile.Descriptor.field?
      rw [hletter]
    have hparams := ClassFile.Descriptor.params?_field hfield
    rw [ClassFile.Descriptor.params?_close] at hparams
    have hresult : ClassFile.Descriptor.result? ("L" ++ name ++ ";").toList = some .obj :=
      ClassFile.Descriptor.result?_of_field? (by simp) (ClassFile.Descriptor.field?_class hname)
    have hsig : Signature.ofSig? s!"{name}.valueOf({s.letter})L{name};" =
        some ⟨[.ofStack s], some .ref⟩ :=
      Signature.ofSig?_eq (name.toList ++ ".valueOf".toList) (by simp [toString])
        (by simp [hbracket]) hparams hresult
    exact .call .static hsig
  · cases h

theorem turns_unbox {s : StackType} (h : unbox s = .ok items) :
    Turns cls items [.ref] [.ofStack s] := by
  unfold unbox at h
  split at h
  · rename_i name getter hboxing
    cases h
    obtain ⟨-, hresult, hvoid, -, hbracket, hgetter⟩ := parts_of_boxing? hboxing
    have hgives : Kind.returned s = some (.ofStack s) := by
      cases s <;> first | rfl | exact absurd rfl hvoid
    have hsig : Signature.ofSig? s!"{name}.{getter}(){s.letter}" = some ⟨[], some (.ofStack s)⟩ := by
      rw [← hgives]
      exact Signature.ofSig?_eq (name.toList ++ '.' :: getter.toList) (by simp [toString])
        (by simp [hbracket, hgetter]) (ClassFile.Descriptor.params?_close _) hresult
    exact (Turns.checkCast _).cons (.call .virtual hsig)
  · cases h

-- The kind of a number.
def numberKind : NumberKind → Kind
  | .int => .int
  | .long => .long
  | .float => .float
  | .double => .double

theorem ofStack_of_numberKind? {s : StackType} {a : NumberKind} (h : numberKind? s = some a) :
    Kind.ofStack s = numberKind a := by
  cases s <;> cases h <;> rfl

theorem turns_convertKind (a b : NumberKind) :
    Turns cls ((convertKind a b).map .op) [numberKind a] [numberKind b] := by
  cases a <;> cases b <;> first | exact .nil | exact .op (by decide) rfl

theorem turns_narrow {s : StackType} {a : NumberKind} (h : numberKind? s = some a) :
    Turns cls ((narrow s).map .op) [numberKind a] [numberKind a] := by
  cases s <;> cases h <;> first | exact .nil | exact .op (by decide) rfl

theorem turns_convert {s s' : StackType} {codes : List UInt8} (h : convert? s s' = some codes) :
    Turns cls (codes.map .op) [.ofStack s] [.ofStack s'] := by
  unfold convert? at h
  split at h
  · rename_i a b ha hb
    cases h
    rw [List.map_append, ofStack_of_numberKind? ha, ofStack_of_numberKind? hb]
    exact (turns_convertKind a b).append (turns_narrow hb)
  · cases h

theorem turns_cast (h : Conversion.cast t = .ok items) (hvoid : t.stack ≠ .void) :
    Turns cls items [.ref] [.ofStack t.stack] := by
  unfold Conversion.cast at h
  split at h
  · exact turns_unbox h
  · rename_i hprimitive
    cases h
    rw [TypeRef.isPrimitive_iff] at hprimitive
    have hobj : t.stack = .obj := by
      by_contra hobj
      exact hprimitive ⟨hobj, hvoid⟩
    rw [hobj]
    exact .checkCast _

theorem turns_coerce (h : coerce t u = .ok items) :
    Turns cls items [.ofStack t.stack] [.ofStack u.stack] := by
  have hcheck : Turns cls (if t.isNullable then nullCheck else []) [.ref] [.ref] := by
    split
    · exact turns_nullCheck
    · exact .nil
  unfold coerce at h
  dsimp only at h
  split at h
  · cases h
  · cases h
  · rename_i ht hu
    cases h
    rw [ht, hu]
    refine Turns.append (b := [.ref]) ?_ ?_
    · split
      · exact turns_nullCheck
      · exact .nil
    · split
      · exact .checkCast _
      · exact .nil
  · rename_i hu _ _
    rw [hu]
    exact turns_box h
  · rename_i ht _ _
    rw [ht]
    obtain ⟨unboxed, hunboxed, h⟩ := except_bind_eq_ok.mp h
    cases h
    exact hcheck.append (turns_unbox hunboxed)
  · split at h
    · rename_i heq
      cases h
      rw [heq]
      exact .nil
    · split at h
      · rename_i codes hcodes
        cases h
        exact turns_convert hcodes
      · cases h

theorem turns_popItems (hvoid : t.stack ≠ .void) :
    Turns cls (popItems t) [.ofStack t.stack] [] := by
  unfold popItems TypeRef.isVoid TypeRef.isWide
  cases hstack : t.stack with
  | void => exact absurd hstack hvoid
  | _ => exact .op (by decide) rfl

theorem turns_dup : Turns cls [.op (if t.isWide then dup2 else dup)] [.ofStack t.stack]
    [.ofStack t.stack, .ofStack t.stack] := by
  unfold TypeRef.isWide
  cases t.stack <;> exact .op (by decide) rfl

end Sequences

end PodCompiler.Lowering
