import PodCompiler.Proofs.Lowering.Linkage

namespace PodCompiler

-- Whether a type of `sys` that has values goes by the name.
def JavaName.IsSysName (jname : String) : Prop :=
  ∃ name nullable, name ≠ "Void" ∧ JavaName.ofSys? name nullable = some jname

-- The class of the methods is another one for the names of the types of `sys` only.
theorem JavaName.implementation_eq_iff {jname : String} :
    implementation jname = jname ↔ ¬IsSysName jname := by
  constructor
  · rintro hsame ⟨name, nullable, hvoid, hname⟩
    unfold ofSys? at hname
    split at hname
    · cases nullable <;> cases hname <;> exact absurd hsame (by decide)
    · cases nullable <;> cases hname <;> exact absurd hsame (by decide)
    · cases nullable <;> cases hname <;> exact absurd hsame (by decide)
    · cases hname
      exact absurd hsame (by decide)
    · cases hname
      exact absurd hsame (by decide)
    · cases hname
      exact absurd hsame (by decide)
    · cases hname
      exact absurd hsame (by decide)
    · exact hvoid rfl
    · split at hname
      · cases hname
        exact absurd hsame (by decide)
      · cases hname
  · intro hforeign
    unfold implementation
    split
    · exact absurd ⟨"Bool", false, by decide, rfl⟩ hforeign
    · exact absurd ⟨"Bool", true, by decide, rfl⟩ hforeign
    · exact absurd ⟨"Int", false, by decide, rfl⟩ hforeign
    · exact absurd ⟨"Int", true, by decide, rfl⟩ hforeign
    · exact absurd ⟨"Float", false, by decide, rfl⟩ hforeign
    · exact absurd ⟨"Float", true, by decide, rfl⟩ hforeign
    · exact absurd ⟨"Obj", false, by decide, rfl⟩ hforeign
    · exact absurd ⟨"Str", false, by decide, rfl⟩ hforeign
    · exact absurd ⟨"Num", false, by decide, rfl⟩ hforeign
    · exact absurd ⟨"Decimal", false, by decide, rfl⟩ hforeign
    · rfl

-- The class of the methods of a type of `sys` begins with another letter than the name of the type.
theorem JavaName.exists_heads {jname : String} (h : IsSysName jname) :
    ∃ a b, (implementation jname).toList.head? = some a ∧ jname.toList.head? = some b ∧ a ≠ b := by
  have hne : implementation jname ≠ jname := fun hsame => implementation_eq_iff.mp hsame h
  unfold implementation at hne ⊢
  split at hne
  any_goals exact ⟨_, _, rfl, rfl, by decide⟩
  exact absurd rfl hne

def JavaName.sysNames : List String :=
  ["Z", "J", "D", "java/lang/Boolean", "java/lang/Long", "java/lang/Double",
    "java/math/BigDecimal", "java/lang/Number", "java/lang/Object", "java/lang/String"]

-- The path of a class: its package and its name.
def JavaName.classPath (pod name : String) : String :=
  (if (package pod).isEmpty then "" else path (package pod) ++ "/") ++ name

section Names

open JavaName

variable {jname pod name : String} {t : TypeRef}

theorem JavaName.IsSysName.mem_sysNames (h : IsSysName jname) : jname ∈ sysNames := by
  by_contra hnot
  refine implementation_eq_iff.mp ?_ h
  unfold implementation
  split <;> first | rfl | exact absurd (by decide) hnot

-- The name of an array is not among them.
theorem JavaName.not_isSysName_of_bracket (h : '[' ∈ jname.toList) : ¬IsSysName jname := by
  have hnone : ∀ j ∈ sysNames, '[' ∉ String.toList j := by decide
  exact fun hsys => hnone jname hsys.mem_sysNames h

theorem JavaName.not_isSysName_interop (h : package pod = "fanx.interop") :
    ¬IsSysName (classPath pod name) := by
  have hnone : ∀ j ∈ sysNames, (String.toList j).head? ≠ some 'f' := by decide
  refine fun hsys => hnone _ hsys.mem_sysNames ?_
  unfold classPath
  rw [h, if_neg (by decide), String.toList_append, String.toList_append, path, String.toList_map]
  rfl

-- A foreign class is known by its path, unless it is an array.
theorem JavaName.ofFfi_eq_or (hkeyword : package pod = "" → keyword? name = none) :
    ofFfi pod name = classPath pod name ∨
      '[' ∈ (ofFfi pod name).toList ∧ ¬IsSysName (classPath pod name) := by
  have hprimitive : (if (package pod).isEmpty then keyword? name else none) = none := by
    split
    · rename_i hempty
      exact hkeyword (String.isEmpty_iff.mp hempty)
    · rfl
  unfold ofFfi
  dsimp only
  rw [hprimitive]
  cases harray : if package pod = "fanx.interop" then arrayElement? name else none with
  | some e =>
    have hinterop : package pod = "fanx.interop" := by
      by_contra hother
      rw [if_neg hother] at harray
      cases harray
    exact .inr ⟨by simp, not_isSysName_interop hinterop⟩
  | none =>
    dsimp only
    cases hbrackets : name.toList.takeWhile (· = '[') with
    | nil => exact .inl (by simp [classPath])
    | cons c cs =>
      -- the brackets are part of the path, too
      have hmem : c ∈ name.toList.takeWhile (· = '[') := by simp [hbrackets]
      have hc : c = '[' := by simpa using List.mem_takeWhile_imp hmem
      have hname : '[' ∈ name.toList := hc ▸ List.takeWhile_subset _ hmem
      refine .inr ⟨by simp [hc], not_isSysName_of_bracket ?_⟩
      simp [classPath, hname]

theorem isSysName_jname_iff (hffi : t.isFfi = true) (hstack : t.stack = .obj) :
    IsSysName t.jname ↔ IsSysName (classPath t.pod t.name) := by
  obtain ⟨rest, hrest⟩ := String.startsWith_string_iff.mp hffi
  have hjname : t.jname = ofFfi t.pod t.name := by
    have hsys : t.pod ≠ "sys" := by
      intro hsys
      rw [hsys] at hrest
      exact absurd (congrArg List.head? hrest) (by simp [ffiMark])
    unfold TypeRef.jname ofType
    rw [if_neg hsys]
    refine if_pos (String.startsWith_string_iff.mpr ⟨"java]".toList ++ rest, ?_⟩)
    rw [← hrest]
    rfl
  have hkeyword : package t.pod = "" → keyword? t.name = none := by
    intro hpackage
    have hpod : t.pod = ffiMark := by
      have hdrop : t.pod.toList.drop ffiMark.length = rest := by
        rw [← hrest]
        exact List.drop_left' rfl
      rw [package, if_pos (show t.pod.startsWith ffiMark = true from hffi), hdrop] at hpackage
      have hnil : rest = [] := by simpa using congrArg String.toList hpackage
      rw [hnil, List.append_nil] at hrest
      exact String.toList_injective hrest.symm
    unfold TypeRef.stack at hstack
    rw [if_pos hpod] at hstack
    unfold keyword? at hstack ⊢
    split at hstack <;> first | rfl | cases hstack
  rw [hjname]
  obtain hpath | ⟨hbracket, hother⟩ := ofFfi_eq_or hkeyword
  · rw [hpath]
  · exact iff_of_false (not_isSysName_of_bracket hbracket) hother

end Names

namespace Lowering

open Pod (Symbols MethodRef)

-- The call instruction of a method by its own class, which takes the receiver as such.
def ownCall (kind : CallKind) (t : TypeRef) (name : String) (params : List TypeRef)
    (ret : TypeRef) : Invoke where
  op :=
    match kind with
    | .static => ClassFile.Op.invokeStatic
    | .virtual => ClassFile.Op.invokeVirtual
    | _ => ClassFile.Op.invokeSpecial
  sig := s!"{t.jname}.{name}({Resolver.jsigs params}){ret.jsig}"

variable {t : TypeRef}

theorem jimpl_eq_iff : t.jimpl = t.jname ↔ ¬JavaName.IsSysName t.jname :=
  JavaName.implementation_eq_iff

section Invoke

variable {kind : CallKind} {name : String} {params : List TypeRef} {ret : TypeRef}

-- A static, a virtual and a non-virtual call name a method of the class of the methods.
theorem exists_sig_of_invoke (hkind : kind ∈ [CallKind.static, .virtual, .nonVirtual]) {i : Invoke}
    (h : Resolver.invoke kind t name params ret = .ok i) :
    ∃ rest, i.sig.toList = t.jimpl.toList ++ '.' :: rest := by
  simp only [List.mem_cons, List.not_mem_nil, or_false] at hkind
  unfold Resolver.invoke at h
  dsimp only at h
  rcases hkind with rfl | rfl | rfl
  · cases h
    exact ⟨_, by simp [toString]; rfl⟩
  · dsimp only at h
    split at h
    · cases h
      exact ⟨_, by simp [toString]; rfl⟩
    · cases h
      exact ⟨_, by simp [toString]; rfl⟩
  · cases h
    exact ⟨_, by simp [toString]; rfl⟩

theorem exists_invoke_of_mem (hkind : kind ∈ [CallKind.static, .virtual, .nonVirtual])
    (t : TypeRef) (name : String) (params : List TypeRef) (ret : TypeRef) :
    ∃ i, Resolver.invoke kind t name params ret = .ok i := by
  simp only [List.mem_cons, List.not_mem_nil, or_false] at hkind
  unfold Resolver.invoke
  dsimp only
  rcases hkind with rfl | rfl | rfl
  · exact ⟨_, rfl⟩
  · dsimp only
    split
    · exact ⟨_, rfl⟩
    · exact ⟨_, rfl⟩
  · exact ⟨_, rfl⟩

theorem exists_sig_ownCall (kind : CallKind) (t : TypeRef) (name : String) (params : List TypeRef)
    (ret : TypeRef) :
    ∃ rest, (ownCall kind t name params ret).sig.toList = t.jname.toList ++ '.' :: rest :=
  ⟨_, by simp [ownCall, toString]; rfl⟩

theorem invoke_eq_ownCall_iff (hkind : kind ∈ [CallKind.static, .virtual, .nonVirtual]) :
    Resolver.invoke kind t name params ret = .ok (ownCall kind t name params ret) ↔
      ¬JavaName.IsSysName t.jname := by
  constructor
  · intro h hsys
    obtain ⟨a, b, himpl, hname, hne⟩ := JavaName.exists_heads hsys
    have himpl : t.jimpl.toList.head? = some a := himpl
    obtain ⟨rest, hrest⟩ := exists_sig_of_invoke hkind h
    obtain ⟨rest', hrest'⟩ := exists_sig_ownCall kind t name params ret
    rw [hrest] at hrest'
    have hhead := congrArg List.head? hrest'
    rw [List.head?_append, List.head?_append, himpl, hname] at hhead
    exact hne (Option.some.inj hhead)
  · intro hforeign
    have hsame := jimpl_eq_iff.mpr hforeign
    simp only [List.mem_cons, List.not_mem_nil, or_false] at hkind
    unfold Resolver.invoke
    dsimp only
    rcases hkind with rfl | rfl | rfl
    · rw [hsame]
      rfl
    · rw [hsame, if_pos rfl]
      rfl
    · rw [hsame]
      rfl

end Invoke

section Resolve

variable {s : Symbols} {index : UInt16} {m : MethodRef} {params : List TypeRef} {ret : TypeRef}

theorem computeCall_of_refs (hmethod : methodRefAt s index = .ok m)
    (hparent : typeRefAt s m.parent = .ok t)
    (hparams : m.params.toList.mapM (typeRefAt s) = .ok params)
    (hret : typeRefAt s m.ret = .ok ret) (kind : CallKind) :
    Resolver.computeCall s index kind =
      match if kind.allowsIntrinsic then Intrinsic.lookup? t m.name else none with
      | some i => .ok (.intrinsic i)
      | none => Call.invoke <$> Resolver.invoke kind t m.name params ret := by
  unfold Resolver.computeCall
  simp only [hmethod, hparent, hparams, hret, Except.bind, bind]
  rfl

-- A call of a method of a foreign class goes to that class itself unless its path is the name of a
-- type of `sys`. An intrinsic is no call.
theorem ffi_calls_own_iff {r : Resolver} (hffi : t.isFfi = true) (hstack : t.stack = .obj)
    (hmethod : methodRefAt s index = .ok m) (hparent : typeRefAt s m.parent = .ok t)
    (hparams : m.params.toList.mapM (typeRefAt s) = .ok params)
    (hret : typeRefAt s m.ret = .ok ret) (hr : r.Sound s) :
    (t.jimpl = t.jname ↔ ¬JavaName.IsSysName (JavaName.classPath t.pod t.name)) ∧
    ∀ kind ∈ [CallKind.static, .virtual, .nonVirtual],
      ∃ call r', Resolver.call s index kind r = .ok call r' ∧
        match if kind.allowsIntrinsic then Intrinsic.lookup? t m.name else none with
        | some i => call = .intrinsic i
        | none => call = .invoke (ownCall kind t m.name params ret) ↔
            ¬JavaName.IsSysName (JavaName.classPath t.pod t.name) := by
  rw [← isSysName_jname_iff hffi hstack]
  refine ⟨jimpl_eq_iff, fun kind hkind => ?_⟩
  have hcompute := computeCall_of_refs hmethod hparent hparams hret kind
  cases hlookup : if kind.allowsIntrinsic then Intrinsic.lookup? t m.name else none with
  | some i =>
    rw [hlookup] at hcompute
    obtain ⟨r', hr'⟩ := hr.call_eq_ok hcompute
    exact ⟨_, r', hr', rfl⟩
  | none =>
    obtain ⟨i, hi⟩ := exists_invoke_of_mem hkind t m.name params ret
    rw [hlookup, hi] at hcompute
    obtain ⟨r', hr'⟩ := hr.call_eq_ok hcompute
    refine ⟨_, r', hr', ?_⟩
    have hown : Resolver.invoke kind t m.name params ret = .ok (ownCall kind t m.name params ret) ↔
        ¬JavaName.IsSysName t.jname := invoke_eq_ownCall_iff hkind
    dsimp only
    rw [← hown, hi, Call.invoke.injEq, Except.ok.injEq]

end Resolve

-- A pod that refers to a method of the class of dates, and to one of a class of the nameless package.
def foreignSymbols : Symbols where
  typeRefs := #[⟨"[java]java.util", "Date", ""⟩, ⟨"[java]", "J", ""⟩, ⟨"sys", "Void", ""⟩]
  methodRefs := #[⟨0, "getTime", 2, #[]⟩, ⟨1, "run", 2, #[]⟩]

def dateRef : TypeRef := ⟨"[java]java.util", "Date", ""⟩

def letterRef : TypeRef := ⟨"[java]", "J", ""⟩

theorem jname_dateRef : dateRef.jname = "java/util/Date" := by decide +kernel

theorem jname_letterRef : letterRef.jname = "J" := by decide +kernel

-- The class of dates is called by its own name.
theorem ffi_calls_own_iff_date :
    ∃ r', Resolver.call foreignSymbols 0 .virtual {} =
      .ok (.invoke ⟨ClassFile.Op.invokeVirtual, "java/util/Date.getTime()V", none, false⟩) r' := by
  have hffi : dateRef.isFfi = true := by decide +kernel
  have hmethod : methodRefAt foreignSymbols 0 = .ok ⟨0, "getTime", 2, #[]⟩ := rfl
  have hret : typeRefAt foreignSymbols 2 = .ok ⟨"sys", "Void", ""⟩ := rfl
  have hparams : (#[] : Array UInt16).toList.mapM (typeRefAt foreignSymbols) = .ok [] := rfl
  have hlookup : (if CallKind.allowsIntrinsic .virtual then Intrinsic.lookup? dateRef "getTime"
      else none) = none := rfl
  have hforeign : ¬JavaName.IsSysName (JavaName.classPath dateRef.pod dateRef.name) := by
    rw [← isSysName_jname_iff hffi rfl, jname_dateRef]
    intro hsys
    exact absurd hsys.mem_sysNames (by decide)
  obtain ⟨-, hcalls⟩ := ffi_calls_own_iff (t := dateRef) hffi rfl hmethod rfl hparams hret
    (Resolver.sound_empty _)
  obtain ⟨call, r', hr', hcall⟩ := hcalls .virtual (by decide)
  dsimp only at hcall
  rw [hlookup] at hcall
  refine ⟨r', ?_⟩
  rw [hr', hcall.mpr hforeign, ownCall, jname_dateRef]
  rfl

-- A class of one letter is taken for the integers of `sys`.
theorem ffi_call_redirected_letter :
    letterRef.isFfi = true ∧ letterRef.stack = .obj ∧ letterRef.jname = "J" ∧
      letterRef.jimpl = "fan/sys/FanInt" ∧
      ∃ r', Resolver.call foreignSymbols 1 .virtual {} =
        .ok (.invoke ⟨ClassFile.Op.invokeStatic, "fan/sys/FanInt.run(LJ;)V", none, true⟩) r' := by
  have hmethod : methodRefAt foreignSymbols 1 = .ok ⟨1, "run", 2, #[]⟩ := rfl
  have hret : typeRefAt foreignSymbols 2 = .ok ⟨"sys", "Void", ""⟩ := rfl
  have hparams : (#[] : Array UInt16).toList.mapM (typeRefAt foreignSymbols) = .ok [] := rfl
  have hlookup : (if CallKind.allowsIntrinsic .virtual then Intrinsic.lookup? letterRef "run"
      else none) = none := rfl
  have hjimpl : letterRef.jimpl = "fan/sys/FanInt" := by
    rw [TypeRef.jimpl, jname_letterRef]
    rfl
  have hjsig : letterRef.jsig = "LJ;" := by decide +kernel
  have hcompute := computeCall_of_refs (t := letterRef) hmethod rfl hparams hret .virtual
  dsimp only at hcompute
  rw [hlookup] at hcompute
  unfold Resolver.invoke at hcompute
  simp only [jname_letterRef, hjimpl, hjsig] at hcompute
  rw [if_neg (by decide)] at hcompute
  refine ⟨by decide +kernel, rfl, jname_letterRef, hjimpl, ?_⟩
  exact (Resolver.sound_empty _).call_eq_ok hcompute

end Lowering

end PodCompiler
