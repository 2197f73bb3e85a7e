import PodCompiler.Proofs.ClassFile.Descriptor
import PodCompiler.Proofs.Lowering.Declarations

namespace PodCompiler

-- A step for each item of a list succeeds if it does for every item.
theorem except_mapM_eq_ok {ε α β : Type} {g : α → Except ε β} {xs : List α} {ys : List β} :
    xs.mapM g = .ok ys ↔ List.Forall₂ (fun x y => g x = .ok y) xs ys := by
  induction xs generalizing ys with
  | nil =>
    rw [List.mapM_nil, List.forall₂_nil_left_iff]
    constructor
    · intro h
      cases h
      rfl
    · rintro rfl
      rfl
  | cons x xs ih =>
    rw [List.mapM_cons, List.forall₂_cons_left_iff]
    constructor
    · intro h
      obtain ⟨y, hy, h⟩ := except_bind_eq_ok.mp h
      obtain ⟨ys', hys, h⟩ := except_bind_eq_ok.mp h
      cases h
      exact ⟨y, ys', hy, ih.mp hys, rfl⟩
    · rintro ⟨y, ys', hy, hys, rfl⟩
      rw [hy, ih.mpr hys]
      rfl

theorem except_map_eq_ok {ε α β : Type} {x : Except ε α} {g : α → β} {b : β} :
    g <$> x = .ok b ↔ ∃ a, x = .ok a ∧ b = g a := by
  cases x with
  | ok a =>
    change Except.ok (g a) = _ ↔ _
    simp [eq_comm]
  | error e =>
    change Except.error e = _ ↔ _
    simp

-- What is taken from each result is taken from the list of them.
theorem except_mapM_map_eq_ok {ε α β γ : Type} {g : α → Except ε β} {k : β → γ} {xs : List α}
    {zs : List γ} (h : xs.mapM (fun x => k <$> g x) = .ok zs) :
    ∃ ys, xs.mapM g = .ok ys ∧ zs = ys.map k := by
  have hall := except_mapM_eq_ok.mp h
  clear h
  induction hall with
  | nil => exact ⟨[], rfl, rfl⟩
  | @cons x z xs zs hz _ ih =>
    obtain ⟨y, hy, rfl⟩ := except_map_eq_ok.mp hz
    obtain ⟨ys, hys, rfl⟩ := ih
    exact ⟨y :: ys, except_mapM_eq_ok.mpr (.cons hy (except_mapM_eq_ok.mp hys)), rfl⟩

-- Types with descriptors have values.
theorem TypeRef.IsField.stack_ne_void {t : TypeRef} (h : t.IsField) : t.stack ≠ .void := by
  intro hvoid
  have hfield := h.field?_jsig
  rw [TypeRef.field?_of_stack (by simp [hvoid]), if_pos hvoid] at hfield
  cases hfield

namespace Lowering

open ClassFile (MethodInfo)
open ClassFile.Descriptor hiding result?
open Pod (MethodDef VarDef)

-- Values one behind the other from a slot on, a long or a double in two slots.
def locate (slot : Nat) : List StackType → List Local
  | [] => []
  | t :: rest => ⟨slot, t⟩ :: locate (slot + if t.isWide then 2 else 1) rest

-- The locals with which the machine enters a method, by its descriptor. The receiver comes first,
-- unless the method is static.
def incoming? (w : MethodInfo) : Option (List Local) :=
  (arguments? w.desc).map fun kinds =>
    if w.access &&& ClassFile.Access.static_ = 0 then ⟨0, .obj⟩ :: locate 1 kinds
    else locate 0 kinds

@[simp] theorem length_locate (slot : Nat) (ts : List StackType) :
    (locate slot ts).length = ts.length := by
  induction ts generalizing slot with
  | nil => rfl
  | cons t rest ih => simp [locate, ih]

theorem width_eq (t : StackType) : t.width = if t.isWide then 2 else 1 := by
  cases t <;> rfl

-- The slots of a frame are those of the machine.
theorem layout_eq_locate (slot : Nat) (ts : List StackType) :
    Frame.layout slot ts = locate slot ts := by
  induction ts generalizing slot with
  | nil => rfl
  | cons t rest ih => rw [Frame.layout, locate, width_eq t, ih]

-- So are those of a router.
theorem routerLocals_eq_locate {ts : List StackType} (h : ∀ t ∈ ts, t ≠ .void) (slot : Nat) :
    routerLocals slot ts = locate slot ts := by
  induction ts generalizing slot with
  | nil => rfl
  | cons t rest ih =>
    obtain ⟨ht, hrest⟩ := List.forall_mem_cons.mp h
    have hslots : t.slots = if t.isWide then 2 else 1 := by
      cases t with
      | void => exact absurd rfl ht
      | _ => rfl
    rw [routerLocals, locate, hslots, ih hrest]

-- No slot is further than two for each value.
theorem slot_lt_of_mem_locate {ts : List StackType} {slot : Nat} {l : Local}
    (h : l ∈ locate slot ts) : l.slot < slot + 2 * ts.length := by
  induction ts generalizing slot with
  | nil => cases h
  | cons t rest ih =>
    rw [List.length_cons]
    obtain rfl | h := List.mem_cons.mp h
    · dsimp only
      omega
    · have := ih h
      split at this <;> omega

-- The slots that values take are those of a frame, too.
theorem sum_width_eq (ts : List StackType) :
    StackType.totalWidth ts = (ts.map fun t => if t.isWide then 2 else 1).sum := by
  induction ts with
  | nil => rfl
  | cons t rest ih => rw [StackType.totalWidth, width_eq t, ih, List.map_cons, List.sum_cons]

-- The types of some parameters.
def paramTypes (s : Pod.Symbols) (params : List VarDef) : Except LoweringError (List TypeRef) :=
  params.mapM fun p => typeRefAt s p.type

-- A method whose parameters and whose result have descriptors.
structure Typed (s : Pod.Symbols) (m : MethodDef) : Prop where
  params : ∀ p ∈ m.params, ∀ t, typeRefAt s p.type = .ok t → t.IsField
  result : ∀ t, typeRefAt s m.inheritedRet = .ok t → t.IsResult

section Typed

variable {s : Pod.Symbols} {m : MethodDef} {n : Nat} {ts : List TypeRef}

theorem Typed.isField (h : Typed s m) (hts : paramTypes s (m.params.take n) = .ok ts) :
    ∀ t ∈ ts, t.IsField := by
  have hall := except_mapM_eq_ok.mp hts
  intro t ht
  obtain ⟨p, hp, hread⟩ := exists_of_forall₂ hall.flip ht
  exact h.params p (List.mem_of_mem_take hp) t hread

theorem Typed.ne_void (h : Typed s m) (hts : paramTypes s (m.params.take n) = .ok ts) :
    ∀ k ∈ ts.map TypeRef.stack, k ≠ .void := by
  intro k hk
  obtain ⟨t, ht, rfl⟩ := List.mem_map.mp hk
  exact (h.isField hts t ht).stack_ne_void

end Typed

-- The type by which the receiver is passed, if it is an argument.
def receiverKinds : Option String → List StackType
  | some _ => [.obj]
  | none => []

theorem params?_receiver {self : Option String} (h : ∀ cls ∈ self, isClassName cls = true)
    (cs : List Char) :
    params? ((receiverDesc self).toList ++ cs) =
      (params? cs).map fun found => (receiverKinds self ++ found.1, found.2) := by
  cases self with
  | none => simp [receiverDesc, receiverKinds]
  | some cls =>
    have hcls : field? (receiverDesc (some cls)).toList = some (.obj, []) :=
      field?_class (h cls rfl)
    rw [params?_field (field?_append hcls cs), List.nil_append]
    rfl

-- A descriptor is read as the types that it was made of.
theorem method?_methodDesc {s : Pod.Symbols} {m : MethodDef} {self : Option String} {n : Nat}
    {result : Result} {desc : String} (hm : Typed s m)
    (hself : ∀ cls ∈ self, isClassName cls = true)
    (h : methodDesc s m self (m.params.take n) result = .ok desc) :
    ∃ ts ret, paramTypes s (m.params.take n) = .ok ts ∧ resultDesc s m result = .ok ret ∧
      method? desc = some (receiverKinds self ++ ts.map TypeRef.stack, ret.toList) := by
  obtain ⟨args, ret, hargs, hret, rfl⟩ := methodDesc_eq_ok h
  obtain ⟨ts, hts, rfl⟩ := except_mapM_map_eq_ok hargs
  refine ⟨ts, ret, hts, hret, ?_⟩
  have hchars : ("(" ++ receiverDesc self ++ String.join (ts.map TypeRef.jsig) ++ ")" ++ ret).toList =
      '(' :: ((receiverDesc self).toList ++ (ts.flatMap (·.jsig.toList) ++ ')' :: ret.toList)) := by
    simp [String.toList_append, String.toList_join, List.flatMap_map]
  unfold method?
  rw [hchars]
  change params? ((receiverDesc self).toList ++
    (ts.flatMap (·.jsig.toList) ++ ')' :: ret.toList)) = _
  rw [params?_receiver hself, params?_jsigs (hm.isField hts)]
  rfl

-- What a method returns is read from its descriptor as it is held.
def Result.stack (ret : TypeRef) : Result → StackType
  | .inherited => ret.stack
  | .void => .void
  | .object _ => .obj

theorem result?_resultDesc {s : Pod.Symbols} {m : MethodDef} {result : Result} {ret : TypeRef}
    {desc : String} (hm : Typed s m)
    (hret : result = .inherited → typeRefAt s m.inheritedRet = .ok ret)
    (hclass : ∀ cls, result = .object cls → isClassName cls = true)
    (h : resultDesc s m result = .ok desc) :
    ClassFile.Descriptor.result? desc.toList = some (result.stack ret) := by
  cases result with
  | inherited =>
    rw [resultDesc, hret rfl] at h
    cases h
    exact (hm.result ret (hret rfl)).result?_jsig
  | void =>
    cases h
    rfl
  | object cls =>
    cases h
    have hfield : field? ("L" ++ cls ++ ";").toList = some (.obj, []) :=
      field?_class (hclass cls rfl)
    refine result?_of_field? ?_ hfield
    intro hvoid
    have hlen := congrArg List.length hvoid
    have hname : ("L" ++ cls ++ ";").toList.length = 1 := hlen
    simp at hname

namespace Frame

variable {s : Pod.Symbols} {owner : String} {m : MethodDef} {mode : SelfMode} {f : Frame}
  {n : Nat} {ts : List TypeRef}

-- The register of the receiver, which a factory has without a slot.
def selfRegs (m : MethodDef) (mode : SelfMode) : List (Option Local) :=
  if m.isStatic then []
  else match mode with
    | .bound => [some ⟨0, .obj⟩]
    | .unbound => [none]

theorem layout_take (n slot : Nat) (ks : List StackType) :
    (layout slot ks).take n = layout slot (ks.take n) := by
  induction n generalizing slot ks with
  | zero => rfl
  | succ n ih =>
    cases ks with
    | nil => rfl
    | cons k rest => simp [layout, ih]

-- The registers of the first parameters are behind that of the receiver, where the machine has the
-- arguments.
theorem regs_forMethod (h : forMethod s owner m mode = .ok f) (hn : n ≤ m.params.length)
    (hts : paramTypes s (m.params.take n) = .ok ts) :
    ∃ more, f.hasSelf = !m.isStatic ∧ f.paramCount = m.params.length ∧
      f.regs.toList = selfRegs m mode ++
        (locate ((selfRegs m mode).filterMap id).length (ts.map TypeRef.stack)).map some ++ more ∧
      ts.length = n := by
  obtain ⟨kinds, hkinds, h⟩ := except_bind_eq_ok.mp h
  obtain ⟨ret, -, h⟩ := except_bind_eq_ok.mp h
  obtain ⟨us, hus, rfl⟩ := except_mapM_map_eq_ok hkinds
  -- The parameters are the first variables.
  have htake : m.params.take n = m.vars.toList.take n := by
    have hle : n ≤ m.paramCount.toNat := by
      unfold MethodDef.params at hn
      rw [List.length_take] at hn
      omega
    rw [MethodDef.params, List.take_take, Nat.min_eq_left hle]
  have htypes : ts = us.take n := by
    rw [htake] at hts
    have hsame := except_mapM_eq_ok.mpr (List.forall₂_take n (except_mapM_eq_ok.mp hus))
    rw [paramTypes, hsame] at hts
    cases hts
    rfl
  have hlayout : ∀ slot, (layout slot (us.map TypeRef.stack)).map some =
      (locate slot (ts.map TypeRef.stack)).map some ++
        ((layout slot (us.map TypeRef.stack)).drop n).map some := by
    intro slot
    rw [← layout_eq_locate, htypes, List.map_take, ← layout_take,
      ← List.map_append, List.take_append_drop]
  have hlength : ts.length = n := by
    rw [← (except_mapM_eq_ok.mp hts).length_eq, List.length_take, Nat.min_eq_left hn]
  cases h
  refine ⟨((layout (if !m.isStatic && mode = .bound then 1 else 0)
    (us.map TypeRef.stack)).drop n).map some, rfl, rfl, ?_, hlength⟩
  dsimp only
  rw [hlayout, List.append_assoc]
  unfold selfRegs
  cases m.isStatic with
  | true => rfl
  | false => cases mode <;> rfl

-- The variables that a forwarder loads.
theorem params_forMethod (h : forMethod s owner m mode = .ok f) (hn : n ≤ m.params.length)
    (hts : paramTypes s (m.params.take n) = .ok ts) :
    f.params n = locate ((selfRegs m mode).filterMap id).length (ts.map TypeRef.stack) := by
  obtain ⟨more, hself, hcount, hregs, hlength⟩ := regs_forMethod h hn hts
  have hselfRegs : (selfRegs m mode).length = if f.hasSelf then 1 else 0 := by
    rw [hself]
    unfold selfRegs
    cases m.isStatic <;> cases mode <;> rfl
  unfold params
  dsimp only
  rw [hregs, hcount, Nat.min_eq_left hn, ← hselfRegs, List.append_assoc, List.drop_left,
    List.take_left' (by simp [hlength]), List.filterMap_map]
  simp

-- The registers of the receiver and of the first parameters.
theorem local?_forMethod (h : forMethod s owner m mode = .ok f) (hn : n ≤ m.params.length)
    (hts : paramTypes s (m.params.take n) = .ok ts)
    {r : UInt16} {l : Local}
    (hr : (selfRegs m mode ++ (locate ((selfRegs m mode).filterMap id).length
      (ts.map TypeRef.stack)).map some)[r.toNat]? = some (some l)) : f.local? r = some l := by
  obtain ⟨more, -, -, hregs, -⟩ := regs_forMethod h hn hts
  obtain ⟨hlt, -⟩ := List.getElem?_eq_some_iff.mp hr
  unfold local?
  rw [Option.join_eq_some_iff, ← Array.getElem?_toList, hregs, List.getElem?_append_left hlt, hr]

end Frame

end Lowering

end PodCompiler
