import PodCompiler.Proofs.Lowering.KeptRoom
import PodCompiler.Proofs.Lowering.Routers
import PodCompiler.Proofs.Lowering.WrittenMembers

namespace PodCompiler.Lowering

open ClassFile (Constants MethodInfo)
open ClassFile.Op
open Pod (MethodDef TypeDef)

-- Different numbers give different fields.
theorem literalField_inj {m n : Nat} (h : literalField m = literalField n) : m = n := by
  have hrepr : m.repr = n.repr := (String.append_right_inj _).mp h
  have hdigits : Nat.toDigits 10 m = Nat.toDigits 10 n := String.ofList_injective hrepr
  calc
    m = Nat.ofDigitChars 10 (Nat.toDigits 10 m) 0 :=
      (Nat.ofDigitChars_toDigits (by decide) (by decide)).symm
    _ = Nat.ofDigitChars 10 (Nat.toDigits 10 n) 0 := by rw [hdigits]
    _ = n := Nat.ofDigitChars_toDigits (by decide) (by decide)

-- The fields for different types are different.
theorem nodup_keptFields (count : Nat) :
    (((List.range count).map keptField).map (·.2.1)).Nodup := by
  rw [List.map_map]
  exact List.nodup_range.map fun _ _ => literalField_inj

section Prefix

variable {r : Stretch} {cls : String} {k : Constants} {bytes bytes' : Bytes} {p pc : Nat}
  {xs : List (Item Ref)} {o : UInt8} {ref : Ref}

-- Items without jumps stay where they are when more code follows.
theorem Stretch.Reads.of_begins (h : r.Reads p xs) (hxs : Item.Inert xs)
    (hbound : p + sizes xs ≤ r.code.size) (hbegins : r.code.toList <+: bytes'.toList) :
    { r with code := bytes' }.Reads p xs := by
  induction xs generalizing p with
  | nil => exact h
  | cons x xs ih =>
    rw [Item.inert_cons] at hxs
    have hsize : sizes (x :: xs) = x.size + sizes xs := List.sum_cons
    refine ⟨?_, ih h.2 hxs.2 (by omega)⟩
    have hx := h.1
    cases x with
    | op o => exact ⟨hx.1, Jvm.getElem?_of_begins hbegins hx.2⟩
    | const o ref =>
      obtain ⟨hhas, hop, i, hi, hnames⟩ := hx
      exact ⟨hhas, Jvm.getElem?_of_begins hbegins hop, i, Jvm.be2?_of_begins hbegins hi, hnames⟩
    | hop o distance =>
      obtain ⟨hhas, hop, hword⟩ := hx
      refine ⟨hhas, Jvm.getElem?_of_begins hbegins hop, ?_⟩
      have hlt : p + 3 + sizes xs ≤ r.code.size := by
        rw [hsize] at hbound
        have hthree : (Item.hop o distance : Item Ref).size = 3 := rfl
        omega
      rw [← hword]
      refine word2_congr fun j hj hj' => ?_
      have hj₁ : j < r.code.size := by omega
      rw [Array.getElem?_eq_getElem hj₁]
      exact Jvm.getElem?_of_begins hbegins (Array.getElem?_eq_getElem hj₁)
    | jump => cases hxs.1
    | _ => trivial

-- The last constant is all there.
theorem ReadsAt.le_size (h : ReadsAt cls k bytes pc (xs ++ [Item.const o ref])) :
    pc + Stretch.sizes (xs ++ [Item.const o ref]) ≤ bytes.size := by
  obtain ⟨⟨-, -, i, hi, -⟩, -⟩ := Stretch.Reads.drop h
  have hsize : Stretch.sizes (xs ++ [Item.const o ref]) = Stretch.sizes xs + 3 := by
    simp [Stretch.sizes, Item.size]
  unfold Bytes.be2? at hi
  split at hi
  · rename_i hbound
    have hbound : pc + Stretch.sizes xs + 1 + 2 ≤ bytes.size := hbound
    omega
  · cases hi

theorem ReadsAt.of_begins (h : ReadsAt cls k bytes pc (xs ++ [Item.const o ref]))
    (hxs : Item.Inert xs) (hbegins : bytes.toList <+: bytes'.toList) :
    ReadsAt cls k bytes' pc (xs ++ [Item.const o ref]) := by
  refine Stretch.Reads.of_begins h ?_ h.le_size hbegins
  rw [Item.inert_append]
  exact ⟨hxs, by simp⟩

end Prefix

namespace Piece

-- A piece pushes a type as a value where the items of an instruction begin that does.
def Pushes (s : Pod.Symbols) (p : Piece) (t : TypeRef) (pc : Nat) : Prop :=
  ∃ pre q post i, p.body.items.toList = pre ++ .mark q :: post ∧ Instr.decodeAt p.code q = .ok i ∧
    pushedType? s i = some t ∧ pc = ((Layout.start p.out p.code.size).puts pre).out.pos

variable {s : Pod.Symbols} {p : Piece} {ps : List Piece} {sig : String} {env : ClassEnv}
  {c : OpenClass} {t : TypeRef} {pc : Nat}

-- What a piece asks for it pushes somewhere.
theorem exists_pushes (h : sig ∈ p.asked s) :
    ∃ t pc, p.Pushes s t pc ∧ isKeptType t = true ∧ t.signature = sig := by
  obtain ⟨x, hx, hsig⟩ := List.mem_filterMap.mp h
  cases x with
  | mark q =>
    obtain ⟨pre, post, hsplit⟩ := List.append_of_mem hx
    obtain ⟨i, hi, hasked⟩ := Option.bind_eq_some_iff.mp hsig
    obtain ⟨t, ht, rfl⟩ := Option.map_eq_some_iff.mp hasked
    obtain ⟨hpushed, hkept⟩ := Option.filter_eq_some_iff.mp ht
    have hdecode : Instr.decodeAt p.code q = .ok i := by
      cases hrun : Instr.decodeAt p.code q with
      | error e =>
        rw [hrun] at hi
        cases hi
      | ok j =>
        rw [hrun] at hi
        cases hi
        rfl
    exact ⟨t, _, ⟨pre, q, post, i, hsplit, hdecode, hpushed, rfl⟩, hkept, rfl⟩
  | _ => cases hsig

-- A type that is kept is pushed from its field in the end.
theorem On.pushes_kept (h : p.On env c) {asked : List String} (hc : c.Keeps asked)
    (hpush : p.Pushes env.pod.symbols t pc) (hkept : isKeptType t = true) {k : Constants}
    (hk : k.Extends c.draft.pool.get?) :
    t.signature ∈ asked.eraseDups ∧ ReadsAt c.draft.name k p.result.code.code pc
      (keptTypeItems c.draft.name (asked.eraseDups.idxOf t.signature) t.signature) := by
  obtain ⟨d, d₁, before, sigs, hd, hkeeps, hl, hname, hafter, hextends⟩ := h.lowered
  obtain ⟨pre, q, post, i, hsplit, hi, ht, rfl⟩ := hpush
  obtain ⟨n, hn, hreads⟩ := hl.pushes_kept hd hkeeps hsplit hi ht hkept
  have hkeeps₁ := emitBody_asked hl.emits hd _ hkeeps
  have hlast := hkeeps₁.getElem? hafter hn
  rw [hname] at hreads
  rw [hc.idxOf_eq hlast]
  refine ⟨?_, hreads k (hk.trans hextends)⟩
  rw [← hc, Array.mem_toList_iff]
  exact Array.mem_of_getElem? hlast

-- Other types are pushed from the fields of `sys`.
theorem On.pushes (h : p.On env c) (hpush : p.Pushes env.pod.symbols t pc) {k : Constants}
    (hk : k.Extends c.draft.pool.get?) :
    ReadsAt c.draft.name k p.result.code.code pc (Conversion.pushType t) := by
  obtain ⟨d, d₁, before, sigs, hd, hkeeps, hl, hname, hafter, hextends⟩ := h.lowered
  obtain ⟨pre, q, post, i, hsplit, hi, ht, rfl⟩ := hpush
  rw [← hname]
  exact hl.pushes hd hsplit hi ht (hk.trans hextends)

end Piece

-- The types that a class keeps for its methods.
def keptTypes (s : Pod.Symbols) (made : List (MethodInfo × List Piece)) : List String :=
  (Piece.askedAll s (made.flatMap Prod.snd)).eraseDups

-- The file of a class has, behind the fields `own`, one for each type that its methods keep; these
-- read it wherever they push the type, and look the type up by its signature. Other types take no
-- field.
structure ClassOutput.KeepsTypes (env : ClassEnv) (o : ClassOutput) (k : Constants)
    (own : List (UInt16 × String × String)) (made : List (MethodInfo × List Piece)) : Prop where
  members : o.HasMembers k
    (own ++ (List.range (keptTypes env.pod.symbols made).length).map keptField) (made.map Prod.fst)
  composed : ∀ m ∈ made, MadeOf env m.1 m.2
  kept : ∀ m ∈ made, ∀ b, m.1.code = some b → ∀ p ∈ m.2, ∀ t pc, p.Pushes env.pod.symbols t pc →
    isKeptType t = true → t.signature ∈ keptTypes env.pod.symbols made ∧
      ReadsAt o.name k b.code pc (keptTypeItems o.name
        ((keptTypes env.pod.symbols made).idxOf t.signature) t.signature)
  plain : ∀ m ∈ made, ∀ b, m.1.code = some b → ∀ p ∈ m.2, ∀ t pc, p.Pushes env.pod.symbols t pc →
    isKeptType t = false → ReadsAt o.name k b.code pc (Conversion.pushType t)
  pushed : ∀ sig ∈ keptTypes env.pod.symbols made, ∃ p ∈ made.flatMap Prod.snd, ∃ t pc,
    p.Pushes env.pod.symbols t pc ∧ isKeptType t = true ∧ t.signature = sig

section Classes

variable {env : ClassEnv} {x : ClassM Unit} {fields : List String} {codes : List Bytes}
  {o : ClassOutput} {c₀ c : OpenClass} {own : List (UInt16 × String × String)}
  {ms : List (MethodInfo × List Piece)} {k : Constants}

theorem exists_pushType_eq {t : TypeRef} (h : isKeptType t = false) :
    ∃ xs o ref, Conversion.pushType t = xs ++ [Item.const o ref] ∧ Item.Inert xs := by
  have hsys : (t.isSys && !t.isGenericInstance) = true := by
    rwa [isKeptType, Bool.not_eq_false'] at h
  rw [Conversion.pushType, if_pos hsys]
  split
  · exact ⟨[_], _, _, rfl, by simp⟩
  · exact ⟨[], _, _, rfl, by simp⟩

-- A class that was made of a new one was asked for just what its methods ask for.
theorem Made.keepsTypes (h : Made env x fields codes o c₀ c own ms k) :
    o.KeepsTypes env k own ms := by
  have hkeeps : c.Keeps (Piece.askedAll env.pod.symbols (ms.flatMap Prod.snd)) :=
    h.makes.asked [] h.fresh
  have hpiece : ∀ m ∈ ms, ∀ p ∈ m.2, p.On env c := fun m hm p hp =>
    h.makes.pieces p (List.mem_flatMap.mpr ⟨m, hm, hp⟩)
  have hbegins : ∀ m ∈ ms, ∀ b, m.1.code = some b → ∀ p ∈ m.2,
      p.result.code.code.toList <+: b.code.toList :=
    fun m hm b hb => ((h.makes.made m hm).some b hb).isPrefix
  refine ⟨?_, h.makes.made, ?_, ?_, ?_⟩
  · have hcount : c.literals.size = (keptTypes env.pod.symbols ms).length := by
      rw [← Array.length_toList, hkeeps, keptTypes]
    rw [← hcount]
    exact h.members
  · intro m hm b hb p hp t pc hpush hkept
    obtain ⟨hmem, hreads⟩ := (hpiece m hm p hp).pushes_kept hkeeps hpush hkept h.constants
    rw [h.name]
    refine ⟨hmem, ?_⟩
    have hitems : ∀ cls n sig, keptTypeItems cls n sig =
        (.const getStatic (.field s!"{cls}.{literalField n}:{typeDesc}") :: lookupItems sig) ++
          [Item.const putStatic (Ref.field s!"{cls}.{literalField n}:{typeDesc}")] :=
        fun _ _ _ => rfl
    rw [hitems] at hreads ⊢
    exact hreads.of_begins (by simp [lookupItems]) (hbegins m hm b hb p hp)
  · intro m hm b hb p hp t pc hpush hkept
    have hreads := (hpiece m hm p hp).pushes hpush h.constants
    obtain ⟨xs, o', ref, heq, hinert⟩ := exists_pushType_eq hkept
    rw [h.name]
    rw [heq] at hreads ⊢
    exact hreads.of_begins hinert (hbegins m hm b hb p hp)
  · intro sig hsig
    obtain ⟨p, hp, hasked⟩ := List.mem_flatMap.mp (List.mem_eraseDups.mp hsig)
    exact ⟨p, hp, Piece.exists_pushes hasked⟩

-- A class without pieces keeps no types.
theorem Stub.keepsTypes (h : Stub o fields) (env : ClassEnv) :
    ∃ k own made, o.KeepsTypes env k own made ∧ own.map (·.2.1) = fields ∧
      (made.flatMap Prod.snd).map Piece.code = [] := by
  obtain ⟨k, own, ws, hmembers, hnames, -, hmade⟩ := h
  have hnone : (ws.map fun w => ((w, []) : MethodInfo × List Piece)).flatMap Prod.snd = [] := by
    simp
  have hkept : keptTypes env.pod.symbols (ws.map fun w => (w, [])) = [] := by
    rw [keptTypes, hnone]
    rfl
  have hempty : ∀ m ∈ ws.map fun w => ((w, []) : MethodInfo × List Piece), m.2 = [] := by
    simp
  refine ⟨k, own, ws.map fun w => (w, []), ⟨?_, ?_, ?_, ?_, ?_⟩, hnames, by rw [hnone]; rfl⟩
  · rw [hkept]
    simpa [Function.comp_def] using hmembers
  · simpa using hmade env
  · intro m hm b _ p hp
    simp [hempty m hm] at hp
  · intro m hm b _ p hp
    simp [hempty m hm] at hp
  · simp [hkept]

end Classes

-- The fields of a class of a type before those for types. A class beside the one of a type is what is
-- thrown for it, or its dynamic subclass.
def ownFields (t : TypeDef) (self cls : String) : List String :=
  if t.isMixin then if cls = self then [] else storedFields t (·.isStatic)
  else if cls = self then classFields t
  else if cls = self ++ "$Val" then [] else ["$type"]

-- The code that a class of a type is lowered from: the methods and their defaults, in this order.
def sourceOf (t : TypeDef) (self cls : String) : List Bytes :=
  if t.isMixin then if cls = self then [] else mixinCode t
  else if cls = self then classCode t else []

theorem append_ne_self {s suffix : String} (h : suffix ≠ "") : s ++ suffix ≠ s := by
  intro heq
  have hchars := congrArg String.toList heq
  rw [String.toList_append, List.append_right_eq_self] at hchars
  exact h (String.toList_injective hchars)

-- Each class keeps the types that its methods and their defaults ask for, in the order in which they
-- do so first. Wherever one is pushed, the code reads the field of its number and looks it up by its
-- signature; so two of them share a field just if they have one signature. For each there is one
-- private static field, and there are none for others.
theorem types_by_fields {e : PodEnv} {index : Nat} {classes : List ClassOutput}
    (h : e.classesOf index = .ok classes) :
    ∃ t self, e.pod.types[index]? = some t ∧ typeRefAt e.pod.symbols t.self = .ok self ∧
      ∀ o ∈ classes, ∃ k own made, o.KeepsTypes (classEnv e self) k own made ∧
        own.map (·.2.1) = ownFields t self.jname o.name ∧
        (made.flatMap Prod.snd).map Piece.code = sourceOf t self.jname o.name ∧
        (∀ sig ∈ keptTypes e.pod.symbols made, ∀ sig',
          literalField ((keptTypes e.pod.symbols made).idxOf sig) =
            literalField ((keptTypes e.pod.symbols made).idxOf sig') ↔ sig = sig') ∧
        (((List.range (keptTypes e.pod.symbols made).length).map keptField).map (·.2.1)).Nodup := by
  obtain ⟨r', hrun⟩ := given_eq_ok.mp h
  obtain ⟨t, self, ht, hself, hcases⟩ := lowerType_cases hrun
  refine ⟨t, self, ht, hself, fun o ho => ?_⟩
  suffices hkeeps : ∃ k own made, o.KeepsTypes (classEnv e self) k own made ∧
      own.map (·.2.1) = ownFields t self.jname o.name ∧
      (made.flatMap Prod.snd).map Piece.code = sourceOf t self.jname o.name by
    obtain ⟨k, own, made, hkeeps, hnames, hcodes⟩ := hkeeps
    refine ⟨k, own, made, hkeeps, hnames, hcodes, fun sig hsig sig' => ?_, nodup_keptFields _⟩
    exact ⟨fun heq => (List.idxOf_inj hsig).mp (literalField_inj heq), fun heq => by rw [heq]⟩
  have hempty := Resolver.sound_empty e.pod.symbols
  obtain ⟨hmixin, hlower⟩ | ⟨hclass, hlower⟩ := hcases
  · obtain ⟨interface, bodies, x, y, rfl, hname, hname', ⟨c₀, c, own, ms, k, hmade⟩,
      ⟨c₀', c', own', ms', k', hmade'⟩⟩ := lowerMixin_made hempty hlower
    have hne : self.jname ++ "$" ≠ self.jname := append_ne_self (by simp)
    simp only [List.mem_cons, List.not_mem_nil, or_false] at ho
    obtain rfl | rfl := ho
    · refine ⟨k, own, ms, hmade.keepsTypes, ?_, ?_⟩
      · rw [hmade.names, ownFields, if_pos hmixin, if_pos hname]
      · rw [hmade.makes.codes, sourceOf, if_pos hmixin, if_pos hname]
    · refine ⟨k', own', ms', hmade'.keepsTypes, ?_, ?_⟩
      · rw [hmade'.names, ownFields, if_pos hmixin, hname', if_neg hne]
      · rw [hmade'.makes.codes, sourceOf, if_pos hmixin, hname', if_neg hne]
  · have hno : ¬t.isMixin = true := by simp [hclass]
    obtain ⟨bases, main, beside, rfl, hname, ⟨c₀, c, own, ms, k, hmade⟩, hbeside⟩ :=
      lowerClass_made hempty hlower
    obtain rfl | ho := List.mem_cons.mp ho
    · refine ⟨k, own, ms, hmade.keepsTypes, ?_, ?_⟩
      · rw [hmade.names, ownFields, if_neg hno, if_pos hname]
      · rw [hmade.makes.codes, sourceOf, if_neg hno, if_pos hname]
    · have hval : self.jname ++ "$Val" ≠ self.jname := append_ne_self (by simp)
      have hdynamic : self.jname ++ "$Dynamic" ≠ self.jname := append_ne_self (by simp)
      have hapart : self.jname ++ "$Dynamic" ≠ self.jname ++ "$Val" := by
        rw [Ne, String.append_right_inj]
        decide
      obtain ⟨hname', hstub⟩ | ⟨hname', hstub⟩ := hbeside o ho
      · obtain ⟨k, own, made, hkeeps, hnames, hcodes⟩ := hstub.keepsTypes (classEnv e self)
        refine ⟨k, own, made, hkeeps, ?_, ?_⟩
        · rw [hnames, ownFields, if_neg hno, hname', if_neg hval, if_pos rfl]
        · rw [hcodes, sourceOf, if_neg hno, hname', if_neg hval]
      · obtain ⟨k, own, made, hkeeps, hnames, hcodes⟩ := hstub.keepsTypes (classEnv e self)
        refine ⟨k, own, made, hkeeps, ?_, ?_⟩
        · rw [hnames, ownFields, if_neg hno, hname', if_neg hdynamic, if_neg hapart]
        · rw [hcodes, sourceOf, if_neg hno, hname', if_neg hdynamic]

-- A mixin with one method, which is static and pushes the same type twice.
--    0 LoadType 0    3 LoadType 0    6 ReturnVoid
def kindMethod : MethodDef :=
  { walkMethod with
    name := "kind"
    flags := Pod.Flag.public_ ||| Pod.Flag.static_
    maxStack := 2
    code := #[8, 0, 0, 8, 0, 0, 42] }

def kindsType : TypeDef :=
  { walksType with body? := some { methods := #[kindMethod] } }

def kindsEnv : PodEnv :=
  { manEnv with pod := { manEnv.pod with types := #[manType, kindsType] } }

-- The items of its body.
def kindItems (first second : List (Item UInt16)) : List (Item UInt16) :=
  .mark 0 :: first ++ .mark 3 :: second ++ [.mark 6, .op returnVoid, .mark 7]

theorem emitInstr_loadType {env : ClassEnv} {f : Frame} {copy : Instr → BodyM Unit} {i : Instr}
    {next : Following} {t : TypeRef} {items : Array (Item UInt16)} {its : List (Item UInt16)}
    {c c' : OpenClass} (hop : i.op = .loadType) (ht : typeRefAt env.pod.symbols i.arg = .ok t)
    (hits : Item.Interned env c (Conversion.pushType t) its c') :
    emitInstr f copy i next ⟨items, {}⟩ env c = .ok (false, ⟨items ++ its.toArray, {}⟩) c' := by
  unfold emitInstr
  rw [hop]
  refine BodyM.bind_eq_ok.mpr ⟨t, _, c, BodyM.lift_eq_ok.mpr ⟨ClassM.typeRef_run ht c, rfl⟩, ?_⟩
  exact BodyM.bind_eq_ok.mpr ⟨(), _, c', BodyM.emit_eq_ok.mpr ⟨its, hits, rfl⟩, rfl⟩

theorem exists_emitBody_kind (env : ClassEnv) {f : Frame} {c : OpenClass}
    (hpod : env.pod = kindsEnv.pod) (hcls : c.draft.name ≠ "")
    (hcolon : ':' ∉ c.draft.name.toList) (hroom : c.draft.pool.next + 300 ≤ ClassFile.Pool.limit) :
    ∃ (its : List (Item UInt16)) (c' : OpenClass),
      emitBody f kindMethod.code {} env c = .ok ((), ⟨its.toArray, {}⟩) c' ∧
      OpenClass.Took 216 c c' ∧ its.length ≤ 100 ∧
      ∀ x ∈ its, (x.isInert = true ∨ ∃ q, x = .mark q) ∧ ClassM.IsShort x := by
  have hdecode : Instr.decodeRange kindMethod.code 0 kindMethod.code.size =
      ⟨[⟨0, .loadType, [0]⟩, ⟨3, .loadType, [0]⟩, ⟨6, .returnVoid, []⟩], none⟩ := by
    decide +kernel
  have hnamed := isNamed_pushType (t := manRef) (by decide +kernel)
  have hlength : (Conversion.pushType manRef).length = 9 := by decide +kernel
  have htype : typeRefAt env.pod.symbols 0 = .ok manRef := by
    rw [hpod]
    rfl
  obtain ⟨first, c₁, hfirst, htook, hlength₁, hinert₁, hshort₁⟩ :=
    exists_interned env hnamed hcls hcolon (by omega)
  have hnext := htook.room
  obtain ⟨second, c₂, hsecond, htook', hlength₂, hinert₂, hshort₂⟩ :=
    exists_interned env (c := c₁) hnamed (by rwa [htook.name]) (by rwa [htook.name])
      (by omega)
  refine ⟨kindItems first second, c₂, ?_, ?_, ?_, ?_⟩
  · have hitems : (kindItems first second).toArray = #[Item.mark 0] ++ first.toArray ++
        #[Item.mark 3] ++ second.toArray ++ #[Item.mark 6] ++ #[Item.op returnVoid] ++
          #[Item.mark 7] := by
      simp [kindItems]
    rw [hitems]
    refine BodyM.bind_eq_ok.mpr ⟨(), ⟨#[Item.mark 0] ++ first.toArray ++ #[Item.mark 3] ++
      second.toArray ++ #[Item.mark 6] ++ #[Item.op returnVoid], {}⟩, c₂, ?_, rfl⟩
    unfold maxInlineDepth emitRange
    dsimp only
    rw [hdecode]
    refine emitInstrs_cons_iff.mpr ⟨false, _, c₁, emitInstr_loadType rfl htype hfirst, ?_⟩
    refine emitInstrs_cons_iff.mpr ⟨false, _, c₂, emitInstr_loadType rfl htype hsecond, ?_⟩
    exact emitInstrs_cons_iff.mpr ⟨false, _, c₂, rfl, rfl⟩
  · have hboth := htook.trans htook'
    rwa [hlength] at hboth
  · simp only [kindItems, List.length_append, List.length_cons, List.length_nil]
    omega
  · have hmark : ∀ q, ClassM.IsShort (.mark q) := fun q pos => by simp [Item.raw]
    simp only [kindItems, List.cons_append, List.append_assoc, List.forall_mem_cons,
      List.forall_mem_append]
    exact ⟨⟨.inr ⟨0, rfl⟩, hmark 0⟩, fun x hx => ⟨.inl (hinert₁ x hx), hshort₁ x hx⟩,
      ⟨.inr ⟨3, rfl⟩, hmark 3⟩, fun x hx => ⟨.inl (hinert₂ x hx), hshort₂ x hx⟩,
      ⟨.inr ⟨6, rfl⟩, hmark 6⟩, ⟨.inl rfl, fun pos => by simp [Item.raw]⟩,
      ⟨.inr ⟨7, rfl⟩, hmark 7⟩, by simp⟩

-- There is room for the method in a new class.
theorem exists_lowerMixinBody_kind {d : ClassFile.Draft} {r : Resolver}
    (hname : d.name = walksRef.jname ++ "$") (hnext : d.pool.next ≤ 9) :
    ∃ c', lowerMixinBody kindMethod (classEnv kindsEnv walksRef) { draft := d, resolver := r } =
        .ok () c' ∧ c'.draft.name = walksRef.jname ++ "$" ∧
      c'.draft.sourceFile = d.sourceFile ∧ c'.draft.pool.next ≤ 300 ∧ c'.literals.size ≤ 300 := by
  have hlimit : ClassFile.Pool.limit = 65535 := rfl
  have hcls : d.name = "fan/p/Walks$" := by
    rw [hname]
    cbv
  obtain ⟨f, hframe, hlocals⟩ : ∃ f, Frame.forMethod kindsEnv.pod.symbols (walksRef.jname ++ "$")
      kindMethod .bound = .ok f ∧ f.maxLocals = 0 := ⟨_, rfl, rfl⟩
  obtain ⟨its, c₁, hbody, htook, hfew, hits⟩ := exists_emitBody_kind (f := f)
    (classEnv kindsEnv walksRef) (c := { draft := d, resolver := r }) rfl
    (by dsimp only; rw [hcls]; decide) (by dsimp only; rw [hcls]; decide) (by dsimp only; omega)
  obtain ⟨placed, hplaced, hnone, hsize⟩ := exists_placeCode
    (ClassFile.CodeBuffer.sized f.maxStack f.maxLocals) hbody hits
  obtain ⟨mc, hfinish, hcode⟩ := exists_finish_single (f := f) hnone (by omega)
  have hlower : lowerCode f kindMethod.code kindMethod.attrs
      (ClassFile.CodeBuffer.sized f.maxStack f.maxLocals) (classEnv kindsEnv walksRef)
      { draft := d, resolver := r } = .ok mc c₁ :=
    ClassM.bind_eq_ok.mpr ⟨placed, c₁, hplaced, ClassM.bind_eq_ok.mpr ⟨#[], c₁, rfl,
      ClassM.bind_eq_ok.mpr ⟨[], c₁, table_nil _ _, ClassM.bind_eq_ok.mpr ⟨_, c₁, rfl,
        ClassM.ofExcept_eq_ok.mpr ⟨hfinish, rfl⟩⟩⟩⟩⟩
  have hframed : ClassM.frame kindMethod .bound (classEnv kindsEnv walksRef)
      { draft := d, resolver := r } = .ok f { draft := d, resolver := r } :=
    ClassM.bind_eq_ok.mpr ⟨_, _, rfl, ClassM.bind_eq_ok.mpr ⟨_, _, rfl,
      ClassM.ofExcept_eq_ok.mpr ⟨by rw [hname]; exact hframe, rfl⟩⟩⟩
  have hroom := htook.room
  have hkept := htook.kept
  dsimp only at hroom hkept
  have hstart : (ClassFile.CodeBuffer.sized f.maxStack f.maxLocals).code.size = 0 := rfl
  have hlong : ∀ b ∈ some mc.code, b.code.size ≤ ClassFile.CodeBuffer.maxSize := by
    intro b hb
    cases hb
    rw [hcode]
    unfold ClassFile.CodeBuffer.maxSize
    omega
  obtain ⟨d', hd', hnext', hsource⟩ := ClassFile.Draft.exists_addMethod
    (withoutAbstract (accessOf kindMethod.flags) ||| ClassFile.Access.public_ |||
      ClassFile.Access.static_) kindMethod.name "()V" (some mc.code) (d := c₁.draft) hlong (by omega)
  refine ⟨{ c₁ with draft := d' }, ?_, ?_, hsource.trans htook.source, ?_, ?_⟩
  · refine ClassM.bind_eq_ok.mpr ⟨_, _, rfl, ClassM.bind_eq_ok.mpr ⟨"()V", _,
      ClassM.desc_run rfl _, ClassM.bind_eq_ok.mpr ⟨f, _, hframed, ?_⟩⟩⟩
    refine ClassM.bind_eq_ok.mpr ⟨mc.code, c₁, ClassM.bind_eq_ok.mpr ⟨mc, c₁, hlower, rfl⟩, ?_⟩
    exact ClassM.bind_eq_ok.mpr ⟨(), _, ClassM.addMethod_run hd', rfl⟩
  · rw [ClassFile.Draft.addMethod_frame hd']
    exact htook.name.trans hname
  · dsimp only
    omega
  · dsimp only
    have hnil : (#[] : Array String).size = 0 := rfl
    omega

-- So both classes of the mixin are written.
theorem exists_classes_kinds : ∃ interface bodies,
    kindsEnv.classesOf 1 = .ok [interface, bodies] ∧ bodies.name = walksRef.jname ++ "$" := by
  have hlimit : ClassFile.Pool.limit = 65535 := rfl
  have hdeclare : ClassM.Fits (classEnv kindsEnv walksRef) walksRef.jname 0
      (addInterfaces kindsType >>= fun _ => addSource kindsType >>= fun _ =>
        kindsType.methods.toList.forM lowerMixinInterface) fun _ => True :=
    ClassM.fits_look_bind (a := ()) (fun c _ => rfl) <|
      ClassM.fits_look_bind (a := ()) (fun c _ => rfl) <|
        ClassM.fits_look_bind (a := ()) (fun c _ => rfl) (ClassM.fits_pure trivial)
  obtain ⟨d₁, c₁, o₁, hcreate₁, hrun₁, hfinish₁, -⟩ :
      ∃ d c o, OpenClass.create walksRef.jname "java/lang/Object" (ClassFile.Access.public_ |||
          ClassFile.Access.interface_ ||| ClassFile.Access.abstract_) kindsEnv.config = .ok d ∧ _ :=
    exists_finish (r := {}) hdeclare (by omega)
  obtain ⟨d₂, hcreate₂, hnext₂, hsource₂⟩ := OpenClass.exists_create (walksRef.jname ++ "$")
    "java/lang/Object" (ClassFile.Access.public_ ||| ClassFile.Access.super_) kindsEnv.config
  obtain ⟨-, hname₂, -⟩ := OpenClass.create_eq_ok hcreate₂
  obtain ⟨c₂, hbody, hname, hsource, hroom, hkept⟩ :=
    exists_lowerMixinBody_kind (r := c₁.resolver) hname₂ hnext₂
  have hbodies : (addSource kindsType >>= fun _ => addFields kindsType (·.isStatic)
      (fun _ => ClassFile.Access.public_ ||| ClassFile.Access.static_) >>= fun _ =>
        ClassM.forPicked kindsType.methods.toList isMixinListed lowerMixinBody >>= fun _ => pure ())
      (classEnv kindsEnv walksRef) { draft := d₂, resolver := c₁.resolver } = .ok () c₂ := by
    rw [ClassM.forPicked_eq_forM]
    refine ClassM.bind_eq_ok.mpr ⟨(), _, rfl, ClassM.bind_eq_ok.mpr ⟨(), _, rfl, ?_⟩⟩
    exact ClassM.bind_eq_ok.mpr ⟨⟨⟩, c₂, ClassM.bind_eq_ok.mpr ⟨(), c₂, hbody, rfl⟩, rfl⟩
  obtain ⟨o₂, hfinish₂, hname'⟩ := exists_finish_kept
    (c := { draft := c₂.draft, literals := c₂.literals }) (by dsimp only; omega)
    (hsource.trans hsource₂)
  have hmixin : lowerMixin walksRef kindsType kindsEnv {} = .ok [o₁, o₂] c₂.resolver := by
    refine PodM.bind_eq_ok.mpr ⟨kindsEnv, {}, rfl, ?_⟩
    refine PodM.bind_eq_ok.mpr ⟨d₁, {}, PodM.ofExcept_run hcreate₁, ?_⟩
    refine PodM.bind_eq_ok.mpr ⟨_, c₁.resolver, inClass_run hrun₁, ?_⟩
    refine PodM.bind_eq_ok.mpr ⟨d₂, c₁.resolver, PodM.ofExcept_run hcreate₂, ?_⟩
    refine PodM.bind_eq_ok.mpr ⟨_, c₂.resolver, inClass_run (u := ()) hbodies, ?_⟩
    refine PodM.bind_eq_ok.mpr ⟨o₁, c₂.resolver, PodM.ofExcept_run hfinish₁, ?_⟩
    exact PodM.bind_eq_ok.mpr ⟨o₂, c₂.resolver, PodM.ofExcept_run hfinish₂, rfl⟩
  exact ⟨o₁, o₂, given_eq_ok.mpr ⟨c₂.resolver, PodM.bind_eq_ok.mpr ⟨kindsEnv, {}, rfl, hmixin⟩⟩,
    hname'.trans hname⟩

-- A piece of the method asks for the type twice, however it was lowered.
theorem asked_kind {env : ClassEnv} {w : MethodInfo} {ps : List Piece} {p : Piece}
    (hw : MadeOf env w ps) (hp : p ∈ ps) (hcode : p.code = kindMethod.code) :
    p.asked kindsEnv.pod.symbols = ["p::Man", "p::Man"] := by
  obtain ⟨c, c₁, hl⟩ : ∃ c c₁, Lowered env p.frame p.code p.out c c₁ p.body p.result := by
    cases hbody : w.code with
    | none =>
      rw [hw.none hbody] at hp
      cases hp
    | some b => exact (hw.some b hbody).lowered p hp
  have hinstrs : Instr.disassemble p.code =
      .ok [⟨0, .loadType, [0]⟩, ⟨3, .loadType, [0]⟩, ⟨6, .returnVoid, []⟩] := by
    rw [hcode]
    decide +kernel
  rw [Piece.asked, askedBy_of_emitBody _ hl.emits hinstrs (by simp)]
  cbv

-- The class of the bodies has one field, for the type that the method pushes twice.
theorem types_by_fields_kinds : ∃ classes, kindsEnv.classesOf 1 = .ok classes ∧
    ∃ o ∈ classes, o.name = walksRef.jname ++ "$" ∧ ∃ k made,
      o.KeepsTypes (classEnv kindsEnv walksRef) k [] made ∧
      keptTypes kindsEnv.pod.symbols made = ["p::Man"] ∧
      o.HasMembers k [keptField 0] (made.map Prod.fst) := by
  obtain ⟨interface, bodies, hclasses, hname⟩ := exists_classes_kinds
  obtain ⟨t, self, ht, hself, hall⟩ := types_by_fields hclasses
  have htype : kindsEnv.pod.types[1]? = some kindsType := rfl
  have href : typeRefAt kindsEnv.pod.symbols kindsType.self = .ok walksRef := rfl
  obtain rfl := Option.some.inj (htype.symm.trans ht)
  obtain rfl := Except.ok.inj (href.symm.trans hself)
  obtain ⟨k, own, made, hkeeps, hnames, hcodes, -, -⟩ := hall bodies (by simp)
  have hmixin : kindsType.isMixin = true := rfl
  have hne : ¬bodies.name = walksRef.jname := by
    rw [hname]
    exact append_ne_self (by simp)
  rw [ownFields, if_pos hmixin, if_neg hne] at hnames
  rw [sourceOf, if_pos hmixin, if_neg hne] at hcodes
  have hone : mixinCode kindsType = [kindMethod.code] := rfl
  rw [hone] at hcodes
  obtain ⟨p, hpieces, hcode⟩ := List.map_eq_singleton_iff.mp hcodes
  obtain ⟨m, hm, hp⟩ := List.mem_flatMap.mp (hpieces ▸ List.mem_singleton_self p)
  have hkept : keptTypes kindsEnv.pod.symbols made = ["p::Man"] := by
    rw [keptTypes, hpieces, Piece.askedAll, List.flatMap_singleton,
      asked_kind (hkeeps.composed m hm) hp hcode]
    rfl
  have hown : own = [] := List.map_eq_nil_iff.mp hnames
  subst hown
  have hmembers : bodies.HasMembers k ([] ++ (List.range
      (keptTypes kindsEnv.pod.symbols made).length).map keptField) (made.map Prod.fst) :=
    hkeeps.members
  rw [hkept] at hmembers
  exact ⟨_, hclasses, bodies, by simp, hname, k, made, hkeeps, hkept, hmembers⟩

end PodCompiler.Lowering
