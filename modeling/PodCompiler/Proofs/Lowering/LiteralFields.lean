import PodCompiler.Proofs.ClassFile.Fields
import PodCompiler.Proofs.Lowering.ClassMembers
import PodCompiler.Proofs.Lowering.CodeStream
import PodCompiler.Proofs.Lowering.CoreItems

namespace PodCompiler.Pod

namespace LiteralKind

variable {k k' : LiteralKind} {l : Literals} {i j : Nat}

theorem isDigit_of_mem {c : Char} (h : c ∈ (toString i).toList) : c.isDigit = true := by
  have hc : c ∈ Nat.toDigits 10 i := by simpa using h
  exact Nat.isDigit_of_mem_toDigits (by decide) (by decide) hc

-- What a name of a field begins with are the letters of its kind.
theorem takeWhile_fieldName (k : LiteralKind) (i : Nat) :
    (k.fieldName i).toList.takeWhile (!·.isDigit) = k.letters.toList := by
  have hletters : ∀ c ∈ k.letters.toList, (!c.isDigit) = true := by
    cases k <;> simp [letters]
  have hfirst : (toString i).toList.takeWhile (!·.isDigit) = [] := by
    cases hchars : (toString i).toList with
    | nil => rfl
    | cons c cs =>
      have hmem : c ∈ (toString i).toList := by
        rw [hchars]
        exact List.mem_cons_self
      simp [isDigit_of_mem hmem]
  rw [fieldName, String.toList_append, List.takeWhile_append_of_pos hletters, hfirst,
    List.append_nil]

-- Fields of two literals have two names.
theorem eq_of_fieldName_eq (h : k.fieldName i = k'.fieldName j) : k = k' ∧ i = j := by
  have hletters : k.letters.toList = k'.letters.toList := by
    rw [← takeWhile_fieldName k i, h, takeWhile_fieldName k' j]
  have hkind : k = k' := by
    revert hletters
    cases k <;> cases k' <;> decide
  subst hkind
  exact ⟨rfl, fieldName_inj h⟩

theorem length_literals (k : LiteralKind) (l : Literals) : (k.literals l).length = k.count l := by
  cases k <;> simp [literals, count]

theorem kind_of_mem {v : Literal} (h : v ∈ k.literals l) : v.kind = k := by
  cases k
  all_goals
    obtain ⟨x, -, rfl⟩ := List.mem_map.mp h
    rfl

theorem mem_all (k : LiteralKind) : k ∈ all := by
  cases k <;> decide

end LiteralKind

namespace Literals

variable {l : Literals}

-- Each entry of each table is there under its name, and nothing else is.
theorem mem_values {name : String} {v : Literal} :
    (name, v) ∈ l.values ↔ ∃ (k : LiteralKind) (i : Nat),
      name = k.fieldName i ∧ (k.literals l)[i]? = some v := by
  simp only [values, List.mem_flatMap, List.mem_map, Prod.mk.injEq, Prod.exists,
    List.mk_mem_zipIdx_iff_getElem?]
  constructor
  · rintro ⟨k, -, v, i, hv, rfl, rfl⟩
    exact ⟨k, i, rfl, hv⟩
  · rintro ⟨k, i, rfl, hv⟩
    exact ⟨k, k.mem_all, v, i, hv, rfl, rfl⟩

theorem length_values (l : Literals) : l.values.length = l.size := by
  simp [values, LiteralKind.all, LiteralKind.length_literals, LiteralKind.count, size]
  omega

-- The names and descriptors are those of the fields.
theorem map_values (l : Literals) :
    l.values.map (fun p => (p.1, p.2.kind.desc)) = Lowering.literalFields l := by
  unfold values Lowering.literalFields
  rw [List.map_flatMap]
  congr 1
  funext k
  apply List.ext_getElem
  · simp [LiteralKind.length_literals]
  · intro i hi hi'
    have hlt : i < (k.literals l).length := by simpa using hi
    simp [LiteralKind.kind_of_mem (List.getElem_mem hlt)]

-- No two entries have one name.
theorem nodup_names (l : Literals) : (l.values.map (·.1)).Nodup := by
  have hnames : l.values.map (·.1) =
      LiteralKind.all.flatMap fun k => (List.range (k.count l)).map k.fieldName := by
    have hfields := congrArg (List.map Prod.fst) l.map_values
    rw [List.map_map] at hfields
    refine hfields.trans ?_
    unfold Lowering.literalFields
    rw [List.map_flatMap]
    simp only [List.map_map, Function.comp_def]
  rw [hnames, List.nodup_flatMap]
  constructor
  · intro k _
    exact List.nodup_range.map fun _ _ => LiteralKind.fieldName_inj
  · refine List.Pairwise.imp ?_ (by decide : LiteralKind.all.Pairwise (· ≠ ·))
    intro k k' hne
    rw [Function.onFun, List.disjoint_left]
    intro name hname hname'
    obtain ⟨i, -, rfl⟩ := List.mem_map.mp hname
    obtain ⟨j, -, hj⟩ := List.mem_map.mp hname'
    exact hne (LiteralKind.eq_of_fieldName_eq hj).1.symm

-- So a field is found by its name, and holds what is in its table at its index.
theorem get?_fieldName (l : Literals) (k : LiteralKind) (i : Nat) :
    l.get? (k.fieldName i) = (k.literals l)[i]? := by
  apply Option.ext
  intro v
  unfold get?
  rw [Option.map_eq_some_iff]
  constructor
  · rintro ⟨⟨name, v'⟩, hfind, rfl⟩
    have hname := List.find?_some hfind
    obtain ⟨k', j, rfl, hv⟩ := mem_values.mp (List.mem_of_find?_eq_some hfind)
    obtain ⟨rfl, rfl⟩ := LiteralKind.eq_of_fieldName_eq (of_decide_eq_true hname)
    exact hv
  · intro hv
    have hmem : (k.fieldName i, v) ∈ l.values := mem_values.mpr ⟨k, i, rfl, hv⟩
    obtain ⟨⟨name, v'⟩, hfind⟩ : ∃ p, l.values.find? (·.1 = k.fieldName i) = some p := by
      rw [← Option.isSome_iff_exists, List.find?_isSome]
      exact ⟨_, hmem, by simp⟩
    have hname := List.find?_some hfind
    obtain ⟨k', j, rfl, hv'⟩ := mem_values.mp (List.mem_of_find?_eq_some hfind)
    obtain ⟨rfl, rfl⟩ := LiteralKind.eq_of_fieldName_eq (of_decide_eq_true hname)
    rw [hv] at hv'
    cases hv'
    exact ⟨_, hfind, rfl⟩

end Literals

end PodCompiler.Pod

namespace PodCompiler.Lowering

open ClassFile (Constants Draft FieldInfo)
open ClassFile.Op
open Jvm (fetch)
open Pod (LiteralKind)

-- The file of a class has exactly these fields, in this order.
def ClassOutput.HasFields (o : ClassOutput) (fields : List (UInt16 × String × String)) : Prop :=
  ∃ d attrs pool, Draft.attrNames d d.pool = .ok attrs pool ∧ o.name = d.name ∧
    o.bytes = d.serialize pool attrs ∧
    Constants.className? pool.get? d.thisIndex = some d.name ∧
    d.fields.toList.map FieldInfo.signature = fields ∧ ∀ f ∈ d.fields, f.Named pool.get?

-- The class of the literals declares their fields.
theorem lowerLiterals_eq_ok {pod : Pod} {config : EmitConfig} {o : ClassOutput}
    (h : lowerLiterals pod config = .ok o) :
    o.name = literalClass pod.name ∧
      o.HasFields ((literalFields pod.literals).map fun p =>
        (ClassFile.Access.public_ ||| ClassFile.Access.static_, p.1, p.2)) := by
  obtain ⟨d, hcreate, h₁⟩ := except_bind_eq_ok.mp h
  obtain ⟨⟨u, d'⟩, hrun, h₂⟩ := except_bind_eq_ok.mp h₁
  obtain ⟨hbuilt, hname, hthis⟩ := OpenClass.create_eq_ok hcreate
  have hnone : d.HasFields [] := by
    unfold OpenClass.create at hcreate
    cases hdraft : Draft.create (literalClass pod.name) "java/lang/Object"
        (ClassFile.Access.public_ ||| ClassFile.Access.super_ ||| ClassFile.Access.final_)
        config.classMajor with
    | error e =>
      rw [hdraft] at hcreate
      cases hcreate
    | ok d₀ =>
      rw [hdraft] at hcreate
      cases hcreate
      exact Draft.hasFields_create hdraft
  obtain ⟨hdeclares, hfields⟩ := Draft.hasFields_of_forM hbuilt hnone (OpenClass.run_eq_ok hrun)
  obtain ⟨attrs, pool, hattrs, houtput, hbytes⟩ := OpenClass.output_eq_ok h₂
  have hext := OpenClass.extends_attrNames hdeclares.built hattrs
  have hthis' := hdeclares.className? (by rw [hthis, hname])
  exact ⟨houtput.trans (hdeclares.name.trans hname), d', attrs, pool, hattrs, houtput, hbytes,
    hext.className? hthis', hfields.eq, hfields.extends hext⟩

-- The pool has the field of a literal under an index: its signature, and its parts, unless the name
-- of the pod would have it cut at a colon.
structure NamesLiteral (pool : Constants) (pod : Pod) (kind : LiteralKind) (index : Nat)
    (field : UInt16) : Prop where
  signature : pool.field? field =
    some s!"{literalClass pod.name}.{kind.fieldName index}:{kind.desc}"
  parts : '.' ∉ pod.name.toList ∨ ':' ∉ pod.name.toList →
    pool.fieldMember? field = some ⟨literalClass pod.name, kind.fieldName index, kind.desc⟩

theorem NamesLiteral.extends {k k' : Constants} {pod : Pod} {kind : LiteralKind} {index : Nat}
    {field : UInt16} (h : NamesLiteral k pod kind index field) (hk : Constants.Extends k' k) :
    NamesLiteral k' pod kind index field where
  signature := hk.field? h.signature
  parts hname := hk.fieldMember? (h.parts hname)

-- Names of fields are plain.
theorem not_mem_fieldName {kind : LiteralKind} {index : Nat} {c : Char} (hdigit : c.isDigit = false)
    (hletters : ∀ k : LiteralKind, c ∉ k.letters.toList) : c ∉ (kind.fieldName index).toList := by
  intro hc
  rw [LiteralKind.fieldName, String.toList_append, List.mem_append] at hc
  obtain hc | hc := hc
  · exact hletters kind hc
  · rw [LiteralKind.isDigit_of_mem hc] at hdigit
    cases hdigit

theorem colon_not_mem_fieldName (kind : LiteralKind) (index : Nat) :
    ':' ∉ (kind.fieldName index).toList :=
  not_mem_fieldName rfl fun k => by cases k <;> simp [LiteralKind.letters]

theorem dot_not_mem_fieldName (kind : LiteralKind) (index : Nat) :
    '.' ∉ (kind.fieldName index).toList :=
  not_mem_fieldName rfl fun k => by cases k <;> simp [LiteralKind.letters]

theorem toList_literalClass (pod : String) :
    (literalClass pod).toList = "fan/".toList ++ (pod.toList ++ "/$Pod".toList) := by
  have happend : literalClass pod = "fan/" ++ pod ++ "/$Pod" := rfl
  rw [happend, String.toList_append, String.toList_append, List.append_assoc]

-- A prefix up to a test ends before the first item that fails it.
theorem mem_of_mem_takeWhile {α : Type} {p : α → Bool} {xs ys : List α} {a c : α} (ha : p a = false)
    (h : c ∈ (xs ++ a :: ys).takeWhile p) : c ∈ xs := by
  rw [List.takeWhile_append, List.takeWhile_cons_of_neg (by simp [ha]), List.append_nil] at h
  split at h
  · exact h
  · exact (List.takeWhile_prefix p).mem h

-- What is found under the index of a field of a literal are its parts.
theorem ofField_literal {pod : String} {kind : LiteralKind} {index : Nat} {m : ClassFile.Member}
    (hname : '.' ∉ pod.toList ∨ ':' ∉ pod.toList)
    (h : ClassFile.Member.ofField s!"{literalClass pod}.{kind.fieldName index}:{kind.desc}" =
      .ok m) : m = ⟨literalClass pod, kind.fieldName index, kind.desc⟩ := by
  have hsig : s!"{literalClass pod}.{kind.fieldName index}:{kind.desc}" =
      literalClass pod ++ "." ++ kind.fieldName index ++ ":" ++ kind.desc := rfl
  rw [hsig] at h
  by_cases hcolon : ':' ∈ pod.toList
  · -- The signature is cut at the colon in the name, and before that there is no dot.
    obtain hdot | hnone := hname
    · have hmem := ClassFile.Member.dot_mem_of_ofField h
      obtain ⟨front, back, hpod⟩ := List.append_of_mem hcolon
      simp only [String.toList_append, toList_literalClass, hpod, List.append_assoc,
        List.cons_append] at hmem
      rw [← List.append_assoc] at hmem
      have hfront := mem_of_mem_takeWhile (by simp) hmem
      have hpod' : '.' ∉ front := fun h => hdot (hpod ▸ List.mem_append_left _ h)
      simp [hpod'] at hfront
    · exact absurd hcolon hnone
  · have hne : literalClass pod ≠ "" := by
      intro hempty
      have hchars := toList_literalClass pod
      rw [hempty] at hchars
      simp at hchars
    have hne' : kind.fieldName index ≠ "" := by
      intro hempty
      have hletters := LiteralKind.takeWhile_fieldName kind index
      rw [hempty] at hletters
      cases kind <;> simp [LiteralKind.letters] at hletters
    have hdesc : kind.desc ≠ "" := by cases kind <;> simp [LiteralKind.desc]
    rw [ClassFile.Member.ofField_append hne hne' hdesc ?_ (dot_not_mem_fieldName _ _)] at h
    · cases h
      rfl
    · rw [toList_literalClass]
      simp [hcolon, colon_not_mem_fieldName]

theorem intern_literal {env : ClassEnv} {c c' : OpenClass} {kind : LiteralKind} {index : Nat}
    {field : UInt16} (hc : c.WellFormed env)
    (h : Ref.intern (.field s!"{literalClass env.pod.name}.{kind.fieldName index}:{kind.desc}")
      env c = .ok field c') :
    NamesLiteral c'.draft.pool.get? env.pod kind index field := by
  refine ⟨intern_field_eq_ok hc h, fun hname => ?_⟩
  obtain ⟨p, hp, rfl⟩ := ClassM.onPool_eq_ok.mp h
  obtain ⟨-, -, m, owner, member, hm, hfield, hmember⟩ := ClassFile.Pool.member_eq_ok hc.pool hp
  unfold Constants.fieldMember?
  rw [hfield]
  exact hmember.trans (congrArg some (ofField_literal hname hm))

-- An instruction that loads a literal puts the item that reads the field of the literal first.
theorem Emits.readsLiteral {env : ClassEnv} {f : Frame} {i : Instr} {next : Following}
    {e e' : EmitState} {fused : Bool} {its : List (Item UInt16)} {kind : LiteralKind}
    (h : Emits env f i next e fused its e') (he : e.cls.WellFormed env)
    (hop : LiteralKind.ofOp? i.op = some kind) :
    i.arg.toNat < kind.count env.pod.literals ∧ ∃ field rest,
      its = .const getStatic field :: rest ∧
      NamesLiteral e'.cls.draft.pool.get? env.pod kind i.arg.toNat field := by
  obtain ⟨hlt, hits⟩ := h.literal hop
  cases hits with
  | cons hfirst hrest =>
    obtain ⟨field, hfield, rfl⟩ := ClassM.map_eq_ok.mp hfirst
    obtain ⟨he₁, -⟩ := ClassM.advancing_intern _ _ _ _ _ hfield he
    refine ⟨hlt, field, _, rfl, ?_⟩
    exact (intern_literal he hfield).extends (hrest.advances.extends he₁)

-- The code at a position reads the field of a literal.
structure ReadsLiteral (pool : Constants) (pod : Pod) (bytes : Bytes) (pc : Nat)
    (kind : LiteralKind) (index : Nat) : Prop where
  declared : (kind.fieldName index, kind.desc) ∈ literalFields pod.literals
  reads : ∃ field, fetch bytes pc = some (.getStatic field, pc + 3) ∧
    NamesLiteral pool pod kind index field

theorem mem_literalFields {l : Pod.Literals} {kind : LiteralKind} {index : Nat}
    (h : index < kind.count l) : (kind.fieldName index, kind.desc) ∈ literalFields l :=
  List.mem_flatMap.mpr ⟨kind, kind.mem_all, List.mem_map.mpr ⟨index, List.mem_range.mpr h, rfl⟩⟩

-- So it is wherever a scope knows the instruction.
theorem Lowered.readsLiteral {env : ClassEnv} {f : Frame} {code : Bytes} {out : ClassFile.CodeBuffer}
    {c c₁ : OpenClass} {body : BodyState} {mc : MethodCode} {s q pc : Nat} {i : Instr}
    {kind : LiteralKind} (hl : Lowered env f code out c c₁ body mc) (hc : c.WellFormed env)
    (hat : (body.layout code out).reloc.getLocal s q = some pc)
    (hi : Instr.decodeAt code q = .ok i) (hop : LiteralKind.ofOp? i.op = some kind) :
    ReadsLiteral c₁.draft.pool.get? env.pod mc.code.code pc kind i.arg.toNat := by
  obtain hend | ⟨pre, post, hitems, hscope, hpos, hsite⟩ := layout_site out hl.emits hat hi
  · rw [hend] at hop
    cases hop
  cases hsite with
  | @one i' next e e₁ _ own more hi' hown _ _ hfirst hlast =>
    rw [hi] at hi'
    cases hi'
    obtain ⟨he, -⟩ := hfirst.later.advances hc
    obtain ⟨hlt, field, rest, rfl, hholds⟩ := hown.readsLiteral he hop
    have hstands : body.Stands code out s pc
        (.mark q :: .const getStatic field :: (rest ++ more)) := ⟨pre, hitems, hscope, hpos⟩
    obtain ⟨he₁, -⟩ := hown.advances he
    exact ⟨mem_literalFields hlt, field, hl.fetch_const hstands.unmark rfl,
      hholds.extends (hlast.later.advances.extends he₁)⟩
  | fused hi' _ hown _ _ _ =>
    rw [hi] at hi'
    cases hi'
    have hcompare := hown.isComparison
    unfold LiteralKind.ofOp? at hop
    split at hop <;> simp_all [isComparison, relation?]
  | @swallowed p i' j rest e e₁ _ before own more _ _ hj hown _ =>
    rw [hi] at hj
    cases hj
    obtain ⟨sense, target, items, op, hnext, -, -, -⟩ := hown.shape.of_mark
    obtain ⟨j, rest, heq, -, -, hsense⟩ := ofRest_eq_jump hnext
    cases heq
    unfold Following.sense? at hsense
    split at hsense <;> simp_all [LiteralKind.ofOp?]
  | copy hi' hop' _ =>
    rw [hi] at hi'
    cases hi'
    rw [hop'] at hop
    cases hop

theorem ReadsLiteral.extends {k k' : Constants} {pod : Pod} {bytes : Bytes} {pc index : Nat}
    {kind : LiteralKind} (h : ReadsLiteral k pod bytes pc kind index)
    (hk : Constants.Extends k' k) : ReadsLiteral k' pod bytes pc kind index := by
  obtain ⟨field, hfetch, hnames⟩ := h.reads
  exact ⟨h.declared, field, hfetch, hnames.extends hk⟩

-- Code and expressions are lowered to a body, and then only the tables are left.
theorem lowered_of_lower {env : ClassEnv} {f : Frame} {code : Bytes} {attrs : Pod.Attributes}
    {out : ClassFile.CodeBuffer} {c c' : OpenClass} {mc : MethodCode}
    (h : lowerCode f code attrs out env c = .ok mc c' ∨
      lowerFragment f code out env c = .ok mc c') :
    ∃ body c₁, Lowered env f code out c c₁ body mc ∧ OpenClass.Advances env c₁ c' := by
  obtain h | h := h
  · obtain ⟨body, c₁, errs, exceptions, lines, hl, -, htable, -⟩ := lowered_tables h
    exact ⟨body, c₁, hl, advancing_table _ _ _ _ _ _ _ htable⟩
  · obtain ⟨p, c₁, hp, h₁⟩ := ClassM.bind_eq_ok.mp h
    obtain ⟨hfinish, rfl⟩ := ClassM.ofExcept_eq_ok.mp h₁
    obtain ⟨hcode, hreloc, hjumps⟩ := finish_eq_ok hfinish
    obtain ⟨body, hbody, hexact⟩ := exact_of_placed hp hcode hreloc hjumps
    exact ⟨body, c', ⟨hbody, hexact⟩, .refl _⟩

-- Each entry of the tables has a field of its own, under which it is found; the class of the
-- literals declares these fields in the order of the entries, with the descriptors of their kinds;
-- and an instruction that loads an entry becomes, wherever it is lowered, one that reads its field.
theorem literals_by_fields (pod : Pod) (config : EmitConfig) :
    (pod.literals.values.length = pod.literals.size ∧ (pod.literals.values.map (·.1)).Nodup) ∧
    (∀ (kind : LiteralKind) (index : Nat),
      pod.literals.get? (kind.fieldName index) = (kind.literals pod.literals)[index]? ∧
        ∀ v ∈ kind.literals pod.literals, v.kind = kind) ∧
    pod.literals.values.map (fun p => (p.1, p.2.kind.desc)) = literalFields pod.literals ∧
    (∀ o, lowerLiterals pod config = .ok o → o.name = literalClass pod.name ∧
      o.HasFields ((literalFields pod.literals).map fun p =>
        (ClassFile.Access.public_ ||| ClassFile.Access.static_, p.1, p.2))) ∧
    ∀ (selfName : String) (f : Frame) (code : Bytes) (attrs : Pod.Attributes)
      (out : ClassFile.CodeBuffer) (c : OpenClass) (mc : MethodCode) (c' : OpenClass),
      c.WellFormed ⟨pod, config, selfName⟩ →
      lowerCode f code attrs out ⟨pod, config, selfName⟩ c = .ok mc c' ∨
        lowerFragment f code out ⟨pod, config, selfName⟩ c = .ok mc c' →
      ∃ body c₁ instrs, emitBody f code {} ⟨pod, config, selfName⟩ c = .ok ((), body) c₁ ∧
        Instr.disassemble code = .ok instrs ∧
        ∀ i ∈ instrs, ∀ kind, LiteralKind.ofOp? i.op = some kind →
          (∃ pc, (body.layout code out).reloc.getLocal Relocation.mainScope i.pos = some pc) ∧
          ∀ s pc, (body.layout code out).reloc.getLocal s i.pos = some pc →
            ReadsLiteral c'.draft.pool.get? pod mc.code.code pc kind i.arg.toNat := by
  refine ⟨⟨pod.literals.length_values, pod.literals.nodup_names⟩, ?_, pod.literals.map_values,
    fun o => lowerLiterals_eq_ok, ?_⟩
  · exact fun kind index => ⟨pod.literals.get?_fieldName kind index,
      fun v hv => LiteralKind.kind_of_mem hv⟩
  intro selfName f code attrs out c mc c' hc h
  obtain ⟨body, c₁, hl, hadvances⟩ := lowered_of_lower h
  obtain ⟨instrs, hdis, hknown⟩ := layout_positions out hl.emits
  refine ⟨body, c₁, instrs, hl.emits, hdis, ?_⟩
  intro i hi kind hop
  have hstream := Instr.disassemble_eq_ok_iff.mp hdis
  obtain ⟨hat, -, -⟩ := hstream.decodeAt_of_mem hi
  refine ⟨(hknown i.pos).mpr (.inl (List.mem_map_of_mem hi)), ?_⟩
  intro s pc hpc
  obtain ⟨hc₁, -⟩ := emitBody_advances hl.emits hc
  exact (hl.readsLiteral hc hpc hat hop).extends (hadvances.extends hc₁)

-- A class of a pod with an integer, a decimal and a duration.
def literalEnv : ClassEnv :=
  { bareEnv with pod := { bareEnv.pod with
      literals := { ints := #[7], decimals := #["0.5"], durations := #[3] } } }

-- The field of the duration goes into an empty pool.
theorem exists_intern_duration : ∃ field c, Ref.intern (.field
    s!"{literalClass literalEnv.pod.name}.{LiteralKind.duration.fieldName 0}:{LiteralKind.duration.desc}")
      literalEnv bareClass = .ok field c := by
  have hsig : ClassFile.Member.ofField
      s!"{literalClass literalEnv.pod.name}.{LiteralKind.duration.fieldName 0}:{LiteralKind.duration.desc}" =
        .ok ⟨"fan/p/$Pod", "Dur0", "Lfan/sys/Duration;"⟩ := by cbv
  have hfits : ClassFile.Pool.Fits 12 (ClassFile.Pool.member .fieldref
      (.ok ⟨"fan/p/$Pod", "Dur0", "Lfan/sys/Duration;"⟩)) := by
    refine ClassFile.Pool.fits_bind (n := 4) (k := 8) (ClassFile.Pool.fits_class _) fun c => ?_
    refine ClassFile.Pool.fits_bind (n := 6) (k := 2) ?_ fun m => ClassFile.Pool.fits_add _
    refine ClassFile.Pool.fits_bind (n := 2) (k := 4) (ClassFile.Pool.fits_add _) fun n => ?_
    exact ClassFile.Pool.fits_bind (n := 2) (k := 2) (ClassFile.Pool.fits_add _) fun d =>
      ClassFile.Pool.fits_add _
  obtain ⟨field, p, hp, -⟩ := hfits bareClass.draft.pool (by decide)
  refine ⟨field, _, ClassM.onPool_eq_ok.mpr ⟨p, ?_, rfl⟩⟩
  unfold ClassFile.Pool.field
  rw [hsig]
  exact hp

-- An expression that loads the duration.
theorem exists_lower_duration : ∃ mc c', lowerFragment bareFrame #[7, 0, 0] {} literalEnv bareClass =
    .ok mc c' := by
  obtain ⟨field, c₁, hintern⟩ := exists_intern_duration
  have hrange : Instr.decodeRange #[7, 0, 0] 0 (#[7, 0, 0] : Bytes).size = ⟨[⟨0, .loadDuration, [0]⟩], none⟩ := by
    decide +kernel
  have hliteral : emitLiteral .duration ⟨0, .loadDuration, [0]⟩ ⟨#[.mark 0], {}⟩ literalEnv
      bareClass = .ok ((), ⟨#[.mark 0, .const getStatic field], {}⟩) c₁ := by
    refine BodyM.bind_eq_ok.mpr ⟨_, _, _, rfl, BodyM.bind_eq_ok.mpr ⟨_, _, _,
      BodyM.ofExcept_eq_ok.mpr ⟨rfl, rfl, rfl⟩, ?_⟩⟩
    exact BodyM.bind_eq_ok.mpr ⟨_, _, _,
      BodyM.lift_eq_ok.mpr ⟨ClassM.map_eq_ok.mpr ⟨field, hintern, rfl⟩, rfl⟩, rfl⟩
  have hbody : emitBody bareFrame #[7, 0, 0] {} literalEnv bareClass =
      .ok ((), ⟨#[.mark 0, .const getStatic field, .mark 3], {}⟩) c₁ := by
    refine BodyM.bind_eq_ok.mpr ⟨(), ⟨#[.mark 0, .const getStatic field], {}⟩, c₁, ?_, rfl⟩
    unfold maxInlineDepth emitRange
    dsimp only
    rw [hrange]
    unfold emitInstrs
    refine BodyM.bind_eq_ok.mpr ⟨_, _, _, rfl, BodyM.bind_eq_ok.mpr ⟨false, _, c₁, ?_, rfl⟩⟩
    exact BodyM.bind_eq_ok.mpr ⟨_, _, _, hliteral, rfl⟩
  exact ⟨_, c₁, ClassM.bind_eq_ok.mpr ⟨_, c₁, placeCode_eq hbody,
    ClassM.ofExcept_eq_ok.mpr ⟨rfl, rfl⟩⟩⟩

-- The duration stands behind the decimal, and has a field with its own letters.
theorem literals_by_fields_duration :
    literalEnv.pod.literals.get? (LiteralKind.duration.fieldName 0) = some (.duration 3) ∧
    ∃ mc c', lowerFragment bareFrame #[7, 0, 0] {} literalEnv bareClass = .ok mc c' ∧
      ∃ body c₁ pc, emitBody bareFrame #[7, 0, 0] {} literalEnv bareClass = .ok ((), body) c₁ ∧
        (body.layout #[7, 0, 0] {}).reloc.getLocal Relocation.mainScope 0 = some pc ∧
        ReadsLiteral c'.draft.pool.get? literalEnv.pod mc.code.code pc .duration 0 := by
  obtain ⟨-, htables, -, -, hloads⟩ := literals_by_fields literalEnv.pod literalEnv.config
  obtain ⟨mc, c', h⟩ := exists_lower_duration
  obtain ⟨body, c₁, instrs, hbody, hdis, hreads⟩ := hloads literalEnv.selfName bareFrame
    #[7, 0, 0] {} {} bareClass mc c' (wellFormed_bare _) (.inr h)
  have hinstrs : Instr.disassemble #[7, 0, 0] = .ok [⟨0, .loadDuration, [0]⟩] := by decide +kernel
  rw [hinstrs] at hdis
  cases hdis
  obtain ⟨⟨pc, hpc⟩, hall⟩ := hreads ⟨0, .loadDuration, [0]⟩ (by simp) .duration rfl
  exact ⟨(htables .duration 0).1, mc, c', h, body, c₁, pc, hbody, hpc, hall _ pc hpc⟩

end PodCompiler.Lowering
