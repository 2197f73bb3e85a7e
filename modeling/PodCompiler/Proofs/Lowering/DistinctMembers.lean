import PodCompiler.Proofs.Lowering.RouterChoice
import PodCompiler.Proofs.Lowering.TypeFields

namespace PodCompiler

-- What a method of a class is found by.
def ClassFile.MethodInfo.key (w : MethodInfo) : String × String := (w.name, w.desc)

namespace Lowering

open ClassFile (CodeBuffer MethodInfo)
open Pod (MethodDef TypeDef)

namespace OpenClass

variable {env : ClassEnv} {c c₁ c' : OpenClass} {P Q : String × String → Prop}

-- Some methods are put behind those of a class, no two of them alike, and `P` admits them all.
def Gains (env : ClassEnv) (P : String × String → Prop) (c c' : OpenClass) : Prop :=
  ∃ ms, c.Declares env ms c' ∧ (ms.map MethodInfo.key).Nodup ∧ ∀ w ∈ ms, P w.key

theorem Gains.formed (h : c.Gains env P c') : c'.WellFormed env := by
  obtain ⟨ms, hms, -⟩ := h
  exact hms.formed

theorem Gains.mono (h : c.Gains env P c') (hPQ : ∀ k, P k → Q k) : c.Gains env Q c' := by
  obtain ⟨ms, hms, hnodup, hall⟩ := h
  exact ⟨ms, hms, hnodup, fun w hw => hPQ _ (hall w hw)⟩

theorem Gains.trans (h : c.Gains env P c₁) (h' : c₁.Gains env Q c') (hPQ : ∀ k, P k → ¬Q k) :
    c.Gains env (fun k => P k ∨ Q k) c' := by
  obtain ⟨ms, hms, hnodup, hall⟩ := h
  obtain ⟨ms', hms', hnodup', hall'⟩ := h'
  refine ⟨ms ++ ms', hms.trans hms', ?_, ?_⟩
  · rw [List.map_append, List.nodup_append]
    refine ⟨hnodup, hnodup', ?_⟩
    simp only [List.forall_mem_map]
    intro w hw w' hw' hsame
    exact hPQ _ (hall w hw) (hsame ▸ hall' w' hw')
  · exact List.forall_mem_append.mpr
      ⟨fun w hw => .inl (hall w hw), fun w hw => .inr (hall' w hw)⟩

-- No two methods of a class are alike.
def Apart (c : OpenClass) : Prop :=
  (c.draft.methods.toList.map MethodInfo.key).Nodup

-- A class that had no methods.
theorem Gains.apart (h : c.Gains env P c') (hc : c.draft.methods = #[]) : c'.Apart := by
  obtain ⟨ms, hms, hnodup, -⟩ := h
  rwa [Apart, hms.draft.methods, hc, List.nil_append]

-- A method that the class does not have may come.
theorem Declares.apart {w : MethodInfo} (h : c.Declares env [w] c') (hc : c.Apart)
    (hnew : c.draft.hasMethod w.name w.desc = false) : c'.Apart := by
  rw [Apart, h.draft.methods, List.map_append, List.nodup_append]
  refine ⟨hc, List.nodup_singleton _, ?_⟩
  simp only [List.forall_mem_map]
  intro w' hw' w₂ hw₂ hsame
  obtain rfl := List.mem_singleton.mp hw₂
  have hhas : c.draft.hasMethod w₂.name w₂.desc = true :=
    Array.any_eq_true'.mpr ⟨w', Array.mem_toList_iff.mp hw', by simpa [MethodInfo.key] using hsame⟩
  exact Bool.false_ne_true (hnew.symm.trans hhas)

end OpenClass

namespace ClassM

variable {α β : Type} {P Q : String × String → Prop}

-- A step that puts methods behind those of a class, no two of them alike.
def Gaining (P : String × String → Prop) (m : ClassM α) : Prop :=
  ∀ env c a c', m env c = .ok a c' → c.WellFormed env → c.Gains env P c'

theorem Gaining.mono {m : ClassM α} (hm : Gaining P m) (hPQ : ∀ k, P k → Q k) : Gaining Q m :=
  fun env c a c' h hc => (hm env c a c' h hc).mono hPQ

theorem Gaining.bind {m : ClassM α} {k : α → ClassM β} (hm : Gaining P m)
    (hk : ∀ a, Gaining Q (k a)) (hPQ : ∀ k, P k → ¬Q k) :
    Gaining (fun k => P k ∨ Q k) (m >>= k) := by
  intro env c b c' h hc
  obtain ⟨a, c₁, ha, hb⟩ := bind_eq_ok.mp h
  have hgains := hm env c a c₁ ha hc
  exact hgains.trans (hk a env c₁ b c' hb hgains.formed) hPQ

-- A step that puts nothing.
theorem Adds.gaining {m : ClassM α} (hm : Adds (fun _ => False) m) : Gaining P m := by
  intro env c a c' h hc
  obtain ⟨ms, hms, hnone⟩ := hm env c a c' h hc
  have hnil : ms = [] := List.eq_nil_iff_forall_not_mem.mpr hnone
  exact ⟨ms, hms, by simp [hnil], by simp [hnil]⟩

theorem Adds.bind_gaining {m : ClassM α} {k : α → ClassM β} (hm : Adds (fun _ => False) m)
    (hk : ∀ a, Gaining P (k a)) : Gaining P (m >>= k) :=
  (hm.gaining.bind hk fun _ => False.elim).mono fun _ h => h.resolve_left id

theorem gaining_addMethod {access : UInt16} {name desc : String} {code : Option CodeBuffer} :
    Gaining (· = (name, desc)) (addMethod access name desc code) := by
  intro env c u c' h hc
  obtain ⟨w, hw, -, rfl, rfl, -⟩ := addMethod_eq_ok hc h
  exact ⟨[w], hw, List.nodup_singleton _, List.forall_mem_singleton.mpr rfl⟩

theorem gaining_forM {xs : List α} {g : α → ClassM PUnit} {P : α → String × String → Prop}
    (hg : ∀ x ∈ xs, Gaining (P x) (g x)) (hP : xs.Pairwise fun x y => ∀ k, P x k → ¬P y k) :
    Gaining (fun k => ∃ x ∈ xs, P x k) (xs.forM g) := by
  induction xs with
  | nil => exact (advancing_pure _).adds.gaining
  | cons x rest ih =>
    obtain ⟨hx, hrest⟩ := List.forall_mem_cons.mp hg
    obtain ⟨hfirst, hP⟩ := List.pairwise_cons.mp hP
    refine ((hx.bind (fun _ => ih hrest hP) ?_)).mono fun k hk => ?_
    · rintro k hk ⟨y, hy, hk'⟩
      exact hfirst y hy k hk hk'
    · simpa using hk

theorem gaining_forPicked {xs : List α} {p : α → Bool} {g : α → ClassM Unit}
    {P : α → String × String → Prop} (hg : ∀ x ∈ xs, Gaining (P x) (g x))
    (hP : xs.Pairwise fun x y => ∀ k, P x k → ¬P y k) :
    Gaining (fun k => ∃ x ∈ xs, P x k) (forPicked xs p g) := by
  rw [forPicked_eq_forM]
  refine gaining_forM (fun x hx => ?_) hP
  split
  · exact hg x hx
  · exact (advancing_pure _).adds.gaining

-- A step that leaves the methods of a class apart.
def KeepsApart (m : ClassM α) : Prop :=
  ∀ env c a c', m env c = .ok a c' → c.WellFormed env → c.Apart → c'.WellFormed env ∧ c'.Apart

theorem KeepsApart.bind {m : ClassM α} {k : α → ClassM β} (hm : KeepsApart m)
    (hk : ∀ a, KeepsApart (k a)) : KeepsApart (m >>= k) := by
  intro env c b c' h hc hapart
  obtain ⟨a, c₁, ha, hb⟩ := bind_eq_ok.mp h
  obtain ⟨hc₁, hapart₁⟩ := hm env c a c₁ ha hc hapart
  exact hk a env c₁ b c' hb hc₁ hapart₁

theorem Advancing.keepsApart {m : ClassM α} (hm : Advancing m) : KeepsApart m := by
  intro env c a c' h hc hapart
  have hnone := (hm env c a c' h).declares hc
  refine ⟨hnone.formed, ?_⟩
  rwa [OpenClass.Apart, hnone.draft.methods, List.append_nil]

theorem keepsApart_forM {xs : List α} {g : α → ClassM PUnit} (hg : ∀ x, KeepsApart (g x)) :
    KeepsApart (xs.forM g) := by
  induction xs with
  | nil => exact (advancing_pure _).keepsApart
  | cons x rest ih => exact (hg x).bind fun _ => ih

end ClassM

section Families

variable {env : ClassEnv} {c c' : OpenClass} {owner : String} {m : MethodDef} {t : Target}
  {access : UInt16} {mode : SelfMode} {main : MethodInfo}

-- Methods that take other numbers of the parameters have other descriptors.
theorem nodup_desc {s : Pod.Symbols} {self : Option String} {result : Result} {ns : List Nat}
    {ws : List MethodInfo} (h : List.Forall₂
      (fun n w => methodDesc s m self (m.params.take n) result = .ok w.desc) ns ws)
    (hns : ns.Nodup) (hle : ∀ n ∈ ns, n ≤ m.params.length) :
    (ws.map MethodInfo.desc).Nodup := by
  induction h with
  | nil => exact List.nodup_nil
  | cons hn hrest ih =>
    obtain ⟨hnew, hns⟩ := List.nodup_cons.mp hns
    obtain ⟨hbound, hle⟩ := List.forall_mem_cons.mp hle
    refine List.nodup_cons.mpr ⟨fun hmem => hnew ?_, ih hns hle⟩
    obtain ⟨w', hw', hsame⟩ := List.mem_map.mp hmem
    obtain ⟨n', hn', hdesc⟩ := exists_of_forall₂ (List.Forall₂.flip hrest) hw'
    rw [hsame] at hdesc
    exact take_inj_of_methodDesc hbound (hle n' hn') hn hdesc ▸ hn'

theorem Family.nodup {ws : List MethodInfo} (h : Family env owner m t access mode main ws) :
    ((main :: ws).map MethodInfo.key).Nodup := by
  refine List.Nodup.of_map Prod.snd ?_
  rw [List.map_map]
  change ((main :: ws).map MethodInfo.desc).Nodup
  cases h.wrappers with
  | none _ => exact List.nodup_singleton _
  | @some first _ _ _ _ _ hws =>
    have hfull : methodDesc env.pod.symbols m t.self (m.params.take m.params.length) t.result =
        .ok main.desc := by
      rw [List.take_length, h.desc, h.full]
    have hlt : ∀ n ∈ (List.range m.params.length).drop first, n < m.params.length :=
      fun n hn => List.mem_range.mp (List.mem_of_mem_drop hn)
    refine nodup_desc (.cons hfull (hws.imp fun _ _ hw => hw.desc)) ?_ ?_
    · exact List.nodup_cons.mpr ⟨fun hmem => Nat.lt_irrefl _ (hlt _ hmem),
        List.nodup_range.sublist (List.drop_sublist _ _)⟩
    · exact List.forall_mem_cons.mpr ⟨le_rfl, fun n hn => (hlt n hn).le⟩

theorem FamilySteps.gains (h : FamilySteps env c m t access mode main c') :
    c.Gains env (·.1 = t.name) c' := by
  obtain ⟨ws, hdeclares, hfamily⟩ := h.family
  exact ⟨main :: ws, hdeclares, hfamily.nodup, hfamily.name_eq⟩

end Families

-- The names that the methods of a class have for one method of its type.
def IsNameFor (m : MethodDef) (key : String × String) : Prop :=
  key.1 = m.name ∨ key.1 = m.name ++ "$"

section Members

open ClassM (Gaining KeepsApart)

theorem gaining_lowerMethod (m : MethodDef) : Gaining (IsNameFor m) (lowerMethod m) := by
  intro env c u c' h hc
  unfold lowerMethod at h
  split at h
  · obtain ⟨c₁, body, factory, -, -, hbodies, -, -, -, hfactories, -⟩ := lowerCtor_eq_ok hc h
    refine (hbodies.gains.trans hfactories.gains fun key hbody hfactory => ?_).mono
      fun key hkey => hkey.symm
    exact append_ne_self (by simp) (hbody.symm.trans hfactory)
  · split at h
    · obtain ⟨main, ret, f, peerDesc, -, hsteps, -⟩ := lowerNative_eq_ok hc h
      exact hsteps.gains.mono fun key hkey => .inl hkey
    · obtain ⟨main, ret, -, hsteps, -⟩ := lowerStandard_eq_ok hc h
      exact hsteps.gains.mono fun key hkey => .inl hkey

theorem gaining_addTypeOf : Gaining (·.1 = "typeof") addTypeOf := by
  unfold addTypeOf
  refine ClassM.advancing_className.adds.bind_gaining fun cls => ?_
  refine (ClassM.adds_addField _ _ _).bind_gaining fun _ => ?_
  refine (advancing_assemble _ _).adds.bind_gaining fun out => ?_
  exact ClassM.gaining_addMethod.mono fun _ hkey => hkey ▸ rfl

theorem gaining_lowerClassInit (self : Option TypeRef) (body : Option MethodDef) :
    Gaining (·.1 = "<clinit>") (lowerClassInit self body) := by
  unfold lowerClassInit
  refine ClassM.advancing_className.adds.bind_gaining fun cls => ?_
  refine (advancing_assemble _ _).adds.bind_gaining fun out => ?_
  refine (advancing_lowerInit _ _).adds.bind_gaining fun _ => ?_
  exact ClassM.gaining_addMethod.mono fun _ hkey => hkey ▸ rfl

theorem gaining_lowerObjectInit (superName desc : String) (args : List (Item Ref))
    (maxLocals : Nat) (native : Bool) (body : Option MethodDef) :
    Gaining (· = ("<init>", desc))
      (lowerObjectInit superName desc args maxLocals native body) := by
  unfold lowerObjectInit
  refine ClassM.advancing_read.adds.bind_gaining fun env => ?_
  refine (advancing_assemble _ _).adds.bind_gaining fun out => ?_
  exact (advancing_lowerInit _ _).adds.bind_gaining fun _ => ClassM.gaining_addMethod

-- The initializers of an error are one without and one with a parameter.
theorem gaining_lowerSomeInit (superName : String) (isErr native : Bool)
    (body : Option MethodDef) :
    Gaining (·.1 = "<init>") (if isErr = true then lowerErrInit superName native body
      else lowerObjectInit superName "()V" [] 1 native body) := by
  split
  · unfold lowerErrInit
    refine ClassM.advancing_className.adds.bind_gaining fun cls => ?_
    refine (advancing_assemble _ _).adds.bind_gaining fun out => ?_
    refine (ClassM.gaining_addMethod.bind
      (fun _ => gaining_lowerObjectInit _ _ _ _ _ _) ?_).mono ?_
    · rintro _ rfl hsame
      exact absurd (congrArg Prod.snd hsame) (by decide +kernel)
    · rintro _ (rfl | rfl) <;> rfl
  · exact (gaining_lowerObjectInit _ _ _ _ _ _).mono fun _ hkey => hkey ▸ rfl

-- A router is put only where the class has nothing.
theorem keepsApart_lowerRouterFor (pod : Pod) (mixin : String) (m : MethodDef) (access : UInt16)
    (result : StackType) (n : Nat) :
    KeepsApart (lowerRouterFor pod mixin m access result n) := by
  intro env c u c' h hc hapart
  obtain ⟨desc, -, -, hnone⟩ | ⟨w, hnew, hw, -⟩ := lowerRouterFor_eq_ok hc h
  · refine ⟨hnone.formed, ?_⟩
    rwa [OpenClass.Apart, hnone.draft.methods, List.append_nil]
  · exact ⟨hw.formed, hw.apart hapart hnew⟩

theorem keepsApart_lowerRouter (pod : Pod) (mixin : TypeDef) (m : MethodDef) :
    KeepsApart (lowerRouter pod mixin m) := by
  unfold lowerRouter
  refine (ClassM.advancing_ofExcept _).keepsApart.bind fun self => ?_
  refine (ClassM.advancing_ofExcept _).keepsApart.bind fun ret => ?_
  exact ClassM.keepsApart_forM (keepsApart_lowerRouterFor _ _ _ _ _)

end Members

-- The names of the methods and the fields of a type clash neither with each other nor with those
-- that its class has besides.
structure DistinctNames (t : TypeDef) : Prop where
  methods : (t.methods.toList.map MethodDef.name).Nodup
  own : ∀ m ∈ t.methods.toList, m.name ≠ "typeof" ∧ m.name ≠ "<init>" ∧ m.name ≠ "<clinit>"
  unmarked : ∀ m ∈ t.methods.toList, ∀ name, m.name ≠ name ++ "$"
  fields : (storedFields t fun _ => true).Nodup
  kept : ∀ f ∈ storedFields t fun _ => true, f ≠ "$Type" ∧ f ≠ "peer" ∧ ∀ rest, f ≠ "type$" ++ rest

section Names

variable {t : TypeDef}

theorem append_dollar_ne {s : String} (h : s.toList.getLast? ≠ some '$') (name : String) :
    name ++ "$" ≠ s := by
  rintro rfl
  exact h (by simp)

-- Different methods become methods of different names.
theorem DistinctNames.pairwise (h : DistinctNames t) :
    t.methods.toList.Pairwise fun m m' => ∀ key, IsNameFor m key → ¬IsNameFor m' key := by
  have hne : t.methods.toList.Pairwise fun m m' => m.name ≠ m'.name := List.pairwise_map.mp h.methods
  refine hne.imp_of_mem fun {m m'} hm hm' hne key hkey hkey' => ?_
  obtain hkey | hkey := hkey
  · obtain hkey' | hkey' := hkey'
    · exact hne (hkey.symm.trans hkey')
    · exact h.unmarked m hm _ (hkey.symm.trans hkey')
  · obtain hkey' | hkey' := hkey'
    · exact h.unmarked m' hm' _ (hkey'.symm.trans hkey)
    · exact hne ((String.append_left_inj _).mp (hkey.symm.trans hkey'))

-- They are none of the methods that every class has.
theorem DistinctNames.ne_of_isNameFor (h : DistinctNames t) {m : MethodDef}
    (hm : m ∈ t.methods.toList) {key : String × String} (hkey : IsNameFor m key) :
    key.1 ≠ "typeof" ∧ key.1 ≠ "<init>" ∧ key.1 ≠ "<clinit>" := by
  obtain hkey | hkey := hkey
  · rw [hkey]
    exact h.own m hm
  · rw [hkey]
    exact ⟨append_dollar_ne (by decide) _, append_dollar_ne (by decide) _,
      append_dollar_ne (by decide) _⟩

-- The fields that a class has before those for types.
theorem DistinctNames.nodup_classFields (h : DistinctNames t) : (classFields t).Nodup := by
  have hstored : ((if t.hasNativePeer then ["peer"] else []) ++
      storedFields t fun _ => true).Nodup := by
    split
    · exact List.nodup_cons.mpr ⟨fun hpeer => (h.kept _ hpeer).2.1 rfl, h.fields⟩
    · exact h.fields
  refine List.nodup_cons.mpr ⟨fun htype => ?_, hstored⟩
  obtain hpeer | hfield := List.mem_append.mp htype
  · split at hpeer
    · exact absurd (List.mem_singleton.mp hpeer) (by decide)
    · cases hpeer
  · exact (h.kept _ hfield).1 rfl

-- These have other names.
theorem DistinctNames.ne_literalField (h : DistinctNames t) {name : String}
    (hname : name ∈ classFields t) (n : Nat) : name ≠ literalField n := by
  have hfirst : ∀ s : String, s.toList.head? ≠ some 't' → s ≠ "type$" ++ n.repr := by
    rintro _ hs rfl
    exact hs (by simp)
  obtain rfl | hname := List.mem_cons.mp hname
  · exact hfirst _ (by decide)
  obtain hpeer | hfield := List.mem_append.mp hname
  · split at hpeer
    · obtain rfl := List.mem_singleton.mp hpeer
      exact hfirst _ (by decide)
    · cases hpeer
  · exact (h.kept _ hfield).2.2 _

end Names

section Classes

open ClassM (Gaining KeepsApart)

variable {t : TypeDef} {self : TypeRef}

-- All methods that a class has before its routers.
theorem gaining_lowerMembers (h : DistinctNames t) (self : TypeRef) (superName : String)
    (isErr : Bool) : Gaining (fun _ => True) (lowerMembers self t superName isErr) := by
  have hloop : Gaining (fun key => ∃ m ∈ t.methods.toList, IsNameFor m key)
      (ClassM.forPicked t.methods.toList isListed lowerMethod) :=
    ClassM.gaining_forPicked (fun m _ => gaining_lowerMethod m) h.pairwise
  have hlast := (gaining_lowerClassInit (some self) (lastNamed? t staticInit)).bind
    (fun _ => gaining_lowerSomeInit superName isErr t.hasNativePeer (lastNamed? t instanceInit))
    fun key hkey hkey' => absurd (hkey.symm.trans hkey') (by decide)
  have hall := hloop.bind (fun _ => hlast) fun key ⟨m, hm, hkey⟩ hkey' =>
    hkey'.elim (h.ne_of_isNameFor hm hkey).2.2 (h.ne_of_isNameFor hm hkey).2.1
  have htypeOf : ∀ key : String × String, key.1 = "typeof" →
      ¬((∃ m ∈ t.methods.toList, IsNameFor m key) ∨ key.1 = "<clinit>" ∨ key.1 = "<init>") := by
    rintro key hkey (⟨m, hm, hname⟩ | hinit | hinit)
    · exact (h.ne_of_isNameFor hm hname).1 hkey
    · exact absurd (hkey.symm.trans hinit) (by decide)
    · exact absurd (hkey.symm.trans hinit) (by decide)
  unfold lowerMembers
  refine (adds_addInterfaces t).bind_gaining fun _ => ?_
  refine (adds_addSource t).bind_gaining fun _ => ?_
  refine (gaining_addTypeOf.bind (fun _ => ?_) htypeOf).mono fun _ _ => trivial
  refine ClassM.advancing_className.adds.bind_gaining fun cls => ?_
  dsimp only
  split
  · refine (ClassM.adds_addField _ _ _).bind_gaining fun _ => ?_
    exact (adds_addFields _ _ _).bind_gaining fun _ => hall
  · exact (adds_addFields _ _ _).bind_gaining fun _ => hall

end Classes

-- No two fields in the file of a class have the same name, and no two methods the same name and the
-- same descriptor.
def ClassOutput.MembersApart (o : ClassOutput) : Prop :=
  ∃ k fields ms, o.HasMembers k fields ms ∧ (fields.map (·.2.1)).Nodup ∧
    (ms.map MethodInfo.key).Nodup

section Classes

open ClassM (KeepsApart)

variable {e : PodEnv} {t : TypeDef} {self : TypeRef} {o : ClassOutput} {c₀ c : OpenClass}
  {own : List (UInt16 × String × String)} {ms : List (MethodInfo × List Piece)}
  {k : ClassFile.Constants} {codes : List Bytes}

-- The routers find the methods of the class apart, and leave them so.
theorem Made.membersApart {superName : String} {isErr : Bool}
    {routes : Except LoweringError (List (LoadedType × MethodDef))}
    (h : Made (classEnv e self) (lowerMembers self t superName isErr >>= fun _ =>
      ofExcept routes >>= fun routes => routes.forM fun p => lowerRouter p.1.pod p.1.type p.2)
      (classFields t) codes o c₀ c own ms k) (hnames : DistinctNames t) : o.MembersApart := by
  obtain ⟨u, c₁, hmembers, hrouted⟩ := ClassM.bind_eq_ok.mp h.run
  have hgains := gaining_lowerMembers hnames self superName isErr _ _ _ _ hmembers h.ready
  have hrouters : KeepsApart (ofExcept routes >>= fun routes =>
      routes.forM fun p => lowerRouter p.1.pod p.1.type p.2 : ClassM Unit) :=
    (ClassM.advancing_ofExcept _).keepsApart.bind fun routes =>
      ClassM.keepsApart_forM fun p => keepsApart_lowerRouter _ _ _
  have hapart := (hrouters _ _ _ _ hrouted hgains.formed (hgains.apart h.empty)).2
  rw [OpenClass.Apart, h.makes.declares.draft.methods, h.empty, List.nil_append] at hapart
  refine ⟨k, _, _, h.members, ?_, hapart⟩
  rw [List.map_append, h.names, List.nodup_append]
  refine ⟨hnames.nodup_classFields, nodup_keptFields _, fun name hname name' hname' => ?_⟩
  obtain ⟨f, hf, rfl⟩ := List.mem_map.mp hname'
  obtain ⟨n, -, rfl⟩ := List.mem_map.mp hf
  exact hnames.ne_literalField hname n

-- So are those of the classes beside that of a type.
theorem Stub.membersApart {fields : List String} (h : Stub o fields) (hfields : fields.Nodup) :
    o.MembersApart := by
  obtain ⟨k, own, ws, hmembers, rfl, hnames, -⟩ := h
  refine ⟨k, own, ws, hmembers, hfields, List.Nodup.of_map Prod.fst ?_⟩
  rwa [List.map_map]

end Classes

-- A type of distinct names gets a class, and no class for it has two fields of a name or two methods
-- of a name and a descriptor.
theorem members_apart {e : PodEnv} {index : Nat} {t : TypeDef} {self : TypeRef}
    {classes : List ClassOutput} (h : e.classesOf index = .ok classes)
    (ht : e.pod.types[index]? = some t) (hclass : t.isMixin = false)
    (hself : typeRefAt e.pod.symbols t.self = .ok self) (hnames : DistinctNames t) :
    (∃ main ∈ classes, main.name = self.jname) ∧ ∀ o ∈ classes, o.MembersApart := by
  obtain ⟨r', hrun⟩ := given_eq_ok.mp h
  obtain ⟨bases, main, beside, rfl, hname, ⟨c₀, c, own, ms, k, hmade⟩, hbeside⟩ :=
    lowerClass_made (Resolver.sound_empty e.pod.symbols)
      (lowerClass_of_lowerType hrun ht hself hclass)
  refine ⟨⟨main, List.mem_cons_self, hname⟩, List.forall_mem_cons.mpr
    ⟨hmade.membersApart hnames, fun o ho => ?_⟩⟩
  obtain ⟨-, hcarrier⟩ | ⟨-, hdynamic⟩ := hbeside o ho
  · exact hcarrier.membersApart List.nodup_nil
  · exact hdynamic.membersApart (List.nodup_singleton _)

-- A class with a constructor and a field of its own, and with a mixin.
def makeMethod : MethodDef :=
  { walkMethod with name := "make", flags := Pod.Flag.public_ ||| Pod.Flag.ctor }

def nameField : Pod.FieldDef where
  name := "name"
  flags := Pod.Flag.public_ ||| Pod.Flag.storage
  type := 0
  attrs := {}

def makerType : TypeDef :=
  { manType with body? := some { fields := #[nameField], methods := #[makeMethod] } }

def makerEnv : PodEnv :=
  { manEnv with pod := { manEnv.pod with types := #[makerType, walksType] } }

theorem distinctNames_maker : DistinctNames makerType where
  methods := List.nodup_singleton _
  own := List.forall_mem_singleton.mpr (by decide)
  unmarked := List.forall_mem_singleton.mpr fun name =>
    (append_dollar_ne (by decide +kernel) name).symm
  fields := List.nodup_singleton _
  kept := by
    refine List.forall_mem_singleton.mpr ⟨by decide, by decide, ?_⟩
    rintro rest hrest
    have hfirst := congrArg (fun s : String => s.toList.head?) hrest
    exact absurd hfirst (by simp [nameField])

theorem find_walks_maker : makerEnv.find walksRef = .ok (some ⟨makerEnv.pod, walksType⟩) :=
  PodEnv.find_own (i := 1) rfl (by decide +kernel) rfl rfl

theorem routes_maker : Hierarchy.routes makerEnv ⟨makerEnv.pod, makerType⟩ [] =
    .ok [(⟨makerEnv.pod, walksType⟩, walkMethod)] := by
  have hall : Hierarchy.allMixins makerEnv = ["p::Walks"] := by decide +kernel
  have hwalks : walksRef.qname = "p::Walks" := by decide +kernel
  have hwalk : typeRefAt makerEnv.pod.symbols 1 = .ok walksRef := rfl
  have hserve : Hierarchy.serve makerEnv (Hierarchy.allMixins makerEnv)
      (LoadedType.mixins ⟨makerEnv.pod, makerType⟩) =
        .ok [⟨"p::Walks", ⟨makerEnv.pod, walksType⟩, []⟩] := by
    have hstack : LoadedType.mixins ⟨makerEnv.pod, makerType⟩ = [(makerEnv.pod, 1)] := rfl
    rw [hstack, Hierarchy.serve_met hwalk (by rw [hall, hwalks]; simp) find_walks_maker
      Hierarchy.meet_nil Hierarchy.serve_nil, hall, hwalks]
    rfl
  exact except_bind_eq_ok.mpr ⟨_, except_bind_eq_ok.mpr ⟨_, rfl, hserve⟩, rfl⟩

theorem exists_classes_maker : ∃ classes, makerEnv.classesOf 0 = .ok classes := by
  have hself : typeRefAt makerEnv.pod.symbols makerType.self = .ok manRef := rfl
  have hloop : ClassM.Fits (classEnv makerEnv manRef) manRef.jname 80
      (ClassM.forPicked makerType.methods.toList isListed lowerMethod) fun _ => True := by
    have hbodyDesc : methodDesc makerEnv.pod.symbols makeMethod (some manRef.jname)
        makeMethod.params .void = .ok "(Lfan/p/Man;)V" := by decide +kernel
    have hdesc : methodDesc makerEnv.pod.symbols makeMethod none makeMethod.params
        (.object manRef.jname) = .ok "()Lfan/p/Man;" := by decide +kernel
    obtain ⟨f, hf, hlocals⟩ : ∃ f, Frame.forMethod makerEnv.pod.symbols manRef.jname makeMethod
        .bound = .ok f ∧ (f.withRet .void).maxLocals ≤ 0xFFFF := ⟨_, rfl, by decide +kernel⟩
    obtain ⟨g, hg, hparams⟩ : ∃ g, Frame.forMethod makerEnv.pod.symbols manRef.jname makeMethod
        .unbound = .ok g ∧ g.params makeMethod.params.length = [] := ⟨_, rfl, rfl⟩
    have hctor : ClassM.Fits (classEnv makerEnv manRef) manRef.jname
        (12 * (g.params makeMethod.params.length).length + 80) (lowerCtor makeMethod)
        fun _ => True :=
      fits_lowerCtor_return rfl rfl rfl rfl hbodyDesc hdesc hf hlocals hg (by simp [hparams])
        ⟨⟨"fan/p/Man", "<init>", "()V"⟩, by decide +kernel⟩
        ⟨⟨"fan/p/Man", "make$", "(Lfan/p/Man;)V"⟩, by decide +kernel⟩
    rw [hparams] at hctor
    rw [ClassM.forPicked_eq_forM]
    exact ClassM.fits_bind (n := 80) (k := 0) hctor fun _ _ => ClassM.fits_pure trivial
  have hfields : ClassM.Fits (classEnv makerEnv manRef) manRef.jname 4
      (addFields makerType (fun _ => true) fun f => withoutAbstract (accessOf f.flags))
      fun _ => True := by
    have hnamed : ∀ f ∈ makerType.fields.toList,
        ∃ r, typeRefAt (classEnv makerEnv manRef).pod.symbols f.type = .ok r :=
      List.forall_mem_singleton.mpr ⟨manRef, rfl⟩
    exact fits_addFields (t := makerType) hnamed
  have hbody : methodDesc makerEnv.pod.symbols walkMethod (some walksRef.jname) [] .inherited =
      .ok "(Lfan/p/Walks;)V" := by decide +kernel
  have hrouters : ClassM.Fits (classEnv makerEnv manRef) manRef.jname 40
      (List.forM [((⟨makerEnv.pod, walksType⟩ : LoadedType), walkMethod)] fun p =>
        lowerRouter p.1.pod p.1.type p.2) fun _ => True :=
    fits_router_walk rfl rfl rfl hbody
      ⟨⟨"fan/p/Walks$", "walk", "(Lfan/p/Walks;)V"⟩, by decide +kernel⟩
  have hmixins : ∀ m ∈ makerType.mixins.toList, ∃ r, typeRefAt makerEnv.pod.symbols m = .ok r :=
    List.forall_mem_singleton.mpr ⟨walksRef, rfl⟩
  have hmembers : ClassM.Fits (classEnv makerEnv manRef) manRef.jname 200
      (lowerMembers manRef makerType (superclass []) false) fun _ => True :=
    fits_lowerMembers (by decide +kernel) (by decide +kernel) (by decide +kernel)
      (by decide +kernel) hmixins hfields hloop exists_typeField_man exists_superInit
  obtain ⟨o, r', hlower, -⟩ := exists_lowerClass (r := {}) rfl rfl hmembers routes_maker hrouters
    (by decide) rfl
  exact ⟨[o], given_eq_ok.mpr ⟨r', lowerType_run rfl hself rfl rfl hlower⟩⟩

theorem members_apart_maker : ∃ classes, makerEnv.classesOf 0 = .ok classes ∧
    (∃ main ∈ classes, main.name = manRef.jname) ∧ ∀ o ∈ classes, o.MembersApart := by
  obtain ⟨classes, hclasses⟩ := exists_classes_maker
  exact ⟨classes, hclasses, members_apart hclasses rfl rfl rfl distinctNames_maker⟩

end Lowering

end PodCompiler
