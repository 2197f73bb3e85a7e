import Mathlib.Logic.Relation
import PodCompiler.Proofs.Lowering.ErrCarriers
import PodCompiler.Proofs.Lowering.MixinRoutes

namespace PodCompiler.Lowering.Hierarchy

-- The base types of a type, all of them, from the nearest on.
inductive BaseChain (e : PodEnv) : LoadedType → List Ancestor → Prop
  | root {l : LoadedType} (hbase : l.type.base = none) : BaseChain e l []
  | absent {l : LoadedType} {base : UInt16} {ref : TypeRef} (hbase : l.type.base = some base)
      (href : typeRefAt l.pod.symbols base = .ok ref) (hfind : e.find ref = .ok none) :
      BaseChain e l [⟨ref, none⟩]
  | loaded {l next : LoadedType} {base : UInt16} {ref : TypeRef} {bases : List Ancestor}
      (hbase : l.type.base = some base) (href : typeRefAt l.pod.symbols base = .ok ref)
      (hfind : e.find ref = .ok (some next)) (h : BaseChain e next bases) :
      BaseChain e l (⟨ref, some next⟩ :: bases)

-- The base type of a type, if it is loaded.
def HasBase (e : PodEnv) (l next : LoadedType) : Prop :=
  ∃ base ref, l.type.base = some base ∧ typeRefAt l.pod.symbols base = .ok ref ∧
    e.find ref = .ok (some next)

-- A type and its loaded base types.
def Lineage (e : PodEnv) : LoadedType → LoadedType → Prop :=
  Relation.ReflTransGen (HasBase e)

-- One of them is a base type of itself.
def Circular (e : PodEnv) (l : LoadedType) : Prop :=
  ∃ t, Lineage e l t ∧ Relation.TransGen (HasBase e) t t

-- What each of them names as its base is a type or of a pod that is not known.
def FindsBases (e : PodEnv) (l : LoadedType) : Prop :=
  ∀ t, Lineage e l t → ∀ base, t.type.base = some base →
    ∃ ref found, typeRefAt t.pod.symbols base = .ok ref ∧ e.find ref = .ok found

section Chains

variable {e : PodEnv} {l further : LoadedType} {bases bases' : List Ancestor}
  {tooDeep : LoweringError} {depth : Nat}

theorem BaseChain.unique (h : BaseChain e l bases) (h' : BaseChain e l bases') :
    bases = bases' := by
  induction h generalizing bases' with
  | root hbase =>
    cases h' with
    | root => rfl
    | absent hbase' => cases hbase.symm.trans hbase'
    | loaded hbase' => cases hbase.symm.trans hbase'
  | absent hbase href hfind =>
    cases h' with
    | root hbase' => cases hbase.symm.trans hbase'
    | absent hbase' href' =>
      cases hbase.symm.trans hbase'
      cases href.symm.trans href'
      rfl
    | loaded hbase' href' hfind' =>
      cases hbase.symm.trans hbase'
      cases href.symm.trans href'
      cases hfind.symm.trans hfind'
  | loaded hbase href hfind _ ih =>
    cases h' with
    | root hbase' => cases hbase.symm.trans hbase'
    | absent hbase' href' hfind' =>
      cases hbase.symm.trans hbase'
      cases href.symm.trans href'
      cases hfind.symm.trans hfind'
    | loaded hbase' href' hfind' h' =>
      cases hbase.symm.trans hbase'
      cases href.symm.trans href'
      cases hfind.symm.trans hfind'
      rw [ih h']

-- The chain of a base type is shorter.
theorem BaseChain.next (h : BaseChain e l bases) (hnext : HasBase e l further) :
    ∃ more, BaseChain e further more ∧ more.length < bases.length := by
  obtain ⟨base, ref, hbase, href, hfind⟩ := hnext
  cases h with
  | root hbase' => cases hbase.symm.trans hbase'
  | absent hbase' href' hfind' =>
    cases hbase.symm.trans hbase'
    cases href.symm.trans href'
    cases hfind.symm.trans hfind'
  | loaded hbase' href' hfind' h =>
    cases hbase.symm.trans hbase'
    cases href.symm.trans href'
    cases hfind.symm.trans hfind'
    exact ⟨_, h, Nat.lt_succ_self _⟩

theorem BaseChain.later (h : BaseChain e l bases)
    (hlater : Relation.TransGen (HasBase e) l further) :
    ∃ more, BaseChain e further more ∧ more.length < bases.length := by
  induction hlater with
  | single hnext => exact h.next hnext
  | tail _ hnext ih =>
    obtain ⟨more, hmore, hlt⟩ := ih
    obtain ⟨rest, hrest, hlt'⟩ := hmore.next hnext
    exact ⟨rest, hrest, hlt'.trans hlt⟩

theorem BaseChain.of_lineage (h : BaseChain e l bases) (hline : Lineage e l further) :
    ∃ more, BaseChain e further more := by
  obtain rfl | hlater := Relation.reflTransGen_iff_eq_or_transGen.mp hline
  · exact ⟨bases, h⟩
  · obtain ⟨more, hmore, -⟩ := h.later hlater
    exact ⟨more, hmore⟩

-- A chain that ends does not come back.
theorem BaseChain.not_circular (h : BaseChain e l bases) : ¬ Circular e l := by
  rintro ⟨t, hline, hback⟩
  obtain ⟨more, hmore⟩ := h.of_lineage hline
  obtain ⟨more', hmore', hlt⟩ := hmore.later hback
  rw [hmore.unique hmore'] at hlt
  exact Nat.lt_irrefl _ hlt

theorem BaseChain.lineage (h : BaseChain e l bases) {t : LoadedType}
    (ht : t ∈ loadedBases bases) : Relation.TransGen (HasBase e) l t := by
  induction h with
  | root => cases ht
  | absent => cases ht
  | loaded hbase href hfind _ ih =>
    obtain rfl | ht := List.mem_cons.mp ht
    · exact .single ⟨_, _, hbase, href, hfind⟩
    · exact .head ⟨_, _, hbase, href, hfind⟩ (ih ht)

theorem isLoaded_of_hasBase (h : HasBase e l further) : IsLoaded e further := by
  obtain ⟨_, _, -, -, hfind⟩ := h
  exact isLoaded_of_find hfind

theorem isLoaded_of_lineage (hl : IsLoaded e l) (h : Lineage e l further) :
    IsLoaded e further := by
  obtain rfl | ⟨_, -, hlast⟩ := Relation.ReflTransGen.cases_tail_iff _ _ _ |>.mp h
  · exact hl
  · exact isLoaded_of_hasBase hlast

theorem FindsBases.lineage (h : FindsBases e l) (hline : Lineage e l further) :
    FindsBases e further :=
  fun t ht => h t (hline.trans ht)

-- A type for which there is no chain has a base type for which there is none either.
theorem FindsBases.exists_hasBase (h : FindsBases e l) (hnone : ¬ ∃ bases, BaseChain e l bases) :
    ∃ next, HasBase e l next ∧ ¬ ∃ bases, BaseChain e next bases := by
  cases hbase : l.type.base with
  | none => exact absurd ⟨[], .root hbase⟩ hnone
  | some base =>
    obtain ⟨ref, found, href, hfind⟩ := h l .refl base hbase
    cases found with
    | none => exact absurd ⟨_, .absent hbase href hfind⟩ hnone
    | some next =>
      refine ⟨next, ⟨base, ref, hbase, href, hfind⟩, ?_⟩
      rintro ⟨bases, hbases⟩
      exact hnone ⟨_, .loaded hbase href hfind hbases⟩

-- There are only so many types: a chain that does not come back ends.
theorem exists_baseChain (hfinds : FindsBases e l) (hback : ¬ Circular e l) :
    ∃ bases, BaseChain e l bases := by
  by_contra hnone
  let types := (e.pod :: e.others.pods.toList).flatMap fun pod =>
    pod.types.toList.map (LoadedType.mk pod)
  have hmem : ∀ t, IsLoaded e t → t ∈ types := fun t ht =>
    List.mem_flatMap.mpr ⟨t.pod, ht.1, List.mem_map.mpr ⟨t.type, ht.2, rfl⟩⟩
  obtain ⟨first, hfirst, hfirstNone⟩ := hfinds.exists_hasBase hnone
  -- the farthest base type without a chain, by the order in which the base types follow
  let Farther : LoadedType → LoadedType → Prop := fun a b =>
    Lineage e l b ∧ Relation.TransGen (HasBase e) b a
  obtain ⟨t, -, ⟨hline, htNone⟩, hlast⟩ : ∃ t ∈ types,
      (Lineage e l t ∧ ¬ ∃ bases, BaseChain e t bases) ∧
        ∀ t' ∈ types, (Lineage e l t' ∧ ¬ ∃ bases, BaseChain e t' bases) → ¬ Farther t' t :=
    exists_least (fun _ _ _ _ _ _ hab hbc => ⟨hbc.1, hbc.2.trans hab.2⟩)
      (fun t _ ht => hback ⟨t, ht.1, ht.2⟩)
      ⟨first, hmem first (isLoaded_of_hasBase hfirst), .single hfirst, hfirstNone⟩
  obtain ⟨next, hnext, hnextNone⟩ := (hfinds.lineage hline).exists_hasBase htNone
  exact hlast next (hmem next (isLoaded_of_hasBase hnext)) ⟨hline.tail hnext, hnextNone⟩
    ⟨hline, .single hnext⟩

-- So all base types are in a chain just if it does not come back.
theorem exists_baseChain_iff (hfinds : FindsBases e l) :
    (∃ bases, BaseChain e l bases) ↔ ¬ Circular e l :=
  ⟨fun ⟨_, h⟩ => h.not_circular, exists_baseChain hfinds⟩

-- What is listed is the chain, and a chain that is short enough is listed.
theorem ancestorsWithin_eq_ok_iff :
    ancestorsWithin e tooDeep depth l = .ok bases ↔ BaseChain e l bases ∧ bases.length ≤ depth := by
  constructor
  · intro h
    induction depth generalizing l bases with
    | zero =>
      obtain ⟨hbase, rfl⟩ | ⟨base, ref, depth', -, -, hdepth, -⟩ := ancestorsWithin_eq_ok h
      · exact ⟨.root hbase, Nat.le_refl _⟩
      · cases hdepth
    | succ depth ih =>
      obtain ⟨hbase, rfl⟩ | ⟨base, ref, depth', hbase, href, hdepth, hfound⟩ :=
        ancestorsWithin_eq_ok h
      · exact ⟨.root hbase, Nat.zero_le _⟩
      cases hdepth
      obtain ⟨hfind, rfl⟩ | ⟨next, more, hfind, hmore, rfl⟩ := hfound
      · exact ⟨.absent hbase href hfind, Nat.succ_le_succ (Nat.zero_le _)⟩
      · obtain ⟨hchain, hle⟩ := ih hmore
        exact ⟨.loaded hbase href hfind hchain, Nat.succ_le_succ hle⟩
  · rintro ⟨hchain, hle⟩
    induction hchain generalizing depth with
    | root hbase =>
      unfold ancestorsWithin
      rw [hbase]
    | absent hbase href hfind =>
      obtain ⟨depth, rfl⟩ := Nat.exists_eq_add_of_le' hle
      unfold ancestorsWithin
      rw [hbase]
      exact except_bind_eq_ok.mpr ⟨_, href, except_bind_eq_ok.mpr ⟨_, hfind, rfl⟩⟩
    | loaded hbase href hfind _ ih =>
      obtain ⟨depth, rfl⟩ := Nat.exists_eq_add_of_le' ((Nat.succ_le_succ (Nat.zero_le _)).trans hle)
      have hmore := ih (Nat.le_of_succ_le_succ hle)
      unfold ancestorsWithin
      rw [hbase]
      exact except_bind_eq_ok.mpr ⟨_, href, except_bind_eq_ok.mpr ⟨_, hfind,
        except_bind_eq_ok.mpr ⟨_, hmore, rfl⟩⟩⟩

-- With every base found, nothing but the depth is in the way.
theorem ancestorsWithin_eq_ok_or (tooDeep : LoweringError) (depth : Nat)
    (h : FindsBases e l) :
    (∃ bases, ancestorsWithin e tooDeep depth l = .ok bases) ∨
      ancestorsWithin e tooDeep depth l = .error tooDeep := by
  induction depth generalizing l with
  | zero =>
    unfold ancestorsWithin
    cases l.type.base with
    | none => exact .inl ⟨[], rfl⟩
    | some base => exact .inr rfl
  | succ depth ih =>
    unfold ancestorsWithin
    cases hbase : l.type.base with
    | none => exact .inl ⟨[], rfl⟩
    | some base =>
      obtain ⟨ref, found, href, hfind⟩ := h l .refl base hbase
      dsimp only
      rw [href]
      cases found with
      | none =>
        refine .inl ⟨[⟨ref, none⟩], ?_⟩
        exact except_bind_eq_ok.mpr ⟨ref, rfl, except_bind_eq_ok.mpr ⟨none, hfind, rfl⟩⟩
      | some next =>
        obtain ⟨more, hmore⟩ | hdeep := ih (h.lineage (.single ⟨base, ref, hbase, href, hfind⟩))
        · refine .inl ⟨⟨ref, some next⟩ :: more, ?_⟩
          exact except_bind_eq_ok.mpr ⟨ref, rfl, except_bind_eq_ok.mpr ⟨some next, hfind,
            except_bind_eq_ok.mpr ⟨more, hmore, rfl⟩⟩⟩
        · refine .inr ?_
          change (e.find ref >>= _) = _
          rw [hfind]
          change (ancestorsWithin e tooDeep depth next >>= _) = _
          rw [hdeep]
          rfl

-- The base types of a type are listed, or there are too many, or no end of them.
theorem ancestors_cases (self : TypeRef) (h : FindsBases e l) :
    (∃ bases, BaseChain e l bases ∧ bases.length ≤ maxBaseDepth ∧ ancestors e self l = .ok bases) ∨
      (Circular e l ∨ ∃ bases, BaseChain e l bases ∧ maxBaseDepth < bases.length) ∧
        ancestors e self l = .error (.internal (.baseChainTooDeep self.qname)) := by
  obtain ⟨bases, hbases⟩ | hdeep := ancestorsWithin_eq_ok_or
    (.internal (.baseChainTooDeep self.qname)) maxBaseDepth h
  · obtain ⟨hchain, hle⟩ := ancestorsWithin_eq_ok_iff.mp hbases
    exact .inl ⟨bases, hchain, hle, hbases⟩
  · refine .inr ⟨?_, hdeep⟩
    by_contra hneither
    obtain ⟨hback, hlong⟩ := not_or.mp hneither
    obtain ⟨bases, hchain⟩ := (exists_baseChain_iff h).mpr hback
    have hle : bases.length ≤ maxBaseDepth := Nat.le_of_not_lt fun hlt => hlong ⟨bases, hchain, hlt⟩
    cases hdeep.symm.trans (ancestorsWithin_eq_ok_iff.mpr ⟨hchain, hle⟩)

end Chains

end PodCompiler.Lowering.Hierarchy
