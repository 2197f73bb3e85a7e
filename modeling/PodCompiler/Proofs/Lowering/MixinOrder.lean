import PodCompiler.Proofs.Lowering.MixinRoutes

namespace PodCompiler.Lowering

-- Two types that differ in the order of their mixins.
structure LoadedType.Alike (l l' : LoadedType) : Prop where
  symbols : l.pod.symbols = l'.pod.symbols
  self : l.type.self = l'.type.self
  base : l.type.base = l'.type.base
  methods : l.type.methods = l'.type.methods
  mixins : l.type.mixins.toList.Perm l'.type.mixins.toList

theorem LoadedType.Alike.symm {l l' : LoadedType} (h : l.Alike l') : l'.Alike l :=
  ⟨h.symbols.symm, h.self.symm, h.base.symm, h.methods.symm, h.mixins.symm⟩

theorem LoadedType.Alike.refl (l : LoadedType) : l.Alike l :=
  ⟨rfl, rfl, rfl, rfl, .refl _⟩

-- Two environments in which a type ref means types that differ so.
structure PodEnv.Alike (e e' : PodEnv) : Prop where
  found : ∀ r l, e.find r = .ok (some l) → ∃ l', e'.find r = .ok (some l') ∧ l.Alike l'
  found' : ∀ r l', e'.find r = .ok (some l') → ∃ l, e.find r = .ok (some l) ∧ l.Alike l'
  absent : ∀ r, e.find r = .ok none ↔ e'.find r = .ok none

theorem PodEnv.Alike.symm {e e' : PodEnv} (h : e.Alike e') : e'.Alike e where
  found r l' hfind := by
    obtain ⟨l, hl, halike⟩ := h.found' r l' hfind
    exact ⟨l, hl, halike.symm⟩
  found' r l hfind := by
    obtain ⟨l', hl', halike⟩ := h.found r l hfind
    exact ⟨l', hl', halike.symm⟩
  absent r := (h.absent r).symm

namespace Hierarchy

section Order

variable {e e' : PodEnv} {l l' : LoadedType} {bases bases' : List LoadedType} {r : TypeRef}
  {stack stack' : List (Pod × UInt16)} {n : String} {mixin : LoadedType}

theorem Named.alike (hl : l.Alike l') (h : Named l.mixins r) : Named l'.mixins r := by
  obtain ⟨p, hp, href⟩ := h
  obtain ⟨i, hi, rfl⟩ := List.mem_map.mp hp
  exact ⟨(l'.pod, i), List.mem_map.mpr ⟨i, hl.mixins.mem_iff.mp hi, rfl⟩, hl.symbols ▸ href⟩

theorem Reaches.alike (he : e.Alike e') (hl : l.Alike l') (h : Reaches e l.mixins r) :
    Reaches e' l'.mixins r := by
  induction h with
  | named h => exact .named (h.alike hl)
  | super _ hfind hnamed ih =>
    obtain ⟨m, hm, halike⟩ := he.found _ _ hfind
    exact .super ih hm (hnamed.alike halike)

-- Two classes that differ in the order of their mixins, with their base types.
structure Twins (e e' : PodEnv) (l l' : LoadedType) (bases bases' : List LoadedType) : Prop where
  env : e.Alike e'
  type : l.Alike l'
  bases : List.Forall₂ LoadedType.Alike bases bases'

theorem Twins.symm (h : Twins e e' l l' bases bases') : Twins e' e l' l bases' bases where
  env := h.env.symm
  type := h.type.symm
  bases := List.Forall₂.flip (h.bases.imp fun _ _ halike => halike.symm)

theorem Twins.mem (h : Twins e e' l l' bases bases') {t : LoadedType} (ht : t ∈ l :: bases) :
    ∃ t' ∈ l' :: bases', t.Alike t' :=
  exists_of_forall₂ (.cons h.type h.bases) ht

theorem Around.alike (h : Twins e e' l l' bases bases') (hr : Around e (l :: bases) r) :
    Around e' (l' :: bases') r := by
  obtain ⟨t, ht, hr⟩ := hr
  obtain ⟨t', ht', halike⟩ := h.mem ht
  exact ⟨t', ht', hr.alike h.env halike⟩

theorem Candidate.alike (h : Twins e e' l l' bases bases')
    (hr : Candidate e l bases n r mixin) :
    ∃ mixin', Candidate e' l' bases' n r mixin' ∧ mixin.Alike mixin' := by
  obtain ⟨mixin', hfind, halike⟩ := h.env.found r mixin hr.found
  refine ⟨mixin', ⟨⟨hr.reached.alike h.env h.type, hfind, fun b hb s hs => ?_⟩, ?_⟩, halike⟩
  · obtain ⟨b', hb', hbase⟩ := exists_of_forall₂ h.symm.bases hb
    exact hr.unserved b' hb' s (hs.alike h.env.symm hbase)
  · obtain ⟨m, hm, hdeclares⟩ := hr.declares
    rw [LoadedType.methods, halike.methods] at hm
    exact ⟨m, hm, hdeclares⟩

theorem MostSpecific.alike (h : Twins e e' l l' bases bases')
    (hr : MostSpecific e l bases n r mixin) :
    ∃ mixin', MostSpecific e' l' bases' n r mixin' ∧ mixin.Alike mixin' := by
  obtain ⟨mixin', hcandidate, halike⟩ := hr.toCandidate.alike h
  refine ⟨mixin', ⟨hcandidate, fun s other hs s' hs' => ?_⟩, halike⟩
  obtain ⟨other', hother, hsame⟩ := hs.alike h.symm
  exact hr.last s other' hother s' (hs'.alike h.env.symm hsame)

theorem Acyclic.alike (h : Twins e e' l l' bases bases') (hacyclic : Acyclic e l) :
    Acyclic e' l' := by
  intro r mixin s hr hfind hs
  obtain ⟨mixin', hfind', halike⟩ := h.symm.env.found r mixin hfind
  exact hacyclic r mixin' s (hr.alike h.symm.env h.symm.type) hfind' (hs.alike h.symm.env halike)

theorem AllRoutable.alike (h : Twins e e' l l' bases bases') (hroutable : AllRoutable e l bases n) :
    AllRoutable e' l' bases' n := by
  intro r mixin hr m hm hname hstatic
  obtain ⟨mixin', hr', halike⟩ := hr.alike h.symm
  rw [LoadedType.methods, halike.methods] at hm
  exact hroutable r mixin' hr' m hm hname hstatic

-- The base types of twins are alike.
theorem ancestorsWithin_alike {tooDeep : LoweringError} {depth : Nat} {bases : List Ancestor}
    (he : e.Alike e') (hl : l.Alike l') (h : ancestorsWithin e tooDeep depth l = .ok bases) :
    ∃ bases', ancestorsWithin e' tooDeep depth l' = .ok bases' ∧
      List.Forall₂ LoadedType.Alike (loadedBases bases) (loadedBases bases') := by
  induction depth generalizing l l' bases with
  | zero =>
    obtain ⟨hbase, rfl⟩ | ⟨base, ref, depth', -, -, hdepth, -⟩ := ancestorsWithin_eq_ok h
    · refine ⟨[], ?_, .nil⟩
      unfold ancestorsWithin
      rw [← hl.base, hbase]
    · cases hdepth
  | succ depth ih =>
    obtain ⟨hbase, rfl⟩ | ⟨base, ref, depth', hbase, href, hdepth, hfound⟩ := ancestorsWithin_eq_ok h
    · refine ⟨[], ?_, .nil⟩
      unfold ancestorsWithin
      rw [← hl.base, hbase]
    cases hdepth
    rw [hl.symbols] at href
    obtain ⟨habsent, rfl⟩ | ⟨next, more, hfind, hmore, rfl⟩ := hfound
    · refine ⟨[⟨ref, none⟩], ?_, .nil⟩
      unfold ancestorsWithin
      rw [← hl.base, hbase]
      exact except_bind_eq_ok.mpr ⟨ref, href, except_bind_eq_ok.mpr
        ⟨none, (he.absent ref).mp habsent, rfl⟩⟩
    · obtain ⟨next', hfind', halike⟩ := he.found ref next hfind
      obtain ⟨more', hmore', hall⟩ := ih halike hmore
      refine ⟨⟨ref, some next'⟩ :: more', ?_, .cons halike hall⟩
      unfold ancestorsWithin
      rw [← hl.base, hbase]
      exact except_bind_eq_ok.mpr ⟨ref, href, except_bind_eq_ok.mpr
        ⟨some next', hfind', except_bind_eq_ok.mpr ⟨more', hmore', rfl⟩⟩⟩

end Order

end Hierarchy

-- The environment with the mixins of a type in another order.
def PodEnv.withMixins (e : PodEnv) (index : Nat) (mixins : Array UInt16) : PodEnv :=
  { e with pod := { e.pod with types := e.pod.types.modify index fun t => { t with mixins } } }

section WithMixins

variable {e : PodEnv} {index : Nat} {mixins : Array UInt16} {t : Pod.TypeDef}

theorem getElem?_withMixins (i : Nat) : (e.withMixins index mixins).pod.types[i]? =
    if index = i then e.pod.types[i]?.map fun t => { t with mixins } else e.pod.types[i]? :=
  Array.getElem?_modify

theorem findType?_withMixins (name : String) :
    (e.withMixins index mixins).pod.findType? name = e.pod.findType? name := by
  have hself : (e.withMixins index mixins).pod.types.map (·.self) = e.pod.types.map (·.self) := by
    refine Array.ext (by simp [PodEnv.withMixins]) fun i hi hi' => ?_
    simp only [PodEnv.withMixins, Array.getElem_map, Array.getElem_modify]
    split <;> rfl
  have hfind : ∀ p : Pod, p.findType? name = (p.types.map (·.self)).findIdx? fun i =>
      (p.symbols.typeRef i).toOption.any (·.name = name) := by
    intro p
    rw [Array.findIdx?_map]
    unfold Pod.findType?
    congr
    funext t
    dsimp only [Function.comp]
    cases p.symbols.typeRef t.self <;> simp [Except.toOption]
  rw [hfind, hfind, hself]
  rfl

-- The order goes back to what it was.
theorem withMixins_withMixins (ht : e.pod.types[index]? = some t) :
    (e.withMixins index mixins).withMixins index t.mixins = e := by
  have htypes : (e.pod.types.modify index fun t => { t with mixins }).modify index
      (fun u => { u with mixins := t.mixins }) = e.pod.types := by
    refine Array.ext (by simp) fun i hi hi' => ?_
    simp only [Array.getElem_modify]
    split
    · rename_i hindex
      subst hindex
      obtain ⟨_, rfl⟩ := Array.getElem?_eq_some_iff.mp ht
      rfl
    · rfl
  unfold PodEnv.withMixins
  dsimp only
  rw [htypes]

theorem ofPod_withMixins (ht : e.pod.types[index]? = some t)
    (hmixins : mixins.toList.Perm t.mixins.toList) {r : TypeRef} {l : LoadedType}
    (h : LoadedType.ofPod e.pod r = .ok l) :
    ∃ l', LoadedType.ofPod (e.withMixins index mixins).pod r = .ok l' ∧ l.Alike l' := by
  unfold LoadedType.ofPod at h ⊢
  rw [findType?_withMixins]
  cases hfind : e.pod.findType? r.name with
  | none =>
    rw [hfind] at h
    cases h
  | some i =>
    rw [hfind] at h
    rw [Option.bind_some] at h ⊢
    rw [getElem?_withMixins]
    cases htype : e.pod.types[i]? with
    | none =>
      rw [htype] at h
      cases h
    | some u =>
      rw [htype] at h
      dsimp only at h
      split at h
      · cases h
      rename_i hhollow
      cases h
      by_cases hindex : index = i
      · subst hindex
        cases ht.symm.trans htype
        rw [if_pos rfl]
        refine ⟨⟨(e.withMixins index mixins).pod, { t with mixins }⟩, ?_, rfl, rfl, rfl, rfl,
          hmixins.symm⟩
        exact if_neg hhollow
      · rw [if_neg hindex]
        exact ⟨⟨(e.withMixins index mixins).pod, u⟩, if_neg hhollow, rfl, rfl, rfl, rfl, .refl _⟩

theorem find_withMixins (r : TypeRef) : (e.withMixins index mixins).find r =
    if r.pod = e.pod.name then some <$> LoadedType.ofPod (e.withMixins index mixins).pod r
    else e.others.lookup r :=
  rfl

theorem found_withMixins (ht : e.pod.types[index]? = some t)
    (hmixins : mixins.toList.Perm t.mixins.toList) {r : TypeRef} {l : LoadedType}
    (h : e.find r = .ok (some l)) :
    ∃ l', (e.withMixins index mixins).find r = .ok (some l') ∧ l.Alike l' := by
  rw [find_withMixins]
  unfold PodEnv.find at h
  split at h
  · rename_i hpod
    obtain ⟨l₁, hl₁, hsome⟩ := except_map_eq_ok.mp h
    cases hsome
    obtain ⟨l', hl', halike⟩ := ofPod_withMixins ht hmixins hl₁
    refine ⟨l', ?_, halike⟩
    rw [if_pos hpod, hl']
    rfl
  · rename_i hpod
    refine ⟨l, ?_, .refl l⟩
    rw [if_neg hpod]
    exact h

theorem absent_withMixins {r : TypeRef} (h : e.find r = .ok none) :
    (e.withMixins index mixins).find r = .ok none := by
  rw [find_withMixins]
  unfold PodEnv.find at h
  split at h
  · obtain ⟨l, -, hnone⟩ := except_map_eq_ok.mp h
    cases hnone
  · rename_i hpod
    rw [if_neg hpod]
    exact h

theorem alike_withMixins (ht : e.pod.types[index]? = some t)
    (hmixins : mixins.toList.Perm t.mixins.toList) : e.Alike (e.withMixins index mixins) := by
  have hback : (e.withMixins index mixins).withMixins index t.mixins = e :=
    withMixins_withMixins ht
  have ht' : (e.withMixins index mixins).pod.types[index]? = some { t with mixins } := by
    rw [getElem?_withMixins, if_pos rfl, ht]
    rfl
  refine ⟨fun r l h => found_withMixins ht hmixins h, fun r l h => ?_,
    fun r => ⟨absent_withMixins, fun h => ?_⟩⟩
  · obtain ⟨l', hl', halike⟩ := found_withMixins ht' hmixins.symm h
    rw [hback] at hl'
    exact ⟨l', hl', halike.symm⟩
  · have hnone : ((e.withMixins index mixins).withMixins index t.mixins).find r = .ok none :=
      absent_withMixins h
    rwa [hback] at hnone

end WithMixins

end PodCompiler.Lowering
