import PodCompiler.Proofs.Lowering.AskedTypes
import PodCompiler.Proofs.Lowering.BaseChains
import PodCompiler.Proofs.Lowering.BranchOrder
import PodCompiler.Proofs.Lowering.RouterChoice

namespace PodCompiler.Lowering

namespace Hierarchy

-- The lookups of a search through the stack succeed: what it comes to is named by a type ref, and
-- is a type or of a pod that is not known.
structure Resolves (e : PodEnv) (stack : List (Pod × UInt16)) : Prop where
  named : ∀ p ∈ stack, ∃ r, typeRefAt p.1.symbols p.2 = .ok r
  found : ∀ r, Reaches e stack r → ∃ found, e.find r = .ok found
  supers : ∀ r l, Reaches e stack r → e.find r = .ok (some l) →
    ∀ p ∈ l.mixins, ∃ r', typeRefAt p.1.symbols p.2 = .ok r'

section Resolves

variable {e : PodEnv} {p : Pod × UInt16} {stack rest : List (Pod × UInt16)} {r : TypeRef}
  {l : LoadedType}

theorem Resolves.mono (h : Resolves e stack)
    (hnamed : ∀ p ∈ rest, ∃ r, typeRefAt p.1.symbols p.2 = .ok r)
    (hreaches : ∀ r, Reaches e rest r → Reaches e stack r) : Resolves e rest where
  named := hnamed
  found r hr := h.found r (hreaches r hr)
  supers r l hr := h.supers r l (hreaches r hr)

theorem Resolves.tail (h : Resolves e (p :: rest)) : Resolves e rest :=
  h.mono (List.forall_mem_cons.mp h.named).2 fun _ hr => hr.cons

theorem Resolves.below (h : Resolves e stack) (hr : Reaches e stack r)
    (hfind : e.find r = .ok (some l)) : Resolves e l.mixins :=
  h.mono (h.supers r l hr hfind) fun _ hs => hr.trans hfind hs

theorem Resolves.of_loaded (h : Resolves e (p :: rest)) (href : typeRefAt p.1.symbols p.2 = .ok r)
    (hfind : e.find r = .ok (some l)) : Resolves e (l.mixins ++ rest) :=
  h.mono (List.forall_mem_append.mpr ⟨h.supers r l (reaches_head href) hfind, h.tail.named⟩)
    fun _ hs => hs.of_loaded href hfind

-- A search whose lookups succeed comes to an end.
theorem Resolves.exists_search (unmet : List String) (h : Resolves e stack) :
    ∃ left found, Search e unmet stack left found := by
  induction unmet, stack using meet.induct e with
  | case1 unmet => exact ⟨unmet, [], .done⟩
  | case2 unmet pod i rest err href =>
    obtain ⟨r, hr⟩ := h.named _ List.mem_cons_self
    cases href.symm.trans hr
  | case3 unmet pod i rest r href hunmet _ err hfind =>
    obtain ⟨found, hfound⟩ := h.found r (reaches_head href)
    cases hfind.symm.trans hfound
  | case4 unmet pod i rest r href hunmet _ hfind ih =>
    obtain ⟨left, found, hsearch⟩ := ih h.tail
    exact ⟨left, found, .absent href hunmet hfind hsearch⟩
  | case5 unmet pod i rest r href hunmet _ l hfind ih =>
    obtain ⟨left, found, hsearch⟩ := ih (h.of_loaded href hfind)
    exact ⟨left, (r, l) :: found, .met href hunmet hfind hsearch⟩
  | case6 unmet pod i rest r href hunmet ih =>
    obtain ⟨left, found, hsearch⟩ := ih h.tail
    exact ⟨left, found, .again href hunmet hsearch⟩

theorem Resolves.exists_meet (unmet : List String) (h : Resolves e stack) :
    ∃ left, meet e unmet stack = .ok left := by
  obtain ⟨left, found, hsearch⟩ := h.exists_search unmet
  exact ⟨left, hsearch.meet_eq⟩

theorem Resolves.exists_serve (unmet : List String) (h : Resolves e stack) :
    ∃ mixins, serve e unmet stack = .ok mixins := by
  obtain ⟨left, found, hsearch⟩ := h.exists_search unmet
  refine hsearch.exists_serve fun p hp => ?_
  obtain ⟨hr, hfind, -⟩ := hsearch.of_mem_found hp
  exact (h.below hr hfind).exists_meet (allMixins e)

end Resolves

-- What a search lists at most, with these names unmet: loaded mixins that the stack has and that
-- have such a name, none of them twice.
structure ListsOnly (e : PodEnv) (unmet : List String) (stack : List (Pod × UInt16))
    (mixins : List Mixin) : Prop where
  sound : ∀ m ∈ mixins, m.name ∈ unmet ∧
    ∃ r, Reaches e stack r ∧ e.find r = .ok (some m.loaded) ∧ r.qname = m.name
  once : (mixins.map (·.name)).Nodup

-- It lists all of these, in the order in which the branches come to them.
structure Lists (e : PodEnv) (unmet : List String) (stack : List (Pod × UInt16))
    (mixins : List Mixin) : Prop extends ListsOnly e unmet stack mixins where
  complete : ∀ r l, Reaches e stack r → e.find r = .ok (some l) → r.qname ∈ unmet →
    ∃ m ∈ mixins, m.name = r.qname ∧ m.loaded = l
  order : mixins.map (·.name) =
    ((branches e (allMixins e) stack).filter (· ∈ unmet)).eraseDups

-- The names that are unmet once a set of names is met.
def Unmet (e : PodEnv) (met : Set String) (unmet : List String) : Prop :=
  ∀ q, q ∈ unmet ↔ q ∈ allMixins e ∧ q ∉ met

-- A set of names that has with a mixin of the region all that the mixin has.
def ClosedIn (e : PodEnv) (U : TypeRef → Prop) (met : Set String) : Prop :=
  ∀ r l r', U r → r.qname ∈ met → e.find r = .ok (some l) → Named l.mixins r' → r'.qname ∈ met

-- The names of the mixins that a stack has.
def reachedNames (e : PodEnv) (stack : List (Pod × UInt16)) : Set String :=
  {q | ∃ r, Reaches e stack r ∧ r.qname = q}

-- The names of the mixins that some types have.
def sharedNames (e : PodEnv) (types : List LoadedType) : Set String :=
  {q | ∃ t ∈ types, q ∈ reachedNames e t.mixins}

section Searches

variable {e : PodEnv} {U : TypeRef → Prop} {unmet : List String} {met : Set String}
  {stack : List (Pod × UInt16)}

theorem ClosedIn.explored (h : ClosedIn e U met) (hU : Region e U) (hunmet : Unmet e met unmet) :
    Explored e U unmet [] := by
  intro r l r' hr hmet hfind hr'
  have hin : r.qname ∈ met := by
    by_contra hout
    exact hmet ((hunmet _).mpr ⟨hU.known hr, hout⟩)
  exact .inl fun hmem => ((hunmet _).mp hmem).2 (h r l r' hr hin hfind hr')

-- What is met by a whole search is closed again.
theorem ClosedIn.union_reachedNames (h : ClosedIn e U met) (hU : Region e U)
    (hstack : ∀ r, Named stack r → U r) : ClosedIn e U (met ∪ reachedNames e stack) := by
  intro r l r' hr hmet hfind hr'
  obtain hmet | ⟨s, hs, hname⟩ := hmet
  · exact .inl (h r l r' hr hmet hfind hr')
  · have hsame := hU.unambiguous (hU.of_reaches hstack hs) hr hname
    exact .inr ⟨r', hs.super (PodEnv.find_congr hsame ▸ hfind) hr', rfl⟩

theorem closedIn_empty : ClosedIn e U ∅ :=
  fun _ _ _ _ hmet => absurd hmet (Set.notMem_empty _)

theorem unmet_allMixins : Unmet e ∅ (allMixins e) := by
  intro q
  simp

theorem Unmet.eq_of_subset {met' : Set String} (h : Unmet e met unmet) (h' : Unmet e met' unmet)
    (hsub : met ⊆ met') (hknown : ∀ q ∈ met', q ∈ allMixins e) : met = met' := by
  refine hsub.antisymm fun q hq => ?_
  by_contra hout
  exact ((h' q).mp ((h q).mpr ⟨hknown q hq, hout⟩)).2 hq

-- A search adds to the names that are met only some that the stack has,
theorem exists_added_of_meet {left : List String} (h : meet e unmet stack = .ok left)
    (hunmet : Unmet e met unmet) : ∃ added ⊆ reachedNames e stack, Unmet e (met ∪ added) left := by
  obtain ⟨found, hsearch⟩ := search_of_meet h
  refine ⟨{q | q ∈ unmet ∧ q ∉ left}, ?_, fun q => ?_⟩
  · rintro q ⟨hq, hleft⟩
    obtain ⟨r, hr, hname, -⟩ := hsearch.exists_of_not_mem hq hleft
    exact ⟨r, hr, hname⟩
  · rw [Set.mem_union, not_or, ← and_assoc, ← hunmet q]
    constructor
    · exact fun hq => ⟨hsearch.subset hq, fun hadded => hadded.2 hq⟩
    · rintro ⟨hq, hkept⟩
      by_contra hleft
      exact hkept ⟨hq, hleft⟩

-- and all of them where names tell the mixins apart.
theorem unmet_of_meet {left : List String} (h : meet e unmet stack = .ok left) (hU : Region e U)
    (hstack : ∀ r, Named stack r → U r) (hmet : ClosedIn e U met) (hunmet : Unmet e met unmet) :
    Unmet e (met ∪ reachedNames e stack) left := by
  obtain ⟨found, hsearch⟩ := search_of_meet h
  intro q
  rw [Set.mem_union, not_or, ← and_assoc, ← hunmet q]
  constructor
  · intro hq
    refine ⟨hsearch.subset hq, ?_⟩
    rintro ⟨r, hr, rfl⟩
    exact (hsearch.not_mem_of_reaches hU hstack (hmet.explored hU hunmet) hr).2 hq
  · rintro ⟨hq, hnone⟩
    by_contra hout
    obtain ⟨r, hr, hname, -⟩ := hsearch.exists_of_not_mem hq hout
    exact hnone ⟨r, hr, hname⟩

theorem sharedNames_nil : sharedNames e [] = ∅ := by
  simp [sharedNames]

theorem sharedNames_cons {t : LoadedType} {types : List LoadedType} :
    sharedNames e (t :: types) = reachedNames e t.mixins ∪ sharedNames e types := by
  ext q
  simp [sharedNames]

-- The searches for several types, one after the other, come to an end,
theorem exists_foldlM_meet {types : List LoadedType} (unmet : List String)
    (h : ∀ t ∈ types, Resolves e t.mixins) :
    ∃ left, types.foldlM (fun unmet t => meet e unmet t.mixins) unmet = .ok left := by
  induction types generalizing unmet with
  | nil => exact ⟨unmet, rfl⟩
  | cons t types ih =>
    obtain ⟨ht, htypes⟩ := List.forall_mem_cons.mp h
    obtain ⟨mid, hmid⟩ := ht.exists_meet unmet
    obtain ⟨left, hleft⟩ := ih mid htypes
    rw [List.foldlM_cons]
    exact ⟨left, except_bind_eq_ok.mpr ⟨mid, hmid, hleft⟩⟩

theorem exists_added_of_foldlM_meet {types : List LoadedType} {left : List String}
    (h : types.foldlM (fun unmet t => meet e unmet t.mixins) unmet = .ok left)
    (hunmet : Unmet e met unmet) :
    ∃ added ⊆ sharedNames e types, Unmet e (met ∪ added) left := by
  induction types generalizing met unmet with
  | nil =>
    cases h
    exact ⟨∅, Set.empty_subset _, by rwa [Set.union_empty]⟩
  | cons t types ih =>
    rw [List.foldlM_cons] at h
    obtain ⟨mid, hmid, hleft⟩ := except_bind_eq_ok.mp h
    obtain ⟨first, hfirst, hunmetMid⟩ := exists_added_of_meet hmid hunmet
    obtain ⟨others, hothers, hunmetLeft⟩ := ih hleft hunmetMid
    rw [sharedNames_cons]
    exact ⟨first ∪ others, Set.union_subset_union hfirst hothers, by rwa [← Set.union_assoc]⟩

theorem unmet_of_foldlM_meet {types : List LoadedType} {left : List String}
    (h : types.foldlM (fun unmet t => meet e unmet t.mixins) unmet = .ok left) (hU : Region e U)
    (hstack : ∀ t ∈ types, ∀ r, Named t.mixins r → U r) (hmet : ClosedIn e U met)
    (hunmet : Unmet e met unmet) :
    ClosedIn e U (met ∪ sharedNames e types) ∧ Unmet e (met ∪ sharedNames e types) left := by
  induction types generalizing met unmet with
  | nil =>
    cases h
    rw [sharedNames_nil, Set.union_empty]
    exact ⟨hmet, hunmet⟩
  | cons t types ih =>
    obtain ⟨hhead, hrest⟩ := List.forall_mem_cons.mp hstack
    rw [List.foldlM_cons] at h
    obtain ⟨mid, hmid, hleft⟩ := except_bind_eq_ok.mp h
    rw [sharedNames_cons, ← Set.union_assoc]
    exact ih hleft hrest (hmet.union_reachedNames hU hhead)
      (unmet_of_meet hmid hU hhead hmet hunmet)

theorem names_of_kept {found : List (TypeRef × LoadedType)} {mixins : List Mixin}
    (h : List.Forall₂ (Kept e) found mixins) : mixins.map (·.name) = found.map (·.1.qname) := by
  induction h with
  | nil => rfl
  | cons hm _ ih => rw [List.map_cons, List.map_cons, hm.name, ih]

theorem listsOnly_of_serve {mixins : List Mixin} (h : serve e unmet stack = .ok mixins) :
    ListsOnly e unmet stack mixins := by
  obtain ⟨left, found, hsearch, hkept⟩ := search_of_serve h
  refine ⟨fun m hm => ?_, names_of_kept hkept ▸ hsearch.nodup_found⟩
  obtain ⟨⟨r, l⟩, hp, hm⟩ := exists_of_forall₂ (List.Forall₂.flip hkept) hm
  change Kept e (r, l) m at hm
  obtain ⟨hr, hfind, hmem⟩ := hsearch.of_mem_found hp
  rw [hm.name, hm.loaded]
  exact ⟨hmem, r, hr, hfind, rfl⟩

-- With a closed set of names met, a search lists the others.
theorem lists_of_serve {mixins : List Mixin} (h : serve e unmet stack = .ok mixins)
    (hU : Region e U) (hstack : ∀ r, Named stack r → U r) (hmet : ClosedIn e U met)
    (hunmet : Unmet e met unmet) : Lists e unmet stack mixins := by
  obtain ⟨left, found, hsearch, hkept⟩ := search_of_serve h
  have hexplored := hmet.explored hU hunmet
  have hsettled : Settled e U unmet (allMixins e) := by
    intro r l r' hr hmet _ hfind hr'
    exact (hexplored r l r' hr hmet hfind hr').resolve_right not_named_nil
  refine ⟨listsOnly_of_serve h, fun r l hr hfind hmem => ?_, ?_⟩
  · obtain ⟨s, hsame, hp⟩ :=
      (hsearch.mem_found_iff hU hstack hexplored).mpr ⟨⟨r, .rfl, hr⟩, hfind, hmem⟩
    obtain ⟨m, hm, hkept⟩ := exists_of_forall₂ hkept hp
    exact ⟨m, hm, hkept.name.trans hsame.qname, hkept.loaded⟩
  · exact (names_of_kept hkept).trans
      (hsearch.tour.names_eq hU hstack (fun q hq => ((hunmet q).mp hq).1) hsettled)

end Searches

-- The mixins of a type and of its loaded base types.
def Kin (e : PodEnv) (l : LoadedType) (r : TypeRef) : Prop :=
  ∃ t, Lineage e l t ∧ Reaches e t.mixins r

-- All lookups around a type succeed.
structure LooksUp (e : PodEnv) (l : LoadedType) : Prop where
  bases : FindsBases e l
  mixins : ∀ t, Lineage e l t → Resolves e t.mixins

-- No two of these refs that differ have one qualified name.
def NamesDiffer (U : TypeRef → Prop) : Prop :=
  ∀ r r', U r → U r' → r.qname = r'.qname → r.Same r'

theorem NamesDiffer.region_reaches {e : PodEnv} {l : LoadedType} (hl : IsLoaded e l)
    (h : NamesDiffer (Reaches e l.mixins)) : Region e (Reaches e l.mixins) where
  closed hr hfind hnamed := hr.super hfind hnamed
  known hr := mem_allMixins_of_reaches hl hr
  unambiguous hr hr' := h _ _ hr hr'

theorem NamesDiffer.region_kin {e : PodEnv} {l : LoadedType} (hl : IsLoaded e l)
    (h : NamesDiffer (Kin e l)) : Region e (Kin e l) where
  closed := by
    rintro r r' l' ⟨t, ht, hr⟩ hfind hnamed
    exact ⟨t, ht, hr.super hfind hnamed⟩
  known := by
    rintro r ⟨t, ht, hr⟩
    exact mem_allMixins_of_reaches (isLoaded_of_lineage hl ht) hr
  unambiguous hr hr' := h _ _ hr hr'

-- Where lookups succeed, every search comes to an end. One from a type adds to the names that are
-- met only names of mixins that the type has, and what is listed for a class are loaded mixins of it
-- that its base types do not have, none twice; the base types are listed unless they are in a circle
-- or too many. Where names tell the mixins apart, and with nothing met or a closed set of names, all
-- these names are added and all these mixins listed, in order.
theorem searches_exact {e : PodEnv} {l : LoadedType} (self : TypeRef) (hl : IsLoaded e l)
    (hlooks : LooksUp e l) :
    (∀ met unmet, Unmet e met unmet →
      (∃ left, meet e unmet l.mixins = .ok left ∧
        (∃ added ⊆ reachedNames e l.mixins, Unmet e (met ∪ added) left) ∧
        (NamesDiffer (Reaches e l.mixins) → ClosedIn e (Reaches e l.mixins) met →
          Unmet e (met ∪ reachedNames e l.mixins) left)) ∧
      ∃ mixins, serve e unmet l.mixins = .ok mixins ∧ ListsOnly e unmet l.mixins mixins ∧
        (NamesDiffer (Reaches e l.mixins) → ClosedIn e (Reaches e l.mixins) met →
          Lists e unmet l.mixins mixins)) ∧
    ((∃ bases, BaseChain e l bases ∧ bases.length ≤ maxBaseDepth ∧
        ancestors e self l = .ok bases ∧
        ∃ inherited unmet mixins, inherited ⊆ sharedNames e (loadedBases bases) ∧
          Unmet e inherited unmet ∧ mixinsToServe e l bases = .ok mixins ∧
          ListsOnly e unmet l.mixins mixins ∧
          (NamesDiffer (Kin e l) → inherited = sharedNames e (loadedBases bases) ∧
            ClosedIn e (Kin e l) inherited ∧ Lists e unmet l.mixins mixins)) ∨
      (Circular e l ∨ ∃ bases, BaseChain e l bases ∧ maxBaseDepth < bases.length) ∧
        ancestors e self l = .error (.internal (.baseChainTooDeep self.qname))) := by
  have hself := hlooks.mixins l .refl
  refine ⟨fun met unmet hunmet => ⟨?_, ?_⟩, ?_⟩
  · obtain ⟨left, hleft⟩ := hself.exists_meet unmet
    exact ⟨left, hleft, exists_added_of_meet hleft hunmet, fun hnames hmet =>
      unmet_of_meet hleft (hnames.region_reaches hl) (fun _ => .named) hmet hunmet⟩
  · obtain ⟨mixins, hserve⟩ := hself.exists_serve unmet
    exact ⟨mixins, hserve, listsOnly_of_serve hserve, fun hnames hmet =>
      lists_of_serve hserve (hnames.region_reaches hl) (fun _ => .named) hmet hunmet⟩
  · obtain ⟨bases, hchain, hle, hbases⟩ | hdeep := ancestors_cases self hlooks.bases
    · have hline : ∀ t ∈ loadedBases bases, Lineage e l t := fun t ht =>
        (hchain.lineage ht).to_reflTransGen
      obtain ⟨unmet, hfold⟩ :=
        exists_foldlM_meet (allMixins e) fun t ht => hlooks.mixins t (hline t ht)
      obtain ⟨mixins, hserve⟩ := hself.exists_serve unmet
      obtain ⟨inherited, hsub, hunmet⟩ := exists_added_of_foldlM_meet hfold unmet_allMixins
      rw [Set.empty_union] at hunmet
      refine .inl ⟨bases, hchain, hle, hbases, inherited, unmet, mixins, hsub, hunmet,
        except_bind_eq_ok.mpr ⟨unmet, hfold, hserve⟩, listsOnly_of_serve hserve, fun hnames => ?_⟩
      have hU := hnames.region_kin hl
      obtain ⟨hclosed, hall⟩ := unmet_of_foldlM_meet hfold hU
        (fun t ht r hr => ⟨t, hline t ht, .named hr⟩) closedIn_empty unmet_allMixins
      rw [Set.empty_union] at hclosed hall
      obtain rfl : inherited = sharedNames e (loadedBases bases) := by
        refine hunmet.eq_of_subset hall hsub ?_
        rintro q ⟨t, ht, r, hr, rfl⟩
        exact hU.known ⟨t, hline t ht, hr⟩
      exact ⟨rfl, hclosed,
        lists_of_serve hserve hU (fun r hr => ⟨l, .refl, .named hr⟩) hclosed hunmet⟩
    · exact .inr hdeep

-- A type without a base is all of its lineage.
theorem eq_of_lineage {e : PodEnv} {l t : LoadedType} (hbase : l.type.base = none)
    (h : Lineage e l t) : t = l := by
  induction h with
  | refl => rfl
  | tail _ hnext ih =>
    obtain ⟨base, _, hsome, -⟩ := hnext
    rw [ih, hbase] at hsome
    cases hsome

theorem looksUp_of_root {e : PodEnv} {l : LoadedType} (hbase : l.type.base = none)
    (h : Resolves e l.mixins) : LooksUp e l where
  bases t ht base hsome := by
    rw [eq_of_lineage hbase ht, hbase] at hsome
    cases hsome
  mixins t ht := by
    rw [eq_of_lineage hbase ht]
    exact h

end Hierarchy

-- A class with a mixin that has another, which has it in turn.
def circleEnv : PodEnv :=
  { manEnv with
    pod :=
      { bareEnv.pod with
        symbols := { typeRefs := #[manRef, walksRef, ⟨"sys", "Void", ""⟩, stridesRef] }
        types := #[manType, { walksType with mixins := #[3] }, stridesType] } }

section Circle

open Hierarchy

theorem find_walks_circle : circleEnv.find walksRef =
    .ok (some ⟨circleEnv.pod, { walksType with mixins := #[3] }⟩) :=
  PodEnv.find_own (i := 1) rfl (by cbv) rfl rfl

theorem find_strides_circle : circleEnv.find stridesRef =
    .ok (some ⟨circleEnv.pod, stridesType⟩) :=
  PodEnv.find_own (i := 2) rfl (by cbv) rfl rfl

theorem eq_of_reaches_circle {r : TypeRef}
    (h : Reaches circleEnv (LoadedType.mixins ⟨circleEnv.pod, manType⟩) r) :
    r = walksRef ∨ r = stridesRef := by
  have hwalk : typeRefAt circleEnv.pod.symbols 1 = .ok walksRef := rfl
  have hstride : typeRefAt circleEnv.pod.symbols 3 = .ok stridesRef := rfl
  induction h with
  | named h =>
    obtain ⟨p, hp, href⟩ := h
    obtain rfl : p = (circleEnv.pod, 1) := by simpa [LoadedType.mixins, manType] using hp
    cases hwalk.symm.trans href
    exact .inl rfl
  | super _ hfind hnamed ih =>
    obtain ⟨p, hp, href⟩ := hnamed
    obtain rfl | rfl := ih
    · cases find_walks_circle.symm.trans hfind
      obtain rfl : p = (circleEnv.pod, 3) := by simpa [LoadedType.mixins] using hp
      cases hstride.symm.trans href
      exact .inr rfl
    · cases find_strides_circle.symm.trans hfind
      obtain rfl : p = (circleEnv.pod, 1) := by simpa [LoadedType.mixins, stridesType] using hp
      cases hwalk.symm.trans href
      exact .inl rfl

theorem resolves_circle :
    Resolves circleEnv (LoadedType.mixins ⟨circleEnv.pod, manType⟩) := by
  have hall : ∀ i ∈ [(1 : UInt16), 3], ∃ r, typeRefAt circleEnv.pod.symbols i = .ok r :=
    List.forall_mem_cons.mpr ⟨⟨walksRef, rfl⟩, List.forall_mem_singleton.mpr ⟨stridesRef, rfl⟩⟩
  refine ⟨?_, fun r hr => ?_, fun r l hr hfind => ?_⟩
  · exact List.forall_mem_singleton.mpr (hall 1 (by simp))
  · obtain rfl | rfl := eq_of_reaches_circle hr
    · exact ⟨_, find_walks_circle⟩
    · exact ⟨_, find_strides_circle⟩
  · obtain rfl | rfl := eq_of_reaches_circle hr
    · cases find_walks_circle.symm.trans hfind
      exact List.forall_mem_singleton.mpr (hall 3 (by simp))
    · cases find_strides_circle.symm.trans hfind
      exact List.forall_mem_singleton.mpr (hall 1 (by simp))

theorem namesDiffer_circle : NamesDiffer (Kin circleEnv ⟨circleEnv.pod, manType⟩) := by
  have hqname : walksRef.qname ≠ stridesRef.qname := by cbv
  rintro r r' ⟨t, ht, hr⟩ ⟨t', ht', hr'⟩ heq
  rw [eq_of_lineage rfl ht] at hr
  rw [eq_of_lineage rfl ht'] at hr'
  obtain rfl | rfl := eq_of_reaches_circle hr <;> obtain rfl | rfl := eq_of_reaches_circle hr'
  · exact .rfl
  · exact absurd heq hqname
  · exact absurd heq.symm hqname
  · exact .rfl

-- The search through the circle comes to an end, and lists both mixins for the class.
theorem searches_exact_circle :
    Reaches circleEnv (LoadedType.mixins ⟨circleEnv.pod, stridesType⟩) stridesRef ∧
    (∃ left, meet circleEnv (allMixins circleEnv)
        (LoadedType.mixins ⟨circleEnv.pod, manType⟩) = .ok left ∧
      Unmet circleEnv (reachedNames circleEnv (LoadedType.mixins ⟨circleEnv.pod, manType⟩)) left) ∧
    ∃ mixins, mixinsToServe circleEnv ⟨circleEnv.pod, manType⟩ [] = .ok mixins ∧
      Lists circleEnv (allMixins circleEnv) (LoadedType.mixins ⟨circleEnv.pod, manType⟩) mixins ∧
      mixins.map (·.name) = ["p::Walks", "p::Strides"] := by
  have hback : Reaches circleEnv (LoadedType.mixins ⟨circleEnv.pod, stridesType⟩) stridesRef :=
    .super (.named ⟨(circleEnv.pod, 1), List.mem_singleton.mpr rfl, rfl⟩) find_walks_circle
      ⟨(circleEnv.pod, 3), List.mem_singleton.mpr rfl, rfl⟩
  have hloaded : IsLoaded circleEnv ⟨circleEnv.pod, manType⟩ :=
    ⟨List.mem_cons_self, List.mem_cons_self⟩
  have hnames : NamesDiffer (Reaches circleEnv (LoadedType.mixins ⟨circleEnv.pod, manType⟩)) :=
    fun r r' hr hr' => namesDiffer_circle r r' ⟨_, .refl, hr⟩ ⟨_, .refl, hr'⟩
  obtain ⟨hsearch, -⟩ := searches_exact manRef hloaded (looksUp_of_root rfl resolves_circle)
  obtain ⟨⟨left, hleft, -, hadds⟩, mixins, hserve, -, hlists⟩ := hsearch ∅ _ unmet_allMixins
  have hunmet := hadds hnames closedIn_empty
  rw [Set.empty_union] at hunmet
  refine ⟨hback, ⟨left, hleft, hunmet⟩, mixins, hserve, hlists hnames closedIn_empty, ?_⟩
  rw [(hlists hnames closedIn_empty).order]
  cbv

end Circle

section TwoFaced

open Hierarchy

theorem resolves_twoFaced :
    Resolves twoFacedEnv (LoadedType.mixins ⟨twoFacedEnv.pod, twoFacedType⟩) := by
  refine ⟨?_, fun r hr => ?_, fun r l hr hfind => ?_⟩
  · exact List.forall_mem_cons.mpr
      ⟨⟨hidingRef, rfl⟩, List.forall_mem_singleton.mpr ⟨hiddenRef, rfl⟩⟩
  · obtain rfl | rfl := eq_of_reaches_twoFaced hr
    · exact ⟨_, find_hiding⟩
    · exact ⟨_, find_hidden⟩
  · obtain rfl | rfl := eq_of_reaches_twoFaced hr
    · cases find_hiding.symm.trans hfind
      exact List.forall_mem_nil _
    · cases find_hidden.symm.trans hfind
      exact List.forall_mem_nil _

-- The mixin that is taken for another has a mixin of its own.
def shadedRef : TypeRef := ⟨"p::q", "Strides", ""⟩

def shadedPod : Pod :=
  { hiddenPod with
    symbols := { typeRefs := #[hiddenRef, hiddenRef, ⟨"sys", "Void", ""⟩, shadedRef] }
    types := #[{ hiddenType with mixins := #[3] }, { hiddenType with self := 3 }] }

def shadedEnv : PodEnv :=
  { twoFacedEnv with others := { pods := #[shadedPod] } }

theorem find_hiding_shaded :
    shadedEnv.find hidingRef = .ok (some ⟨shadedEnv.pod, hidingType⟩) :=
  PodEnv.find_own (i := 1) rfl (by cbv) rfl rfl

theorem find_hidden_shaded :
    shadedEnv.find hiddenRef = .ok (some ⟨shadedPod, { hiddenType with mixins := #[3] }⟩) :=
  PodEnv.find_other (i := 0) (by decide) rfl (by cbv) rfl rfl

theorem find_shaded :
    shadedEnv.find shadedRef = .ok (some ⟨shadedPod, { hiddenType with self := 3 }⟩) :=
  PodEnv.find_other (i := 1) (by decide) rfl (by cbv) rfl rfl

theorem eq_of_reaches_shaded {r : TypeRef}
    (h : Reaches shadedEnv (LoadedType.mixins ⟨shadedEnv.pod, twoFacedType⟩) r) :
    r = hidingRef ∨ r = hiddenRef ∨ r = shadedRef := by
  have hhiding : typeRefAt shadedEnv.pod.symbols 1 = .ok hidingRef := rfl
  have hhidden : typeRefAt shadedEnv.pod.symbols 2 = .ok hiddenRef := rfl
  have hshaded : typeRefAt shadedPod.symbols 3 = .ok shadedRef := rfl
  induction h with
  | named h =>
    obtain ⟨p, hp, href⟩ := h
    obtain rfl | rfl : p = (shadedEnv.pod, 1) ∨ p = (shadedEnv.pod, 2) := by
      simpa [LoadedType.mixins, twoFacedType] using hp
    · cases hhiding.symm.trans href
      exact .inl rfl
    · cases hhidden.symm.trans href
      exact .inr (.inl rfl)
  | super _ hfind hnamed ih =>
    obtain rfl | rfl | rfl := ih
    · cases find_hiding_shaded.symm.trans hfind
      exact absurd hnamed not_named_nil
    · cases find_hidden_shaded.symm.trans hfind
      obtain ⟨p, hp, href⟩ := hnamed
      obtain rfl : p = (shadedPod, 3) := by simpa [LoadedType.mixins] using hp
      cases hshaded.symm.trans href
      exact .inr (.inr rfl)
    · cases find_shaded.symm.trans hfind
      exact absurd hnamed not_named_nil

theorem resolves_shaded :
    Resolves shadedEnv (LoadedType.mixins ⟨shadedEnv.pod, twoFacedType⟩) := by
  refine ⟨?_, fun r hr => ?_, fun r l hr hfind => ?_⟩
  · exact List.forall_mem_cons.mpr
      ⟨⟨hidingRef, rfl⟩, List.forall_mem_singleton.mpr ⟨hiddenRef, rfl⟩⟩
  · obtain rfl | rfl | rfl := eq_of_reaches_shaded hr
    · exact ⟨_, find_hiding_shaded⟩
    · exact ⟨_, find_hidden_shaded⟩
    · exact ⟨_, find_shaded⟩
  · obtain rfl | rfl | rfl := eq_of_reaches_shaded hr
    · cases find_hiding_shaded.symm.trans hfind
      exact List.forall_mem_nil _
    · cases find_hidden_shaded.symm.trans hfind
      exact List.forall_mem_singleton.mpr ⟨shadedRef, rfl⟩
    · cases find_shaded.symm.trans hfind
      exact List.forall_mem_nil _

-- The class has what the mixin has, but the search does not come to it.
theorem reaches_shaded :
    Reaches shadedEnv (LoadedType.mixins ⟨shadedEnv.pod, twoFacedType⟩) shadedRef :=
  .super (.named ⟨(shadedEnv.pod, 2), by simp [LoadedType.mixins, twoFacedType], rfl⟩)
    find_hidden_shaded ⟨(shadedPod, 3), List.mem_singleton.mpr rfl, rfl⟩

theorem exists_meet_shaded : ∃ left, meet shadedEnv (allMixins shadedEnv)
    (LoadedType.mixins ⟨shadedEnv.pod, twoFacedType⟩) = .ok left ∧ shadedRef.qname ∈ left := by
  have hall : allMixins shadedEnv = ["p::q::Walks", "p::q::Walks", "p::q::Strides"] := by cbv
  have hhiding : hidingRef.qname = "p::q::Walks" := by cbv
  have hshaded : shadedRef.qname = "p::q::Strides" := by cbv
  have hmet : hidingRef.qname ∈ allMixins shadedEnv := by
    rw [hall, hhiding]
    exact List.mem_cons_self
  have hagain : hiddenRef.qname ∉ without (allMixins shadedEnv) hidingRef.qname :=
    qname_hiding ▸ not_mem_without
  refine ⟨_, (meet_met rfl hmet find_hiding_shaded).trans ((meet_again rfl hagain).trans meet_nil),
    mem_without.mpr ⟨?_, ?_⟩⟩
  · rw [hall, hshaded]
    simp
  · rw [hshaded, hhiding]
    decide

-- Of two mixins with one qualified name the second is loaded and on the stack, but not listed; and
-- what only the second has is not met.
theorem mixin_unlisted_twoFaced :
    LooksUp twoFacedEnv ⟨twoFacedEnv.pod, twoFacedType⟩ ∧
    Reaches twoFacedEnv (LoadedType.mixins ⟨twoFacedEnv.pod, twoFacedType⟩) hiddenRef ∧
    twoFacedEnv.find hiddenRef = .ok (some ⟨hiddenPod, hiddenType⟩) ∧
    ∃ mixins, mixinsToServe twoFacedEnv ⟨twoFacedEnv.pod, twoFacedType⟩ [] = .ok mixins ∧
      (∀ m ∈ mixins, m.loaded ≠ ⟨hiddenPod, hiddenType⟩) ∧
    LooksUp shadedEnv ⟨shadedEnv.pod, twoFacedType⟩ ∧
    Reaches shadedEnv (LoadedType.mixins ⟨shadedEnv.pod, twoFacedType⟩) shadedRef ∧
    ∃ left, meet shadedEnv (allMixins shadedEnv)
        (LoadedType.mixins ⟨shadedEnv.pod, twoFacedType⟩) = .ok left ∧
      shadedRef.qname ∈ left := by
  refine ⟨looksUp_of_root rfl resolves_twoFaced,
    .named ⟨(twoFacedEnv.pod, 2), by simp [LoadedType.mixins, twoFacedType], rfl⟩, find_hidden, _,
    except_bind_eq_ok.mpr ⟨_, rfl, serve_twoFaced⟩, ?_, looksUp_of_root rfl resolves_shaded,
    reaches_shaded, exists_meet_shaded⟩
  rintro m hm heq
  obtain rfl := List.mem_singleton.mp hm
  have hname := congrArg (fun t : LoadedType => t.pod.name) heq
  exact absurd hname (by decide)

end TwoFaced

end PodCompiler.Lowering
