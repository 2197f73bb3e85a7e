import PodCompiler.Proofs.Lowering.MixinClosure

namespace PodCompiler.Lowering

namespace Hierarchy

-- A search, branch by branch: from a mixin that it meets it first goes through all that this
-- one has, and only then on.
inductive Tour (e : PodEnv) :
    List String → List (Pod × UInt16) → List String → List (TypeRef × LoadedType) → Prop
  | done {unmet : List String} : Tour e unmet [] unmet []
  | again {unmet left : List String} {p : Pod × UInt16} {rest : List (Pod × UInt16)}
      {found : List (TypeRef × LoadedType)} {r : TypeRef}
      (href : typeRefAt p.1.symbols p.2 = .ok r) (hunmet : r.qname ∉ unmet)
      (h : Tour e unmet rest left found) : Tour e unmet (p :: rest) left found
  | absent {unmet left : List String} {p : Pod × UInt16} {rest : List (Pod × UInt16)}
      {found : List (TypeRef × LoadedType)} {r : TypeRef}
      (href : typeRefAt p.1.symbols p.2 = .ok r) (hunmet : r.qname ∈ unmet)
      (hfind : e.find r = .ok none) (h : Tour e (without unmet r.qname) rest left found) :
      Tour e unmet (p :: rest) left found
  | met {unmet mid left : List String} {p : Pod × UInt16} {rest : List (Pod × UInt16)}
      {below found : List (TypeRef × LoadedType)} {r : TypeRef} {l : LoadedType}
      (href : typeRefAt p.1.symbols p.2 = .ok r) (hunmet : r.qname ∈ unmet)
      (hfind : e.find r = .ok (some l))
      (hbelow : Tour e (without unmet r.qname) l.mixins mid below)
      (h : Tour e mid rest left found) : Tour e unmet (p :: rest) left ((r, l) :: (below ++ found))

section Tour

variable {e : PodEnv} {unmet mid left : List String} {stack stack' : List (Pod × UInt16)}
  {found found' : List (TypeRef × LoadedType)}

theorem Tour.split (h : Tour e unmet (stack ++ stack') left found) :
    ∃ mid first last, Tour e unmet stack mid first ∧ Tour e mid stack' left last ∧
      found = first ++ last := by
  induction stack generalizing unmet found with
  | nil => exact ⟨unmet, [], found, .done, h, rfl⟩
  | cons p rest ih =>
    cases h with
    | again href hunmet h =>
      obtain ⟨mid, first, last, hfirst, hlast, rfl⟩ := ih h
      exact ⟨mid, first, last, .again href hunmet hfirst, hlast, rfl⟩
    | absent href hunmet hfind h =>
      obtain ⟨mid, first, last, hfirst, hlast, rfl⟩ := ih h
      exact ⟨mid, first, last, .absent href hunmet hfind hfirst, hlast, rfl⟩
    | @met _ _ _ _ _ below _ r l href hunmet hfind hbelow h =>
      obtain ⟨mid, first, last, hfirst, hlast, rfl⟩ := ih h
      refine ⟨mid, (r, l) :: (below ++ first), last, .met href hunmet hfind hbelow hfirst, hlast,
        ?_⟩
      rw [List.cons_append, List.append_assoc]

theorem Search.tour (h : Search e unmet stack left found) : Tour e unmet stack left found := by
  induction h with
  | done => exact .done
  | again href hunmet _ ih => exact .again href hunmet ih
  | absent href hunmet hfind _ ih => exact .absent href hunmet hfind ih
  | met href hunmet hfind _ ih =>
    obtain ⟨mid, below, more, hbelow, hmore, rfl⟩ := ih.split
    exact .met href hunmet hfind hbelow hmore

theorem Search.append (h : Search e unmet stack mid found) (h' : Search e mid stack' left found') :
    Search e unmet (stack ++ stack') left (found ++ found') := by
  induction h with
  | done => exact h'
  | again href hunmet _ ih => exact .again href hunmet (ih h')
  | absent href hunmet hfind _ ih => exact .absent href hunmet hfind (ih h')
  | met href hunmet hfind _ ih =>
    refine .met href hunmet hfind ?_
    have hrest := ih h'
    rwa [List.append_assoc] at hrest

theorem Tour.search (h : Tour e unmet stack left found) : Search e unmet stack left found := by
  induction h with
  | done => exact .done
  | again href hunmet _ ih => exact .again href hunmet ih
  | absent href hunmet hfind _ ih => exact .absent href hunmet hfind ih
  | met href hunmet hfind _ _ ihbelow ih => exact .met href hunmet hfind (ihbelow.append ih)

end Tour

-- A mixin that is met and free, that is not on the branch that a search is at, has all it has met.
def Settled (e : PodEnv) (U : TypeRef → Prop) (unmet free : List String) : Prop :=
  ∀ r l r', U r → r.qname ∉ unmet → r.qname ∈ free → e.find r = .ok (some l) →
    Named l.mixins r' → r'.qname ∉ unmet

-- The loaded mixin at a place of a stack, and its name.
def loadedAt (e : PodEnv) (p : Pod × UInt16) : Option (String × LoadedType) :=
  match typeRefAt p.1.symbols p.2 with
  | .error _ => none
  | .ok r =>
    match e.find r with
    | .ok (some l) => some (r.qname, l)
    | _ => none

-- The names of the loaded mixins along all branches, each mixin before those that it has. A branch
-- ends before a mixin that is on it already, which is one that is not `free`.
def branches (e : PodEnv) (free : List String) (stack : List (Pod × UInt16)) : List String :=
  match stack with
  | [] => []
  | p :: rest =>
    match loadedAt e p with
    | none => branches e free rest
    | some (q, l) =>
      if h : q ∈ free then
        have := length_without_lt h
        q :: branches e (without free q) l.mixins ++ branches e free rest
      else branches e free rest
termination_by (free.length, stack.length)

section Branches

variable {e : PodEnv} {U : TypeRef → Prop} {unmet free : List String} {p : Pod × UInt16}
  {stack rest : List (Pod × UInt16)} {r : TypeRef} {l : LoadedType} {q : String}

theorem loadedAt_eq_some :
    loadedAt e p = some (q, l) ↔
      ∃ r, typeRefAt p.1.symbols p.2 = .ok r ∧ e.find r = .ok (some l) ∧ r.qname = q := by
  unfold loadedAt
  constructor
  · intro h
    split at h
    · cases h
    · rename_i r href
      split at h
      · rename_i l' hfind
        cases h
        exact ⟨r, href, hfind, rfl⟩
      · cases h
  · rintro ⟨r, href, hfind, rfl⟩
    rw [href]
    dsimp only
    rw [hfind]

theorem branches_cons :
    branches e free (p :: rest) = branches e free [p] ++ branches e free rest := by
  rw [branches, branches]
  split
  · rw [branches, List.nil_append]
  · split
    · simp [branches]
    · rw [branches, List.nil_append]

theorem branches_met (href : typeRefAt p.1.symbols p.2 = .ok r) (hfree : r.qname ∈ free)
    (hfind : e.find r = .ok (some l)) :
    branches e free [p] = r.qname :: branches e (without free r.qname) l.mixins := by
  rw [branches, loadedAt_eq_some.mpr ⟨r, href, hfind, rfl⟩]
  dsimp only
  rw [dif_pos hfree, branches, List.append_nil]

theorem branches_absent (href : typeRefAt p.1.symbols p.2 = .ok r) (hfind : e.find r = .ok none) :
    branches e free [p] = [] := by
  have hnone : loadedAt e p = none := by
    unfold loadedAt
    rw [href]
    dsimp only
    rw [hfind]
  rw [branches, hnone]
  dsimp only
  rw [branches]

-- On the branches are loaded mixins that the stack has.
theorem exists_of_mem_branches (h : q ∈ branches e free stack) :
    ∃ r l, Reaches e stack r ∧ e.find r = .ok (some l) ∧ r.qname = q := by
  induction free, stack using branches.induct e with
  | case1 free => simp [branches] at h
  | case2 free p rest hnone ih =>
    rw [branches, hnone] at h
    obtain ⟨r, l, hr, hrest⟩ := ih h
    exact ⟨r, l, hr.cons, hrest⟩
  | case3 free p rest name l hat hfree _ ihbelow ih =>
    rw [branches, hat] at h
    dsimp only at h
    rw [dif_pos hfree, List.cons_append, List.mem_cons, List.mem_append] at h
    obtain ⟨s, href, hfind, rfl⟩ := loadedAt_eq_some.mp hat
    rcases h with rfl | hbelow | hrest
    · exact ⟨s, l, reaches_head href, hfind, rfl⟩
    · obtain ⟨r, l', hr, hr'⟩ := ihbelow hbelow
      exact ⟨r, l', (reaches_head href).trans hfind hr, hr'⟩
    · obtain ⟨r, l', hr, hr'⟩ := ih hrest
      exact ⟨r, l', hr.cons, hr'⟩
  | case4 free p rest name l hat hfree ih =>
    rw [branches, hat] at h
    dsimp only at h
    rw [dif_neg hfree] at h
    obtain ⟨r, l', hr, hr'⟩ := ih h
    exact ⟨r, l', hr.cons, hr'⟩

-- From mixins that are met no branch leads to one that is not.
theorem Settled.not_mem_of_mem_branches {within : List String} (h : Settled e U unmet within)
    (hU : Region e U) (hsub : free ⊆ within)
    (hstack : ∀ r, Named stack r → U r ∧ r.qname ∉ unmet) (hq : q ∈ branches e free stack) :
    q ∉ unmet := by
  induction free, stack using branches.induct e with
  | case1 free => simp [branches] at hq
  | case2 free p rest hnone ih =>
    rw [branches, hnone] at hq
    exact ih hsub (forall_named_cons.mp hstack).2 hq
  | case3 free p rest name l hat hfree _ ihbelow ih =>
    rw [branches, hat] at hq
    dsimp only at hq
    rw [dif_pos hfree, List.cons_append, List.mem_cons, List.mem_append] at hq
    obtain ⟨s, href, hfind, rfl⟩ := loadedAt_eq_some.mp hat
    obtain ⟨hhead, htail⟩ := forall_named_cons.mp hstack
    obtain ⟨hs, hmet⟩ := hhead s href
    rcases hq with rfl | hbelow | hrest
    · exact hmet
    · refine ihbelow (List.Subset.trans without_subset hsub) (fun r hr => ?_) hbelow
      exact ⟨hU.closed hs hfind hr, h s l r hs hmet (hsub hfree) hfind hr⟩
    · exact ih hsub htail hrest
  | case4 free p rest name l hat hfree ih =>
    rw [branches, hat] at hq
    dsimp only at hq
    rw [dif_neg hfree] at hq
    exact ih hsub (forall_named_cons.mp hstack).2 hq

end Branches

section Order

variable {e : PodEnv} {U : TypeRef → Prop} {unmet left free : List String}
  {stack : List (Pod × UInt16)} {found : List (TypeRef × LoadedType)} {r : TypeRef}

-- Of the loaded mixins a search leaves those that it does not find.
theorem Search.mem_left_iff_of_loaded {l : LoadedType} (h : Search e unmet stack left found)
    (hU : Region e U) (hstack : ∀ r, Named stack r → U r) (hr : U r)
    (hfind : e.find r = .ok (some l)) :
    r.qname ∈ left ↔ r.qname ∈ unmet ∧ r.qname ∉ found.map (·.1.qname) := by
  constructor
  · intro hleft
    refine ⟨h.subset hleft, fun hmem => ?_⟩
    obtain ⟨⟨s, l'⟩, hs, hname⟩ := List.mem_map.mp hmem
    exact h.not_mem_of_mem_found hs (hname ▸ hleft)
  · rintro ⟨hunmet, hfound⟩
    by_contra hleft
    obtain ⟨s, hs, hname, hall⟩ := h.exists_of_not_mem hunmet hleft
    have hsame := hU.unambiguous (hU.of_reaches hstack hs) hr hname
    have hmem := hall l (PodEnv.find_congr hsame ▸ hfind)
    exact hfound (List.mem_map.mpr ⟨(s, l), hmem, hname⟩)

-- A branch goes down to a mixin: it is met, and no longer free.
theorem Settled.visit (h : Settled e U unmet free) (q : String) :
    Settled e U (without unmet q) (without free q) := by
  intro s l s' hs hmet hfree hfind hs' hmem
  obtain ⟨hfree, hne⟩ := mem_without.mp hfree
  have hmet : s.qname ∉ unmet := fun hin => hmet (mem_without.mpr ⟨hin, hne⟩)
  exact h s l s' hs hmet hfree hfind hs' (mem_without.mp hmem).1

-- It comes back from there once all that the mixin has is met.
theorem Settled.leave (h : Settled e U unmet (without free r.qname)) (hU : Region e U) (hr : U r)
    (hbelow : ∀ l s, e.find r = .ok (some l) → Named l.mixins s → s.qname ∉ unmet) :
    Settled e U unmet free := by
  intro s l s' hs hmet hfree hfind hs'
  by_cases heq : s.qname = r.qname
  · rw [PodEnv.find_congr (hU.unambiguous hs hr heq)] at hfind
    exact hbelow l s' hfind hs'
  · exact h s l s' hs hmet (mem_without.mpr ⟨hfree, heq⟩) hfind hs'

theorem Tour.leave {mid : List String} {l : LoadedType} (h : Tour e unmet l.mixins mid found)
    (hU : Region e U) (hr : U r) (hfind : e.find r = .ok (some l))
    (hs : Settled e U mid (without free r.qname)) : Settled e U mid free := by
  refine hs.leave hU hr fun l' s hfind' hnamed => ?_
  cases hfind.symm.trans hfind'
  exact h.search.not_mem_of_named hnamed

theorem Settled.absent (h : Settled e U unmet free) (hU : Region e U) (hr : U r)
    (hfind : e.find r = .ok none) : Settled e U (without unmet r.qname) free := by
  refine (h.visit r.qname).leave hU hr fun l s hfind' _ => ?_
  cases hfind.symm.trans hfind'

theorem without_subset_without {q : String} (h : unmet ⊆ free) :
    without unmet q ⊆ without free q := by
  intro q' hq
  obtain ⟨hunmet, hne⟩ := mem_without.mp hq
  exact mem_without.mpr ⟨h hunmet, hne⟩

theorem Tour.settled (h : Tour e unmet stack left found) (hU : Region e U)
    (hstack : ∀ r, Named stack r → U r) (hsub : unmet ⊆ free) (hs : Settled e U unmet free) :
    Settled e U left free := by
  induction h generalizing free with
  | done => exact hs
  | again href _ _ ih => exact ih (forall_named_cons.mp hstack).2 hsub hs
  | absent href _ hfind _ ih =>
    obtain ⟨hhead, hrest⟩ := forall_named_cons.mp hstack
    exact ih hrest (List.Subset.trans without_subset hsub) (hs.absent hU (hhead _ href) hfind)
  | met href _ hfind hbelow _ ihbelow ih =>
    obtain ⟨hhead, hrest⟩ := forall_named_cons.mp hstack
    have hr := hhead _ href
    have hleft := List.Subset.trans hbelow.search.subset (List.Subset.trans without_subset hsub)
    have hmid := ihbelow (fun s hs => hU.closed hr hfind hs) (without_subset_without hsub)
      (hs.visit _)
    exact ih hrest hleft (hbelow.leave hU hr hfind hmid)

-- Behind what is found along some branches, of the others is left what these have not come to.
theorem Tour.filter_left {mid names : List String} (h : Tour e unmet stack mid found)
    (hU : Region e U) (hstack : ∀ r, Named stack r → U r)
    (hfound : found.map (·.1.qname) = names.eraseDups) {rest : List (Pod × UInt16)}
    (hrest : ∀ r, Named rest r → U r) :
    ((branches e free rest).filter (· ∈ unmet)).removeAll names =
      (branches e free rest).filter (· ∈ mid) := by
  rw [List.removeAll, List.filter_filter]
  refine List.filter_congr fun q hq => ?_
  obtain ⟨s, l, hreaches, hloaded, rfl⟩ := exists_of_mem_branches hq
  have hleft := h.search.mem_left_iff_of_loaded hU hstack (hU.of_reaches hrest hreaches) hloaded
  rw [hfound, List.mem_eraseDups] at hleft
  simp [hleft, Bool.and_comm]

theorem filter_ne_filter (names unmet : List String) (q : String) :
    (names.filter (· ∈ unmet)).filter (fun q' => !q' == q) =
      names.filter (· ∈ without unmet q) := by
  rw [List.filter_filter]
  refine List.filter_congr fun q' _ => Bool.eq_iff_iff.mpr ?_
  simp [mem_without, and_comm]

-- A search that has met nothing but what its branch goes through, and all that this has, finds what
-- is unmet along the branches, each mixin where they come to it first.
theorem Tour.names_eq (h : Tour e unmet stack left found) (hU : Region e U)
    (hstack : ∀ r, Named stack r → U r) (hsub : unmet ⊆ free) (hs : Settled e U unmet free) :
    found.map (·.1.qname) = ((branches e free stack).filter (· ∈ unmet)).eraseDups := by
  induction h generalizing free with
  | done => simp [branches]
  | @again unmet left p rest found r href hunmet h ih =>
    obtain ⟨hhead, hrest⟩ := forall_named_cons.mp hstack
    have hnone : (branches e free [p]).filter (· ∈ unmet) = [] := by
      refine List.filter_eq_nil_iff.mpr fun q hq => ?_
      rw [decide_eq_true_eq]
      refine hs.not_mem_of_mem_branches hU (List.Subset.refl _) (fun s hs => ?_) hq
      obtain hs | hnil := named_cons.mp hs
      · cases href.symm.trans hs
        exact ⟨hhead _ href, hunmet⟩
      · exact absurd hnil not_named_nil
    rw [branches_cons, List.filter_append, hnone, List.nil_append]
    exact ih hrest hsub hs
  | @absent unmet left p rest found r href hunmet hfind h ih =>
    obtain ⟨hhead, hrest⟩ := forall_named_cons.mp hstack
    have hr := hhead _ href
    rw [ih hrest (List.Subset.trans without_subset hsub) (hs.absent hU hr hfind), branches_cons,
      branches_absent href hfind, List.nil_append]
    congr 1
    refine List.filter_congr fun q hq => ?_
    obtain ⟨s, l, hreaches, hloaded, rfl⟩ := exists_of_mem_branches hq
    have hne : s.qname ≠ r.qname := by
      intro heq
      rw [PodEnv.find_congr (hU.unambiguous (hU.of_reaches hrest hreaches) hr heq)] at hloaded
      cases hfind.symm.trans hloaded
    simp [mem_without, hne]
  | @met unmet mid left p rest below found r l href hunmet hfind hbelow h ihbelow ih =>
    obtain ⟨hhead, hrest⟩ := forall_named_cons.mp hstack
    have hr := hhead _ href
    have hsupers : ∀ s, Named l.mixins s → U s := fun s hs => hU.closed hr hfind hs
    have hleft := List.Subset.trans hbelow.search.subset (List.Subset.trans without_subset hsub)
    have hbelowSettled := hs.visit r.qname
    have hmid := hbelow.settled hU hsupers (without_subset_without hsub) hbelowSettled
    have hfirst := ihbelow hsupers (without_subset_without hsub) hbelowSettled
    have hlast := ih hrest hleft (hbelow.leave hU hr hfind hmid)
    calc ((r, l) :: (below ++ found)).map (·.1.qname)
        = r.qname :: (below.map (·.1.qname) ++ found.map (·.1.qname)) := by
          rw [List.map_cons, List.map_append]
      _ = r.qname :: (((branches e (without free r.qname) l.mixins) ++ branches e free rest).filter
            (· ∈ without unmet r.qname)).eraseDups := by
          rw [List.filter_append, List.eraseDups_append, hbelow.filter_left hU hsupers hfirst hrest,
            hfirst, hlast]
      _ = ((branches e free (p :: rest)).filter (· ∈ unmet)).eraseDups := by
          rw [branches_cons, branches_met href (hsub hunmet) hfind, List.cons_append,
            List.filter_cons_of_pos (by simpa using hunmet), List.eraseDups_cons, filter_ne_filter]

end Order

end Hierarchy

end PodCompiler.Lowering
