import PodCompiler.Lowering.Hierarchy
import PodCompiler.Proofs.Lowering.PassedArguments

namespace PodCompiler

-- The same type, whatever the suffixes.
def TypeRef.Same (r r' : TypeRef) : Prop :=
  r.pod = r'.pod ∧ r.name = r'.name

section Same

variable {r r' s : TypeRef}

theorem TypeRef.Same.rfl : r.Same r :=
  ⟨.refl _, .refl _⟩

theorem TypeRef.Same.trans (h : r.Same r') (h' : r'.Same s) : r.Same s :=
  ⟨h.1.trans h'.1, h.2.trans h'.2⟩

theorem TypeRef.Same.qname (h : r.Same r') : r.qname = r'.qname := by
  rw [TypeRef.qname, TypeRef.qname, h.1, h.2]

end Same

namespace Lowering

theorem LoadedType.ofPod_congr {pod : Pod} {r r' : TypeRef} (h : r.Same r') :
    ofPod pod r = ofPod pod r' := by
  unfold ofPod
  rw [h.2, h.qname]

theorem LoadedType.ofPod_eq_ok {pod : Pod} {r : TypeRef} {l : LoadedType}
    (h : ofPod pod r = .ok l) :
    l.pod = pod ∧ l.type ∈ pod.types.toList := by
  unfold ofPod at h
  split at h
  · cases h
  · rename_i type htype
    split at h
    · cases h
    · cases h
      obtain ⟨i, -, hi⟩ := Option.bind_eq_some_iff.mp htype
      exact ⟨rfl, Array.mem_toList_iff.mpr (Array.mem_of_getElem? hi)⟩

theorem PodEnv.find_congr {e : PodEnv} {r r' : TypeRef} (h : r.Same r') : e.find r = e.find r' := by
  unfold find PodSet.lookup
  rw [h.1, LoadedType.ofPod_congr h]
  cases e.others.pod? r'.pod with
  | none => rfl
  | some pod => simp only [LoadedType.ofPod_congr h]

namespace Hierarchy

-- A mixin that the stack names.
def Named (stack : List (Pod × UInt16)) (r : TypeRef) : Prop :=
  ∃ p ∈ stack, typeRefAt p.1.symbols p.2 = .ok r

theorem named_cons {p : Pod × UInt16} {rest : List (Pod × UInt16)} {r : TypeRef} :
    Named (p :: rest) r ↔ typeRefAt p.1.symbols p.2 = .ok r ∨ Named rest r := by
  simp only [Named, List.mem_cons, exists_eq_or_imp]

theorem named_append {stack stack' : List (Pod × UInt16)} {r : TypeRef} :
    Named (stack ++ stack') r ↔ Named stack r ∨ Named stack' r := by
  simp only [Named, List.mem_append, or_and_right, exists_or]

theorem not_named_nil {r : TypeRef} : ¬ Named [] r := by
  rintro ⟨p, hp, -⟩
  cases hp

theorem forall_named_cons {U : TypeRef → Prop} {p : Pod × UInt16} {rest : List (Pod × UInt16)} :
    (∀ r, Named (p :: rest) r → U r) ↔
      (∀ r, typeRefAt p.1.symbols p.2 = .ok r → U r) ∧ ∀ r, Named rest r → U r := by
  simp only [named_cons, or_imp, forall_and]

-- The mixins that the stack has: those that it names, and those that they have in turn.
inductive Reaches (e : PodEnv) (stack : List (Pod × UInt16)) : TypeRef → Prop
  | named {r : TypeRef} (h : Named stack r) : Reaches e stack r
  | super {r r' : TypeRef} {l : LoadedType} (h : Reaches e stack r)
      (hfind : e.find r = .ok (some l)) (hnamed : Named l.mixins r') : Reaches e stack r'

section Reaches

variable {e : PodEnv} {p : Pod × UInt16} {rest stack stack' : List (Pod × UInt16)}
  {r r' : TypeRef} {l : LoadedType}

theorem Reaches.mono (h : Reaches e stack r) (hstack : ∀ s, Named stack s → Reaches e stack' s) :
    Reaches e stack' r := by
  induction h with
  | named h => exact hstack _ h
  | super _ hfind hnamed ih => exact .super ih hfind hnamed

-- What a mixin has is what the stack has that has the mixin.
theorem Reaches.trans (h : Reaches e stack r) (hfind : e.find r = .ok (some l))
    (h' : Reaches e l.mixins r') : Reaches e stack r' :=
  h'.mono fun _ hs => .super h hfind hs

theorem reaches_head (href : typeRefAt p.1.symbols p.2 = .ok r) : Reaches e (p :: rest) r :=
  .named (named_cons.mpr (.inl href))

theorem Reaches.cons (h : Reaches e rest r) : Reaches e (p :: rest) r :=
  h.mono fun _ hs => .named (named_cons.mpr (.inr hs))

-- A loaded mixin on the stack gives what it has itself.
theorem Reaches.of_loaded (href : typeRefAt p.1.symbols p.2 = .ok r)
    (hfind : e.find r = .ok (some l)) (h : Reaches e (l.mixins ++ rest) r') :
    Reaches e (p :: rest) r' := by
  refine h.mono fun s hs => ?_
  obtain hs | hs := named_append.mp hs
  · exact .super (reaches_head href) hfind hs
  · exact .named (named_cons.mpr (.inr hs))

end Reaches

-- A search through mixins: from `unmet` names and a stack to the names that it leaves. It finds
-- loaded mixins one after the other.
inductive Search (e : PodEnv) :
    List String → List (Pod × UInt16) → List String → List (TypeRef × LoadedType) → Prop
  | done {unmet : List String} : Search e unmet [] unmet []
  | again {unmet left : List String} {p : Pod × UInt16} {rest : List (Pod × UInt16)}
      {found : List (TypeRef × LoadedType)} {r : TypeRef}
      (href : typeRefAt p.1.symbols p.2 = .ok r) (hunmet : r.qname ∉ unmet)
      (h : Search e unmet rest left found) : Search e unmet (p :: rest) left found
  | absent {unmet left : List String} {p : Pod × UInt16} {rest : List (Pod × UInt16)}
      {found : List (TypeRef × LoadedType)} {r : TypeRef}
      (href : typeRefAt p.1.symbols p.2 = .ok r) (hunmet : r.qname ∈ unmet)
      (hfind : e.find r = .ok none) (h : Search e (without unmet r.qname) rest left found) :
      Search e unmet (p :: rest) left found
  | met {unmet left : List String} {p : Pod × UInt16} {rest : List (Pod × UInt16)}
      {found : List (TypeRef × LoadedType)} {r : TypeRef} {l : LoadedType}
      (href : typeRefAt p.1.symbols p.2 = .ok r) (hunmet : r.qname ∈ unmet)
      (hfind : e.find r = .ok (some l))
      (h : Search e (without unmet r.qname) (l.mixins ++ rest) left found) :
      Search e unmet (p :: rest) left ((r, l) :: found)

-- A region of type refs: with each there are the mixins that it has, all are known by name, and no
-- two that differ have one qualified name.
structure Region (e : PodEnv) (U : TypeRef → Prop) : Prop where
  closed : ∀ {r r' l}, U r → e.find r = .ok (some l) → Named l.mixins r' → U r'
  known : ∀ {r}, U r → r.qname ∈ allMixins e
  unambiguous : ∀ {r r'}, U r → U r' → r.qname = r'.qname → r.Same r'

theorem Region.of_reaches {e : PodEnv} {U : TypeRef → Prop} {stack : List (Pod × UInt16)}
    {r : TypeRef} (hU : Region e U) (hstack : ∀ r, Named stack r → U r) (h : Reaches e stack r) :
    U r := by
  induction h with
  | named h => exact hstack _ h
  | super _ hfind hnamed ih => exact hU.closed ih hfind hnamed

-- What a mixin that is met has is met as well or still on the stack.
def Explored (e : PodEnv) (U : TypeRef → Prop) (unmet : List String)
    (stack : List (Pod × UInt16)) : Prop :=
  ∀ r l r', U r → r.qname ∉ unmet → e.find r = .ok (some l) → Named l.mixins r' →
    r'.qname ∉ unmet ∨ Named stack r'

theorem mem_without {unmet : List String} {q q' : String} :
    q' ∈ without unmet q ↔ q' ∈ unmet ∧ q' ≠ q := by
  simp [without]

theorem not_mem_without {unmet : List String} {q : String} : q ∉ without unmet q :=
  fun h => (mem_without.mp h).2 rfl

theorem without_subset {unmet : List String} {q : String} : without unmet q ⊆ unmet :=
  fun _ h => (mem_without.mp h).1

section Explored

variable {e : PodEnv} {U : TypeRef → Prop} {unmet : List String} {p : Pod × UInt16}
  {rest stack : List (Pod × UInt16)} {r : TypeRef}

theorem Explored.weaken (h : Explored e U unmet []) : Explored e U unmet stack :=
  fun s l s' hs hmet hfind hs' =>
    (h s l s' hs hmet hfind hs').imp_right fun hnil => absurd hnil not_named_nil

theorem Explored.again (h : Explored e U unmet (p :: rest))
    (href : typeRefAt p.1.symbols p.2 = .ok r) (hunmet : r.qname ∉ unmet) :
    Explored e U unmet rest := by
  intro s l s' hs hmet hfind hs'
  obtain hdone | hstack := h s l s' hs hmet hfind hs'
  · exact .inl hdone
  · obtain hhead | hrest := named_cons.mp hstack
    · cases href.symm.trans hhead
      exact .inl hunmet
    · exact .inr hrest

-- Once a mixin is met, what it has is on the stack.
theorem Explored.visit (hU : Region e U) (h : Explored e U unmet (p :: rest))
    (href : typeRefAt p.1.symbols p.2 = .ok r) (hr : U r)
    (hrest : ∀ s, Named rest s → Named stack s)
    (hsupers : ∀ l s, e.find r = .ok (some l) → Named l.mixins s → Named stack s) :
    Explored e U (without unmet r.qname) stack := by
  intro s l s' hs hmet hfind hs'
  rw [mem_without, not_and_or, not_not] at hmet
  obtain hmet | hsame := hmet
  · obtain hdone | hstack := h s l s' hs hmet hfind hs'
    · exact .inl fun hmem => hdone (without_subset hmem)
    · obtain hhead | hlater := named_cons.mp hstack
      · cases href.symm.trans hhead
        exact .inl not_mem_without
      · exact .inr (hrest s' hlater)
  · rw [PodEnv.find_congr (hU.unambiguous hs hr hsame)] at hfind
    exact .inr (hsupers l s' hfind hs')

end Explored

namespace Search

variable {e : PodEnv} {U : TypeRef → Prop} {unmet left : List String}
  {stack : List (Pod × UInt16)} {found : List (TypeRef × LoadedType)}

theorem subset (h : Search e unmet stack left found) : left ⊆ unmet := by
  induction h with
  | done => exact List.Subset.refl _
  | again _ _ _ ih => exact ih
  | absent _ _ _ _ ih => exact List.Subset.trans ih without_subset
  | met _ _ _ _ ih => exact List.Subset.trans ih without_subset

theorem not_mem_of_named (h : Search e unmet stack left found) {r : TypeRef}
    (hr : Named stack r) : r.qname ∉ left := by
  induction h with
  | done => exact absurd hr not_named_nil
  | again href hunmet hrest ih =>
    obtain hhead | hr := named_cons.mp hr
    · cases href.symm.trans hhead
      exact fun hmem => hunmet (hrest.subset hmem)
    · exact ih hr
  | absent href _ _ hrest ih =>
    obtain hhead | hr := named_cons.mp hr
    · cases href.symm.trans hhead
      exact fun hmem => not_mem_without (hrest.subset hmem)
    · exact ih hr
  | met href _ _ hrest ih =>
    obtain hhead | hr := named_cons.mp hr
    · cases href.symm.trans hhead
      exact fun hmem => not_mem_without (hrest.subset hmem)
    · exact ih (named_append.mpr (.inr hr))

-- At the end what every mixin has is met that is met itself.
theorem explored (h : Search e unmet stack left found) (hU : Region e U)
    (hstack : ∀ r, Named stack r → U r) (hstart : Explored e U unmet stack) :
    Explored e U left [] := by
  induction h with
  | done => exact hstart
  | again href hunmet _ ih =>
    exact ih (forall_named_cons.mp hstack).2 (hstart.again href hunmet)
  | absent href _ hfind _ ih =>
    obtain ⟨hhead, hrest⟩ := forall_named_cons.mp hstack
    refine ih hrest (hstart.visit hU href (hhead _ href) (fun _ hs => hs) fun l s hfind' _ => ?_)
    cases hfind.symm.trans hfind'
  | met href _ hfind _ ih =>
    obtain ⟨hhead, hrest⟩ := forall_named_cons.mp hstack
    have hr := hhead _ href
    refine ih ?_ (hstart.visit hU href hr (fun s hs => named_append.mpr (.inr hs)) ?_)
    · intro s hs
      obtain hs | hs := named_append.mp hs
      · exact hU.closed hr hfind hs
      · exact hrest s hs
    · intro l s hfind' hs
      cases hfind.symm.trans hfind'
      exact named_append.mpr (.inl hs)

-- What is met is on the stack or had by it, and what of this is loaded is found.
theorem exists_of_not_mem (h : Search e unmet stack left found) {q : String} (hq : q ∈ unmet)
    (hleft : q ∉ left) :
    ∃ r, Reaches e stack r ∧ r.qname = q ∧ ∀ l, e.find r = .ok (some l) → (r, l) ∈ found := by
  induction h with
  | done => exact absurd hq hleft
  | again _ _ _ ih =>
    obtain ⟨r, hr, hsame, hfound⟩ := ih hq hleft
    exact ⟨r, hr.cons, hsame, hfound⟩
  | @absent unmet left p rest found r href _ hfind _ ih =>
    by_cases hsame : r.qname = q
    · refine ⟨r, reaches_head href, hsame, fun l hfind' => ?_⟩
      cases hfind.symm.trans hfind'
    · obtain ⟨s, hs, hname, hfound⟩ := ih (mem_without.mpr ⟨hq, Ne.symm hsame⟩) hleft
      exact ⟨s, hs.cons, hname, hfound⟩
  | @met unmet left p rest found r l href _ hfind _ ih =>
    by_cases hsame : r.qname = q
    · refine ⟨r, reaches_head href, hsame, fun l' hfind' => ?_⟩
      cases hfind.symm.trans hfind'
      exact List.mem_cons_self
    · obtain ⟨s, hs, hname, hfound⟩ := ih (mem_without.mpr ⟨hq, Ne.symm hsame⟩) hleft
      exact ⟨s, hs.of_loaded href hfind, hname,
        fun l' hl' => List.mem_cons_of_mem _ (hfound l' hl')⟩

-- What is found is loaded and was not met before.
theorem of_mem_found (h : Search e unmet stack left found) {r : TypeRef} {l : LoadedType}
    (hp : (r, l) ∈ found) :
    Reaches e stack r ∧ e.find r = .ok (some l) ∧ r.qname ∈ unmet := by
  induction h with
  | done => cases hp
  | again _ _ _ ih =>
    obtain ⟨hr, hrest⟩ := ih hp
    exact ⟨hr.cons, hrest⟩
  | absent _ _ _ _ ih =>
    obtain ⟨hr, hfind, hunmet⟩ := ih hp
    exact ⟨hr.cons, hfind, without_subset hunmet⟩
  | met href hunmet hfind _ ih =>
    obtain heq | hp := List.mem_cons.mp hp
    · cases heq
      exact ⟨reaches_head href, hfind, hunmet⟩
    · obtain ⟨hr, hfind', hunmet'⟩ := ih hp
      exact ⟨hr.of_loaded href hfind, hfind', without_subset hunmet'⟩

theorem not_mem_of_mem_found (h : Search e unmet stack left found) {r : TypeRef}
    {l : LoadedType} (hr : (r, l) ∈ found) : r.qname ∉ left := by
  induction h with
  | done => cases hr
  | again _ _ _ ih => exact ih hr
  | absent _ _ _ _ ih => exact ih hr
  | met _ _ _ h ih =>
    obtain heq | hr := List.mem_cons.mp hr
    · cases heq
      exact fun hmem => not_mem_without (h.subset hmem)
    · exact ih hr

-- Nothing is found twice, as a name is unmet only once.
theorem nodup_found (h : Search e unmet stack left found) :
    (found.map (·.1.qname)).Nodup := by
  induction h with
  | done => exact List.nodup_nil
  | again _ _ _ ih => exact ih
  | absent _ _ _ _ ih => exact ih
  | met _ _ _ h ih =>
    refine List.nodup_cons.mpr ⟨fun hmem => ?_, ih⟩
    obtain ⟨⟨s, l⟩, hs, hname⟩ := List.mem_map.mp hmem
    exact (mem_without.mp (h.of_mem_found hs).2.2).2 hname

-- A search that starts with nothing left to do for what is met meets all that the stack has.
theorem not_mem_of_reaches (h : Search e unmet stack left found) (hU : Region e U)
    (hstack : ∀ r, Named stack r → U r) (hstart : Explored e U unmet []) {r : TypeRef}
    (hr : Reaches e stack r) : U r ∧ r.qname ∉ left := by
  have hexplored : Explored e U left [] := h.explored hU hstack hstart.weaken
  induction hr with
  | named hr => exact ⟨hstack _ hr, h.not_mem_of_named hr⟩
  | super _ hfind hnamed ih =>
    refine ⟨hU.closed ih.1 hfind hnamed, ?_⟩
    obtain hdone | hnil := hexplored _ _ _ ih.1 ih.2 hfind hnamed
    · exact hdone
    · exact absurd hnil not_named_nil

theorem mem_left_iff (h : Search e unmet stack left found) (hU : Region e U)
    (hstack : ∀ r, Named stack r → U r) (hstart : Explored e U unmet []) {r : TypeRef} (hr : U r) :
    r.qname ∈ left ↔ r.qname ∈ unmet ∧ ∀ s, Reaches e stack s → ¬ s.Same r := by
  constructor
  · intro hmem
    refine ⟨h.subset hmem, fun s hs hsame => ?_⟩
    exact (h.not_mem_of_reaches hU hstack hstart hs).2 (hsame.qname ▸ hmem)
  · rintro ⟨hunmet, hnone⟩
    by_contra hleft
    obtain ⟨s, hs, hsame, -⟩ := h.exists_of_not_mem hunmet hleft
    have hUs := (h.not_mem_of_reaches hU hstack hstart hs).1
    exact hnone s hs (hU.unambiguous hUs hr hsame)

theorem mem_found_iff (h : Search e unmet stack left found) (hU : Region e U)
    (hstack : ∀ r, Named stack r → U r) (hstart : Explored e U unmet []) {r : TypeRef}
    {l : LoadedType} :
    (∃ s, s.Same r ∧ (s, l) ∈ found) ↔
      (∃ s, s.Same r ∧ Reaches e stack s) ∧ e.find r = .ok (some l) ∧ r.qname ∈ unmet := by
  constructor
  · rintro ⟨s, hsame, hp⟩
    obtain ⟨hs, hfind, hunmet⟩ := h.of_mem_found hp
    exact ⟨⟨s, hsame, hs⟩, PodEnv.find_congr hsame ▸ hfind, hsame.qname ▸ hunmet⟩
  · rintro ⟨⟨s, hsame, hs⟩, hfind, hunmet⟩
    obtain ⟨hUs, hleft⟩ := h.not_mem_of_reaches hU hstack hstart hs
    obtain ⟨s', hs', hname, hfound⟩ := h.exists_of_not_mem (hsame.qname ▸ hunmet) hleft
    have hsame' : s'.Same r :=
      (hU.unambiguous (h.not_mem_of_reaches hU hstack hstart hs').1 hUs hname).trans hsame
    exact ⟨s', hsame', hfound l (PodEnv.find_congr hsame' ▸ hfind)⟩

end Search

section Runs

variable {e : PodEnv} {U : TypeRef → Prop} {unmet left : List String} {pod : Pod} {i : UInt16}
  {rest stack : List (Pod × UInt16)} {r : TypeRef} {l : LoadedType}

theorem meet_nil : meet e unmet [] = .ok unmet := by
  rw [meet]

theorem meet_again (href : typeRefAt pod.symbols i = .ok r) (hunmet : r.qname ∉ unmet) :
    meet e unmet ((pod, i) :: rest) = meet e unmet rest := by
  rw [meet, href]
  dsimp only
  rw [dif_neg hunmet]

theorem meet_absent (href : typeRefAt pod.symbols i = .ok r) (hunmet : r.qname ∈ unmet)
    (hfind : e.find r = .ok none) :
    meet e unmet ((pod, i) :: rest) = meet e (without unmet r.qname) rest := by
  rw [meet, href]
  dsimp only
  rw [dif_pos hunmet, hfind]

theorem meet_met (href : typeRefAt pod.symbols i = .ok r) (hunmet : r.qname ∈ unmet)
    (hfind : e.find r = .ok (some l)) :
    meet e unmet ((pod, i) :: rest) = meet e (without unmet r.qname) (l.mixins ++ rest) := by
  rw [meet, href]
  dsimp only
  rw [dif_pos hunmet, hfind]

theorem search_of_meet (h : meet e unmet stack = .ok left) :
    ∃ found, Search e unmet stack left found := by
  induction unmet, stack using meet.induct e with
  | case1 unmet =>
    rw [meet_nil] at h
    cases h
    exact ⟨[], .done⟩
  | case2 unmet pod i rest err href =>
    rw [meet, href] at h
    cases h
  | case3 unmet pod i rest r href hunmet _ err hfind =>
    rw [meet, href] at h
    dsimp only at h
    rw [dif_pos hunmet, hfind] at h
    cases h
  | case4 unmet pod i rest r href hunmet _ hfind ih =>
    rw [meet_absent href hunmet hfind] at h
    obtain ⟨found, hsearch⟩ := ih h
    exact ⟨found, .absent href hunmet hfind hsearch⟩
  | case5 unmet pod i rest r href hunmet _ l hfind ih =>
    rw [meet_met href hunmet hfind] at h
    obtain ⟨found, hsearch⟩ := ih h
    exact ⟨(r, l) :: found, .met href hunmet hfind hsearch⟩
  | case6 unmet pod i rest r href hunmet ih =>
    rw [meet_again href hunmet] at h
    obtain ⟨found, hsearch⟩ := ih h
    exact ⟨found, .again href hunmet hsearch⟩

theorem Search.meet_eq {found : List (TypeRef × LoadedType)}
    (h : Search e unmet stack left found) : meet e unmet stack = .ok left := by
  induction h with
  | done => exact meet_nil
  | again href hunmet _ ih => exact (meet_again href hunmet).trans ih
  | absent href hunmet hfind _ ih => exact (meet_absent href hunmet hfind).trans ih
  | met href hunmet hfind _ ih => exact (meet_met href hunmet hfind).trans ih

theorem serve_nil : serve e unmet [] = .ok [] := by
  rw [serve]

theorem serve_again (href : typeRefAt pod.symbols i = .ok r) (hunmet : r.qname ∉ unmet) :
    serve e unmet ((pod, i) :: rest) = serve e unmet rest := by
  rw [serve, href]
  dsimp only
  rw [dif_neg hunmet]

theorem serve_absent (href : typeRefAt pod.symbols i = .ok r) (hunmet : r.qname ∈ unmet)
    (hfind : e.find r = .ok none) :
    serve e unmet ((pod, i) :: rest) = serve e (without unmet r.qname) rest := by
  rw [serve, href]
  dsimp only
  rw [dif_pos hunmet, hfind]

theorem serve_met {others : List Mixin}
    (href : typeRefAt pod.symbols i = .ok r) (hunmet : r.qname ∈ unmet)
    (hfind : e.find r = .ok (some l)) (hmeet : meet e (allMixins e) l.mixins = .ok left)
    (hothers : serve e (without unmet r.qname) (l.mixins ++ rest) = .ok others) :
    serve e unmet ((pod, i) :: rest) =
      .ok (⟨r.qname, l, (allMixins e).filter (· ∉ left)⟩ :: others) := by
  rw [serve, href]
  dsimp only
  rw [dif_pos hunmet, hfind]
  exact except_bind_eq_ok.mpr ⟨left, hmeet, except_bind_eq_ok.mpr ⟨others, hothers, rfl⟩⟩

theorem Search.exists_serve {found : List (TypeRef × LoadedType)}
    (h : Search e unmet stack left found)
    (hmeet : ∀ p ∈ found, ∃ supers, meet e (allMixins e) p.2.mixins = .ok supers) :
    ∃ mixins, serve e unmet stack = .ok mixins := by
  induction h with
  | done => exact ⟨[], serve_nil⟩
  | again href hunmet _ ih =>
    obtain ⟨mixins, hserve⟩ := ih hmeet
    exact ⟨mixins, (serve_again href hunmet).trans hserve⟩
  | absent href hunmet hfind _ ih =>
    obtain ⟨mixins, hserve⟩ := ih hmeet
    exact ⟨mixins, (serve_absent href hunmet hfind).trans hserve⟩
  | met href hunmet hfind _ ih =>
    obtain ⟨⟨supers, hsupers⟩, hrest⟩ := List.forall_mem_cons.mp hmeet
    obtain ⟨others, hothers⟩ := ih hrest
    exact ⟨_, serve_met href hunmet hfind hsupers hothers⟩

-- What a class keeps of a mixin that it has to serve.
structure Kept (e : PodEnv) (p : TypeRef × LoadedType) (m : Mixin) : Prop where
  name : m.name = p.1.qname
  loaded : m.loaded = p.2
  supers : ∃ left, meet e (allMixins e) p.2.mixins = .ok left ∧
    m.supers = (allMixins e).filter (· ∉ left)

theorem search_of_serve {mixins : List Mixin} (h : serve e unmet stack = .ok mixins) :
    ∃ left found, Search e unmet stack left found ∧ List.Forall₂ (Kept e) found mixins := by
  induction unmet, stack using serve.induct e generalizing mixins with
  | case1 unmet =>
    rw [serve_nil] at h
    cases h
    exact ⟨unmet, [], .done, .nil⟩
  | case2 unmet pod i rest err href =>
    rw [serve, href] at h
    cases h
  | case3 unmet pod i rest r href hunmet _ err hfind =>
    rw [serve, href] at h
    dsimp only at h
    rw [dif_pos hunmet, hfind] at h
    cases h
  | case4 unmet pod i rest r href hunmet _ hfind ih =>
    rw [serve_absent href hunmet hfind] at h
    obtain ⟨left, found, hsearch, hkept⟩ := ih h
    exact ⟨left, found, .absent href hunmet hfind hsearch, hkept⟩
  | case5 unmet pod i rest r href hunmet _ l hfind ih =>
    rw [serve, href] at h
    dsimp only at h
    rw [dif_pos hunmet, hfind] at h
    obtain ⟨supers, hsupers, h⟩ := except_bind_eq_ok.mp h
    obtain ⟨others, hothers, h⟩ := except_bind_eq_ok.mp h
    cases h
    obtain ⟨left, found, hsearch, hkept⟩ := ih hothers
    exact ⟨left, (r, l) :: found, .met href hunmet hfind hsearch,
      .cons ⟨rfl, rfl, supers, hsupers, rfl⟩ hkept⟩
  | case6 unmet pod i rest r href hunmet ih =>
    rw [serve_again href hunmet] at h
    obtain ⟨left, found, hsearch, hkept⟩ := ih h
    exact ⟨left, found, .again href hunmet hsearch, hkept⟩

-- Before anything is met nothing is left to do.
theorem explored_all (hU : Region e U) : Explored e U (allMixins e) [] :=
  fun _ _ _ hr hmet => absurd (hU.known hr) hmet

-- What a mixin has according to a search.
theorem Kept.mem_supers_iff {p : TypeRef × LoadedType} {m : Mixin} (h : Kept e p m)
    (hU : Region e U) (hstack : ∀ r, Named m.loaded.mixins r → U r) {r : TypeRef} (hr : U r) :
    r.qname ∈ m.supers ↔ ∃ s, Reaches e m.loaded.mixins s ∧ s.Same r := by
  obtain ⟨left, hmeet, hsupers⟩ := h.supers
  obtain ⟨found, hsearch⟩ := search_of_meet hmeet
  rw [← h.loaded] at hsearch
  rw [hsupers, List.mem_filter, decide_eq_true_eq,
    hsearch.mem_left_iff hU hstack (explored_all hU) hr]
  have hknown := hU.known hr
  push Not
  exact ⟨fun h => h.2 hknown, fun h => ⟨hknown, fun _ => h⟩⟩

-- So for the searches through the mixins of several types, one after the other.
theorem foldlM_meet_eq_ok {types : List LoadedType} (hU : Region e U)
    (hstart : Explored e U unmet []) (hstack : ∀ l ∈ types, ∀ r, Named l.mixins r → U r)
    (h : types.foldlM (fun unmet l => meet e unmet l.mixins) unmet = .ok left) :
    Explored e U left [] ∧ ∀ r, U r →
      (r.qname ∈ left ↔
        r.qname ∈ unmet ∧ ∀ l ∈ types, ∀ s, Reaches e l.mixins s → ¬ s.Same r) := by
  induction types generalizing unmet with
  | nil =>
    cases h
    exact ⟨hstart, fun r _ => by simp⟩
  | cons l rest ih =>
    rw [List.foldlM_cons] at h
    obtain ⟨unmet', hmeet, h⟩ := except_bind_eq_ok.mp h
    obtain ⟨found, hsearch⟩ := search_of_meet hmeet
    obtain ⟨hl, hrest⟩ := List.forall_mem_cons.mp hstack
    obtain ⟨hlast, hiff⟩ := ih (hsearch.explored hU hl hstart.weaken) hrest h
    refine ⟨hlast, fun r hr => ?_⟩
    rw [hiff r hr, hsearch.mem_left_iff hU hl hstart hr, List.forall_mem_cons, and_assoc]

end Runs

-- A type of the pods that are loaded.
def IsLoaded (e : PodEnv) (l : LoadedType) : Prop :=
  l.pod ∈ e.pod :: e.others.pods.toList ∧ l.type ∈ l.pod.types.toList

-- The mixins that types have.
def Around (e : PodEnv) (types : List LoadedType) (r : TypeRef) : Prop :=
  ∃ l ∈ types, Reaches e l.mixins r

-- The base types that are loaded.
def loadedBases (bases : List Ancestor) : List LoadedType :=
  bases.filterMap (·.loaded)

-- A mixin of a class that no base type of it has.
structure ToServe (e : PodEnv) (l : LoadedType) (bases : List LoadedType) (r : TypeRef)
    (mixin : LoadedType) : Prop where
  reached : Reaches e l.mixins r
  found : e.find r = .ok (some mixin)
  unserved : ∀ base ∈ bases, ∀ s, Reaches e base.mixins s → ¬ s.Same r

-- The mixins that a class serves: those that it has and no base type, each with what it has itself.
structure Serving (e : PodEnv) (l : LoadedType) (bases : List LoadedType) (mixins : List Mixin) :
    Prop where
  served : ∀ m ∈ mixins, ∃ r, ToServe e l bases r m.loaded ∧ m.name = r.qname ∧
    ∀ r', Around e (l :: bases) r' →
      (r'.qname ∈ m.supers ↔ ∃ s, Reaches e m.loaded.mixins s ∧ s.Same r')
  complete : ∀ r mixin, ToServe e l bases r mixin →
    ∃ m ∈ mixins, m.name = r.qname ∧ m.loaded = mixin

section Around

variable {e : PodEnv} {l : LoadedType} {r : TypeRef}

theorem isLoaded_of_find (h : e.find r = .ok (some l)) : IsLoaded e l := by
  unfold PodEnv.find PodSet.lookup at h
  split at h
  · obtain ⟨l', hl', hsome⟩ := except_map_eq_ok.mp h
    cases hsome
    obtain ⟨hpod, htype⟩ := LoadedType.ofPod_eq_ok hl'
    exact ⟨hpod ▸ List.mem_cons_self, hpod ▸ htype⟩
  · split at h
    · cases h
    · rename_i pod hpod'
      obtain ⟨l', hl', hsome⟩ := except_map_eq_ok.mp h
      cases hsome
      obtain ⟨hpod, htype⟩ := LoadedType.ofPod_eq_ok hl'
      have hmem := Array.mem_toList_iff.mpr (Array.mem_of_find?_eq_some hpod')
      exact ⟨hpod ▸ List.mem_cons_of_mem _ hmem, hpod ▸ htype⟩

theorem mem_allMixins_of_named (hl : IsLoaded e l) (h : Named l.mixins r) :
    r.qname ∈ allMixins e := by
  obtain ⟨p, hp, href⟩ := h
  obtain ⟨i, hi, rfl⟩ := List.mem_map.mp hp
  refine List.mem_flatMap.mpr ⟨l.pod, hl.1, List.mem_flatMap.mpr ⟨l.type, hl.2, ?_⟩⟩
  refine List.mem_filterMap.mpr ⟨i, hi, ?_⟩
  unfold typeRefAt at href
  split at href
  · rename_i hsymbol
    cases href
    rw [hsymbol]
  · cases href

theorem mem_allMixins_of_reaches (hl : IsLoaded e l) (h : Reaches e l.mixins r) :
    r.qname ∈ allMixins e := by
  cases h with
  | named h => exact mem_allMixins_of_named hl h
  | super _ hfind h => exact mem_allMixins_of_named (isLoaded_of_find hfind) h

-- What loaded types have is a region if no two mixins have one qualified name.
theorem region_around {types : List LoadedType} (hloaded : ∀ l ∈ types, IsLoaded e l)
    (hnames : ∀ r r', Around e types r → Around e types r' → r.qname = r'.qname → r.Same r') :
    Region e (Around e types) where
  closed := by
    rintro r r' l ⟨t, ht, hr⟩ hfind hnamed
    exact ⟨t, ht, .super hr hfind hnamed⟩
  known := by
    rintro r ⟨t, ht, hr⟩
    exact mem_allMixins_of_reaches (hloaded t ht) hr
  unambiguous := fun hr hr' => hnames _ _ hr hr'

theorem mixinsToServe_eq_ok {bases : List Ancestor} {mixins : List Mixin}
    (h : mixinsToServe e l bases = .ok mixins)
    (hU : Region e (Around e (l :: loadedBases bases))) :
    Serving e l (loadedBases bases) mixins := by
  obtain ⟨unmet, hunmet, hserve⟩ := except_bind_eq_ok.mp h
  obtain ⟨left, found, hsearch, hkept⟩ := search_of_serve hserve
  have hstack : ∀ t ∈ l :: loadedBases bases, ∀ r, Named t.mixins r →
      Around e (l :: loadedBases bases) r := fun t ht r hr => ⟨t, ht, .named hr⟩
  obtain ⟨hl, hbases⟩ := List.forall_mem_cons.mp hstack
  obtain ⟨hstart, hiff⟩ := foldlM_meet_eq_ok hU (explored_all hU) hbases hunmet
  constructor
  · intro m hm
    obtain ⟨⟨r, mixin⟩, hp, hm⟩ := exists_of_forall₂ (List.Forall₂.flip hkept) hm
    change Kept e (r, mixin) m at hm
    obtain ⟨hr, hfind, hmem⟩ := hsearch.of_mem_found hp
    have haround : Around e (l :: loadedBases bases) r := ⟨l, List.mem_cons_self, hr⟩
    refine ⟨r, ⟨hr, hm.loaded ▸ hfind, ((hiff r haround).mp hmem).2⟩, hm.name, fun r' hr' => ?_⟩
    refine hm.mem_supers_iff hU (fun s hs => ?_) hr'
    rw [hm.loaded] at hs
    exact hU.closed haround hfind hs
  · rintro r mixin ⟨hr, hfind, hunserved⟩
    have haround : Around e (l :: loadedBases bases) r := ⟨l, List.mem_cons_self, hr⟩
    have hmem := (hiff r haround).mpr ⟨hU.known haround, hunserved⟩
    obtain ⟨s, hsame, hp⟩ := (hsearch.mem_found_iff hU hl hstart).mpr ⟨⟨r, .rfl, hr⟩, hfind, hmem⟩
    obtain ⟨m, hm, hkept⟩ := exists_of_forall₂ hkept hp
    exact ⟨m, hm, hkept.name.trans hsame.qname, hkept.loaded⟩

end Around

end Hierarchy

end Lowering

end PodCompiler
