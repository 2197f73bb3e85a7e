import PodCompiler.Proofs.Lowering.MixinOrder

namespace PodCompiler

theorem TypeRef.jsig_ne_empty (t : TypeRef) : t.jsig ≠ "" := by
  by_cases hstack : t.stack = .obj
  · obtain ⟨rest, hrest | hrest⟩ := jsig_of_obj hstack
    all_goals
      intro hempty
      rw [hempty] at hrest
      cases hrest
  · rw [jsig_of_stack hstack]
    intro hempty
    have hletter := congrArg String.toList hempty
    simp at hletter

namespace Lowering

open ClassFile (Constants MethodInfo)
open Pod (MethodDef TypeDef)

section Arities

variable {s : Pod.Symbols} {m : MethodDef}

-- The parts of the descriptor of a method with its first parameters: one for each of them.
theorem methodDesc_take {self : Option String} {result : Result} {desc : String} {n : Nat}
    (h : methodDesc s m self (m.params.take n) result = .ok desc) (hn : n ≤ m.params.length) :
    ∃ args ret, List.Forall₂ (fun p arg => TypeRef.jsig <$> typeRefAt s p.type = .ok arg)
        (m.params.take n) args ∧ args.length = n ∧ (∀ arg ∈ args, arg ≠ "") ∧
      resultDesc s m result = .ok ret ∧
      desc = "(" ++ receiverDesc self ++ String.join args ++ ")" ++ ret := by
  obtain ⟨args, ret, hargs, hret, hdesc⟩ := methodDesc_eq_ok h
  have hall := except_mapM_eq_ok.mp hargs
  refine ⟨args, ret, hall, ?_, fun arg harg => ?_, hret, hdesc⟩
  · rw [← hall.length_eq, List.length_take, Nat.min_eq_left hn]
  · obtain ⟨p, -, hp⟩ := exists_of_forall₂ (List.Forall₂.flip hall) harg
    obtain ⟨t, -, rfl⟩ := except_map_eq_ok.mp hp
    exact t.jsig_ne_empty

theorem join_eq_empty {args : List String} (h : String.join args = "")
    (hargs : ∀ arg ∈ args, arg ≠ "") : args = [] := by
  cases args with
  | nil => rfl
  | cons arg rest =>
    rw [String.join_cons] at h
    exact absurd (String.append_eq_empty_iff.mp h).1 (hargs arg List.mem_cons_self)

-- A method has another descriptor for each number of arguments.
theorem le_of_methodDesc {self : Option String} {result : Result} {desc : String} {n n' : Nat}
    (hn : n ≤ n') (hn' : n' ≤ m.params.length)
    (h : methodDesc s m self (m.params.take n) result = .ok desc)
    (h' : methodDesc s m self (m.params.take n') result = .ok desc) : n' ≤ n := by
  obtain ⟨args, ret, hargs, hlength, -, hret, hdesc⟩ := methodDesc_take h (hn.trans hn')
  obtain ⟨args', ret', hargs', hlength', hempty, hret', hdesc'⟩ := methodDesc_take h' hn'
  cases hret.symm.trans hret'
  have hfirst : args = args'.take n := by
    have htake := List.forall₂_take n hargs'
    rw [List.take_take, Nat.min_eq_left hn] at htake
    exact Except.ok.inj ((except_mapM_eq_ok.mpr hargs).symm.trans (except_mapM_eq_ok.mpr htake))
  have hjoin : String.join args = String.join args ++ String.join (args'.drop n) := by
    rw [← String.join_append, hfirst, List.take_append_drop]
    have heq := hdesc.symm.trans hdesc'
    simpa [hfirst] using heq
  have hrest : args'.drop n = [] := by
    refine join_eq_empty ?_ fun arg harg => hempty arg (List.mem_of_mem_drop harg)
    simpa using hjoin.symm
  have hdrop := congrArg List.length hrest
  rw [List.length_drop, hlength', List.length_nil] at hdrop
  omega

theorem take_inj_of_methodDesc {self : Option String} {result : Result} {desc : String} {n n' : Nat}
    (hn : n ≤ m.params.length) (hn' : n' ≤ m.params.length)
    (h : methodDesc s m self (m.params.take n) result = .ok desc)
    (h' : methodDesc s m self (m.params.take n') result = .ok desc) : n = n' := by
  obtain hle | hle := Nat.le_total n n'
  · exact Nat.le_antisymm hle (le_of_methodDesc hle hn' h h')
  · exact Nat.le_antisymm (le_of_methodDesc hle hn h' h) hle

end Arities

-- The methods of a class under a name are routers for one method of a mixin, and there is one for
-- each number of arguments that the method can be called with.
structure RoutesName (k : Constants) (methods : List MethodInfo) (n : String) (s : Pod.Symbols)
    (mixin : String) (m : MethodDef) : Prop where
  only : ∀ w ∈ methods, w.name = n → ∃ a ∈ routedArities m, Routed k s mixin m a w
  all : ∀ a ∈ routedArities m, ∃ w ∈ methods, w.name = n ∧ Routed k s mixin m a w

section Groups

variable {k : Constants} {plain : List MethodInfo} {groups : List (List MethodInfo)}
  {routes : List (LoadedType × MethodDef)} {n : String}

-- A method under a name that the class itself does not use is a router for a route of the name.
theorem exists_route_of_mem {w : MethodInfo} (hplain : ∀ w ∈ plain, w.name ≠ n)
    (hall : List.Forall₂ (fun p routers => ∃ mixin,
      Routes k p.1 p.2 (plain ++ groups.flatten) mixin routers) routes groups)
    (hw : w ∈ plain ++ groups.flatten) (hname : w.name = n) :
    ∃ p ∈ routes.filter (·.2.name = n), ∃ mixin, typeRefAt p.1.pod.symbols p.1.type.self = .ok mixin ∧
      ∃ a ∈ routedArities p.2, Routed k p.1.pod.symbols mixin.jname p.2 a w := by
  obtain hw | hw := List.mem_append.mp hw
  · exact absurd hname (hplain w hw)
  · obtain ⟨routers, hrouters, hw⟩ := List.mem_flatten.mp hw
    obtain ⟨p, hp, mixin, hroutes⟩ := exists_of_forall₂ (List.Forall₂.flip hall) hrouters
    obtain ⟨a, ha, hrouted⟩ := hroutes.routed w hw
    refine ⟨p, List.mem_filter.mpr ⟨hp, ?_⟩, mixin, hroutes.self, a, ha, hrouted⟩
    simpa using hrouted.name.symm.trans hname

-- With one route of the name, what the class has under it are the routers of this route.
theorem routesName_of_filter {l : LoadedType} {m : MethodDef} (hplain : ∀ w ∈ plain, w.name ≠ n)
    (hall : List.Forall₂ (fun p routers => ∃ mixin,
      Routes k p.1 p.2 (plain ++ groups.flatten) mixin routers) routes groups)
    (hfilter : routes.filter (·.2.name = n) = [(l, m)]) :
    ∃ mixin, typeRefAt l.pod.symbols l.type.self = .ok mixin ∧
      RoutesName k (plain ++ groups.flatten) n l.pod.symbols mixin.jname m := by
  have hroute : (l, m) ∈ routes.filter (·.2.name = n) := hfilter ▸ List.mem_singleton.mpr rfl
  obtain ⟨hmem, hname⟩ := List.mem_filter.mp hroute
  simp only [decide_eq_true_eq] at hname
  obtain ⟨routers, -, mixin, hroutes⟩ := exists_of_forall₂ hall hmem
  have honly : ∀ w ∈ plain ++ groups.flatten, w.name = n →
      ∃ a ∈ routedArities m, Routed k l.pod.symbols mixin.jname m a w := by
    intro w hw hwn
    obtain ⟨p, hp, mixin', hself, a, ha, hrouted⟩ := exists_route_of_mem hplain hall hw hwn
    rw [hfilter] at hp
    obtain rfl := List.mem_singleton.mp hp
    cases hroutes.self.symm.trans hself
    exact ⟨a, ha, hrouted⟩
  refine ⟨mixin, hroutes.self, honly, fun a ha => ?_⟩
  -- the method that covers `a` is a router itself, and its descriptor tells for how many arguments
  obtain ⟨w, hw, hwname, hdesc⟩ := hroutes.covered a ha
  obtain ⟨a', ha', hrouted⟩ := honly w hw (hwname.trans hname)
  obtain rfl : a' = a := take_inj_of_methodDesc (mem_routedArities_iff.mp ha').2
    (mem_routedArities_iff.mp ha).2 hrouted.desc hdesc
  exact ⟨w, hw, hwname.trans hname, hrouted⟩

-- With no route of the name the class has nothing under it.
theorem name_ne_of_filter (hplain : ∀ w ∈ plain, w.name ≠ n)
    (hall : List.Forall₂ (fun p routers => ∃ mixin,
      Routes k p.1 p.2 (plain ++ groups.flatten) mixin routers) routes groups)
    (hfilter : routes.filter (·.2.name = n) = []) :
    ∀ w ∈ plain ++ groups.flatten, w.name ≠ n := by
  intro w hw hname
  obtain ⟨p, hp, -⟩ := exists_route_of_mem hplain hall hw hname
  rw [hfilter] at hp
  cases hp

end Groups

namespace Hierarchy

-- No two of the mixins that types have share a qualified name.
def NamesApart (e : PodEnv) (types : List LoadedType) : Prop :=
  ∀ r r', Around e types r → Around e types r' → r.qname = r'.qname → r.Same r'

-- A name for methods of mixins: a class has no members of its own under it, nor have its base types,
-- and what mixins have under it can be routed to.
structure IsOpen (e : PodEnv) (l : LoadedType) (bases : List LoadedType) (n : String) : Prop where
  plain : n ≠ "typeof" ∧ n ≠ "<clinit>" ∧ n ≠ "<init>"
  unmarked : ∀ name, n ≠ name ++ "$"
  free : ∀ t ∈ l :: bases, ∀ m ∈ t.methods, m.name ≠ n
  routable : AllRoutable e l bases n

theorem IsOpen.not_isMemberName {e : PodEnv} {l : LoadedType} {bases : List LoadedType}
    {n : String} (h : IsOpen e l bases n) {name : String} (hname : IsMemberName l.type name) :
    name ≠ n := by
  rintro rfl
  obtain hname | hname | hname | ⟨m, hm, hname | hname⟩ := hname
  · exact h.plain.1 hname
  · exact h.plain.2.1 hname
  · exact h.plain.2.2 hname
  · exact h.free l List.mem_cons_self m hm hname.symm
  · exact h.unmarked m.name hname

-- At most one mixin is most specific.
def HasOneChoice (e : PodEnv) (l : LoadedType) (bases : List LoadedType) (n : String) : Prop :=
  ∀ r mixin r' mixin', MostSpecific e l bases n r mixin → MostSpecific e l bases n r' mixin' →
    r.Same r'

theorem isLoaded_of_mem_bases {e : PodEnv} {tooDeep : LoweringError} {depth : Nat}
    {l : LoadedType} {bases : List Ancestor} (h : ancestorsWithin e tooDeep depth l = .ok bases) :
    ∀ b ∈ loadedBases bases, IsLoaded e b := by
  induction depth generalizing l bases with
  | zero =>
    obtain ⟨-, rfl⟩ | ⟨base, ref, depth', -, -, hdepth, -⟩ := ancestorsWithin_eq_ok h
    · simp [loadedBases]
    · cases hdepth
  | succ depth ih =>
    obtain ⟨-, rfl⟩ | ⟨base, ref, depth', -, -, hdepth, hfound⟩ := ancestorsWithin_eq_ok h
    · simp [loadedBases]
    cases hdepth
    obtain ⟨-, rfl⟩ | ⟨next, more, hfind, hmore, rfl⟩ := hfound
    · simp [loadedBases]
    · exact List.forall_mem_cons.mpr ⟨isLoaded_of_find hfind, ih hmore⟩

section Twins

variable {e e' : PodEnv} {l l' : LoadedType} {bases bases' : List LoadedType} {n : String}

theorem NamesApart.alike (h : Twins e e' l l' bases bases') (hnames : NamesApart e (l :: bases)) :
    NamesApart e' (l' :: bases') :=
  fun r r' hr hr' => hnames r r' (hr.alike h.symm) (hr'.alike h.symm)

theorem IsOpen.alike (h : Twins e e' l l' bases bases') (hn : IsOpen e l bases n) :
    IsOpen e' l' bases' n where
  plain := hn.plain
  unmarked := hn.unmarked
  free t' ht' m hm := by
    obtain ⟨t, ht, halike⟩ := h.symm.mem ht'
    rw [LoadedType.methods, halike.methods] at hm
    exact hn.free t ht m hm
  routable := hn.routable.alike h

end Twins

end Hierarchy

open Hierarchy

section Class

variable {e : PodEnv} {self : TypeRef} {l : LoadedType} {r r' : Resolver} {bases : List Ancestor}
  {main : ClassOutput} {carriers dynamics : List ClassOutput} {n : String}

-- What a class has under an open name.
structure Chooses (e : PodEnv) (l : LoadedType) (bases : List LoadedType) (n : String)
    (k : Constants) (methods : List MethodInfo) : Prop where
  some : (∃ r mixin, Candidate e l bases n r mixin) →
    ∃ r mixin ref m, MostSpecific e l bases n r mixin ∧
      typeRefAt mixin.pod.symbols mixin.type.self = .ok ref ∧
      mixin.methods.find? (fun m => m.name = n && !m.isStatic) = some m ∧
      RoutesName k methods n mixin.pod.symbols ref.jname m
  none : (∀ r mixin, ¬ Candidate e l bases n r mixin) → ∀ w ∈ methods, w.name ≠ n

theorem ClassParts.chooses (h : ClassParts e self l r r' bases main carriers dynamics)
    (hr : r.Sound e.pod.symbols) (hl : IsLoaded e l) :
    main.name = self.jname ∧ ∃ k methods, main.HasMethods k methods ∧
      (Acyclic e l → NamesApart e (l :: loadedBases bases) →
        ∀ n, IsOpen e l (loadedBases bases) n → Chooses e l (loadedBases bases) n k methods) := by
  obtain ⟨routes, k, plain, groups, hroutes, hname, hmethods, hplain, hall⟩ := h.routers hr
  refine ⟨hname, k, plain ++ groups.flatten, hmethods, fun hacyclic hnames n hopen => ?_⟩
  have hloaded : ∀ t ∈ l :: loadedBases bases, IsLoaded e t :=
    List.forall_mem_cons.mpr ⟨hl, isLoaded_of_mem_bases h.chain⟩
  have hregion := region_around hloaded hnames
  have hfree : ∀ w ∈ plain, w.name ≠ n := fun w hw => hopen.not_isMemberName (hplain w hw)
  refine ⟨fun hcandidate => ?_, fun hnone => ?_⟩
  · obtain ⟨r, mixin, m, hmost, hm, hfilter⟩ :=
      routes_of_candidate hroutes hregion hacyclic hopen.free hopen.routable hcandidate
    obtain ⟨ref, href, hrouters⟩ := routesName_of_filter hfree hall hfilter
    exact ⟨r, mixin, ref, m, hmost, href, hm, hrouters⟩
  · exact name_ne_of_filter hfree hall (routes_of_no_candidate hroutes hregion hopen.free hnone)

-- Where one mixin is most specific, it is so whatever the order.
theorem Hierarchy.HasOneChoice.alike {e e' : PodEnv} {l l' mixin mixin' : LoadedType}
    {bases bases' : List LoadedType} {r r' : TypeRef} (hone : HasOneChoice e l bases n)
    (h : Twins e e' l l' bases bases') (hr : MostSpecific e l bases n r mixin)
    (hr' : MostSpecific e' l' bases' n r' mixin') : mixin.Alike mixin' := by
  obtain ⟨mixin₂, hmost, halike⟩ := hr'.alike h.symm
  have hfind : e.find r = e.find r' := PodEnv.find_congr (hone r mixin r' mixin₂ hr hmost)
  rw [hr.found, hmost.found] at hfind
  cases hfind
  exact halike.symm

-- So a class chooses the same method in every order of its mixins.
theorem RoutesName.of_twins {e e' : PodEnv} {l l' mixin : LoadedType}
    {bases bases' : List LoadedType} {r ref : TypeRef} {m : MethodDef} {k : Constants}
    {methods : List MethodInfo} (hone : HasOneChoice e l bases n)
    (h : Twins e e' l l' bases bases') (hr : MostSpecific e l bases n r mixin)
    (href : typeRefAt mixin.pod.symbols mixin.type.self = .ok ref)
    (hm : mixin.methods.find? (fun m => m.name = n && !m.isStatic) = some m)
    (hchooses : Chooses e' l' bases' n k methods) :
    RoutesName k methods n mixin.pod.symbols ref.jname m := by
  obtain ⟨mixin₁, hcandidate, -⟩ := hr.toCandidate.alike h
  obtain ⟨r', mixin', ref', m', hr', href', hm', hroutes⟩ := hchooses.some ⟨r, mixin₁, hcandidate⟩
  have halike := hone.alike h hr hr'
  rw [← halike.symbols, ← halike.self] at href'
  cases href.symm.trans href'
  rw [LoadedType.methods, ← halike.methods] at hm'
  cases hm.symm.trans hm'
  rw [halike.symbols]
  exact hroutes

end Class

section Types

variable {e : PodEnv} {index : Nat} {t : TypeDef} {self : TypeRef} {own : List ClassOutput}

theorem chooses_of_classesOf (h : e.classesOf index = .ok own)
    (ht : e.pod.types[index]? = some t) (hclass : t.isMixin = false)
    (hself : typeRefAt e.pod.symbols t.self = .ok self) :
    ∃ bases main k methods, Hierarchy.ancestors e self ⟨e.pod, t⟩ = .ok bases ∧ main ∈ own ∧
      main.name = self.jname ∧ main.HasMethods k methods ∧
      (Acyclic e ⟨e.pod, t⟩ → NamesApart e (⟨e.pod, t⟩ :: loadedBases bases) → ∀ n,
        IsOpen e ⟨e.pod, t⟩ (loadedBases bases) n →
          Chooses e ⟨e.pod, t⟩ (loadedBases bases) n k methods) := by
  obtain ⟨r', hrun⟩ := given_eq_ok.mp h
  obtain ⟨bases, main, carriers, dynamics, hparts, rfl⟩ :=
    lowerClass_eq_ok (lowerClass_of_lowerType hrun ht hself hclass)
  have hloaded : IsLoaded e ⟨e.pod, t⟩ :=
    ⟨List.mem_cons_self, Array.mem_toList_iff.mpr (Array.mem_of_getElem? ht)⟩
  obtain ⟨hname, k, methods, hmethods, hchooses⟩ :=
    hparts.chooses (Resolver.sound_empty _) hloaded
  exact ⟨bases, main, k, methods, hparts.chain, List.mem_cons_self, hname, hmethods, hchooses⟩

-- Under each open name a class routes to one of the most specific mixins, in as many numbers of
-- arguments as the method can be called with, and under no other method; if there is no mixin to
-- route to, it has nothing under the name. If only one mixin is most specific, the class routes to
-- it in whatever order its mixins stand. The mixins around the class must differ in their qualified
-- names.
theorem mixins_routed_once (h : e.classesOf index = .ok own)
    (ht : e.pod.types[index]? = some t) (hclass : t.isMixin = false)
    (hself : typeRefAt e.pod.symbols t.self = .ok self) :
    ∃ bases main k methods, Hierarchy.ancestors e self ⟨e.pod, t⟩ = .ok bases ∧ main ∈ own ∧
      main.name = self.jname ∧ main.HasMethods k methods ∧
      (Acyclic e ⟨e.pod, t⟩ → NamesApart e (⟨e.pod, t⟩ :: loadedBases bases) → ∀ n,
        IsOpen e ⟨e.pod, t⟩ (loadedBases bases) n →
        ((∃ r mixin, Candidate e ⟨e.pod, t⟩ (loadedBases bases) n r mixin) →
          ∃ r mixin ref m, MostSpecific e ⟨e.pod, t⟩ (loadedBases bases) n r mixin ∧
            typeRefAt mixin.pod.symbols mixin.type.self = .ok ref ∧
            mixin.methods.find? (fun m => m.name = n && !m.isStatic) = some m ∧
            RoutesName k methods n mixin.pod.symbols ref.jname m ∧
            (HasOneChoice e ⟨e.pod, t⟩ (loadedBases bases) n →
              ∀ mixins own', mixins.toList.Perm t.mixins.toList →
                (e.withMixins index mixins).classesOf index = .ok own' →
                ∃ main' ∈ own', main'.name = self.jname ∧ ∃ k' methods',
                  main'.HasMethods k' methods' ∧
                  RoutesName k' methods' n mixin.pod.symbols ref.jname m)) ∧
        ((∀ r mixin, ¬ Candidate e ⟨e.pod, t⟩ (loadedBases bases) n r mixin) →
          ∀ w ∈ methods, w.name ≠ n)) := by
  obtain ⟨bases, main, k, methods, hchain, hmain, hname, hmethods, hchooses⟩ :=
    chooses_of_classesOf h ht hclass hself
  refine ⟨bases, main, k, methods, hchain, hmain, hname, hmethods, ?_⟩
  intro hacyclic hnames n hopen
  have hn := hchooses hacyclic hnames n hopen
  refine ⟨fun hcandidate => ?_, hn.none⟩
  obtain ⟨r, mixin, ref, m, hmost, href, hm, hroutes⟩ := hn.some hcandidate
  refine ⟨r, mixin, ref, m, hmost, href, hm, hroutes, fun hone mixins own' hperm h' => ?_⟩
  -- the class with its mixins in the other order
  have ht' : (e.withMixins index mixins).pod.types[index]? = some { t with mixins } := by
    rw [getElem?_withMixins, if_pos rfl, ht]
    rfl
  obtain ⟨bases', main', k', methods', hchain', hmain', hname', hmethods', hchooses'⟩ :=
    chooses_of_classesOf h' ht' hclass hself
  have hloaded : LoadedType.Alike ⟨e.pod, t⟩ ⟨(e.withMixins index mixins).pod, { t with mixins }⟩ :=
    ⟨rfl, rfl, rfl, rfl, hperm.symm⟩
  have henv := alike_withMixins ht hperm
  obtain ⟨bases₂, hchain₂, hbases⟩ := ancestorsWithin_alike henv hloaded hchain
  cases hchain'.symm.trans hchain₂
  have htwins : Twins e (e.withMixins index mixins) ⟨e.pod, t⟩
      ⟨(e.withMixins index mixins).pod, { t with mixins }⟩ (loadedBases bases)
      (loadedBases bases') := ⟨henv, hloaded, hbases⟩
  have hn' := hchooses' (hacyclic.alike htwins) (hnames.alike htwins) n (hopen.alike htwins)
  exact ⟨main', hmain', hname', k', methods', hmethods', .of_twins hone htwins hmost href hm hn'⟩

end Types

-- A class with two mixins that both have a method of one name. The second has the first.
def stridesRef : TypeRef := ⟨"p", "Strides", ""⟩

def stridesType : TypeDef :=
  { walksType with self := 3, mixins := #[1] }

def runnerType : TypeDef :=
  { manType with mixins := #[1, 3] }

def runnerEnv : PodEnv :=
  { manEnv with
    pod :=
      { bareEnv.pod with
        symbols := { typeRefs := #[manRef, walksRef, ⟨"sys", "Void", ""⟩, stridesRef] }
        types := #[runnerType, walksType, stridesType] } }

theorem find_walks_runner :
    runnerEnv.find walksRef = .ok (some ⟨runnerEnv.pod, walksType⟩) :=
  PodEnv.find_own (i := 1) rfl (by cbv) rfl rfl

theorem find_strides_runner :
    runnerEnv.find stridesRef = .ok (some ⟨runnerEnv.pod, stridesType⟩) :=
  PodEnv.find_own (i := 2) rfl (by cbv) rfl rfl

-- The more specific mixin gets the router.
theorem routes_runner : Hierarchy.routes runnerEnv ⟨runnerEnv.pod, runnerType⟩ [] =
    .ok [(⟨runnerEnv.pod, stridesType⟩, walkMethod)] := by
  have hall : allMixins runnerEnv = ["p::Walks", "p::Strides", "p::Walks"] := by cbv
  have hwalks : walksRef.qname = "p::Walks" := by cbv
  have hstrides : stridesRef.qname = "p::Strides" := by cbv
  have hwalk : typeRefAt runnerEnv.pod.symbols 1 = .ok walksRef := rfl
  have hstride : typeRefAt runnerEnv.pod.symbols 3 = .ok stridesRef := rfl
  have hmeet : meet runnerEnv (allMixins runnerEnv)
      (LoadedType.mixins ⟨runnerEnv.pod, stridesType⟩) = .ok ["p::Strides"] := by
    have hstack : LoadedType.mixins ⟨runnerEnv.pod, stridesType⟩ = [(runnerEnv.pod, 1)] := rfl
    rw [hstack, meet_met hwalk (by rw [hall, hwalks]; simp) find_walks_runner, hall, hwalks]
    exact meet_nil
  have hnone : walksRef.qname ∉ without (without (allMixins runnerEnv) "p::Walks")
      "p::Strides" := by
    rw [hall, hwalks]
    decide
  have hlast : serve runnerEnv (without (without (allMixins runnerEnv) walksRef.qname)
      stridesRef.qname) (LoadedType.mixins ⟨runnerEnv.pod, stridesType⟩ ++ []) = .ok [] := by
    rw [hwalks, hstrides]
    exact (serve_again hwalk hnone).trans serve_nil
  have hnext := serve_met hstride (by rw [hall, hwalks, hstrides]; decide) find_strides_runner hmeet
    hlast
  have hserve : serve runnerEnv (allMixins runnerEnv)
      (LoadedType.mixins ⟨runnerEnv.pod, runnerType⟩) =
        .ok [⟨"p::Walks", ⟨runnerEnv.pod, walksType⟩, []⟩,
          ⟨"p::Strides", ⟨runnerEnv.pod, stridesType⟩, ["p::Walks", "p::Walks"]⟩] := by
    have hstack : LoadedType.mixins ⟨runnerEnv.pod, runnerType⟩ =
      [(runnerEnv.pod, 1), (runnerEnv.pod, 3)] := rfl
    rw [hstack, serve_met hwalk (by rw [hall, hwalks]; simp) find_walks_runner meet_nil hnext,
      hall, hwalks, hstrides]
    rfl
  exact except_bind_eq_ok.mpr ⟨_, except_bind_eq_ok.mpr ⟨_, rfl, hserve⟩, rfl⟩

theorem exists_classes_runner : ∃ classes, runnerEnv.classesOf 0 = .ok classes := by
  have hself : typeRefAt runnerEnv.pod.symbols runnerType.self = .ok manRef := rfl
  have hbody : methodDesc runnerEnv.pod.symbols walkMethod (some stridesRef.jname) [] .inherited =
      .ok "(Lfan/p/Strides;)V" := by cbv
  have hrouters : ClassM.Fits (classEnv runnerEnv manRef) manRef.jname 40
      (List.forM [((⟨runnerEnv.pod, stridesType⟩ : LoadedType), walkMethod)] fun p =>
        lowerRouter p.1.pod p.1.type p.2) fun _ => True :=
    fits_router_walk rfl rfl rfl hbody ⟨⟨"fan/p/Strides$", "walk", "(Lfan/p/Strides;)V"⟩, by cbv⟩
  have hmixins : ∀ m ∈ runnerType.mixins.toList,
      ∃ r, typeRefAt runnerEnv.pod.symbols m = .ok r := by
    exact List.forall_mem_cons.mpr
      ⟨⟨walksRef, rfl⟩, List.forall_mem_singleton.mpr ⟨stridesRef, rfl⟩⟩
  obtain ⟨o, r', hlower, -⟩ := exists_lowerClass_bare (e := runnerEnv) (t := runnerType) (r := {})
    ⟨rfl, rfl, by cbv, rfl⟩ hmixins rfl rfl routes_runner hrouters (by simp [runnerType]) rfl
    exists_typeField_man exists_superInit
  exact ⟨[o], given_eq_ok.mpr ⟨r', lowerType_run rfl hself rfl rfl hlower⟩⟩

-- The mixins of the class.
theorem eq_of_reaches_runner {r : TypeRef}
    (h : Reaches runnerEnv (LoadedType.mixins ⟨runnerEnv.pod, runnerType⟩) r) :
    r = walksRef ∨ r = stridesRef := by
  have hwalk : typeRefAt runnerEnv.pod.symbols 1 = .ok walksRef := rfl
  have hstride : typeRefAt runnerEnv.pod.symbols 3 = .ok stridesRef := rfl
  induction h with
  | named h =>
    obtain ⟨p, hp, href⟩ := h
    obtain rfl | rfl : p = (runnerEnv.pod, 1) ∨ p = (runnerEnv.pod, 3) := by
      simpa [LoadedType.mixins, runnerType] using hp
    · cases hwalk.symm.trans href
      exact .inl rfl
    · cases hstride.symm.trans href
      exact .inr rfl
  | super _ hfind hnamed ih =>
    obtain ⟨p, hp, href⟩ := hnamed
    obtain rfl | rfl := ih
    · cases find_walks_runner.symm.trans hfind
      simp [LoadedType.mixins, walksType] at hp
    · cases find_strides_runner.symm.trans hfind
      obtain rfl : p = (runnerEnv.pod, 1) := by
        simpa [LoadedType.mixins, stridesType] using hp
      cases hwalk.symm.trans href
      exact .inl rfl

theorem reaches_strides {r : TypeRef} (h : Reaches runnerEnv
    (LoadedType.mixins ⟨runnerEnv.pod, stridesType⟩) r) : r = walksRef := by
  have hwalk : typeRefAt runnerEnv.pod.symbols 1 = .ok walksRef := rfl
  induction h with
  | named h =>
    obtain ⟨p, hp, href⟩ := h
    obtain rfl : p = (runnerEnv.pod, 1) := by simpa [LoadedType.mixins, stridesType] using hp
    cases hwalk.symm.trans href
    rfl
  | super _ hfind hnamed ih =>
    subst ih
    cases find_walks_runner.symm.trans hfind
    exact absurd hnamed not_named_nil

theorem not_reaches_nil {e : PodEnv} {r : TypeRef} : ¬ Reaches e [] r := by
  intro h
  induction h with
  | named h => exact not_named_nil h
  | super _ _ _ ih => exact ih

theorem not_marked_walk (name : String) : "walk" ≠ name ++ "$" := by
  intro h
  have hlast := congrArg (fun s : String => s.toList.getLast?) h
  simp at hlast

-- The class routes the method to the mixin that has the other.
theorem mixins_routed_once_runner : ∃ own, runnerEnv.classesOf 0 = .ok own ∧
    ∃ main ∈ own, main.name = "fan/p/Man" ∧ ∃ k methods, main.HasMethods k methods ∧
      RoutesName k methods "walk" runnerEnv.pod.symbols "fan/p/Strides" walkMethod := by
  obtain ⟨own, hown⟩ := exists_classes_runner
  have htype : runnerEnv.pod.types[0]? = some runnerType := rfl
  have hself : typeRefAt runnerEnv.pod.symbols runnerType.self = .ok manRef := rfl
  obtain ⟨bases, main, k, methods, hchain, hmain, hname, hmethods, hroutes⟩ :=
    mixins_routed_once hown htype rfl hself
  cases hchain
  have hapart : ¬ walksRef.Same stridesRef := fun h => absurd h.2 (by decide)
  have hstrides : Reaches runnerEnv (LoadedType.mixins ⟨runnerEnv.pod, runnerType⟩) stridesRef :=
    .named ⟨(runnerEnv.pod, 3), by simp [LoadedType.mixins, runnerType], rfl⟩
  have hacyclic : Acyclic runnerEnv ⟨runnerEnv.pod, runnerType⟩ := by
    intro r mixin s hr hfind hs hsame
    obtain rfl | rfl := eq_of_reaches_runner hr
    · cases find_walks_runner.symm.trans hfind
      exact not_reaches_nil hs
    · cases find_strides_runner.symm.trans hfind
      obtain rfl := reaches_strides hs
      exact hapart hsame
  have hnames : NamesApart runnerEnv [⟨runnerEnv.pod, runnerType⟩] := by
    have hqname : walksRef.qname ≠ stridesRef.qname := by cbv
    rintro r r' ⟨t, ht, hr⟩ ⟨t', ht', hr'⟩ heq
    obtain rfl := List.mem_singleton.mp ht
    obtain rfl := List.mem_singleton.mp ht'
    obtain rfl | rfl := eq_of_reaches_runner hr <;> obtain rfl | rfl := eq_of_reaches_runner hr'
    · exact .rfl
    · exact absurd heq hqname
    · exact absurd heq.symm hqname
    · exact .rfl
  have hopen : IsOpen runnerEnv ⟨runnerEnv.pod, runnerType⟩ [] "walk" := by
    refine ⟨by decide, not_marked_walk, ?_, ?_⟩
    · rintro t ht m hm -
      obtain rfl := List.mem_singleton.mp ht
      cases hm
    · intro r mixin hr m hm _ _
      obtain rfl | rfl := eq_of_reaches_runner hr.reached
      · cases find_walks_runner.symm.trans hr.found
        obtain rfl := List.mem_singleton.mp hm
        rfl
      · cases find_strides_runner.symm.trans hr.found
        obtain rfl := List.mem_singleton.mp hm
        rfl
  have hdeclares : HasInstance ⟨runnerEnv.pod, stridesType⟩ "walk" :=
    ⟨walkMethod, List.mem_singleton.mpr rfl, rfl, rfl⟩
  have hcandidate : Candidate runnerEnv ⟨runnerEnv.pod, runnerType⟩ [] "walk" stridesRef
      ⟨runnerEnv.pod, stridesType⟩ := ⟨⟨hstrides, find_strides_runner, by simp⟩, hdeclares⟩
  obtain ⟨r, mixin, ref, m, hmost, href, hm, hall, -⟩ :=
    (hroutes hacyclic hnames "walk" hopen).1 ⟨_, _, hcandidate⟩
  obtain rfl | rfl := eq_of_reaches_runner hmost.reached
  · refine absurd .rfl (hmost.last stridesRef _ hcandidate walksRef ?_)
    exact .named ⟨(runnerEnv.pod, 1), by simp [LoadedType.mixins, stridesType], rfl⟩
  · cases find_strides_runner.symm.trans hmost.found
    have href' : typeRefAt runnerEnv.pod.symbols stridesType.self = .ok stridesRef := rfl
    cases href'.symm.trans href
    obtain rfl : m = walkMethod := by
      have hfirst : LoadedType.methods ⟨runnerEnv.pod, stridesType⟩ = [walkMethod] := rfl
      rw [hfirst] at hm
      exact List.mem_singleton.mp (List.mem_of_find?_eq_some hm)
    have hman : manRef.jname = "fan/p/Man" := by cbv
    have hjname : stridesRef.jname = "fan/p/Strides" := by cbv
    exact ⟨own, hown, main, hmain, hname.trans hman, k, methods, hmethods, hjname ▸ hall⟩

-- Two mixins of different pods with one qualified name. A class that has both misses the second.
def hiddenRef : TypeRef := ⟨"p::q", "Walks", ""⟩

def hidingRef : TypeRef := ⟨"p", "q::Walks", ""⟩

def hiddenType : TypeDef :=
  { walksType with self := 0 }

def hiddenPod : Pod :=
  { bareEnv.pod with
    name := "p::q"
    symbols := { typeRefs := #[hiddenRef, hiddenRef, ⟨"sys", "Void", ""⟩] }
    types := #[hiddenType] }

def hidingType : TypeDef :=
  { manType with self := 1, mixins := #[], flags := Pod.Flag.public_ ||| Pod.Flag.mixin_ }

def twoFacedType : TypeDef :=
  { manType with mixins := #[1, 2] }

def twoFacedEnv : PodEnv where
  pod :=
    { bareEnv.pod with
      symbols := { typeRefs := #[manRef, hidingRef, hiddenRef] }
      types := #[twoFacedType, hidingType] }
  others := { pods := #[hiddenPod] }
  config := { lineNumbers := false, sourceFiles := false }

theorem find_hiding :
    twoFacedEnv.find hidingRef = .ok (some ⟨twoFacedEnv.pod, hidingType⟩) :=
  PodEnv.find_own (i := 1) rfl (by cbv) rfl rfl

theorem PodEnv.find_other {e : PodEnv} {pod : Pod} {r : TypeRef} {i : Nat} {t : TypeDef}
    (hpod : r.pod ≠ e.pod.name) (hlookup : e.others.pod? r.pod = some pod)
    (hfind : pod.findType? r.name = some i) (htype : pod.types[i]? = some t)
    (hread : t.isHollow = false) : e.find r = .ok (some ⟨pod, t⟩) := by
  unfold PodEnv.find PodSet.lookup
  rw [if_neg hpod, hlookup]
  dsimp only
  rw [LoadedType.ofPod_of_findType hfind htype hread]
  rfl

theorem find_hidden :
    twoFacedEnv.find hiddenRef = .ok (some ⟨hiddenPod, hiddenType⟩) :=
  PodEnv.find_other (i := 0) (by decide) rfl (by cbv) rfl rfl

theorem qname_hiding : hidingRef.qname = hiddenRef.qname := by
  cbv

-- The search takes the second mixin for the first, which it has met.
theorem serve_twoFaced : serve twoFacedEnv (allMixins twoFacedEnv)
    (LoadedType.mixins ⟨twoFacedEnv.pod, twoFacedType⟩) =
      .ok [⟨"p::q::Walks", ⟨twoFacedEnv.pod, hidingType⟩, []⟩] := by
  have hall : allMixins twoFacedEnv = ["p::q::Walks", "p::q::Walks"] := by cbv
  have hhiding : hidingRef.qname = "p::q::Walks" := by cbv
  have href : typeRefAt twoFacedEnv.pod.symbols 1 = .ok hidingRef := rfl
  have href' : typeRefAt twoFacedEnv.pod.symbols 2 = .ok hiddenRef := rfl
  have hrest : serve twoFacedEnv (without (allMixins twoFacedEnv) hidingRef.qname)
      (LoadedType.mixins ⟨twoFacedEnv.pod, hidingType⟩ ++ [(twoFacedEnv.pod, 2)]) = .ok [] :=
    (serve_again href' (qname_hiding ▸ not_mem_without)).trans serve_nil
  have hstack : LoadedType.mixins ⟨twoFacedEnv.pod, twoFacedType⟩ =
    [(twoFacedEnv.pod, 1), (twoFacedEnv.pod, 2)] := rfl
  rw [hstack, serve_met href (by rw [hall, hhiding]; simp) find_hiding meet_nil hrest, hall,
    hhiding]
  rfl

theorem routes_twoFaced :
    Hierarchy.routes twoFacedEnv ⟨twoFacedEnv.pod, twoFacedType⟩ [] = .ok [] :=
  except_bind_eq_ok.mpr ⟨_, except_bind_eq_ok.mpr ⟨_, rfl, serve_twoFaced⟩, rfl⟩

theorem exists_classes_twoFaced : ∃ classes, twoFacedEnv.classesOf 0 = .ok classes := by
  have hself : typeRefAt twoFacedEnv.pod.symbols twoFacedType.self = .ok manRef := rfl
  have hrouters : ClassM.Fits (classEnv twoFacedEnv manRef) manRef.jname 0
      (List.forM ([] : List (LoadedType × MethodDef)) fun p =>
        lowerRouter p.1.pod p.1.type p.2) fun _ => True := ClassM.fits_pure trivial
  have hmixins : ∀ m ∈ twoFacedType.mixins.toList,
      ∃ r, typeRefAt twoFacedEnv.pod.symbols m = .ok r := by
    exact List.forall_mem_cons.mpr
      ⟨⟨hidingRef, rfl⟩, List.forall_mem_singleton.mpr ⟨hiddenRef, rfl⟩⟩
  obtain ⟨o, r', hlower, -⟩ := exists_lowerClass_bare (e := twoFacedEnv) (t := twoFacedType)
    (r := {}) ⟨rfl, rfl, by cbv, rfl⟩ hmixins rfl rfl routes_twoFaced hrouters
    (by simp [twoFacedType]) rfl exists_typeField_man exists_superInit
  exact ⟨[o], given_eq_ok.mpr ⟨r', lowerType_run rfl hself rfl rfl hlower⟩⟩

theorem eq_of_reaches_twoFaced {r : TypeRef}
    (h : Reaches twoFacedEnv (LoadedType.mixins ⟨twoFacedEnv.pod, twoFacedType⟩) r) :
    r = hidingRef ∨ r = hiddenRef := by
  have href : typeRefAt twoFacedEnv.pod.symbols 1 = .ok hidingRef := rfl
  have href' : typeRefAt twoFacedEnv.pod.symbols 2 = .ok hiddenRef := rfl
  induction h with
  | named h =>
    obtain ⟨p, hp, hr⟩ := h
    obtain rfl | rfl : p = (twoFacedEnv.pod, 1) ∨ p = (twoFacedEnv.pod, 2) := by
      simpa [LoadedType.mixins, twoFacedType] using hp
    · cases href.symm.trans hr
      exact .inl rfl
    · cases href'.symm.trans hr
      exact .inr rfl
  | super _ hfind hnamed ih =>
    obtain rfl | rfl := ih
    · cases find_hiding.symm.trans hfind
      exact absurd hnamed not_named_nil
    · cases find_hidden.symm.trans hfind
      exact absurd hnamed not_named_nil

-- The mixins of the class are not in a circle, one of them declares a method that can be routed to,
-- and nothing else has the name; still the class has nothing under it.
theorem mixin_unrouted_twoFaced : ∃ own, twoFacedEnv.classesOf 0 = .ok own ∧
    ∃ main ∈ own, main.name = "fan/p/Man" ∧ ∃ k methods, main.HasMethods k methods ∧
      Hierarchy.ancestors twoFacedEnv manRef ⟨twoFacedEnv.pod, twoFacedType⟩ = .ok [] ∧
      Acyclic twoFacedEnv ⟨twoFacedEnv.pod, twoFacedType⟩ ∧
      IsOpen twoFacedEnv ⟨twoFacedEnv.pod, twoFacedType⟩ [] "walk" ∧
      Candidate twoFacedEnv ⟨twoFacedEnv.pod, twoFacedType⟩ [] "walk" hiddenRef
        ⟨hiddenPod, hiddenType⟩ ∧
      ∀ w ∈ methods, w.name ≠ "walk" := by
  obtain ⟨own, hown⟩ := exists_classes_twoFaced
  have htype : twoFacedEnv.pod.types[0]? = some twoFacedType := rfl
  have hself : typeRefAt twoFacedEnv.pod.symbols twoFacedType.self = .ok manRef := rfl
  have hempty : ∀ r mixin s, Reaches twoFacedEnv
      (LoadedType.mixins ⟨twoFacedEnv.pod, twoFacedType⟩) r →
      twoFacedEnv.find r = .ok (some mixin) → ¬ Reaches twoFacedEnv mixin.mixins s := by
    intro r mixin s hr hfind hs
    obtain rfl | rfl := eq_of_reaches_twoFaced hr
    · cases find_hiding.symm.trans hfind
      exact not_reaches_nil hs
    · cases find_hidden.symm.trans hfind
      exact not_reaches_nil hs
  have hopen : IsOpen twoFacedEnv ⟨twoFacedEnv.pod, twoFacedType⟩ [] "walk" := by
    refine ⟨by decide, not_marked_walk, ?_, ?_⟩
    · rintro t ht m hm -
      obtain rfl := List.mem_singleton.mp ht
      cases hm
    · intro r mixin hr m hm _ _
      obtain rfl | rfl := eq_of_reaches_twoFaced hr.reached
      · cases find_hiding.symm.trans hr.found
        cases hm
      · cases find_hidden.symm.trans hr.found
        obtain rfl := List.mem_singleton.mp hm
        rfl
  have hcandidate : Candidate twoFacedEnv ⟨twoFacedEnv.pod, twoFacedType⟩ [] "walk" hiddenRef
      ⟨hiddenPod, hiddenType⟩ := by
    refine ⟨⟨.named ⟨(twoFacedEnv.pod, 2), ?_, rfl⟩, find_hidden, by simp⟩, walkMethod,
      List.mem_singleton.mpr rfl, rfl, rfl⟩
    simp [LoadedType.mixins, twoFacedType]
  obtain ⟨r', hrun⟩ := given_eq_ok.mp hown
  obtain ⟨bases, main, carriers, dynamics, hparts, rfl⟩ :=
    lowerClass_eq_ok (lowerClass_of_lowerType hrun htype hself rfl)
  have hchain := hparts.chain
  cases hchain
  obtain ⟨routes, k, plain, groups, hroutes, hname, hmethods, hplain, hall⟩ :=
    hparts.routers (Resolver.sound_empty _)
  cases routes_twoFaced.symm.trans hroutes
  have hman : manRef.jname = "fan/p/Man" := by cbv
  exact ⟨_, hown, main, List.mem_cons_self, hname.trans hman, k, _, hmethods, rfl,
    fun r mixin s hr hfind hs => absurd hs (hempty r mixin s hr hfind), hopen, hcandidate,
    name_ne_of_filter (fun w hw => hopen.not_isMemberName (hplain w hw)) hall rfl⟩

end Lowering

end PodCompiler
