import Mathlib.Data.Fintype.Card
import Mathlib.Data.List.Find
import Mathlib.Data.Set.Finite.List
import PodCompiler.Proofs.Lowering.MixinClosure
import PodCompiler.Proofs.Lowering.Routers

namespace PodCompiler.Lowering.Hierarchy

open Pod (MethodDef)

-- A type declares a method of the name that is not static.
def HasInstance (l : LoadedType) (n : String) : Prop :=
  ∃ m ∈ l.methods, m.name = n ∧ m.isStatic = false

-- A mixin that a class may route a method of the name to.
structure Candidate (e : PodEnv) (l : LoadedType) (bases : List LoadedType) (n : String)
    (r : TypeRef) (mixin : LoadedType) : Prop extends ToServe e l bases r mixin where
  declares : HasInstance mixin n

-- One that no other has.
structure MostSpecific (e : PodEnv) (l : LoadedType) (bases : List LoadedType) (n : String)
    (r : TypeRef) (mixin : LoadedType) : Prop extends Candidate e l bases n r mixin where
  last : ∀ r' mixin', Candidate e l bases n r' mixin' →
    ∀ s, Reaches e mixin'.mixins s → ¬ s.Same r

-- No mixin of a class has itself.
def Acyclic (e : PodEnv) (l : LoadedType) : Prop :=
  ∀ r mixin s, Reaches e l.mixins r → e.find r = .ok (some mixin) → Reaches e mixin.mixins s →
    ¬ s.Same r

theorem isOverridden_iff {all : List Mixin} {m : Mixin} {n : String} :
    isOverridden all m n = true ↔ ∃ other ∈ all, m.name ∈ other.supers ∧
      HasInstance other.loaded n := by
  simp only [isOverridden, HasInstance, LoadedType.methods, List.any_eq_true, Bool.and_eq_true,
    List.contains_iff_mem, decide_eq_true_eq, Bool.not_eq_true', Array.mem_toList_iff]

-- A strict order on the items of a list has a least item among those of a kind.
theorem exists_least {α : Type} {R : α → α → Prop} {P : α → Prop} {xs : List α}
    (htrans : ∀ a ∈ xs, ∀ b ∈ xs, ∀ c ∈ xs, R a b → R b c → R a c)
    (hirrefl : ∀ a ∈ xs, ¬ R a a) (h : ∃ x ∈ xs, P x) :
    ∃ x ∈ xs, P x ∧ ∀ y ∈ xs, P y → ¬ R y x := by
  let S : {x // x ∈ xs} → {x // x ∈ xs} → Prop := fun a b => R a.1 b.1
  have hfinite : Finite {x // x ∈ xs} := xs.finite_toSet.to_subtype
  have : IsTrans _ S := ⟨fun a b c => htrans a.1 a.2 b.1 b.2 c.1 c.2⟩
  have : Std.Irrefl S := ⟨fun a => hirrefl a.1 a.2⟩
  obtain ⟨x, hx, hP⟩ := h
  obtain ⟨⟨x, hx⟩, hP, hleast⟩ :=
    (Finite.wellFounded_of_trans_of_irrefl S).has_min {a | P a.1} ⟨⟨x, hx⟩, hP⟩
  exact ⟨x, hx, hP, fun y hy hPy => hleast ⟨y, hy⟩ hPy⟩

section Choice

variable {e : PodEnv} {l : LoadedType} {bases : List LoadedType} {mixins : List Mixin}
  {n : String}

theorem ToServe.around {r : TypeRef} {mixin : LoadedType} (h : ToServe e l bases r mixin) :
    Around e (l :: bases) r :=
  ⟨l, List.mem_cons_self, h.reached⟩

theorem Serving.supers_trans (h : Serving e l bases mixins) :
    ∀ a ∈ mixins, ∀ b ∈ mixins, ∀ c ∈ mixins,
      b.name ∈ a.supers → c.name ∈ b.supers → c.name ∈ a.supers := by
  intro a ha b hb c hc hab hbc
  obtain ⟨ra, -, -, hsupers⟩ := h.served a ha
  obtain ⟨rb, hrb, hbname, hsupers'⟩ := h.served b hb
  obtain ⟨rc, hrc, hcname, -⟩ := h.served c hc
  rw [hbname, hsupers rb hrb.around] at hab
  rw [hcname, hsupers' rc hrc.around] at hbc
  obtain ⟨s, hs, hsame⟩ := hab
  obtain ⟨s', hs', hsame'⟩ := hbc
  rw [hcname, hsupers rc hrc.around]
  exact ⟨s', hs.trans (PodEnv.find_congr hsame ▸ hrb.found) hs', hsame'⟩

theorem Serving.supers_irrefl (h : Serving e l bases mixins) (hacyclic : Acyclic e l) :
    ∀ a ∈ mixins, a.name ∉ a.supers := by
  intro a ha hself
  obtain ⟨r, hr, hname, hsupers⟩ := h.served a ha
  rw [hname, hsupers r hr.around] at hself
  obtain ⟨s, hs, hsame⟩ := hself
  exact hacyclic r a.loaded s hr.reached hr.found hs hsame

-- Among the mixins that declare a method there is one that no other overrides.
theorem Serving.exists_not_overridden (h : Serving e l bases mixins) (hacyclic : Acyclic e l)
    (hdeclares : ∃ m ∈ mixins, HasInstance m.loaded n) :
    ∃ m ∈ mixins, HasInstance m.loaded n ∧ isOverridden mixins m n = false := by
  obtain ⟨m, hm, hn, hleast⟩ := exists_least (R := fun a b => b.name ∈ a.supers) h.supers_trans
    (h.supers_irrefl hacyclic) hdeclares
  refine ⟨m, hm, hn, Bool.eq_false_iff.mpr fun hover => ?_⟩
  obtain ⟨other, hother, hsuper, hdeclares⟩ := isOverridden_iff.mp hover
  exact hleast other hother hdeclares hsuper

-- What is not overridden is most specific.
theorem Serving.mostSpecific (h : Serving e l bases mixins) {m : Mixin} (hm : m ∈ mixins)
    (hn : HasInstance m.loaded n) (hover : isOverridden mixins m n = false) :
    ∃ r, MostSpecific e l bases n r m.loaded := by
  obtain ⟨r, hr, hname, -⟩ := h.served m hm
  refine ⟨r, ⟨hr, hn⟩, fun r' mixin' hr' s hs hsame => ?_⟩
  obtain ⟨other, hother, -, rfl⟩ := h.complete r' mixin' hr'.toToServe
  obtain ⟨-, -, -, hsupers⟩ := h.served other hother
  have hsuper : m.name ∈ other.supers := hname ▸ (hsupers r hr.around).mpr ⟨s, hs, hsame⟩
  exact Bool.eq_false_iff.mp hover (isOverridden_iff.mpr ⟨other, hother, hsuper, hr'.declares⟩)

end Choice

-- A method of a mixin that is routed under a name if the name is free.
def isFirstChoice (all : List Mixin) (n : String) (p : Mixin × MethodDef) : Bool :=
  p.2.name = n && (isRoutable p.2 && !isOverridden all p.1 n)

-- Under a free name the first choice is routed, and nothing else.
theorem filter_routesFrom {all : List Mixin} {taken : List String} {n : String}
    {ps : List (Mixin × MethodDef)} :
    (routesFrom all taken ps).filter (·.2.name = n) =
      if n ∈ taken then []
      else ((ps.find? (isFirstChoice all n)).map fun p => (p.1.loaded, p.2)).toList := by
  induction ps generalizing taken with
  | nil => simp [routesFrom]
  | cons p rest ih =>
    obtain ⟨mixin, m⟩ := p
    unfold routesFrom
    by_cases hname : m.name = n
    · subst hname
      split
      · rename_i hroute
        simp only [Bool.and_eq_true, Bool.not_eq_true', List.contains_eq_mem, decide_eq_false_iff_not]
          at hroute
        obtain ⟨⟨hroutable, hfree⟩, hlast⟩ := hroute
        have hchoice : isFirstChoice all m.name (mixin, m) = true := by
          simp [isFirstChoice, hroutable, hlast]
        rw [List.filter_cons_of_pos (by simp), ih, if_pos List.mem_cons_self, if_neg hfree,
          List.find?_cons_of_pos hchoice]
        rfl
      · rename_i hroute
        rw [ih]
        split
        · rfl
        · rename_i hfree
          have hchoice : ¬ isFirstChoice all m.name (mixin, m) = true := by
            intro hchoice
            simp only [isFirstChoice, decide_true, Bool.true_and, Bool.and_eq_true] at hchoice
            exact hroute (by simp [hchoice, hfree])
          rw [List.find?_cons_of_neg hchoice]
    · have hchoice : ¬ isFirstChoice all n (mixin, m) = true := by simp [isFirstChoice, hname]
      rw [List.find?_cons_of_neg hchoice]
      split
      · rw [List.filter_cons_of_neg (by simpa using hname), ih]
        simp only [List.mem_cons, Ne.symm hname, false_or]
      · exact ih

-- The first choice is a method of a mixin that is not overridden, and there the first.
theorem find?_isFirstChoice {all mixins : List Mixin} {n : String} {mixin : Mixin} {m : MethodDef}
    (h : (mixins.flatMap fun x => x.loaded.methods.map (x, ·)).find? (isFirstChoice all n) =
      some (mixin, m)) :
    mixin ∈ mixins ∧ isOverridden all mixin n = false ∧
      mixin.loaded.methods.find? (fun m => m.name = n && isRoutable m) = some m := by
  rw [List.find?_flatMap] at h
  obtain ⟨x, hx, hfind⟩ := List.exists_of_findSome?_eq_some h
  rw [List.find?_map] at hfind
  obtain ⟨m', hm', heq⟩ := Option.map_eq_some_iff.mp hfind
  cases heq
  have hchoice := List.find?_some hm'
  simp only [Function.comp_apply, isFirstChoice, Bool.and_eq_true, Bool.not_eq_true'] at hchoice
  refine ⟨hx, hchoice.2.2, ?_⟩
  have hsame : isFirstChoice all n ∘ (mixin, ·) = fun m => decide (m.name = n) && isRoutable m := by
    funext m
    simp [isFirstChoice, hchoice.2.2]
  rwa [hsame] at hm'

section Routes

variable {e : PodEnv} {l : LoadedType} {bases : List Ancestor} {n : String}
  {routes : List (LoadedType × MethodDef)}

-- All methods of the name that a class may route to can be routed to.
def AllRoutable (e : PodEnv) (l : LoadedType) (bases : List LoadedType) (n : String) : Prop :=
  ∀ r mixin, Candidate e l bases n r mixin →
    ∀ m ∈ mixin.methods, m.name = n → m.isStatic = false → isRoutable m = true

theorem isStatic_of_isRoutable {m : MethodDef} (h : isRoutable m = true) : m.isStatic = false := by
  simp only [isRoutable, Bool.and_eq_true, Bool.not_eq_true'] at h
  exact h.1.1.1

theorem hasInstance_of_find? {mixin : LoadedType} {m : MethodDef}
    (h : mixin.methods.find? (fun m => m.name = n && isRoutable m) = some m) :
    HasInstance mixin n := by
  have hm := List.find?_some h
  simp only [Bool.and_eq_true, decide_eq_true_eq] at hm
  exact ⟨m, List.mem_of_find?_eq_some h, hm.1, isStatic_of_isRoutable hm.2⟩

-- A name that a class and its base types leave free goes to the first choice.
theorem filter_routes_eq_ok (h : Hierarchy.routes e l bases = .ok routes)
    (hfree : ∀ t ∈ l :: loadedBases bases, ∀ m ∈ t.methods, m.name ≠ n) :
    ∃ mixins, mixinsToServe e l bases = .ok mixins ∧
      routes.filter (·.2.name = n) =
        (((mixins.flatMap fun m => m.loaded.methods.map (m, ·)).find?
          (isFirstChoice mixins n)).map fun p => (p.1.loaded, p.2)).toList := by
  obtain ⟨mixins, hmixins, hpure⟩ := except_bind_eq_ok.mp h
  cases hpure
  refine ⟨mixins, hmixins, ?_⟩
  rw [filter_routesFrom, if_neg]
  intro htaken
  obtain ⟨t, ht, htaken⟩ := List.mem_flatMap.mp htaken
  obtain ⟨m, hm, hname⟩ := List.mem_map.mp htaken
  exact hfree t ht m hm hname

-- If there is a mixin to route to, the class routes to one that is most specific, and there to the
-- first method of the name.
theorem routes_of_candidate (h : Hierarchy.routes e l bases = .ok routes)
    (hU : Region e (Around e (l :: loadedBases bases))) (hacyclic : Acyclic e l)
    (hfree : ∀ t ∈ l :: loadedBases bases, ∀ m ∈ t.methods, m.name ≠ n)
    (hroutable : AllRoutable e l (loadedBases bases) n)
    (hcandidate : ∃ r mixin, Candidate e l (loadedBases bases) n r mixin) :
    ∃ r mixin m, MostSpecific e l (loadedBases bases) n r mixin ∧
      mixin.methods.find? (fun m => m.name = n && !m.isStatic) = some m ∧
      routes.filter (·.2.name = n) = [(mixin, m)] := by
  obtain ⟨mixins, hmixins, hfilter⟩ := filter_routes_eq_ok h hfree
  have hserving := mixinsToServe_eq_ok hmixins hU
  obtain ⟨r, mixin, hr⟩ := hcandidate
  obtain ⟨x, hx, -, rfl⟩ := hserving.complete r mixin hr.toToServe
  obtain ⟨y, hy, ⟨m₀, hm₀, hname₀, hstatic₀⟩, hlast₀⟩ :=
    hserving.exists_not_overridden hacyclic ⟨x, hx, hr.declares⟩
  have hcandidates : ∀ z ∈ mixins, HasInstance z.loaded n →
      ∃ s, Candidate e l (loadedBases bases) n s z.loaded := fun z hz hdeclares => by
    obtain ⟨s, hs, -⟩ := hserving.served z hz
    exact ⟨s, hs, hdeclares⟩
  cases hfind : (mixins.flatMap fun m => m.loaded.methods.map (m, ·)).find?
      (isFirstChoice mixins n) with
  | none =>
    obtain ⟨s, hs⟩ := hcandidates y hy ⟨m₀, hm₀, hname₀, hstatic₀⟩
    have hmem : (y, m₀) ∈ mixins.flatMap fun m => m.loaded.methods.map (m, ·) :=
      List.mem_flatMap.mpr ⟨y, hy, List.mem_map.mpr ⟨m₀, hm₀, rfl⟩⟩
    refine absurd ?_ (List.find?_eq_none.mp hfind (y, m₀) hmem)
    simp [isFirstChoice, hname₀, hlast₀, hroutable s y.loaded hs m₀ hm₀ hname₀ hstatic₀]
  | some p =>
    obtain ⟨z, m⟩ := p
    obtain ⟨hz, hlast, hm⟩ := find?_isFirstChoice hfind
    have hdeclares := hasInstance_of_find? hm
    obtain ⟨s, hs⟩ := hserving.mostSpecific hz hdeclares hlast
    refine ⟨s, z.loaded, m, hs, ?_, by rw [hfilter, hfind]; rfl⟩
    rw [← hm]
    refine List.find?_congr fun m' hm' => ?_
    by_cases hname : m'.name = n
    · cases hstatic : m'.isStatic with
      | false => simp [hroutable s z.loaded hs.toCandidate m' hm' hname hstatic]
      | true => simp [isRoutable, hstatic]
    · simp [hname]

-- If there is none, it routes nothing under the name.
theorem routes_of_no_candidate (h : Hierarchy.routes e l bases = .ok routes)
    (hU : Region e (Around e (l :: loadedBases bases)))
    (hfree : ∀ t ∈ l :: loadedBases bases, ∀ m ∈ t.methods, m.name ≠ n)
    (hnone : ∀ r mixin, ¬ Candidate e l (loadedBases bases) n r mixin) :
    routes.filter (·.2.name = n) = [] := by
  obtain ⟨mixins, hmixins, hfilter⟩ := filter_routes_eq_ok h hfree
  have hserving := mixinsToServe_eq_ok hmixins hU
  rw [hfilter]
  cases hfind : (mixins.flatMap fun m => m.loaded.methods.map (m, ·)).find?
      (isFirstChoice mixins n) with
  | none => rfl
  | some p =>
    obtain ⟨mixin, m⟩ := p
    obtain ⟨hmixin, -, hm⟩ := find?_isFirstChoice hfind
    obtain ⟨r, hr, -⟩ := hserving.served mixin hmixin
    exact absurd ⟨hr, hasInstance_of_find? hm⟩ (hnone r mixin.loaded)

end Routes

end PodCompiler.Lowering.Hierarchy
