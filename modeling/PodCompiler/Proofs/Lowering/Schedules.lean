import Mathlib.Algebra.BigOperators.Group.Finset.Basic
import Mathlib.Algebra.Order.BigOperators.Group.Finset
import Mathlib.Data.Fintype.BigOperators
import Mathlib.Logic.Relation
import PodCompiler.Proofs.Lowering.Linkage
import PodCompiler.Proofs.Lowering.PodScripts

namespace PodCompiler.Lowering

open Pod (Symbols)

-- The steps that a thread takes for a script at most: two for each answer.
def Script.left {α : Type} (s : Symbols) : Script α → Nat
  | .done _ => 0
  | .ask q next =>
    match q.compute s with
    | .ok a => (next a).left s + 2
    | .error _ => 1

-- A script under way. An answer that had to be computed is kept in a step of its own.
inductive Thread (α : Type) where
  | going (σ : Script α)
  | keeping (q : Query) (a : q.Answer) (next : q.Answer → Script α)

namespace Thread

variable {α : Type} {s : Symbols} {t t' : Thread α} {r r' : Resolver}

-- Looks for an answer, and computes it if none is there; or keeps the one that was computed, unless
-- another thread was first.
inductive Step (s : Symbols) : Thread α → Resolver → Thread α → Resolver → Prop where
  | found {q : Query} {next : q.Answer → Script α} {r : Resolver} {a : q.Answer}
      (h : q.kept? r = some a) : Step s (going (.ask q next)) r (going (next a)) (q.found r)
  | failed {q : Query} {next : q.Answer → Script α} {r : Resolver} {e : LoweringError}
      (h : q.kept? r = none) (he : q.compute s = .error e) :
      Step s (going (.ask q next)) r (going (.done (.error e))) r
  | computed {q : Query} {next : q.Answer → Script α} {r : Resolver} {a : q.Answer}
      (h : q.kept? r = none) (ha : q.compute s = .ok a) :
      Step s (going (.ask q next)) r (keeping q a next) r
  | kept {q : Query} {next : q.Answer → Script α} {r : Resolver} {a : q.Answer} :
      Step s (keeping q a next) r (going (next ((q.kept? r).getD a))) (q.keep r a)

-- What comes of it.
def outcome (s : Symbols) : Thread α → Except LoweringError α
  | going σ => σ.outcome s
  | keeping _ a next => (next a).outcome s

-- An answer that it is about to keep is right.
def Sound (s : Symbols) : Thread α → Prop
  | going _ => True
  | keeping q a _ => q.compute s = .ok a

def left (s : Symbols) : Thread α → Nat
  | going σ => σ.left s
  | keeping _ a next => (next a).left s + 1

theorem outcome_ask {q : Query} {next : q.Answer → Script α} {a : q.Answer}
    (h : q.compute s = .ok a) : (going (.ask q next)).outcome s = (next a).outcome s := by
  change (q.compute s).bind _ = _
  rw [h]
  rfl

theorem left_ask {q : Query} {next : q.Answer → Script α} {a : q.Answer}
    (h : q.compute s = .ok a) : (going (.ask q next)).left s = (next a).left s + 2 := by
  simp only [left, Script.left, h]

-- A step leaves what comes of its thread, and brings it nearer to the end.
theorem Step.preserves (h : Step s t r t' r') (hr : r.Reached s) (ht : t.Sound s) :
    r'.Reached s ∧ t'.Sound s ∧ t'.outcome s = t.outcome s ∧ t'.left s < t.left s := by
  cases h with
  | @found q next _ a h =>
    have ha := hr.compute_eq h
    rw [outcome_ask ha, left_ask ha]
    exact ⟨hr.found q, trivial, rfl, Nat.lt_add_of_pos_right (by decide)⟩
  | @failed q next _ e h he =>
    refine ⟨hr, trivial, ?_, ?_⟩
    · change _ = (q.compute s).bind _
      rw [he]
      rfl
    · simp only [left, Script.left, he]
      decide
  | @computed q next _ a h ha =>
    rw [outcome_ask ha, left_ask ha]
    exact ⟨hr, ha, rfl, Nat.lt_succ_self _⟩
  | @kept q next _ a =>
    have hsame : (q.kept? r).getD a = a := by
      cases hkept : q.kept? r with
      | none => rfl
      | some b => exact Except.ok.inj ((hr.compute_eq hkept).symm.trans ht)
    rw [hsame]
    exact ⟨hr.keep ht, trivial, rfl, Nat.lt_succ_self _⟩

-- A thread that is not at its end has a step.
theorem exists_step (t : Thread α) (r : Resolver) :
    (∃ x, t = going (.done x)) ∨ ∃ t' r', Step s t r t' r' := by
  cases t with
  | keeping q a next => exact .inr ⟨_, _, .kept⟩
  | going σ =>
    cases σ with
    | done x => exact .inl ⟨x, rfl⟩
    | ask q next =>
      cases hkept : q.kept? r with
      | some a => exact .inr ⟨_, _, .found hkept⟩
      | none =>
        cases hcompute : q.compute s with
        | ok a => exact .inr ⟨_, _, .computed hkept hcompute⟩
        | error e => exact .inr ⟨_, _, .failed hkept hcompute⟩

end Thread

-- Threads that have one resolver.
structure Crew (n : Nat) (α : Type) where
  threads : Fin n → Thread α
  resolver : Resolver

namespace Crew

variable {n : Nat} {α : Type} {s : Symbols} {c c' : Crew n α}

-- One of them takes a step.
inductive Step (s : Symbols) (c : Crew n α) : Crew n α → Prop where
  | of (i : Fin n) {t : Thread α} {r : Resolver} (h : (c.threads i).Step s c.resolver t r) :
      Step s c ⟨Function.update c.threads i t, r⟩

-- Any of them, as often as it can.
def Reaches (s : Symbols) : Crew n α → Crew n α → Prop :=
  Relation.ReflTransGen (Step s)

-- The resolver is one of the pod, and no thread has a wrong answer.
structure Sound (s : Symbols) (c : Crew n α) : Prop where
  resolver : c.resolver.Reached s
  threads : ∀ i, (c.threads i).Sound s

def left (s : Symbols) (c : Crew n α) : Nat :=
  ∑ i, (c.threads i).left s

theorem Step.preserves (h : c.Step s c') (hc : c.Sound s) :
    c'.Sound s ∧ (∀ i, (c'.threads i).outcome s = (c.threads i).outcome s) ∧
      c'.left s < c.left s := by
  obtain @⟨i, t, r, h⟩ := h
  obtain ⟨hr, ht, hsame, hless⟩ := h.preserves hc.resolver (hc.threads i)
  refine ⟨⟨hr, fun j => ?_⟩, fun j => ?_, ?_⟩
  · by_cases hj : j = i
    · subst hj
      simpa using ht
    · simpa [hj] using hc.threads j
  · by_cases hj : j = i
    · subst hj
      simpa using hsame
    · simp [hj]
  · refine Finset.sum_lt_sum (fun j _ => ?_) ⟨i, Finset.mem_univ i, by simpa using hless⟩
    by_cases hj : j = i
    · subst hj
      simpa using hless.le
    · simp [hj]

theorem Reaches.preserves (h : c.Reaches s c') (hc : c.Sound s) :
    c'.Sound s ∧ ∀ i, (c'.threads i).outcome s = (c.threads i).outcome s := by
  induction h with
  | refl => exact ⟨hc, fun _ => rfl⟩
  | tail _ hstep ih =>
    obtain ⟨hsound, hsame⟩ := ih
    obtain ⟨hsound', hsame', -⟩ := hstep.preserves hsound
    exact ⟨hsound', fun i => (hsame' i).trans (hsame i)⟩

-- Whatever the schedule, the threads come to their ends, and each to the same one.
structure Settles (s : Symbols) (c₀ : Crew n α) (result : Fin n → Except LoweringError α) : Prop where
  kept : ∀ c, c₀.Reaches s c → c.resolver.Reached s
  right : ∀ c, c₀.Reaches s c → ∀ i x, c.threads i = .going (.done x) → x = result i
  goesOn : ∀ c, c₀.Reaches s c →
    (∃ c', c.Step s c') ∨ ∀ i, c.threads i = .going (.done (result i))
  ends : ¬∃ schedule : Nat → Crew n α, schedule 0 = c₀ ∧
    ∀ k, (schedule k).Step s (schedule (k + 1))

theorem Sound.settles (hc : c.Sound s) : c.Settles s fun i => (c.threads i).outcome s := by
  have hright : ∀ c', c.Reaches s c' → ∀ i x, c'.threads i = .going (.done x) →
      x = (c.threads i).outcome s := by
    intro c' hreaches i x hx
    obtain ⟨-, hsame⟩ := hreaches.preserves hc
    rw [← hsame i, hx]
    rfl
  refine ⟨fun c' hreaches => (hreaches.preserves hc).1.resolver, hright, ?_, ?_⟩
  · intro c' hreaches
    by_cases hall : ∀ i, ∃ x, c'.threads i = .going (.done x)
    · refine .inr fun i => ?_
      obtain ⟨x, hx⟩ := hall i
      rw [hx, hright c' hreaches i x hx]
    · obtain ⟨i, hi⟩ := not_forall.mp hall
      obtain hdone | ⟨t, r, hstep⟩ := (c'.threads i).exists_step (s := s) c'.resolver
      · exact absurd hdone hi
      · exact .inl ⟨_, .of i hstep⟩
  · rintro ⟨schedule, rfl, hsteps⟩
    have hall : ∀ k, (schedule k).Sound s ∧ (schedule k).left s + k ≤ (schedule 0).left s := by
      intro k
      induction k with
      | zero => exact ⟨hc, le_rfl⟩
      | succ k ih =>
        obtain ⟨hsound, hle⟩ := ih
        obtain ⟨hsound', -, hless⟩ := (hsteps k).preserves hsound
        exact ⟨hsound', by omega⟩
    have hlast := (hall ((schedule 0).left s + 1)).2
    omega

-- So there is a schedule that ends.
theorem Sound.exists_end (hc : c.Sound s) :
    ∃ c', c.Reaches s c' ∧ ∀ i, c'.threads i = .going (.done ((c.threads i).outcome s)) := by
  generalize hn : c.left s = k
  induction k using Nat.strong_induction_on generalizing c with
  | _ k ih =>
    obtain ⟨c', hstep⟩ | hall := hc.settles.goesOn c .refl
    · obtain ⟨hsound, hsame, hless⟩ := hstep.preserves hc
      obtain ⟨c'', hreaches, hend⟩ := ih _ (hn ▸ hless) hsound rfl
      refine ⟨c'', .head hstep hreaches, fun i => ?_⟩
      rw [hend i, hsame i]
    · exact ⟨c, .refl, hall⟩

-- What is collected: the lists of all threads one after the other, or the error of one of them.
inductive Collects (c : Crew n (List α)) : Except LoweringError (List α) → Prop where
  | all {results : Fin n → List α} (h : ∀ i, c.threads i = .going (.done (.ok (results i)))) :
      Collects c (.ok (List.ofFn results).flatten)
  | failed {i : Fin n} {e : LoweringError} (h : c.threads i = .going (.done (.error e))) :
      Collects c (.error e)

end Crew

section Types

variable {pod : Pod} {others : PodSet} {config : EmitConfig} {e : PodEnv} {index : Nat}
  {r : Resolver} {σ : Script (List ClassOutput)}

-- The classes of a type if nothing is kept yet.
def PodEnv.classesOf (e : PodEnv) (index : Nat) : Except LoweringError (List ClassOutput) :=
  given (lowerType index e {})

-- A script that does what lowering a type does.
def Script.Lowers (σ : Script (List ClassOutput)) (e : PodEnv) (index : Nat) : Prop :=
  ∀ parallel, lowerType index (e.withParallel parallel) = σ.run e.pod.symbols

theorem Script.Lowers.outcome_eq (h : σ.Lowers e index) :
    σ.outcome e.pod.symbols = e.classesOf index := by
  have hsame : lowerType index e = σ.run e.pod.symbols := h e.config.parallel
  unfold PodEnv.classesOf
  rw [hsame]
  exact (σ.run_of_reached .empty).1.symm

-- One type, whatever was lowered before.
theorem lowerType_of_reached (hr : r.Reached e.pod.symbols) (index : Nat) (parallel : Bool) :
    given (lowerType index (e.withParallel parallel) r) = e.classesOf index ∧
      (behind (lowerType index (e.withParallel parallel) r)).Reached e.pod.symbols := by
  obtain ⟨σ, hσ⟩ := scripted_lowerType index e
  rw [hσ parallel, ← Script.Lowers.outcome_eq hσ]
  exact σ.run_of_reached hr

theorem given_eq_ok {ε ρ α : Type} {x : EStateM.Result ε ρ α} {a : α} :
    given x = .ok a ↔ ∃ s, x = .ok a s := by
  cases x with
  | ok b s => simp [given]
  | error err s => simp [given]

-- All types, one after the other.
theorem lowerTypes_eq_ok {indices : List Nat} (hr : r.Reached e.pod.symbols) (parallel : Bool)
    {out : List ClassOutput} :
    (∃ r', lowerTypes indices (e.withParallel parallel) r = .ok out r') ↔
      ∃ outs, List.Forall₂ (fun index classes => e.classesOf index = .ok classes) indices outs ∧
        out = outs.flatten := by
  induction indices generalizing r out with
  | nil =>
    constructor
    · rintro ⟨r', h⟩
      cases h
      exact ⟨[], .nil, rfl⟩
    · rintro ⟨outs, hall, rfl⟩
      cases hall
      exact ⟨r, rfl⟩
  | cons index rest ih =>
    obtain ⟨hgiven, hbehind⟩ := lowerType_of_reached hr index parallel
    constructor
    · rintro ⟨r', h⟩
      obtain ⟨first, r₁, hfirst, h₁⟩ := PodM.bind_eq_ok.mp h
      obtain ⟨more, r₂, hmore, hpure⟩ := PodM.bind_eq_ok.mp h₁
      cases hpure
      rw [hfirst] at hgiven hbehind
      obtain ⟨outs, hall, rfl⟩ := (ih hbehind).mp ⟨r', hmore⟩
      exact ⟨first :: outs, .cons hgiven.symm hall, by simp⟩
    · rintro ⟨outs, hall, rfl⟩
      obtain - | ⟨hfirst, hrest⟩ := hall
      rename_i first outs
      rw [hfirst] at hgiven
      obtain ⟨r₁, hrun⟩ := given_eq_ok.mp hgiven
      rw [hrun] at hbehind
      obtain ⟨r₂, hmore⟩ := (ih hbehind).mpr ⟨outs, hrest, rfl⟩
      refine ⟨r₂, PodM.bind_eq_ok.mpr ⟨first, r₁, hrun, PodM.bind_eq_ok.mpr ⟨_, r₂, hmore, ?_⟩⟩⟩
      simp only [List.flatten_cons]
      rfl

-- The types are those of the pod, in their order.
theorem forall₂_range_iff {n : Nat} {β : Type} {p : Nat → β → Prop} {ys : List β} :
    List.Forall₂ p (List.range n) ys ↔
      ∃ results : Fin n → β, (∀ i : Fin n, p i (results i)) ∧ ys = List.ofFn results := by
  rw [List.forall₂_iff_get]
  constructor
  · rintro ⟨hlength, hall⟩
    rw [List.length_range] at hlength
    subst hlength
    refine ⟨fun i => ys[i], fun i => ?_, by simp⟩
    simpa using hall i (by simp) i.isLt
  · rintro ⟨results, hall, rfl⟩
    refine ⟨by simp, fun i hi hi' => ?_⟩
    have hlt : i < n := by simpa using hi
    simpa using hall ⟨i, hlt⟩

theorem lowerPod_eq_ok_iff (parallel : Bool) {out : List ClassOutput} :
    lowerPod pod others { config with parallel } = .ok out ↔
      ∃ literals, ∃ results : Fin pod.types.size → List ClassOutput,
        lowerLiterals pod config = .ok literals ∧
        (∀ i : Fin pod.types.size, PodEnv.classesOf ⟨pod, others, config⟩ i = .ok (results i)) ∧
        out = literals :: (List.ofFn results).flatten := by
  have htypes {classes : List ClassOutput} :
      (∃ r, lowerTypes (List.range pod.types.size)
        (PodEnv.withParallel ⟨pod, others, config⟩ parallel) {} = .ok classes r) ↔ _ :=
    lowerTypes_eq_ok .empty parallel
  simp only [forall₂_range_iff] at htypes
  have hliterals : lowerLiterals pod { config with parallel } = lowerLiterals pod config := rfl
  constructor
  · intro h
    obtain ⟨literals, hfirst, h₁⟩ := except_bind_eq_ok.mp h
    split at h₁
    · rename_i classes r hrun
      cases h₁
      obtain ⟨outs, ⟨results, hall, rfl⟩, rfl⟩ := htypes.mp ⟨r, hrun⟩
      exact ⟨literals, results, hliterals ▸ hfirst, hall, rfl⟩
    · cases h₁
  · rintro ⟨literals, results, hfirst, hall, rfl⟩
    obtain ⟨r, hrun⟩ := htypes.mpr ⟨_, ⟨results, hall, rfl⟩, rfl⟩
    refine except_bind_eq_ok.mpr ⟨literals, hliterals ▸ hfirst, ?_⟩
    have hrun : ((lowerTypes (List.range pod.types.size)).run
        ⟨pod, others, { config with parallel }⟩).run {} = .ok (List.ofFn results).flatten r := hrun
    rw [hrun]
    rfl

-- Types that are started at once on a resolver.
def Crew.ofTypes (script : Nat → Script (List ClassOutput)) {n : Nat} (index : Fin n → Nat)
    (r : Resolver) : Crew n (List ClassOutput) :=
  ⟨fun i => .going (script (index i)), r⟩

-- The classes of a pod whose types are started at once, once that of the literals is there.
inductive LowersSideBySide (pod : Pod) (config : EmitConfig)
    (script : Nat → Script (List ClassOutput)) : Except LoweringError (List ClassOutput) → Prop where
  | unstarted {err : LoweringError} (h : lowerLiterals pod config = .error err) :
      LowersSideBySide pod config script (.error err)
  | collected {literals : ClassOutput} {c : Crew pod.types.size (List ClassOutput)}
      {x : Except LoweringError (List ClassOutput)} (h : lowerLiterals pod config = .ok literals)
      (hc : (Crew.ofTypes script (fun i : Fin pod.types.size => (i : Nat)) {}).Reaches pod.symbols c)
      (hx : c.Collects x) : LowersSideBySide pod config script ((literals :: ·) <$> x)

variable {script : Nat → Script (List ClassOutput)}

theorem Crew.sound_ofTypes (hscript : ∀ index, (script index).Lowers e index) {n : Nat}
    (index : Fin n → Nat) (hr : r.Reached e.pod.symbols) :
    (Crew.ofTypes script index r).Sound e.pod.symbols ∧
      ∀ i, ((Crew.ofTypes script index r).threads i).outcome e.pod.symbols =
        e.classesOf (index i) :=
  ⟨⟨hr, fun _ => trivial⟩, fun i => (hscript (index i)).outcome_eq⟩

-- What is collected from the types of a pod is what they have one after the other.
theorem LowersSideBySide.eq_ok_iff {x : Except LoweringError (List ClassOutput)}
    (h : LowersSideBySide pod config script x)
    (hscript : ∀ index, (script index).Lowers ⟨pod, others, config⟩ index) (parallel : Bool)
    (out : List ClassOutput) :
    x = .ok out ↔ lowerPod pod others { config with parallel } = .ok out := by
  rw [lowerPod_eq_ok_iff]
  obtain ⟨hliterals⟩ | ⟨hliterals, hreaches, hx⟩ := h
  · constructor
    · intro h
      cases h
    · rintro ⟨literals, results, hfirst, -⟩
      cases hliterals.symm.trans hfirst
  · obtain ⟨hsound, houtcome⟩ := Crew.sound_ofTypes hscript
      (fun i : Fin pod.types.size => (i : Nat)) .empty
    have hright := hsound.settles.right _ hreaches
    constructor
    · intro h
      obtain @⟨results, hall⟩ | hfailed := hx
      · cases h
        exact ⟨_, results, hliterals, fun i => ((hright i _ (hall i)).trans (houtcome i)).symm, rfl⟩
      · cases h
    · rintro ⟨literals, results, hfirst, hall, rfl⟩
      cases hliterals.symm.trans hfirst
      obtain @⟨results', hall'⟩ | @⟨i, err, hfailed⟩ := hx
      · have hsame : results' = results := by
          funext i
          have hi := (hright i _ (hall' i)).trans ((houtcome i).trans (hall i))
          exact Except.ok.inj hi
        rw [hsame]
        rfl
      · cases (hright i _ hfailed).trans ((houtcome i).trans (hall i))

-- The types come to an end in some order, and then there is something to collect.
theorem exists_lowersSideBySide
    (hscript : ∀ index, (script index).Lowers ⟨pod, others, config⟩ index) :
    ∃ x, LowersSideBySide pod config script x := by
  cases hliterals : lowerLiterals pod config with
  | error err => exact ⟨_, .unstarted hliterals⟩
  | ok literals =>
    obtain ⟨hsound, houtcome⟩ := Crew.sound_ofTypes hscript
      (fun i : Fin pod.types.size => (i : Nat)) .empty
    obtain ⟨c, hreaches, hend⟩ := hsound.exists_end
    by_cases hall : ∀ i : Fin pod.types.size, ∃ classes,
        PodEnv.classesOf ⟨pod, others, config⟩ i = .ok classes
    · choose results hresults using hall
      refine ⟨_, .collected (x := .ok (List.ofFn results).flatten) hliterals hreaches
        (.all fun i => ?_)⟩
      rw [hend i, houtcome i, hresults i]
    · obtain ⟨i, hi⟩ := not_forall.mp hall
      cases herr : PodEnv.classesOf ⟨pod, others, config⟩ i with
      | ok classes => exact absurd ⟨classes, herr⟩ hi
      | error err =>
        refine ⟨_, .collected hliterals hreaches (.failed (i := i) (e := err) ?_)⟩
        rw [hend i, houtcome i, herr]

-- Lowering a type gives the same whatever the resolver keeps: one type after the other in any
-- order, or step by step between those of others. So a pod has the class of its literals and then
-- those of its types in their order, or else none, whether types are lowered side by side or not.
theorem lowering_order_irrelevant (pod : Pod) (others : PodSet) (config : EmitConfig) :
    (∀ index r parallel, r.Reached pod.symbols →
      given (lowerType index ⟨pod, others, { config with parallel }⟩ r) =
        PodEnv.classesOf ⟨pod, others, config⟩ index ∧
      (behind (lowerType index ⟨pod, others, { config with parallel }⟩ r)).Reached pod.symbols) ∧
    (∃ script : Nat → Script (List ClassOutput),
      ∀ index, (script index).Lowers ⟨pod, others, config⟩ index) ∧
    ∀ script : Nat → Script (List ClassOutput),
      (∀ index, (script index).Lowers ⟨pod, others, config⟩ index) →
      (∀ n (index : Fin n → Nat) r, r.Reached pod.symbols →
        (Crew.ofTypes script index r).Settles pod.symbols fun i =>
          PodEnv.classesOf ⟨pod, others, config⟩ (index i)) ∧
      (∀ parallel out, lowerPod pod others { config with parallel } = .ok out ↔
        ∃ literals, ∃ results : Fin pod.types.size → List ClassOutput,
          lowerLiterals pod config = .ok literals ∧
          (∀ i : Fin pod.types.size,
            PodEnv.classesOf ⟨pod, others, config⟩ i = .ok (results i)) ∧
          out = literals :: (List.ofFn results).flatten) ∧
      (∃ x, LowersSideBySide pod config script x) ∧
      ∀ x, LowersSideBySide pod config script x → ∀ parallel out,
        x = .ok out ↔ lowerPod pod others { config with parallel } = .ok out := by
  refine ⟨fun index r parallel hr =>
    lowerType_of_reached (e := ⟨pod, others, config⟩) hr index parallel, ?_, ?_⟩
  · choose script hscript using fun index =>
      scripted_lowerType index ⟨pod, others, config⟩
    exact ⟨script, hscript⟩
  · intro script hscript
    refine ⟨?_, fun parallel out => lowerPod_eq_ok_iff parallel, exists_lowersSideBySide hscript,
      fun x hx => hx.eq_ok_iff hscript⟩
    intro n index r hr
    obtain ⟨hsound, houtcome⟩ := Crew.sound_ofTypes hscript index hr
    rw [← funext houtcome]
    exact hsound.settles

end Types

-- The mixin of a pod, by a thread of its own.
theorem lowering_order_irrelevant_runs : ∃ classes script,
    lowerPod runsEnv.pod runsEnv.others runsEnv.config = .ok classes ∧
    (∀ index, Script.Lowers (script index) runsEnv index) ∧
    (∃ x, LowersSideBySide runsEnv.pod runsEnv.config script x) ∧
    ∀ x, LowersSideBySide runsEnv.pod runsEnv.config script x → x = .ok classes := by
  obtain ⟨classes, hclasses⟩ := exists_lowerPod_runs
  obtain ⟨-, ⟨script, hscript⟩, hall⟩ :=
    lowering_order_irrelevant runsEnv.pod runsEnv.others runsEnv.config
  obtain ⟨-, -, hsome, hsame⟩ := hall script hscript
  exact ⟨classes, script, hclasses, hscript, hsome,
    fun x hx => (hsame x hx runsEnv.config.parallel classes).mpr hclasses⟩

end PodCompiler.Lowering
