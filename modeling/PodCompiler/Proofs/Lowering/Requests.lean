import Mathlib.Data.Finset.Card
import Mathlib.Data.List.Dedup
import PodCompiler.Proofs.Lowering.Script

namespace PodCompiler.Lowering

open Pod (Symbols)

deriving instance DecidableEq for Query

namespace Query

def isCall : Query → Bool
  | call .. => true
  | field .. => false

-- A call that can be answered.
def IsAnsweredCall (s : Symbols) (q : Query) : Prop :=
  q.isCall ∧ (q.compute s).isOk

instance (s : Symbols) : DecidablePred (IsAnsweredCall s) :=
  fun q => inferInstanceAs (Decidable (q.isCall ∧ (q.compute s).isOk))

variable {s : Symbols} {q q' : Query} {r : Resolver} {a : q.Answer}

theorem kept?_empty (q : Query) : q.kept? {} = none := by
  cases q <;> simp [kept?]

@[simp] theorem kept?_found : q'.kept? (q.found r) = q'.kept? r := by
  cases q <;> cases q' <;> rfl

theorem kept?_keep_self (h : q.kept? r = none) : q.kept? (q.keep r a) = some a := by
  cases q with
  | call index kind =>
    have h : r.calls[(index, kind)]? = none := h
    simp [kept?, keep, h]
  | field index mixin =>
    have h : r.fields[(index, mixin)]? = none := h
    simp [kept?, keep, h]

-- Each answer has a place of its own.
theorem kept?_keep_of_ne (h : q' ≠ q) : q'.kept? (q.keep r a) = q'.kept? r := by
  cases q with
  | call index kind =>
    cases q' with
    | field => rfl
    | call index' kind' =>
      have hkey : ((index, kind) == (index', kind')) = false := by
        refine beq_false_of_ne fun heq => h ?_
        cases heq
        rfl
      simp only [kept?, keep]
      split
      · rfl
      · rw [Std.HashMap.getElem?_insert, hkey]
        rfl
  | field index mixin =>
    cases q' with
    | call => rfl
    | field index' mixin' =>
      have hkey : ((index, mixin) == (index', mixin')) = false := by
        refine beq_false_of_ne fun heq => h ?_
        cases heq
        rfl
      simp only [kept?, keep]
      split
      · rfl
      · rw [Std.HashMap.getElem?_insert, hkey]
        rfl

-- A request that fails leaves the resolver as it is.
theorem behind_ask_of_error (hr : r.Reached s) {e : LoweringError} (h : q.compute s = .error e) :
    behind (q.ask s r) = r := by
  cases hkept : q.kept? r with
  | none =>
    rw [ask_of_error hkept h]
    rfl
  | some a => cases h.symm.trans (hr.compute_eq hkept)

-- Every other request finds what it found before.
theorem kept?_behind_ask_of_ne (h : q' ≠ q) : q'.kept? (behind (q.ask s r)) = q'.kept? r := by
  cases hkept : q.kept? r with
  | some a =>
    rw [ask_of_kept hkept]
    exact kept?_found
  | none =>
    cases hcompute : q.compute s with
    | ok a =>
      rw [ask_of_computed hkept hcompute]
      exact kept?_keep_of_ne h
    | error e =>
      rw [ask_of_error hkept hcompute]
      rfl

theorem kept?_behind_ask_self (hr : r.Reached s) :
    q.kept? (behind (q.ask s r)) = (q.compute s).toOption := by
  cases hkept : q.kept? r with
  | some a =>
    rw [ask_of_kept hkept, hr.compute_eq hkept]
    exact kept?_found.trans hkept
  | none =>
    cases hcompute : q.compute s with
    | ok a =>
      rw [ask_of_computed hkept hcompute]
      exact kept?_keep_self hkept
    | error e =>
      rw [ask_of_error hkept hcompute]
      exact hkept

-- A call that is answered counts once, as found or as computed; nothing else counts.
theorem hits_behind_ask (hr : r.Reached s) :
    (behind (q.ask s r)).hits =
      r.hits + if q.IsAnsweredCall s ∧ q.kept? r ≠ none then 1 else 0 := by
  cases hkept : q.kept? r with
  | some a =>
    rw [ask_of_kept hkept]
    have hcompute := hr.compute_eq hkept
    cases q <;> simp [IsAnsweredCall, isCall, hcompute, found, behind, Except.isOk, Except.toBool]
  | none =>
    cases hcompute : q.compute s with
    | ok a =>
      rw [ask_of_computed hkept hcompute]
      cases q <;> simp [behind, keep]
    | error e =>
      rw [ask_of_error hkept hcompute]
      simp [behind]

theorem misses_behind_ask :
    (behind (q.ask s r)).misses =
      r.misses + if q.IsAnsweredCall s ∧ q.kept? r = none then 1 else 0 := by
  cases hkept : q.kept? r with
  | some a =>
    rw [ask_of_kept hkept]
    cases q <;> simp [behind, found]
  | none =>
    cases hcompute : q.compute s with
    | ok a =>
      rw [ask_of_computed hkept hcompute]
      cases q <;> simp [IsAnsweredCall, isCall, hcompute, keep, behind, Except.isOk, Except.toBool]
    | error e =>
      rw [ask_of_error hkept hcompute]
      simp [IsAnsweredCall, hcompute, behind, Except.isOk, Except.toBool]

end Query

-- A request with what it is given.
abbrev Reply := (q : Query) × Except LoweringError q.Answer

namespace Resolver

-- The replies to some requests one after the other, and the resolver that they leave.
def askAll (s : Symbols) : List Query → Resolver → List Reply × Resolver
  | [], r => ([], r)
  | q :: qs, r =>
    let x := q.ask s r
    let (replies, r') := askAll s qs (behind x)
    (⟨q, given x⟩ :: replies, r')

variable {s : Symbols} {r : Resolver}

theorem Reached.replies_askAll (h : r.Reached s) (qs : List Query) :
    (askAll s qs r).1 = qs.map fun q => ⟨q, q.compute s⟩ := by
  induction qs generalizing r with
  | nil => rfl
  | cons q qs ih =>
    change ⟨q, given (q.ask s r)⟩ :: (askAll s qs (behind (q.ask s r))).1 = _
    rw [h.given_ask q, ih (h.behind_ask q)]
    rfl

theorem Reached.kept?_askAll (h : r.Reached s) (qs : List Query) (q : Query) :
    q.kept? (askAll s qs r).2 = if q ∈ qs then (q.compute s).toOption else q.kept? r := by
  induction qs generalizing r with
  | nil => simp [askAll]
  | cons q' qs ih =>
    change q.kept? (askAll s qs (behind (q'.ask s r))).2 = _
    rw [ih (h.behind_ask q')]
    by_cases hsame : q = q'
    · subst hsame
      simp [Query.kept?_behind_ask_self h]
    · simp [hsame, Query.kept?_behind_ask_of_ne hsame]

theorem Reached.hits_add_misses_askAll (h : r.Reached s) (qs : List Query) :
    (askAll s qs r).2.hits + (askAll s qs r).2.misses =
      r.hits + r.misses + qs.countP fun q => q.IsAnsweredCall s := by
  induction qs generalizing r with
  | nil => rfl
  | cons q qs ih =>
    change (askAll s qs (behind (q.ask s r))).2.hits +
      (askAll s qs (behind (q.ask s r))).2.misses = _
    rw [ih (h.behind_ask q), Query.hits_behind_ask h, Query.misses_behind_ask,
      List.countP_cons]
    by_cases hcall : q.IsAnsweredCall s <;> by_cases hkept : q.kept? r = none <;>
      simp [hcall, hkept] <;> omega

-- The calls among some requests whose answers are to be computed, each once.
def fresh (s : Symbols) (qs : List Query) (r : Resolver) : Finset Query :=
  qs.toFinset.filter fun q => q.IsAnsweredCall s ∧ q.kept? r = none

theorem Reached.misses_askAll (h : r.Reached s) (qs : List Query) :
    (askAll s qs r).2.misses = r.misses + (fresh s qs r).card := by
  induction qs generalizing r with
  | nil => rfl
  | cons q qs ih =>
    change (askAll s qs (behind (q.ask s r))).2.misses = _
    rw [ih (h.behind_ask q), Query.misses_behind_ask, Nat.add_assoc]
    congr 1
    by_cases hfresh : q.IsAnsweredCall s ∧ q.kept? r = none
    · -- It is computed now, and no request after it has to.
      have hrest : fresh s qs (behind (q.ask s r)) = (fresh s qs r).erase q := by
        ext q'
        by_cases hsame : q' = q
        · subst hsame
          obtain ⟨a, ha⟩ : ∃ a, q'.compute s = .ok a := by
            cases hcompute : q'.compute s with
            | ok a => exact ⟨a, rfl⟩
            | error e => simp [Query.IsAnsweredCall, hcompute, Except.isOk, Except.toBool] at hfresh
          simp [fresh, Query.kept?_behind_ask_self h, ha, Except.toOption]
        · simp [fresh, hsame, Query.kept?_behind_ask_of_ne hsame]
      have hall : fresh s (q :: qs) r = insert q ((fresh s qs r).erase q) := by
        ext q'
        by_cases hsame : q' = q
        · subst hsame
          simp [fresh, hfresh]
        · simp [fresh, hsame]
      rw [hrest, hall, Finset.card_insert_of_notMem (Finset.notMem_erase q _), if_pos hfresh,
        Nat.add_comm]
    · -- What was kept stays, and nothing is added that a call could find.
      have hrest : fresh s qs (behind (q.ask s r)) = fresh s (q :: qs) r := by
        ext q'
        by_cases hsame : q' = q
        · subst hsame
          have hold : ¬(q'.IsAnsweredCall s ∧ q'.kept? (behind (q'.ask s r)) = none) := by
            rintro ⟨hcall, hnone⟩
            rw [Query.kept?_behind_ask_self h] at hnone
            obtain ⟨-, hok⟩ := hcall
            cases hcompute : q'.compute s with
            | ok a => simp [hcompute, Except.toOption] at hnone
            | error e => simp [hcompute, Except.isOk, Except.toBool] at hok
          simp only [fresh, Finset.mem_filter, hold, hfresh, and_false]
        · simp [fresh, hsame, Query.kept?_behind_ask_of_ne hsame]
      rw [hrest, if_neg hfresh, Nat.zero_add]

-- Whatever is asked of a resolver that keeps nothing at first, in any order and as often as one
-- likes: each request is given what the tables give, as if it were the only one. Then exactly the
-- answers to these requests are kept, each under its own reference and kind; what fails leaves the
-- resolver as it is, and no request changes what another one finds. Each answered call is counted
-- once, as a miss if it is the first of its kind and as a hit otherwise.
theorem requests_transparent (s : Symbols) (qs : List Query) :
    (askAll s qs {}).1 = qs.map (fun q => ⟨q, q.compute s⟩) ∧
    (∀ q : Query, given (q.ask s {}) = q.compute s) ∧
    (∀ q, q.kept? (askAll s qs {}).2 = if q ∈ qs then (q.compute s).toOption else none) ∧
    (∀ (q : Query) e, q.compute s = .error e →
      behind (q.ask s (askAll s qs {}).2) = (askAll s qs {}).2) ∧
    (∀ q q' : Query, q' ≠ q →
      q'.kept? (behind (q.ask s (askAll s qs {}).2)) = q'.kept? (askAll s qs {}).2) ∧
    (askAll s qs {}).2.hits + (askAll s qs {}).2.misses =
      qs.countP (fun q => q.IsAnsweredCall s) ∧
    (askAll s qs {}).2.misses = (qs.toFinset.filter (Query.IsAnsweredCall s)).card := by
  have hempty : Reached s {} := .empty
  have hreached : (askAll s qs {}).2.Reached s := by
    suffices hall : ∀ {r : Resolver}, r.Reached s → (askAll s qs r).2.Reached s from hall hempty
    induction qs with
    | nil => exact fun h => h
    | cons q qs ih => exact fun h => ih (h.behind_ask q)
  refine ⟨hempty.replies_askAll qs, hempty.given_ask, fun q => ?_,
    fun q e h => Query.behind_ask_of_error hreached h,
    fun q q' h => Query.kept?_behind_ask_of_ne h, ?_, ?_⟩
  · rw [hempty.kept?_askAll qs q, Query.kept?_empty]
  · rw [hempty.hits_add_misses_askAll qs]
    simp
  · rw [hempty.misses_askAll qs]
    simp [fresh, Query.kept?_empty]

-- A method of the class of all objects.
def toStrSymbols : Symbols where
  typeRefs := #[⟨"sys", "Obj", ""⟩, ⟨"sys", "Str", ""⟩]
  methodRefs := #[⟨0, "toStr", 1, #[]⟩]

-- Called in two ways, once more in the first, and beside it a reference that there is not.
theorem requests_transparent_toStr :
    let r := (askAll toStrSymbols [.call 0 .virtual, .call 0 .nonVirtual, .call 1 .static,
      .call 0 .virtual] {}).2
    r.calls[((0, .virtual) : UInt16 × CallKind)]? = some (.invoke
      { op := 184, sig := "fan/sys/FanObj.toStr(Ljava/lang/Object;)Ljava/lang/String;",
        explicitSelf := true }) ∧
    r.calls[((0, .nonVirtual) : UInt16 × CallKind)]? = some (.invoke
      { op := 183, sig := "fan/sys/FanObj.toStr()Ljava/lang/String;" }) ∧
    r.calls[((1, .static) : UInt16 × CallKind)]? = none ∧ r.hits = 1 ∧ r.misses = 2 := by
  obtain ⟨-, -, hkept, -, -, hcounted, hmisses⟩ := requests_transparent toStrSymbols
    [.call 0 .virtual, .call 0 .nonVirtual, .call 1 .static, .call 0 .virtual]
  have htwo : (askAll toStrSymbols [.call 0 .virtual, .call 0 .nonVirtual, .call 1 .static,
      .call 0 .virtual] {}).2.misses = 2 := hmisses.trans (by decide +kernel)
  refine ⟨(hkept (.call 0 .virtual)).trans (by decide +kernel),
    (hkept (.call 0 .nonVirtual)).trans (by decide +kernel),
    (hkept (.call 1 .static)).trans (by decide +kernel), ?_, htwo⟩
  rw [htwo] at hcounted
  have hthree := hcounted.trans (show _ = 3 by decide +kernel)
  omega

end Resolver

end PodCompiler.Lowering
