import PodCompiler.Lowering.Resolver

namespace PodCompiler.Lowering

open Pod (Symbols)

-- What a step gives, and the state that it leaves.
def given {ε σ α : Type} : EStateM.Result ε σ α → Except ε α
  | .ok a _ => .ok a
  | .error e _ => .error e

def behind {ε σ α : Type} : EStateM.Result ε σ α → σ
  | .ok _ s => s
  | .error _ s => s

-- What a resolver is asked for.
inductive Query where
  | call (index : UInt16) (kind : CallKind)
  | field (index : UInt16) (mixin : Bool)

namespace Query

abbrev Answer : Query → Type
  | call .. => Call
  | field .. => String

-- Asks a resolver.
def ask (s : Symbols) : (q : Query) → ResolverM q.Answer
  | call index kind => Resolver.call s index kind
  | field index mixin => Resolver.field s index mixin

-- The answer that the tables give.
def compute (s : Symbols) : (q : Query) → Except LoweringError q.Answer
  | call index kind => Resolver.computeCall s index kind
  | field index mixin => Resolver.computeField s index mixin

-- The answer that is kept.
def kept? (r : Resolver) : (q : Query) → Option q.Answer
  | call index kind => r.calls[(index, kind)]?
  | field index mixin => r.fields[(index, mixin)]?

-- The resolver once an answer was there.
def found (r : Resolver) : Query → Resolver
  | call .. => { r with hits := r.hits + 1 }
  | field .. => r

-- The resolver once an answer was computed. What is there already stays.
def keep (r : Resolver) : (q : Query) → q.Answer → Resolver
  | call index kind, c =>
    { r with
      calls := if r.calls[(index, kind)]?.isSome then r.calls else r.calls.insert (index, kind) c
      misses := r.misses + 1 }
  | field index mixin, sig =>
    { r with
      fields :=
        if r.fields[(index, mixin)]?.isSome then r.fields else r.fields.insert (index, mixin) sig }

section Ask

variable {s : Symbols} {q : Query} {r : Resolver} {a : q.Answer}

theorem ask_of_kept (h : q.kept? r = some a) : q.ask s r = .ok a (q.found r) := by
  cases q with
  | call index kind =>
    change Resolver.call s index kind r = _
    unfold Resolver.call
    rw [show r.calls[(index, kind)]? = some a from h]
    rfl
  | field index mixin =>
    change Resolver.field s index mixin r = _
    unfold Resolver.field
    rw [show r.fields[(index, mixin)]? = some a from h]
    rfl

theorem ask_of_computed (hkept : q.kept? r = none) (h : q.compute s = .ok a) :
    q.ask s r = .ok a (q.keep r a) := by
  cases q with
  | call index kind =>
    have hkept : r.calls[(index, kind)]? = none := hkept
    have h : Resolver.computeCall s index kind = .ok a := h
    simp only [ask, Resolver.call, keep, hkept, h, Option.isSome_none, Bool.false_eq_true,
      if_false]
  | field index mixin =>
    have hkept : r.fields[(index, mixin)]? = none := hkept
    have h : Resolver.computeField s index mixin = .ok a := h
    simp only [ask, Resolver.field, keep, hkept, h, Option.isSome_none, Bool.false_eq_true,
      if_false]

theorem ask_of_error {e : LoweringError} (hkept : q.kept? r = none)
    (h : q.compute s = .error e) : q.ask s r = .error e r := by
  cases q with
  | call index kind =>
    change Resolver.call s index kind r = _
    unfold Resolver.call
    rw [show r.calls[(index, kind)]? = none from hkept,
      show Resolver.computeCall s index kind = .error e from h]
  | field index mixin =>
    change Resolver.field s index mixin r = _
    unfold Resolver.field
    rw [show r.fields[(index, mixin)]? = none from hkept,
      show Resolver.computeField s index mixin = .error e from h]

end Ask

end Query

namespace Resolver

-- The resolvers of a pod: nothing is kept at first, and then what is computed.
inductive Reached (s : Symbols) : Resolver → Prop where
  | empty : Reached s {}
  | found {r : Resolver} (q : Query) (h : Reached s r) : Reached s (q.found r)
  | keep {r : Resolver} {q : Query} {a : q.Answer} (h : Reached s r) (ha : q.compute s = .ok a) :
      Reached s (q.keep r a)

variable {s : Symbols} {r : Resolver}

-- What is in a table once a value is kept.
theorem of_getElem?_keep {κ ν : Type} [BEq κ] [LawfulBEq κ] [Hashable κ] [LawfulHashable κ]
    {m : Std.HashMap κ ν} {key k : κ} {value v : ν}
    (h : (if m[key]?.isSome then m else m.insert key value)[k]? = some v) :
    m[k]? = some v ∨ key = k ∧ value = v := by
  split at h
  · exact .inl h
  · rw [Std.HashMap.getElem?_insert] at h
    split at h
    · rename_i heq
      exact .inr ⟨by simpa using heq, by simpa using h⟩
    · exact .inl h

-- What is kept is what would be computed.
theorem Reached.compute_eq (h : r.Reached s) {q : Query} {a : q.Answer}
    (ha : q.kept? r = some a) : q.compute s = .ok a := by
  induction h with
  | empty => cases q <;> simp [Query.kept?] at ha
  | found q' _ ih => cases q' <;> exact ih ha
  | @keep r q' b _ hb ih =>
    cases q' with
    | call index kind =>
      cases q with
      | field => exact ih ha
      | call index' kind' =>
        obtain hold | ⟨heq, rfl⟩ := of_getElem?_keep ha
        · exact ih hold
        · cases heq
          exact hb
    | field index mixin =>
      cases q with
      | call => exact ih ha
      | field index' mixin' =>
        obtain hold | ⟨heq, rfl⟩ := of_getElem?_keep ha
        · exact ih hold
        · cases heq
          exact hb

-- So asking gives what would be computed, and leaves such a resolver.
theorem Reached.given_ask (h : r.Reached s) (q : Query) : given (q.ask s r) = q.compute s := by
  cases hkept : q.kept? r with
  | some a =>
    rw [Query.ask_of_kept hkept, h.compute_eq hkept]
    rfl
  | none =>
    cases hcompute : q.compute s with
    | ok a =>
      rw [Query.ask_of_computed hkept hcompute]
      rfl
    | error e =>
      rw [Query.ask_of_error hkept hcompute]
      rfl

theorem Reached.behind_ask (h : r.Reached s) (q : Query) : (behind (q.ask s r)).Reached s := by
  cases hkept : q.kept? r with
  | some a =>
    rw [Query.ask_of_kept hkept]
    exact h.found q
  | none =>
    cases hcompute : q.compute s with
    | ok a =>
      rw [Query.ask_of_computed hkept hcompute]
      exact h.keep hcompute
    | error e =>
      rw [Query.ask_of_error hkept hcompute]
      exact h

end Resolver

-- What is asked, and what comes of it.
inductive Script (α : Type) where
  | done (x : Except LoweringError α)
  | ask (q : Query) (next : q.Answer → Script α)

namespace Script

variable {α β : Type} {s : Symbols}

-- Asks a resolver. If it cannot answer, that is the end.
def run (s : Symbols) : Script α → ResolverM α
  | done x => ofExcept x
  | ask q next => q.ask s >>= fun a => (next a).run s

-- What comes of a script if each answer is computed.
def outcome (s : Symbols) : Script α → Except LoweringError α
  | done x => x
  | ask q next => q.compute s >>= fun a => (next a).outcome s

-- One script after another.
def bind : Script α → (α → Script β) → Script β
  | done (.ok a), k => k a
  | done (.error e), _ => done (.error e)
  | ask q next, k => ask q fun a => (next a).bind k

theorem run_bind (σ : Script α) (k : α → Script β) :
    (σ.bind k).run s = σ.run s >>= fun a => (k a).run s := by
  induction σ with
  | done x => cases x <;> rfl
  | ask q next ih =>
    change (q.ask s >>= fun a => ((next a).bind k).run s) =
      (q.ask s >>= fun a => (next a).run s) >>= fun a => (k a).run s
    rw [bind_assoc]
    exact congrArg _ (funext ih)

-- It runs to the same end on every resolver, and leaves one again.
theorem run_of_reached (σ : Script α) {r : Resolver} (h : r.Reached s) :
    given (σ.run s r) = σ.outcome s ∧ (behind (σ.run s r)).Reached s := by
  induction σ generalizing r with
  | done x => cases x <;> exact ⟨rfl, h⟩
  | ask q next ih =>
    have hgiven := h.given_ask q
    have hbehind := h.behind_ask q
    change given (EStateM.bind (q.ask s) (fun a => (next a).run s) r) =
      (q.compute s).bind (fun a => (next a).outcome s) ∧
        (behind (EStateM.bind (q.ask s) (fun a => (next a).run s) r)).Reached s
    unfold EStateM.bind
    rw [← hgiven]
    cases hask : q.ask s r with
    | ok a r' =>
      rw [hask] at hbehind
      exact ih a hbehind
    | error e r' =>
      rw [hask] at hbehind
      exact ⟨rfl, hbehind⟩

end Script

end PodCompiler.Lowering
