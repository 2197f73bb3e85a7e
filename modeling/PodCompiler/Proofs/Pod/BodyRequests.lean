import PodCompiler.Pod.Basic
import PodCompiler.Proofs.Instruction.Stream

namespace PodCompiler.Pod

-- A request for the body of one type, or for all bodies.
inductive Request where
  | body (index : Nat)
  | all
  deriving DecidableEq

-- The types that a request reads, in their order.
def Request.indices (p : Pod) : Request → List Nat
  | .body index => [index]
  | .all => List.range p.types.size

-- The pod after a request, and whether the request failed.
def serve (p : Pod) (q : Request) : Pod × Except FormatError Unit :=
  p.readBodies (q.indices p)

-- The pod after requests of which any may fail.
def serveAll (p : Pod) (qs : List Request) : Pod :=
  qs.foldl (fun p q => (p.serve q).1) p

-- What the store has as the body of a type.
def storedBody (p : Pod) (index : Nat) : Except FormatError TypeBody := do
  let t ← p.typeAt index
  let r ← p.symbols.typeRef t.self
  let data ← p.store.readRequired (bodyEntry r.name)
  (TypeBody.read p.symbols).runOn data "type body"

def isStored (p : Pod) (index : Nat) : Bool :=
  (p.storedBody index).toOption.isSome

-- Whether the store has bodies for all types of a list.
def allStored (p : Pod) : List Nat → Except FormatError Unit
  | [] => .ok ()
  | i :: rest => p.storedBody i >>= fun _ => p.allStored rest

-- The pod with the bodies of some types filled in from the store.
def filled (p : Pod) (done : List Nat) : Pod :=
  { p with
    types := p.types.mapIdx fun i t =>
      if i ∈ done then { t with body? := (p.storedBody i).toOption } else t }

-- The types whose bodies requests read. Each stops at the first that the store does not have.
def readBy (p : Pod) (qs : List Request) : List Nat :=
  qs.flatMap fun q => (q.indices p).takeWhile p.isStored

-- Some request got as far as the type, and read it.
def Succeeds (p : Pod) (qs : List Request) (i : Nat) : Prop :=
  ∃ before q after, qs = before ++ q :: after ∧ ∃ pre post, q.indices p = pre ++ i :: post ∧
    ((p.serveAll before).readBodies (pre ++ [i])).2 = .ok ()

-- What a request may do to a pod.
structure Request.Answered (q : Request) (p p' : Pod) (answer : Except FormatError Unit) :
    Prop where
  -- Name, tables, literals and store stay, and the number of types.
  rest : p' = { p with types := p'.types }
  size : p'.types.size = p.types.size
  -- Of a type, the body is read if there was none, and that is all.
  types : ∀ (i : Nat) (t : TypeDef), p.types[i]? = some t → p'.types[i]? = some t ∨
    i ∈ q.indices p ∧ t.isHollow = true ∧
      ∃ b, p.storedBody i = .ok b ∧ p'.types[i]? = some { t with body? := some b }
  -- What was read is not read again.
  again : (∀ i ∈ q.indices p, ∃ t, p.types[i]? = some t ∧ t.isHollow = false) →
    p' = p ∧ answer = .ok ()
  -- A request for one type does nothing when it fails, one for all types ends before the type that
  -- it failed at.
  failed : ∀ e, answer = .error e → ∀ i, q = .body i → p' = p
  stopped : ∀ e, answer = .error e → ∃ pre i post, q.indices p = pre ++ i :: post ∧
    p.readBodies pre = (p', .ok ()) ∧ p'.readBody i = .error e

-- A pod of which no body was read. Each type has a type ref of its own.
def Fresh (p : Pod) : Prop :=
  ∀ (i : Nat) (t : TypeDef), p.types[i]? = some t →
    t.body? = none ∧ ∃ r, p.symbols.typeRef t.self = .ok r

section Filled

variable {p : Pod} {done done' indices : List Nat} {i : Nat} {t : TypeDef}

theorem isStored_iff : p.isStored i = true ↔ ∃ b, p.storedBody i = .ok b := by
  unfold isStored
  cases p.storedBody i with
  | ok b => simp [Except.toOption]
  | error e => simp [Except.toOption]

theorem getElem?_filled : (p.filled done).types[i]? = (p.types[i]?).map fun t =>
    if i ∈ done then { t with body? := (p.storedBody i).toOption } else t :=
  Array.getElem?_mapIdx

theorem size_filled : (p.filled done).types.size = p.types.size :=
  Array.size_mapIdx

-- Only the set of the types that are filled in counts.
theorem filled_congr (h : ∀ i, i ∈ done ↔ i ∈ done') : p.filled done = p.filled done' := by
  unfold filled
  simp only [h]

theorem filled_nil (p : Pod) : p.filled [] = p := by
  have htypes : p.types.mapIdx (fun i t => if i ∈ ([] : List Nat) then
      { t with body? := (p.storedBody i).toOption } else t) = p.types := by
    refine Array.ext (by simp) fun i hi hi' => ?_
    simp
  unfold filled
  rw [htypes]

-- What the store has does not depend on what was read of it.
theorem storedBody_filled : (p.filled done).storedBody i = p.storedBody i := by
  have hself : (p.filled done).typeAt i >>= (fun t => p.symbols.typeRef t.self) =
      p.typeAt i >>= fun t => p.symbols.typeRef t.self := by
    unfold typeAt
    rw [getElem?_filled, size_filled]
    cases p.types[i]? with
    | none => rfl
    | some t =>
      dsimp only [Option.map_some, bind, Except.bind]
      split <;> rfl
  have hname (q : Pod) : q.storedBody i = (q.typeAt i >>= fun t => q.symbols.typeRef t.self) >>=
      fun r => q.store.readRequired (bodyEntry r.name) >>= fun data =>
        (TypeBody.read q.symbols).runOn data "type body" := by
    rw [storedBody, bind_assoc]
  rw [hname, hname]
  exact congrArg (· >>= _) hself

-- The body of a type whose type ref is known is read from the store if it was not before.
theorem readBody_eq (ht : p.types[i]? = some t) {r : TypeRef}
    (hr : p.symbols.typeRef t.self = .ok r) :
    p.readBody i = if t.isHollow then (p.storedBody i).map fun b =>
        { p with types := p.types.setIfInBounds i { t with body? := some b } }
      else .ok p := by
  have htype : p.typeAt i = .ok t := by rw [typeAt, ht]
  unfold readBody storedBody
  rw [htype]
  dsimp only [bind, Except.bind]
  rw [hr]
  dsimp only
  split
  · cases p.store.readRequired (bodyEntry r.name) with
    | error e => rfl
    | ok data =>
      dsimp only
      cases (TypeBody.read p.symbols).runOn data "type body" <;> rfl
  · rfl

theorem setIfInBounds_filled (ht : p.types[i]? = some t) {b : TypeBody}
    (hb : p.storedBody i = .ok b) :
    (p.filled done).types.setIfInBounds i { t with body? := some b } =
      (p.filled (i :: done)).types := by
  refine Array.ext_getElem? fun j => ?_
  rw [Array.getElem?_setIfInBounds, getElem?_filled, getElem?_filled, size_filled]
  by_cases hij : i = j
  · subst hij
    obtain ⟨hlt, -⟩ := Array.getElem?_eq_some_iff.mp ht
    rw [if_pos rfl, if_pos hlt, ht, hb]
    simp [Except.toOption]
  · simp [hij, Ne.symm hij]

-- A body that is read is filled in, and nothing else is done; one that is there stays.
theorem readBody_filled (hp : p.Fresh) (hdone : ∀ i ∈ done, p.isStored i = true) :
    (p.filled done).readBody i =
      if i ∈ done then .ok (p.filled done)
      else (p.storedBody i).map fun _ => p.filled (i :: done) := by
  cases ht : p.types[i]? with
  | none =>
    have hstored : p.storedBody i = .error (.badIndex "types" i p.types.size) := by
      unfold storedBody typeAt
      rw [ht]
      rfl
    have hnot : i ∉ done := fun hmem => by
      simpa [isStored, hstored, Except.toOption] using hdone i hmem
    unfold readBody typeAt
    rw [getElem?_filled, ht, size_filled, if_neg hnot, hstored]
    rfl
  | some t =>
    obtain ⟨hhollow, r, hr⟩ := hp i t ht
    by_cases hmem : i ∈ done
    · obtain ⟨b, hb⟩ := isStored_iff.mp (hdone i hmem)
      have hthere : (p.filled done).types[i]? = some { t with body? := some b } := by
        rw [getElem?_filled, ht, hb, Option.map_some, if_pos hmem]
        rfl
      rw [readBody_eq hthere hr, if_pos hmem]
      rfl
    · have hthere : (p.filled done).types[i]? = some t := by
        rw [getElem?_filled, ht, Option.map_some, if_neg hmem]
      have hhollow' : t.isHollow = true := by simp [TypeDef.isHollow, hhollow]
      rw [readBody_eq hthere hr, if_neg hmem, if_pos hhollow', storedBody_filled]
      cases hb : p.storedBody i with
      | error e => rfl
      | ok b =>
        rw [Except.map, Except.map, setIfInBounds_filled ht hb]
        rfl

-- Bodies are read one after the other, up to the first that the store does not have.
theorem readBodies_filled (hp : p.Fresh) (indices : List Nat)
    (hdone : ∀ i ∈ done, p.isStored i = true) :
    (p.filled done).readBodies indices =
      (p.filled (indices.takeWhile p.isStored ++ done), p.allStored indices) := by
  induction indices generalizing done with
  | nil => rfl
  | cons i rest ih =>
    have hstep : (p.filled done).readBody i =
        (p.storedBody i).map fun _ => p.filled (i :: done) := by
      rw [readBody_filled hp hdone]
      split
      case isTrue hmem =>
        obtain ⟨b, hb⟩ := isStored_iff.mp (hdone i hmem)
        have hsame : p.filled (i :: done) = p.filled done :=
          filled_congr fun j => by
            rw [List.mem_cons, or_iff_right_of_imp]
            rintro rfl
            exact hmem
        rw [hb, ← hsame]
        rfl
      case isFalse => rfl
    rw [readBodies, hstep, allStored]
    cases hb : p.storedBody i with
    | error e =>
      have hnot : p.isStored i = false := by simp [isStored, hb, Except.toOption]
      rw [List.takeWhile_cons_of_neg (by simp [hnot])]
      rfl
    | ok b =>
      have hi : p.isStored i = true := isStored_iff.mpr ⟨b, hb⟩
      have hmore : ∀ j ∈ i :: done, p.isStored j = true := by
        intro j hj
        obtain rfl | hj := List.mem_cons.mp hj
        · exact hi
        · exact hdone j hj
      have hset : p.filled (rest.takeWhile p.isStored ++ i :: done) =
          p.filled ((i :: rest).takeWhile p.isStored ++ done) :=
        filled_congr fun j => by
          rw [List.takeWhile_cons_of_pos hi]
          simp [or_left_comm]
      rw [← hset]
      exact ih hmore

theorem indices_filled (q : Request) : q.indices (p.filled done) = q.indices p := by
  cases q with
  | body i => rfl
  | all => rw [Request.indices, Request.indices, size_filled]

theorem serve_filled (hp : p.Fresh) (hdone : ∀ i ∈ done, p.isStored i = true) (q : Request) :
    (p.filled done).serve q = (p.filled (p.readBy [q] ++ done), p.allStored (q.indices p)) := by
  rw [serve, indices_filled, readBodies_filled hp _ hdone, readBy, List.flatMap_singleton]

theorem isStored_of_readBy {qs : List Request} (h : i ∈ p.readBy qs) : p.isStored i = true := by
  obtain ⟨q, -, hi⟩ := List.mem_flatMap.mp h
  exact List.mem_takeWhile_imp hi

-- What is filled in by requests is what each of them would read alone.
theorem foldl_serve_filled (hp : p.Fresh) (qs : List Request)
    (hdone : ∀ i ∈ done, p.isStored i = true) :
    (p.filled done).serveAll qs = p.filled (p.readBy qs ++ done) := by
  induction qs generalizing done with
  | nil => rfl
  | cons q qs ih =>
    have hmore : ∀ i ∈ p.readBy [q] ++ done, p.isStored i = true := fun i hi =>
      (List.mem_append.mp hi).elim isStored_of_readBy (hdone i)
    rw [serveAll, List.foldl_cons, serve_filled hp hdone]
    refine (ih hmore).trans (filled_congr fun j => ?_)
    simp only [readBy, List.flatMap_cons, List.flatMap_nil, List.mem_append, List.append_nil]
    exact or_left_comm.trans or_assoc.symm

theorem serveAll_eq (hp : p.Fresh) (qs : List Request) :
    p.serveAll qs = p.filled (p.readBy qs) := by
  have hnone : ∀ i ∈ ([] : List Nat), p.isStored i = true := by simp
  have h := foldl_serve_filled hp qs hnone
  rwa [filled_nil, List.append_nil] at h

theorem allStored_eq_ok : p.allStored indices = .ok () ↔ ∀ i ∈ indices, p.isStored i = true := by
  induction indices with
  | nil => simp [allStored]
  | cons i rest ih =>
    rw [List.forall_mem_cons, ← ih, allStored, except_bind_eq_ok, isStored_iff,
      exists_and_right]

-- When not all bodies can be read, those before the first that cannot are.
theorem exists_of_allStored_eq_error {e : FormatError} (h : p.allStored indices = .error e) :
    ∃ pre i post, indices = pre ++ i :: post ∧ indices.takeWhile p.isStored = pre ∧
      (∀ j ∈ pre, p.isStored j = true) ∧ p.storedBody i = .error e := by
  induction indices with
  | nil => exact absurd h (by simp [allStored])
  | cons i rest ih =>
    rw [allStored] at h
    cases hb : p.storedBody i with
    | error e' =>
      rw [hb] at h
      obtain rfl : e' = e := Except.error.inj h
      have hnot : p.isStored i = false := by simp [isStored, hb, Except.toOption]
      exact ⟨[], i, rest, rfl, List.takeWhile_cons_of_neg (by simp [hnot]), by simp, hb⟩
    | ok b =>
      rw [hb] at h
      obtain ⟨pre, j, post, hrest, htake, hpre, hj⟩ := ih h
      have hi : p.isStored i = true := isStored_iff.mpr ⟨b, hb⟩
      refine ⟨i :: pre, j, post, by rw [hrest, List.cons_append], ?_,
        List.forall_mem_cons.mpr ⟨hi, hpre⟩, hj⟩
      rw [List.takeWhile_cons_of_pos hi, htake]

-- A request to a pod of which some bodies were read.
theorem answered_filled (hp : p.Fresh) (hdone : ∀ i ∈ done, p.isStored i = true) (q : Request) :
    q.Answered (p.filled done) ((p.filled done).serve q).1 ((p.filled done).serve q).2 := by
  have hserve := serve_filled hp hdone q
  have hnew : ∀ i, i ∈ p.readBy [q] ↔ i ∈ (q.indices p).takeWhile p.isStored := fun i => by
    rw [readBy, List.flatMap_singleton]
  have hstopped : ∀ e, p.allStored (q.indices p) = .error e → ∃ pre i post,
      q.indices p = pre ++ i :: post ∧
        (p.filled done).readBodies pre = (p.filled (p.readBy [q] ++ done), .ok ()) ∧
        (p.filled (p.readBy [q] ++ done)).readBody i = .error e := by
    intro e he
    obtain ⟨pre, i, post, hindices, htake, hpre, hi⟩ := exists_of_allStored_eq_error he
    have hread : p.readBy [q] = pre := by rw [readBy, List.flatMap_singleton, htake]
    have hmore : ∀ j ∈ pre ++ done, p.isStored j = true := fun j hj =>
      (List.mem_append.mp hj).elim (hpre j) (hdone j)
    have hnot : i ∉ pre ++ done := fun hmem => by
      simpa [isStored, hi, Except.toOption] using hmore i hmem
    refine ⟨pre, i, post, hindices, ?_, ?_⟩
    · rw [readBodies_filled hp _ hdone, hread, List.takeWhile_eq_self_iff.mpr hpre,
        allStored_eq_ok.mpr hpre]
    · rw [hread, readBody_filled hp hmore, if_neg hnot, hi]
      rfl
  rw [hserve]
  constructor
  case rest => rfl
  case size => rw [size_filled, size_filled]
  case types =>
    intro i t ht
    rw [getElem?_filled] at ht
    obtain ⟨u, hu, rfl⟩ := Option.map_eq_some_iff.mp ht
    rw [getElem?_filled, hu, Option.map_some]
    by_cases hold : i ∈ done
    · exact .inl (by simp [hold])
    · by_cases hmem : i ∈ p.readBy [q]
      · have hq : i ∈ q.indices p := List.takeWhile_subset _ ((hnew i).mp hmem)
        obtain ⟨b, hb⟩ := isStored_iff.mp (isStored_of_readBy hmem)
        refine .inr ⟨by rwa [indices_filled], ?_, b, by rwa [storedBody_filled], ?_⟩
        · simp [hold, TypeDef.isHollow, (hp i u hu).1]
        · simp [hold, hmem, hb, Except.toOption]
      · exact .inl (by simp [hold, hmem])
  case again =>
    intro hall
    have hthere : ∀ i ∈ q.indices p, i ∈ done := by
      intro i hi
      obtain ⟨t, ht, hread⟩ := hall i (by rwa [indices_filled])
      rw [getElem?_filled] at ht
      obtain ⟨u, hu, rfl⟩ := Option.map_eq_some_iff.mp ht
      by_contra hnot
      simp [hnot, TypeDef.isHollow, (hp i u hu).1] at hread
    refine ⟨filled_congr fun i => ?_, allStored_eq_ok.mpr fun i hi => hdone i (hthere i hi)⟩
    rw [List.mem_append]
    exact or_iff_right_of_imp fun hi =>
      hthere i (List.takeWhile_subset _ ((hnew i).mp hi))
  case failed =>
    rintro e he i rfl
    obtain ⟨pre, j, post, hindices, hread, -⟩ := hstopped e he
    have hnil : pre = [] := by
      cases pre with
      | nil => rfl
      | cons k pre => simp [Request.indices] at hindices
    rw [hnil] at hread
    exact (congrArg Prod.fst hread).symm
  case stopped =>
    intro e he
    rw [indices_filled]
    exact hstopped e he

-- To get as far as a type is to be able to read all that come before it.
theorem succeeds_iff (hp : p.Fresh) {qs : List Request} :
    p.Succeeds qs i ↔ i ∈ p.readBy qs := by
  have hmem (before : List Request) (l : List Nat) :
      ((p.serveAll before).readBodies l).2 = .ok () ↔ ∀ j ∈ l, p.isStored j = true := by
    rw [serveAll_eq hp, readBodies_filled hp _ fun j hj => isStored_of_readBy hj]
    exact allStored_eq_ok
  constructor
  · rintro ⟨before, q, after, rfl, pre, post, hindices, hread⟩
    have hall := (hmem before _).mp hread
    refine List.mem_flatMap.mpr ⟨q, by simp, ?_⟩
    have hsplit : q.indices p = (pre ++ [i]) ++ post := by simp [hindices]
    rw [hsplit, List.takeWhile_append_of_pos hall]
    simp
  · intro h
    obtain ⟨q, hq, hi⟩ := List.mem_flatMap.mp h
    obtain ⟨before, after, rfl⟩ := List.append_of_mem hq
    obtain ⟨pre, post, htake⟩ := List.append_of_mem hi
    refine ⟨before, q, after, rfl, pre, post ++ (q.indices p).dropWhile p.isStored, ?_, ?_⟩
    · rw [← List.cons_append, ← List.append_assoc, ← htake, List.takeWhile_append_dropWhile]
    · refine (hmem before _).mpr fun j hj => List.mem_takeWhile_imp (l := q.indices p) ?_
      rw [htake]
      rw [List.mem_append, List.mem_singleton] at hj
      exact List.mem_append.mpr (hj.imp_right fun h => List.mem_cons.mpr (.inl h))

theorem mem_takeWhile_range {f : Nat → Bool} {n : Nat} :
    i ∈ (List.range n).takeWhile f ↔ i < n ∧ ∀ j ≤ i, f j = true := by
  constructor
  · intro h
    obtain ⟨m, hm⟩ : ∃ m, (List.range n).takeWhile f = List.range m := by
      have htake := List.prefix_iff_eq_take.mp (List.takeWhile_prefix f (l := List.range n))
      rw [List.take_range] at htake
      exact ⟨_, htake⟩
    refine ⟨List.mem_range.mp (List.takeWhile_subset _ h), fun j hj => ?_⟩
    refine List.mem_takeWhile_imp (l := List.range n) ?_
    rw [hm, List.mem_range] at h ⊢
    omega
  · rintro ⟨hlt, hall⟩
    obtain ⟨k, rfl⟩ := Nat.exists_eq_add_of_lt hlt
    rw [Nat.add_right_comm, List.range_add, List.takeWhile_append_of_pos]
    · exact List.mem_append_left _ (List.mem_range.mpr (Nat.lt_succ_self i))
    · intro j hj
      exact hall j (Nat.le_of_lt_succ (List.mem_range.mp hj))

-- A type is read when it was asked for, or when all were and the store has all up to it.
theorem mem_readBy {qs : List Request} : i ∈ p.readBy qs ↔ (∃ b, p.storedBody i = .ok b) ∧
    (.body i ∈ qs ∨ .all ∈ qs ∧ i < p.types.size ∧ ∀ j < i, ∃ b, p.storedBody j = .ok b) := by
  simp only [← isStored_iff]
  constructor
  · intro h
    refine ⟨isStored_of_readBy h, ?_⟩
    obtain ⟨q, hq, hi⟩ := List.mem_flatMap.mp h
    cases q with
    | body j =>
      have hij : i = j := List.mem_singleton.mp (List.takeWhile_subset _ hi)
      exact .inl (hij ▸ hq)
    | all =>
      obtain ⟨hlt, hall⟩ := mem_takeWhile_range.mp hi
      exact .inr ⟨hq, hlt, fun j hj => hall j hj.le⟩
  · rintro ⟨hi, hq | ⟨hq, hlt, hall⟩⟩
    · refine List.mem_flatMap.mpr ⟨.body i, hq, ?_⟩
      rw [Request.indices, List.takeWhile_cons_of_pos hi]
      exact List.mem_cons_self
    · refine List.mem_flatMap.mpr ⟨.all, hq, mem_takeWhile_range.mpr ⟨hlt, fun j hj => ?_⟩⟩
      obtain hj | rfl := Nat.lt_or_eq_of_le hj
      · exact hall j hj
      · exact hi

end Filled

section Loaded

variable {α β : Type} {P : α → Prop} {r : Read α} {c c' : Cursor}

theorem Read.bind_eq_ok {k : α → Read β} {b : β} :
    (r >>= k) c = .ok b c' ↔ ∃ a c₁, r c = .ok a c₁ ∧ k a c₁ = .ok b c' := by
  dsimp only [bind, EStateM.bind]
  cases r c with
  | ok a c₁ => simp
  | error e c₁ => simp

theorem Read.pure_eq_ok {a b : α} : (pure a : Read α) c = .ok b c' ↔ a = b ∧ c = c' := by
  change EStateM.Result.ok a c = .ok b c' ↔ _
  rw [EStateM.Result.ok.injEq]

theorem Read.runOn_eq_ok_iff {data : Bytes} {w : String} {a : α} :
    r.runOn data w = .ok a ↔ ∃ c, r (Cursor.start data w) = .ok a c := by
  have hrun : r.run (Cursor.start data w) = r (Cursor.start data w) := rfl
  unfold Read.runOn
  rw [hrun]
  cases r (Cursor.start data w) <;> simp

-- As many values are read as there should be.
theorem Read.size_timesAfter (n : Nat) {done as : Array α}
    (h : Read.timesAfter r done n c = .ok as c') : as.size = done.size + n := by
  induction n generalizing done c with
  | zero =>
    obtain ⟨rfl, -⟩ := Read.pure_eq_ok.mp h
    rfl
  | succ n ih =>
    obtain ⟨a, c₁, -, hrest⟩ := Read.bind_eq_ok.mp h
    rw [ih hrest, Array.size_push]
    omega

-- A byte run is no longer than its length of two bytes can say.
theorem Read.size_buf_le {bytes : Bytes} (h : Read.buf c = .ok bytes c') :
    bytes.size ≤ 0xFFFF := by
  obtain ⟨n, c₁, -, htake⟩ := Read.bind_eq_ok.mp h
  have hn := n.toNat_lt
  unfold Read.take at htake
  split at htake
  · cases htake
  · cases htake
    rw [Array.size_extract]
    omega

-- Where the variables of a method and its code are read.
theorem MethodDef.read_eq_ok {s : Symbols} {m : MethodDef} (h : MethodDef.read s c = .ok m c') :
    ∃ c₁ c₂ c₃, Read.times (m.paramCount.toNat + m.localCount.toNat) (VarDef.read s) c₁ =
      .ok m.vars c₂ ∧ Read.buf c₂ = .ok m.code c₃ := by
  obtain ⟨name, c₁, -, h⟩ := Read.bind_eq_ok.mp h
  obtain ⟨flags, c₂, -, h⟩ := Read.bind_eq_ok.mp h
  obtain ⟨ret, c₃, -, h⟩ := Read.bind_eq_ok.mp h
  obtain ⟨inheritedRet, c₄, -, h⟩ := Read.bind_eq_ok.mp h
  obtain ⟨maxStack, c₅, -, h⟩ := Read.bind_eq_ok.mp h
  obtain ⟨paramCount, c₆, -, h⟩ := Read.bind_eq_ok.mp h
  obtain ⟨localCount, c₇, -, h⟩ := Read.bind_eq_ok.mp h
  obtain ⟨vars, c₈, hvars, h⟩ := Read.bind_eq_ok.mp h
  obtain ⟨code, c₉, hcode, h⟩ := Read.bind_eq_ok.mp h
  obtain ⟨attrs, c₁₀, -, h⟩ := Read.bind_eq_ok.mp h
  obtain ⟨rfl, -⟩ := Read.pure_eq_ok.mp h
  exact ⟨c₇, c₈, c₉, hvars, hcode⟩

-- A method that is read has the variables that it counts.
theorem MethodDef.size_vars_of_read {s : Symbols} {m : MethodDef}
    (h : MethodDef.read s c = .ok m c') :
    m.vars.size = m.paramCount.toNat + m.localCount.toNat := by
  obtain ⟨c₁, c₂, -, hvars, -⟩ := MethodDef.read_eq_ok h
  simpa using Read.size_timesAfter _ hvars

theorem MethodDef.size_code_of_read {s : Symbols} {m : MethodDef}
    (h : MethodDef.read s c = .ok m c') : m.code.size ≤ 0xFFFF := by
  obtain ⟨c₁, c₂, c₃, -, hcode⟩ := MethodDef.read_eq_ok h
  exact Read.size_buf_le hcode

-- What holds of each item that is read holds of a whole table.
theorem forall_mem_timesAfter (hr : ∀ c a c', r c = .ok a c' → P a) (n : Nat) {done as : Array α}
    (hdone : ∀ a ∈ done, P a) (h : Read.timesAfter r done n c = .ok as c') : ∀ a ∈ as, P a := by
  induction n generalizing done c with
  | zero =>
    obtain ⟨rfl, -⟩ := Read.pure_eq_ok.mp h
    exact hdone
  | succ n ih =>
    obtain ⟨a, c₁, ha, hrest⟩ := Read.bind_eq_ok.mp h
    refine ih (fun x hx => ?_) hrest
    obtain hx | rfl := Array.mem_push.mp hx
    · exact hdone x hx
    · exact hr _ _ _ ha

theorem forall_mem_readTable (hr : ∀ c a c', r c = .ok a c' → P a) {store : Archive.Store}
    {entry w : String} {as : Array α} (h : readTable store entry w r = .ok as) :
    ∀ a ∈ as, P a := by
  obtain ⟨data?, -, hdata⟩ := except_bind_eq_ok.mp h
  cases data? with
  | none =>
    obtain rfl : #[] = as := Except.ok.inj hdata
    simp
  | some data =>
    obtain ⟨c', htable⟩ := Read.runOn_eq_ok_iff.mp hdata
    obtain ⟨n, c₁, -, htimes⟩ := Read.bind_eq_ok.mp htable
    exact forall_mem_timesAfter hr n.toNat (by simp) htimes

-- A type of the list has no body yet, and a type ref that is in the table.
theorem readType_eq_ok {s : Symbols} {t : TypeDef} (h : readType s c = .ok t c') :
    t.body? = none ∧ ∃ ref, s.typeRef t.self = .ok ref := by
  obtain ⟨u, c₁, hmeta, hrest⟩ := Read.bind_eq_ok.mp h
  obtain ⟨ref, c₂, href, hpure⟩ := Read.bind_eq_ok.mp hrest
  obtain ⟨rfl, -⟩ := Read.pure_eq_ok.mp hpure
  constructor
  · obtain ⟨self, _, -, hmeta⟩ := Read.bind_eq_ok.mp hmeta
    obtain ⟨base, _, -, hmeta⟩ := Read.bind_eq_ok.mp hmeta
    obtain ⟨mixins, _, -, hmeta⟩ := Read.bind_eq_ok.mp hmeta
    obtain ⟨flags, _, -, hmeta⟩ := Read.bind_eq_ok.mp hmeta
    obtain ⟨rfl, -⟩ := Read.pure_eq_ok.mp hmeta
    rfl
  · cases hself : s.typeRef u.self with
    | ok ref => exact ⟨ref, rfl⟩
    | error e =>
      rw [hself] at href
      exact absurd (show EStateM.Result.error e c₁ = .ok ref c₂ from href) (by simp)

theorem fresh_of_load {store : Archive.Store} {pod : Pod} (h : load store = .ok pod) :
    pod.Fresh := by
  obtain ⟨symbols, -, h⟩ := except_bind_eq_ok.mp h
  obtain ⟨data, -, h⟩ := except_bind_eq_ok.mp h
  obtain ⟨head, -, h⟩ := except_bind_eq_ok.mp h
  obtain ⟨types, htypes, h⟩ := except_bind_eq_ok.mp h
  obtain ⟨literals, -, h⟩ := except_bind_eq_ok.mp h
  obtain rfl := Except.ok.inj h
  intro i t ht
  exact forall_mem_readTable (fun _ _ _ => readType_eq_ok) htypes t
    (Array.mem_of_getElem? ht)

end Loaded

-- However bodies are asked for, each request leaves alone what it does not read, and what a type is
-- in the end depends only on whether some request got as far as the type: it is as it was loaded,
-- or has the one body that the store has for it.
theorem bodies_by_request {store : Archive.Store} {pod : Pod} (h : load store = .ok pod)
    (qs : List Request) :
    (∀ before q after, qs = before ++ q :: after →
      q.Answered (pod.serveAll before) ((pod.serveAll before).serve q).1
        ((pod.serveAll before).serve q).2) ∧
    (∀ (i : Nat) (t : TypeDef), pod.types[i]? = some t → t.isHollow = true ∧
      (pod.Succeeds qs i ∧ (∃ b, pod.storedBody i = .ok b ∧
          (pod.serveAll qs).types[i]? = some { t with body? := some b }) ∨
        ¬pod.Succeeds qs i ∧ (pod.serveAll qs).types[i]? = some t)) ∧
    (∀ i, pod.Succeeds qs i ↔ (∃ b, pod.storedBody i = .ok b) ∧ (.body i ∈ qs ∨
      .all ∈ qs ∧ i < pod.types.size ∧ ∀ j < i, ∃ b, pod.storedBody j = .ok b)) ∧
    ∀ qs', (∀ i, pod.Succeeds qs' i ↔ pod.Succeeds qs i) →
      pod.serveAll qs' = pod.serveAll qs := by
  have hp := fresh_of_load h
  refine ⟨fun before q after _ => ?_, fun i t ht => ⟨?_, ?_⟩,
    fun i => (succeeds_iff hp).trans mem_readBy, fun qs' hsame => ?_⟩
  · rw [serveAll_eq hp]
    exact answered_filled hp (fun i hi => isStored_of_readBy hi) q
  · simp [TypeDef.isHollow, (hp i t ht).1]
  · rw [succeeds_iff hp, serveAll_eq hp, getElem?_filled, ht, Option.map_some]
    by_cases hread : i ∈ pod.readBy qs
    · obtain ⟨b, hb⟩ := isStored_iff.mp (isStored_of_readBy hread)
      refine .inl ⟨hread, b, hb, ?_⟩
      rw [if_pos hread, hb]
      rfl
    · exact .inr ⟨hread, by rw [if_neg hread]⟩
  · rw [serveAll_eq hp, serveAll_eq hp]
    exact filled_congr fun i => by rw [← succeeds_iff hp, ← succeeds_iff hp, hsame]

-- A store with the types `A` and `B`, of which only `B` has a body.
def halfStored : Archive.Store :=
  .memory ⟨#[
    ("fcode/names.def", #[0, 3, 0, 1, 0x64, 0, 1, 0x41, 0, 1, 0x42]),
    ("fcode/typeRefs.def", #[0, 2, 0, 0, 0, 1, 0, 0, 0, 0, 0, 2, 0, 0]),
    ("fcode/pod.def", #[0x0f, 0xc0, 0xde, 0x05, 1, 0, 0, 0x16, 0, 1, 0x64, 0, 1, 0x31, 0, 0, 0]),
    ("fcode/types.def",
      #[0, 2, 0, 0, 0xff, 0xff, 0, 0, 0, 0, 0, 0, 0, 1, 0xff, 0xff, 0, 0, 0, 0, 0, 0]),
    ("fcode/B.fcode", #[0, 0, 0, 0, 0, 0])]⟩

theorem bodies_by_request_halfStored : ∃ pod, load halfStored = .ok pod ∧
    ¬pod.Succeeds [.all, .body 1] 0 ∧ pod.Succeeds [.all, .body 1] 1 ∧
    pod.serveAll [.body 1, .all, .body 0] = pod.serveAll [.all, .body 1] := by
  have hload : ((load halfStored).map fun pod => (pod.isStored 0, pod.isStored 1)).toOption =
      some (false, true) := by
    decide +kernel
  generalize halfStored = store at hload ⊢
  cases hpod : load store with
  | error e =>
    rw [hpod] at hload
    exact absurd hload (by simp [Except.map, Except.toOption])
  | ok pod =>
    rw [hpod] at hload
    obtain ⟨hfirst, hsecond⟩ := Prod.mk.inj (Option.some.inj hload)
    have hnone : ¬∃ b, pod.storedBody 0 = .ok b := by
      rw [← isStored_iff, hfirst]
      exact Bool.false_ne_true
    obtain ⟨-, -, hsucceeds, hsame⟩ := bodies_by_request hpod [.all, .body 1]
    have hsucceeds' := (bodies_by_request hpod [.body 1, .all, .body 0]).2.2.1
    refine ⟨pod, rfl, fun h => hnone ((hsucceeds 0).mp h).1,
      (hsucceeds 1).mpr ⟨isStored_iff.mp hsecond, .inl (by decide)⟩, hsame _ fun i => ?_⟩
    rw [hsucceeds, hsucceeds']
    refine and_congr_right fun hi => ?_
    have hne : i ≠ 0 := by
      rintro rfl
      exact hnone hi
    simp [hne]

end PodCompiler.Pod
