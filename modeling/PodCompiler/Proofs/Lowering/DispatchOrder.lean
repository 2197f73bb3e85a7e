import PodCompiler.Proofs.Lowering.BodyLayout
import PodCompiler.Proofs.Lowering.Protection

namespace PodCompiler.Lowering

open ClassFile (CodeBuffer ExceptionEntry LineEntry)
open Pod (ErrEntry)

-- Lists one behind the other, each of which is in order and all of which are.
theorem exists_rows {α β ρ : Type} {P : α → List β → Prop} {Q : α → ρ → Prop}
    {R : α → α → Prop} {S : ρ → ρ → Prop} {g : ρ → β} {xs : List α} {yss : List (List β)}
    (h : List.Forall₂ P xs yss) (hR : xs.Pairwise R)
    (hP : ∀ x ∈ xs, ∀ ys, P x ys →
      ∃ rows : List ρ, rows.map g = ys ∧ (∀ row ∈ rows, Q x row) ∧ rows.Pairwise S)
    (hS : ∀ x y a b, R x y → Q x a → Q y b → S a b) :
    ∃ rows : List ρ, rows.map g = yss.flatten ∧ (∀ row ∈ rows, ∃ x ∈ xs, Q x row) ∧
      rows.Pairwise S := by
  induction h with
  | nil => exact ⟨[], rfl, by simp, List.Pairwise.nil⟩
  | @cons x ys xs yss hx hxs ih =>
    obtain ⟨hfirst, hrest⟩ := List.pairwise_cons.mp hR
    obtain ⟨rows, hrows, hQ, hsorted⟩ := hP x List.mem_cons_self ys hx
    obtain ⟨more, hmore, hQ', hsorted'⟩ := ih hrest
      (fun x' hx' => hP x' (List.mem_cons_of_mem _ hx'))
    refine ⟨rows ++ more, by simp [hrows, hmore], ?_, ?_⟩
    · intro row hrow
      obtain hrow | hrow := List.mem_append.mp hrow
      · exact ⟨x, List.mem_cons_self, hQ row hrow⟩
      · obtain ⟨x', hx', hq⟩ := hQ' row hrow
        exact ⟨x', List.mem_cons_of_mem _ hx', hq⟩
    · refine List.pairwise_append.mpr ⟨hsorted, hsorted', ?_⟩
      intro a ha b hb
      obtain ⟨x', hx', hq⟩ := hQ' b hb
      exact hS x x' a b (hfirst x' hx') (hQ a ha) hq

namespace Protection

-- An entry of the table with where it comes from: the scope, and the entry of the method by its
-- index.
structure Row where
  scope : Nat
  index : Nat
  entry : ExceptionEntry

namespace Row

-- The entry is among what the entry of the method becomes in the scope.
def Derives (env : ClassEnv) (r : Relocation) (method : String) (es : List ErrEntry) (row : Row) :
    Prop :=
  ∃ e c c' found, es[row.index]? = some e ∧ e ∈ inScope r row.scope es ∧
    ofEntry r method row.scope e env c = .ok found c' ∧ row.entry ∈ found

-- The entry covers a position of the code.
def Covers (row : Row) (pc : Nat) : Prop :=
  row.entry.startPc.toNat ≤ pc ∧ pc < row.entry.endPc.toNat

instance (row : Row) (pc : Nat) : Decidable (row.Covers pc) :=
  inferInstanceAs (Decidable (_ ∧ _))

-- The order of the table.
def Before (a b : Row) : Prop :=
  a.scope < b.scope ∨ a.scope = b.scope ∧ a.index ≤ b.index

end Row

-- The entries of a scope with their indices.
def indexed (r : Relocation) (scope : Nat) (es : List ErrEntry) : List (ErrEntry × Nat) :=
  if scope = Relocation.mainScope then es.zipIdx
  else
    match r.copy scope with
    | some c => es.zipIdx.filter fun p => inside c p.1
    | none => []

variable {env : ClassEnv} {r : Relocation} {method : String} {es : List ErrEntry} {scope : Nat}
  {c c' : OpenClass}

theorem indexed_sublist : (indexed r scope es).Sublist es.zipIdx := by
  unfold indexed
  split
  · exact List.Sublist.refl _
  · split
    · exact List.filter_sublist
    · exact List.nil_sublist _

theorem map_fst_indexed : (indexed r scope es).map Prod.fst = inScope r scope es := by
  unfold indexed inScope
  split
  · exact List.zipIdx_map_fst 0 es
  · cases r.copy scope with
    | none => rfl
    | some copy =>
      have hfilter := List.filter_map (l := es.zipIdx) (p := inside copy) (f := Prod.fst)
      rw [List.zipIdx_map_fst] at hfilter
      exact hfilter.symm

theorem indexed_pairwise : (indexed r scope es).Pairwise fun a b => a.2 < b.2 := by
  have hall : (es.zipIdx.map Prod.snd).Pairwise (· < ·) := by
    rw [List.zipIdx_map_snd]
    exact List.pairwise_lt_range'
  exact (List.pairwise_map.mp hall).sublist indexed_sublist

-- A row is for an entry of its scope, and has the handler of that in the scope.
theorem Row.Derives.handler {row : Row} (h : row.Derives env r method es) :
    ∃ e pc, (e, row.index) ∈ indexed r row.scope es ∧
      r.get row.scope e.handler.toNat = some pc ∧ row.entry.handlerPc = pc.toUInt16 := by
  obtain ⟨e, c, c', found, hindex, hscope, hentry, hmem⟩ := h
  obtain ⟨start, stop, pc, t, types, -, -, hpc, -, -, rfl⟩ := ofEntry_eq_ok hentry
  refine ⟨e, pc, ?_, hpc, ?_⟩
  · have hzip : (e, row.index) ∈ es.zipIdx := List.mem_zipIdx_iff_getElem?.mpr hindex
    unfold inScope at hscope
    unfold indexed
    split
    · exact hzip
    · rw [if_neg ‹_›] at hscope
      cases hcopy : r.copy row.scope with
      | none =>
        rw [hcopy] at hscope
        cases hscope
      | some copy =>
        rw [hcopy] at hscope
        exact List.mem_filter.mpr ⟨hzip, (List.mem_filter.mp hscope).2⟩
  · obtain ⟨range, -, hmem⟩ := List.mem_flatMap.mp hmem
    obtain ⟨type, -, hentry⟩ := List.mem_map.mp hmem
    rw [← hentry]

-- The rows of one scope.
theorem scope_rows {found : List (List ExceptionEntry)}
    (h : (inScope r scope es).mapM (ofEntry r method scope) env c = .ok found c') :
    ∃ rows : List Row, rows.map Row.entry = found.flatten ∧
      (∀ row ∈ rows, row.scope = scope ∧ row.Derives env r method es) ∧ rows.Pairwise Row.Before := by
  have hall := ClassM.forall₂_of_mapM h
  rw [← map_fst_indexed, List.forall₂_map_left_iff] at hall
  let Q (p : ErrEntry × Nat) (row : Row) : Prop :=
    row.scope = scope ∧ row.index = p.2 ∧ row.Derives env r method es
  have hentries : ∀ p ∈ indexed r scope es, ∀ ys,
      (∃ c₁ c₂, ofEntry r method scope p.1 env c₁ = .ok ys c₂) →
      ∃ rows : List Row, rows.map Row.entry = ys ∧ (∀ row ∈ rows, Q p row) ∧
        rows.Pairwise Row.Before := by
    rintro ⟨e, i⟩ hmem ys ⟨c₁, c₂, hys⟩
    have he : e ∈ inScope r scope es := by
      rw [← map_fst_indexed]
      exact List.mem_map_of_mem (f := Prod.fst) hmem
    have hi : es[i]? = some e :=
      List.mem_zipIdx_iff_getElem?.mp (indexed_sublist.subset hmem)
    refine ⟨ys.map (Row.mk scope i), by simp [Function.comp_def], ?_, ?_⟩
    · intro row hrow
      obtain ⟨entry, hentry, rfl⟩ := List.mem_map.mp hrow
      exact ⟨rfl, rfl, e, c₁, c₂, ys, hi, he, hys, hentry⟩
    · rw [List.pairwise_map]
      exact List.pairwise_of_forall fun _ _ => .inr ⟨rfl, Nat.le_refl _⟩
  have hbefore : ∀ (p q : ErrEntry × Nat) (a b : Row), p.2 < q.2 → Q p a → Q q b → a.Before b := by
    rintro p q a b hlt ⟨hscope, hindex, -⟩ ⟨hscope', hindex', -⟩
    exact .inr ⟨hscope.trans hscope'.symm, by omega⟩
  obtain ⟨rows, hrows, hderives, hsorted⟩ :=
    exists_rows hall indexed_pairwise hentries hbefore
  refine ⟨rows, hrows, ?_, hsorted⟩
  intro row hrow
  obtain ⟨p, -, hscope, -, hd⟩ := hderives row hrow
  exact ⟨hscope, hd⟩

-- The table is in the order of the scopes, and in each scope in that of the entries.
theorem table_rows {exceptions : List ExceptionEntry}
    (h : table r method es env c = .ok exceptions c') :
    ∃ rows : List Row, rows.map Row.entry = exceptions ∧
      (∀ row ∈ rows, row.Derives env r method es) ∧ rows.Pairwise Row.Before := by
  obtain ⟨found, c₁, hfound, hpure⟩ := ClassM.bind_eq_ok.mp h
  obtain ⟨rfl, rfl⟩ := ClassM.pure_eq_ok.mp hpure
  have hall := ClassM.forall₂_of_mapM hfound
  have hflat : List.Forall₂ (fun scope ys => ∃ rows : List Row, rows.map Row.entry = ys ∧
      (∀ row ∈ rows, row.scope = scope ∧ row.Derives env r method es) ∧ rows.Pairwise Row.Before)
      (List.range r.scopes.size) (found.map List.flatten) := by
    rw [List.forall₂_map_right_iff]
    refine hall.imp ?_
    rintro scope ys ⟨c₁, c₂, hys⟩
    exact scope_rows hys
  obtain ⟨rows, hrows, hderives, hsorted⟩ :=
    exists_rows hflat List.pairwise_lt_range (fun _ _ _ hys => hys) (by
      rintro s t a b hlt ⟨hscope, -⟩ ⟨hscope', -⟩
      exact .inl (by omega))
  rw [← List.flatten_flatten] at hrows
  refine ⟨rows, hrows, ?_, hsorted⟩
  intro row hrow
  obtain ⟨-, -, -, hd⟩ := hderives row hrow
  exact hd

end Protection

-- Writing an item changes the code and nothing else of what is there.
theorem Layout.out_put (l : Layout) (item : Item UInt16) :
    (l.put item).out = { l.out with code := (l.put item).out.code } := by
  have hlocal : ∀ (b : CodeBuffer) (compact general : UInt8) (slot : UInt16),
      b.localOp compact general slot =
        { b with code := (b.localOp compact general slot).code } := by
    intro b compact general slot
    unfold CodeBuffer.localOp
    split
    · rfl
    · split <;> rfl
  cases item with
  | load t slot => cases t <;> exact hlocal _ _ _ _
  | store t slot => cases t <;> exact hlocal _ _ _ _
  | onSlot o slot =>
    simp only [put, CodeBuffer.slotOp]
    split <;> rfl
  | switch targets =>
    have hfold : ∀ (ts : List UInt16) (b : CodeBuffer),
        ts.foldl (fun out _ => out.u4 0xFFFFFFFF) b =
          { b with code := (ts.foldl (fun out _ => out.u4 0xFFFFFFFF) b).code } := by
      intro ts
      induction ts with
      | nil => exact fun b => rfl
      | cons t rest ih => exact fun b => ih (b.u4 0xFFFFFFFF)
    simp only [put, putSwitch]
    split
    · rfl
    · rw [hfold]
      simp only [CodeBuffer.u4, CodeBuffer.pad4, CodeBuffer.op, CodeBuffer.u1]
  | leave site finallyStart stop =>
    simp only [put, leave]
    split <;> rfl
  | _ => rfl

theorem Layout.out_puts (l : Layout) (items : List (Item UInt16)) :
    (l.puts items).out = { l.out with code := (l.puts items).out.code } := by
  induction items generalizing l with
  | nil => rfl
  | cons item rest ih =>
    rw [Layout.puts_cons, ih, l.out_put]

section Method

variable {env : ClassEnv} {f : Frame} {code : Bytes} {out : CodeBuffer} {c c' c₁ : OpenClass}
  {mc : MethodCode} {attrs : Pod.Attributes}

theorem placeCode_out {p : PlacedCode} (h : placeCode f code out env c = .ok p c₁) :
    p.out = { out with code := p.out.code } := by
  obtain ⟨body, -, -, rfl⟩ := placeCode_eq_ok h
  have hlayout : (body.layout code out).out =
      { out with code := (body.layout code out).out.code } := by
    rw [body.layout_eq]
    exact Layout.out_puts _ _
  dsimp only
  rw [hlayout]

theorem tables_of_finish {p : PlacedCode} (h : p.finish f = .ok mc) :
    mc.code.exceptions = p.out.exceptions ∧ mc.code.lines = p.out.lines := by
  obtain ⟨locals, -, h⟩ := except_bind_eq_ok.mp h
  cases h
  exact ⟨rfl, rfl⟩

theorem ofFormat_eq_ok {α : Type} {x : Except Pod.FormatError α} {a : α}
    (h : ClassM.ofFormat x env c = .ok a c') : x = .ok a ∧ c' = c := by
  cases x with
  | ok b =>
    obtain ⟨rfl, rfl⟩ := ClassM.pure_eq_ok.mp h
    exact ⟨rfl, rfl⟩
  | error e => cases h

-- The handlers of a method are those that were there before, and behind them its table; so are its
-- lines.
theorem lowerCode_tables (h : lowerCode f code attrs out env c = .ok mc c') :
    ∃ p c₁ errs exceptions lines, placeCode f code out env c = .ok p c₁ ∧
      attrs.errTable = .ok errs ∧
      Protection.table p.reloc f.name errs.toList env c₁ = .ok exceptions c' ∧
      mc.code.exceptions.toList = out.exceptions.toList ++ exceptions ∧
      mc.code.lines.toList = out.lines.toList ++ lineEntries p.reloc lines := by
  obtain ⟨p, c₁, hp, h₁⟩ := ClassM.bind_eq_ok.mp h
  obtain ⟨errs, c₂, herrs, h₂⟩ := ClassM.bind_eq_ok.mp h₁
  obtain ⟨exceptions, c₃, htable, h₃⟩ := ClassM.bind_eq_ok.mp h₂
  obtain ⟨env', c₄, hconfig, h₄⟩ := ClassM.bind_eq_ok.mp h₃
  cases hconfig
  obtain ⟨hread, rfl⟩ := ofFormat_eq_ok herrs
  rw [foldl_addException] at h₄
  split at h₄
  · obtain ⟨lines, c₅, hlinesRead, h₅⟩ := ClassM.bind_eq_ok.mp h₄
    obtain ⟨-, rfl⟩ := ofFormat_eq_ok hlinesRead
    obtain ⟨hdone, rfl⟩ := ClassM.ofExcept_eq_ok.mp h₅
    rw [foldl_addLine] at hdone
    obtain ⟨he, hl⟩ := tables_of_finish hdone
    refine ⟨p, _, errs, exceptions, lines.toList, hp, hread, htable, ?_, ?_⟩
    · rw [he, placeCode_out hp]
      simp
    · rw [hl, placeCode_out hp]
      simp
  · obtain ⟨hdone, rfl⟩ := ClassM.ofExcept_eq_ok.mp h₄
    obtain ⟨he, hl⟩ := tables_of_finish hdone
    refine ⟨p, _, errs, exceptions, [], hp, hread, htable, ?_, ?_⟩
    · rw [he, placeCode_out hp]
      simp
    · rw [hl, placeCode_out hp]
      simp [lineEntries]

-- Of two entries of a method, those that stand for the first come before those that stand for the
-- second exactly if their scope is not behind; so the entry that covers a position first is the
-- first of the method's exactly if no later entry has it in an earlier scope.
theorem handlers_in_order_iff (h : lowerCode f code attrs out env c = .ok mc c') :
    ∃ p c₁ errs, ∃ rows : List Protection.Row, placeCode f code out env c = .ok p c₁ ∧
      attrs.errTable = .ok errs ∧
      mc.code.exceptions.toList = out.exceptions.toList ++ rows.map Protection.Row.entry ∧
      (∀ row ∈ rows, row.Derives env p.reloc f.name errs.toList) ∧
      (∀ (k l : Nat) a b, rows[k]? = some a → rows[l]? = some b → a.index < b.index →
        (k < l ↔ a.scope ≤ b.scope)) ∧
      ∀ pc, (∀ (k l : Nat) a b, rows[k]? = some a → rows[l]? = some b → a.Covers pc →
          b.Covers pc → a.index < b.index → k < l) ↔
        ∀ a ∈ rows, ∀ b ∈ rows, a.Covers pc → b.Covers pc → a.index < b.index →
          a.scope ≤ b.scope := by
  obtain ⟨p, c₁, errs, exceptions, -, hp, herrs, htable, hexc, -⟩ := lowerCode_tables h
  obtain ⟨rows, rfl, hderives, hsorted⟩ := Protection.table_rows htable
  have hiff : ∀ (k l : Nat) a b, rows[k]? = some a → rows[l]? = some b → a.index < b.index →
      (k < l ↔ a.scope ≤ b.scope) := by
    intro k l a b ha hb hindex
    obtain ⟨hk, rfl⟩ := List.getElem?_eq_some_iff.mp ha
    obtain ⟨hl, rfl⟩ := List.getElem?_eq_some_iff.mp hb
    rw [List.pairwise_iff_getElem] at hsorted
    constructor
    · intro hlt
      obtain hscope | hscope := hsorted k l hk hl hlt <;> omega
    · intro hscope
      by_contra hge
      by_cases heq : k = l
      · subst heq
        omega
      · obtain hback | hback := hsorted l k hl hk (by omega) <;> omega
  refine ⟨p, c₁, errs, rows, hp, herrs, hexc, hderives, hiff, ?_⟩
  intro pc
  constructor
  · intro hkept a ha b hb hca hcb hindex
    obtain ⟨k, ha⟩ := List.mem_iff_getElem?.mp ha
    obtain ⟨l, hb⟩ := List.mem_iff_getElem?.mp hb
    exact (hiff k l a b ha hb hindex).mp (hkept k l a b ha hb hca hcb hindex)
  · intro hscopes k l a b ha hb hca hcb hindex
    have hscope := hscopes a (List.mem_of_getElem? ha) b (List.mem_of_getElem? hb) hca hcb hindex
    exact (hiff k l a b ha hb hindex).mpr hscope

end Method

-- Errors of `sys` can be caught in the class.
def errEnv : ClassEnv :=
  { bareEnv with pod := { bareEnv.pod with symbols := { typeRefs := #[⟨"sys", "Err", ""⟩] } } }

-- A try in a finally block in a try. The copy of the block comes first:
--    0 JumpFinally 7     8 LoadNull         15 CatchAllStart
--    3 Leave 17          9 CatchAllStart    16 ReturnVoid
--    6 Nop              10 Leave 14         17 ReturnVoid
--    7 FinallyStart     13 CatchAllStart
--                       14 FinallyEnd
def nestedTry : Bytes :=
  #[53, 0, 7, 52, 0, 17, 0, 57, 1, 54, 52, 0, 14, 54, 58, 54, 42, 42]

-- The inner try, the finally block and the outer try.
def nestedErrs : Array ErrEntry :=
  #[⟨8, 10, 13, 0⟩, ⟨0, 6, 7, 0⟩, ⟨0, 15, 15, 0⟩]

def nestedAttrs : Pod.Attributes where
  items := #[("ErrTable",
    #[0, 3, 0, 8, 0, 10, 0, 13, 0, 0, 0, 0, 0, 6, 0, 7, 0, 0, 0, 0, 0, 15, 0, 15, 0, 0])]

-- The items of the method, and the slot of its finally block.
def nestedBody : BodyState where
  items := #[.mark 0, .enter, .mark 8, .op 1, .mark 9, .op 87, .mark 10, .jump .branch 167 14,
    .mark 13, .op 87, .leave 0 7 14, .mark 3, .jump .branch 167 17, .mark 6, .mark 7,
    .store .obj 0, .mark 8, .op 1, .mark 9, .op 87, .mark 10, .jump .branch 167 14, .mark 13,
    .op 87, .mark 14, .load .obj 0, .op 191, .mark 15, .op 87, .mark 16, .op 177, .mark 17,
    .op 177, .mark 18]
  finallies := { exceptions := (∅ : Std.HashMap Nat UInt16).insert 7 0, extra := 1 }

-- One instruction before others.
theorem emitInstrs_step {f : Frame} {copy : Instr → BodyM Unit} {fault : Option DecodeFault}
    {i j : Instr} {rest : List Instr} {s s₁ : BodyState} {env : ClassEnv} {c c₁ : OpenClass}
    (h : emitInstr f copy i (.ofRest (j :: rest) fault)
      { s with items := s.items.push (.mark i.pos) } env c = .ok (false, s₁) c₁) :
    emitInstrs f copy fault (i :: j :: rest) s env c =
      emitInstrs f copy fault (j :: rest) s₁ env c₁ := by
  rw [emitInstrs]
  change (emitInstr f copy i (.ofRest (j :: rest) fault) >>= fun fused =>
    if fused then emitInstrs f copy fault rest else emitInstrs f copy fault (j :: rest))
    { s with items := s.items.push (.mark i.pos) } env c = _
  rw [BodyM.run_bind, h]
  rfl

theorem emitBody_nestedTry :
    emitBody bareFrame nestedTry {} errEnv bareClass = .ok ((), nestedBody) bareClass := by
  have hdecoded : Instr.decodeRange nestedTry 0 nestedTry.size =
      ⟨[⟨0, .jumpFinally, [7]⟩, ⟨3, .leave, [17]⟩, ⟨6, .nop, []⟩, ⟨7, .finallyStart, []⟩,
        ⟨8, .loadNull, []⟩, ⟨9, .catchAllStart, []⟩, ⟨10, .leave, [14]⟩, ⟨13, .catchAllStart, []⟩,
        ⟨14, .finallyEnd, []⟩, ⟨15, .catchAllStart, []⟩, ⟨16, .returnVoid, []⟩,
        ⟨17, .returnVoid, []⟩], none⟩ := by
    decide +kernel
  -- Only the slot of the finally block is looked up, so all other steps just run.
  have hempty : (∅ : Std.HashMap Nat UInt16)[7]? = none := Std.HashMap.getElem?_empty
  have hslot : ((∅ : Std.HashMap Nat UInt16).insert 7 0)[7]? = some 0 :=
    Std.HashMap.getElem?_insert_self
  have hstart : ∀ items copy next,
      emitInstr bareFrame copy ⟨7, .finallyStart, []⟩ next ⟨items, {}⟩ errEnv bareClass =
        .ok (false, ⟨items.push (.store .obj 0), { nestedBody.finallies with pending := [7] }⟩)
          bareClass := by
    intro items copy next
    have hfresh : FinallySlots.forBlock bareFrame 7 {} = .ok (0, nestedBody.finallies) := by
      unfold FinallySlots.forBlock
      rw [hempty]
      rfl
    rw [emitInstr_finallyStart rfl rfl, hfresh]
    rfl
  have hend : ∀ items copy next,
      emitInstr bareFrame copy ⟨14, .finallyEnd, []⟩ next
        ⟨items, { nestedBody.finallies with pending := [7] }⟩ errEnv bareClass =
        .ok (false, ⟨(items.push (.load .obj 0)).push (.op 191), nestedBody.finallies⟩)
          bareClass := by
    intro items copy next
    exact emitInstr_finallyEnd rfl rfl rfl hslot
  have hrange : emitRange bareFrame nestedTry maxInlineDepth 0 nestedTry.size {} errEnv bareClass =
      .ok ((), { nestedBody with items := nestedBody.items.pop }) bareClass := by
    rw [maxInlineDepth, emitRange, hdecoded]
    rw [emitInstrs_step (by with_unfolding_all rfl), emitInstrs_step (by with_unfolding_all rfl),
      emitInstrs_step (by with_unfolding_all rfl), emitInstrs_step (hstart _ _ _)]
    rw [emitInstrs_step (by with_unfolding_all rfl), emitInstrs_step (by with_unfolding_all rfl),
      emitInstrs_step (by with_unfolding_all rfl), emitInstrs_step (by with_unfolding_all rfl),
      emitInstrs_step (hend _ _ _)]
    with_unfolding_all rfl
  unfold emitBody
  rw [BodyM.run_bind, hrange]
  rfl

theorem errTable_nestedTry : nestedAttrs.errTable = .ok nestedErrs := by
  have hread : nestedAttrs.errTable.toOption = some nestedErrs := by decide +kernel
  cases h : nestedAttrs.errTable with
  | error e =>
    rw [h] at hread
    cases hread
  | ok errs =>
    rw [h] at hread
    cases hread
    rfl

theorem fault?_nestedTry : nestedBody.fault? nestedTry {} bareFrame.name = none := by
  rw [← Option.isNone_iff_eq_none]
  decide +kernel

theorem exists_placeCode_nestedTry : ∃ p,
    placeCode bareFrame nestedTry {} errEnv bareClass = .ok p bareClass ∧
      p.reloc = (nestedBody.layout nestedTry {}).reloc := by
  have hplace : placeCode bareFrame nestedTry {} errEnv bareClass = _ :=
    placeCode_eq emitBody_nestedTry
  rw [fault?_nestedTry] at hplace
  exact ⟨_, hplace, rfl⟩

-- The three handlers of the method itself, and behind them that of the copy.
theorem exists_lowerCode_nestedTry : ∃ mc c',
    lowerCode bareFrame nestedTry nestedAttrs {} errEnv bareClass = .ok mc c' ∧
      mc.code.code.size ≤ CodeBuffer.maxSize ∧
      mc.code.exceptions = #[⟨10, 12, 15, 0⟩, ⟨6, 9, 9, 0⟩, ⟨0, 18, 18, 0⟩, ⟨0, 2, 5, 0⟩] := by
  have hplace : placeCode bareFrame nestedTry {} errEnv bareClass = _ :=
    placeCode_eq emitBody_nestedTry
  rw [fault?_nestedTry] at hplace
  have hrun : (result? (lowerCode bareFrame nestedTry nestedAttrs {} errEnv bareClass)).any
      (fun mc => mc.code.code.size ≤ CodeBuffer.maxSize && mc.code.exceptions =
        #[⟨10, 12, 15, 0⟩, ⟨6, 9, 9, 0⟩, ⟨0, 18, 18, 0⟩, ⟨0, 2, 5, 0⟩]) = true := by
    unfold lowerCode
    rw [ClassM.run_bind, hplace]
    decide +kernel
  obtain ⟨mc, c', h⟩ := exists_of_result? (Option.isSome_of_any hrun)
  rw [h] at hrun
  simp only [result?, Option.any_some, Bool.and_eq_true, decide_eq_true_eq] at hrun
  exact ⟨mc, c', h, hrun⟩

-- The row with an entry, which its handler tells: only one is in the scope of the copy.
def nestedRow (x : ExceptionEntry) : Protection.Row :=
  if x.handlerPc = 5 then ⟨1, 0, x⟩
  else ⟨0, if x.handlerPc = 15 then 0 else if x.handlerPc = 9 then 1 else 2, x⟩

theorem eq_nestedRow {row : Protection.Row} (h : row.Derives errEnv
    (nestedBody.layout nestedTry {}).reloc bareFrame.name nestedErrs.toList) :
    row = nestedRow row.entry := by
  obtain ⟨e, pc, hmem, hpc, hhandler⟩ := h.handler
  obtain ⟨scope, index, entry⟩ := row
  dsimp only at hmem hpc hhandler ⊢
  match scope with
  | 0 =>
    have hindexed : Protection.indexed (nestedBody.layout nestedTry {}).reloc 0 nestedErrs.toList =
        [(⟨8, 10, 13, 0⟩, 0), (⟨0, 6, 7, 0⟩, 1), (⟨0, 15, 15, 0⟩, 2)] := rfl
    have hhandlers : (nestedBody.layout nestedTry {}).reloc.get 0 13 = some 15 ∧
        (nestedBody.layout nestedTry {}).reloc.get 0 7 = some 9 ∧
        (nestedBody.layout nestedTry {}).reloc.get 0 15 = some 18 := by
      decide +kernel
    rw [hindexed] at hmem
    simp only [List.mem_cons, Prod.mk.injEq, List.not_mem_nil, or_false] at hmem
    obtain ⟨rfl, rfl⟩ | ⟨rfl, rfl⟩ | ⟨rfl, rfl⟩ := hmem
    · cases hhandlers.1.symm.trans hpc
      simp [nestedRow, hhandler]
    · cases hhandlers.2.1.symm.trans hpc
      simp [nestedRow, hhandler]
    · cases hhandlers.2.2.symm.trans hpc
      simp [nestedRow, hhandler]
  | 1 =>
    have hindexed : Protection.indexed (nestedBody.layout nestedTry {}).reloc 1 nestedErrs.toList =
        [(⟨8, 10, 13, 0⟩, 0)] := by
      decide +kernel
    have hcopied : (nestedBody.layout nestedTry {}).reloc.get 1 13 = some 5 := by
      decide +kernel
    rw [hindexed] at hmem
    simp only [List.mem_cons, Prod.mk.injEq, List.not_mem_nil, or_false] at hmem
    obtain ⟨rfl, rfl⟩ := hmem
    cases hcopied.symm.trans hpc
    simp [nestedRow, hhandler]
  | scope + 2 =>
    have hsize : (nestedBody.layout nestedTry {}).reloc.scopes.size = 2 := by
      decide +kernel
    have hnone : (nestedBody.layout nestedTry {}).reloc.copy (scope + 2) = none := by
      simp [Relocation.copy, hsize]
    simp [Protection.indexed, Relocation.mainScope, hnone] at hmem

-- The outer try and the one in the finally block both cover the first position of the copy. The
-- outer try is the later of the two and comes first, as its scope does.
theorem handlers_in_order_iff_nestedTry : ∃ mc c' p c₁,
    lowerCode bareFrame nestedTry nestedAttrs {} errEnv bareClass = .ok mc c' ∧
    placeCode bareFrame nestedTry {} errEnv bareClass = .ok p c₁ ∧
    ∃ rows : List Protection.Row, mc.code.exceptions.toList = rows.map Protection.Row.entry ∧
      rows.map (fun row => (row.scope, row.index)) = [(0, 0), (0, 1), (0, 2), (1, 0)] ∧
      (∀ row ∈ rows, row.Derives errEnv p.reloc bareFrame.name nestedErrs.toList) ∧
      (∀ (k l : Nat) a b, rows[k]? = some a → rows[l]? = some b → a.index < b.index →
        (k < l ↔ a.scope ≤ b.scope)) ∧
      (∃ a b, rows[2]? = some a ∧ rows[3]? = some b ∧ a.Covers 0 ∧ b.Covers 0 ∧
        b.index < a.index) ∧
      ¬∀ (k l : Nat) a b, rows[k]? = some a → rows[l]? = some b → a.Covers 0 → b.Covers 0 →
        a.index < b.index → k < l := by
  obtain ⟨mc, c', h, -, hexc⟩ := exists_lowerCode_nestedTry
  obtain ⟨p, hplace, hreloc⟩ := exists_placeCode_nestedTry
  obtain ⟨p', c₁, errs, rows, hp, herrs, hentries, hderives, horder, hfirst⟩ :=
    handlers_in_order_iff h
  cases hplace.symm.trans hp
  cases errTable_nestedTry.symm.trans herrs
  rw [show ({} : CodeBuffer).exceptions.toList = [] from rfl, List.nil_append] at hentries
  have hrows : rows = (mc.code.exceptions.toList).map nestedRow := by
    rw [hentries, List.map_map]
    conv_lhs => rw [← List.map_id rows]
    exact List.map_congr_left fun row hrow => eq_nestedRow (hreloc ▸ hderives row hrow)
  rw [hexc] at hrows
  have houter : rows[2]? = some ⟨0, 2, ⟨0, 18, 18, 0⟩⟩ := by rw [hrows]; rfl
  have hinner : rows[3]? = some ⟨1, 0, ⟨0, 2, 5, 0⟩⟩ := by rw [hrows]; rfl
  refine ⟨mc, c', p, bareClass, h, hp, rows, hentries, by rw [hrows]; rfl, hderives, horder,
    ⟨_, _, houter, hinner, by decide, by decide, by decide⟩, fun hkept => ?_⟩
  have hscopes := (hfirst 0).mp hkept _ (List.mem_of_getElem? hinner) _
    (List.mem_of_getElem? houter) (by decide) (by decide) (by decide)
  exact absurd hscopes (by decide)

-- At the first position of the copy the outer try comes before the one in the finally block.
theorem handlers_out_of_order_nestedTry :
    errEnv.config.finallyStrategy = .inline ∧ nestedAttrs.errTable = .ok nestedErrs ∧
    ∃ mc c' p c₁, lowerCode bareFrame nestedTry nestedAttrs {} errEnv bareClass = .ok mc c' ∧
      placeCode bareFrame nestedTry {} errEnv bareClass = .ok p c₁ ∧
      ¬∀ (k l : Nat) (a b : Protection.Row), mc.code.exceptions[k]? = some a.entry →
        mc.code.exceptions[l]? = some b.entry →
        a.Derives errEnv p.reloc bareFrame.name nestedErrs.toList →
        b.Derives errEnv p.reloc bareFrame.name nestedErrs.toList →
        a.Covers 0 → b.Covers 0 → a.index < b.index → k < l := by
  obtain ⟨mc, c', hlower, -, hexc⟩ := exists_lowerCode_nestedTry
  obtain ⟨p, hplace, hreloc⟩ := exists_placeCode_nestedTry
  refine ⟨rfl, errTable_nestedTry, mc, c', p, bareClass, hlower, hplace, ?_⟩
  rw [hreloc]
  intro hkept
  have hderives : ∀ (row : Protection.Row) (e : ErrEntry), nestedErrs.toList[row.index]? = some e →
      e ∈ Protection.inScope (nestedBody.layout nestedTry {}).reloc row.scope nestedErrs.toList →
      result? (Protection.ofEntry (nestedBody.layout nestedTry {}).reloc bareFrame.name row.scope e
        errEnv bareClass) = some [row.entry] →
      row.Derives errEnv (nestedBody.layout nestedTry {}).reloc bareFrame.name
        nestedErrs.toList := by
    intro row e hindex hscope hentry
    obtain ⟨es, c₁, hes⟩ := exists_of_result? (Option.isSome_of_eq_some hentry)
    rw [hes] at hentry
    cases hentry
    exact ⟨e, _, _, _, hindex, hscope, hes, List.mem_singleton_self _⟩
  have hinner := hderives ⟨1, 0, ⟨0, 2, 5, 0⟩⟩ ⟨8, 10, 13, 0⟩ rfl (by decide +kernel)
    (by decide +kernel)
  have houter := hderives ⟨0, 2, ⟨0, 18, 18, 0⟩⟩ ⟨0, 15, 15, 0⟩ rfl (by decide +kernel)
    (by decide +kernel)
  have hlt := hkept 3 2 ⟨1, 0, ⟨0, 2, 5, 0⟩⟩ ⟨0, 2, ⟨0, 18, 18, 0⟩⟩ (by rw [hexc]; rfl)
    (by rw [hexc]; rfl) hinner houter (by decide) (by decide) (by decide)
  omega

end PodCompiler.Lowering
