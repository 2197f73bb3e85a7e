import PodCompiler.Proofs.ClassFile.SameCode
import PodCompiler.Proofs.Lowering.RepeatedBlocks
import PodCompiler.Proofs.Lowering.TwinScopes

namespace PodCompiler.Lowering

open ClassFile (CodeBuffer)
open ClassFile.Op
open Instr (Reaches Stream)

-- The targets of a switch are counted in two bytes.
theorem Shape.targets_lt {code : Bytes} {pos : Nat} {i : Instr} {next : Following} {fused : Bool}
    {own : List (Item UInt16)} (h : Shape i next fused own) (hi : Instr.decodeAt code pos = .ok i)
    {targets : List UInt16} (hmem : .switch targets ∈ own) : targets.length < 2 ^ 16 := by
  cases h with
  | branch hb =>
    rw [List.mem_singleton] at hmem
    subst hmem
    unfold branchItem? at hb
    split at hb <;> cases hb
    exact Instr.decodeAt_length_lt hi
  | inert _ hinert => cases hinert _ hmem
  | fused _ _ hpre hbefore _ =>
    simp only [List.mem_append, List.mem_cons, List.not_mem_nil, or_false] at hmem
    obtain hmem | hmem | hmem | hmem := hmem
    · cases hpre _ hmem
    · cases hmem
    · cases hbefore _ hmem
    · cases hmem

theorem Emission.targets_lt {env : ClassEnv} {f : Frame} {code : Bytes} {e e' : EmitState}
    {instrs : List Instr} {its : List (Item UInt16)} {start stop : Nat}
    (h : Emission env f code e instrs its e') (hs : Stream code stop start instrs)
    {targets : List UInt16} (hmem : .switch targets ∈ its) : targets.length < 2 ^ 16 := by
  induction h generalizing start stop with
  | nil => cases hmem
  | one hi _ ih =>
    cases hs with
    | step _ hd hs' =>
      simp only [List.mem_cons, List.mem_append, reduceCtorEq, false_or] at hmem
      obtain hmem | hmem := hmem
      · exact hi.shape.targets_lt hd hmem
      · exact ih hs' hmem
  | fused hi _ ih =>
    cases hs with
    | step _ hd hs =>
      cases hs with
      | step _ _ hs' =>
        simp only [List.mem_cons, List.mem_append, reduceCtorEq, false_or] at hmem
        obtain hmem | hmem := hmem
        · exact hi.shape.targets_lt hd hmem
        · exact ih hs' hmem
  | copy _ _ _ hinner _ _ ihbody ihrest =>
    cases hs with
    | step _ _ hs' =>
      simp only [List.mem_cons, List.mem_append, reduceCtorEq, false_or] at hmem
      obtain hmem | hmem := hmem
      · exact ihbody hinner hmem
      · exact ihrest hs' hmem

section Items

variable {env : ClassEnv} {f : Frame} {code : Bytes} {out : CodeBuffer} {c c₁ : OpenClass}
  {body : BodyState} {mc : MethodCode} {s s' pos pos' : Nat} {x : Item UInt16}
  {rest rest' : List (Item UInt16)} {R : Nat → Nat → Prop}

-- A jump by a fixed distance, at two places.
theorem Lowered.same_hop (hl : Lowered env f code out c c₁ body mc) {o : UInt8} {distance : UInt16}
    (hx : body.Stands code out s pos (.hop o distance :: rest))
    (hx' : body.Stands code out s' pos' (.hop o distance :: rest')) (ho : isBranch o = true)
    (hlow : distance.toNat < 2 ^ 15) (hR : R (pos + distance.toNat) (pos' + distance.toNat)) :
    SameCode R mc.code.code pos pos' [pos] [pos'] (pos + 3) (pos' + 3) := by
  obtain ⟨hop, hdistance⟩ := Bytes.spells_cons.mp (hl.spells hx rfl)
  obtain ⟨hop', hdistance'⟩ := Bytes.spells_cons.mp (hl.spells hx' rfl)
  have hword : ∀ {p : Nat}, mc.code.code.Spells (p + 1) (Bytes.be2 distance).toList →
      p + (word2 mc.code.code (p + 1)).toInt16.toInt = (p + distance.toNat : Nat) := by
    intro p hp
    rw [word2_of_spells hlow hp]
    rfl
  exact .branch hop hop' ho fun _ => ⟨_, _, hword hdistance, hword hdistance', hR⟩

-- A jump to an instruction of the method, at two places.
theorem Lowered.same_jump (hl : Lowered env f code out c c₁ body mc) {kind : JumpKind} {o : UInt8}
    {target : UInt16} (hx : body.Stands code out s pos (.jump kind o target :: rest))
    (hx' : body.Stands code out s' pos' (.jump kind o target :: rest'))
    (hwhole : (Item.jump kind o target : Item UInt16).isWhole = true)
    (hR : ∀ d d', (body.layout code out).reloc.Finds target.toNat s d →
      (body.layout code out).reloc.Finds target.toNat s' d' → R d d') :
    SameCode R mc.code.code pos pos' [pos] [pos'] (pos + 3) (pos' + 3) := by
  have htarget : ∀ {s p : Nat} {rest : List (Item UInt16)}, kind = .branch →
      body.Stands code out s p (.jump kind o target :: rest) →
      ∃ d : Nat, p + (word2 mc.code.code (p + 1)).toInt16.toInt = d ∧
        (body.layout code out).reloc.Finds target.toNat s d := by
    rintro s p rest rfl hp
    obtain ⟨offset, dest, hstored, hfinds, hoffset⟩ :=
      hl.target hp (List.mem_singleton_self _) (by simp)
    obtain ⟨w, hw, rfl⟩ := Option.map_eq_some_iff.mp hstored
    refine ⟨dest, ?_, hfinds⟩
    rw [word2, hw]
    exact hoffset
  simp only [Item.isWhole, Bool.and_eq_true, Bool.or_eq_true, decide_eq_true_eq] at hwhole
  refine .branch (hl.getElem?_jump hx) (hl.getElem?_jump hx') hwhole.1 fun hjsr => ?_
  obtain hkind | ⟨-, hcall⟩ := hwhole.2
  · obtain ⟨d, hd, hfinds⟩ := htarget hkind hx
    obtain ⟨d', hd', hfinds'⟩ := htarget hkind hx'
    exact ⟨d, d', hd, hd', hR d d' hfinds hfinds'⟩
  · exact absurd hcall hjsr

-- A table switch, at two places.
theorem Lowered.same_switch (hl : Lowered env f code out c c₁ body mc) {targets : List UInt16}
    (hx : body.Stands code out s pos (.switch targets :: rest))
    (hx' : body.Stands code out s' pos' (.switch targets :: rest')) (hne : targets ≠ [])
    (hcount : targets.length < 2 ^ 16)
    (hR : ∀ q d d', (body.layout code out).reloc.Finds q s d →
      (body.layout code out).reloc.Finds q s' d' → R d d')
    (hnext : R (pos + ((Item.switch targets).raw pos).length)
      (pos' + ((Item.switch targets).raw pos').length)) :
    SameCode R mc.code.code pos pos' [pos, pos + 1] [pos', pos' + 1]
      (pos + ((Item.switch targets).raw pos).length)
      (pos' + ((Item.switch targets).raw pos').length) := by
  have hempty : ¬targets.isEmpty = true := by simpa using hne
  have hlength : ∀ p : Nat, p + ((Item.switch targets).raw p).length =
      p + 1 + (1 + switchPad (p + 1) + 12 + targets.length * 4) := by
    intro p
    rw [Item.raw, if_neg hempty, Item.length_switchRaw]
    omega
  have hbounds : ∀ {s p : Nat} {rest : List (Item UInt16)},
      body.Stands code out s p (.switch targets :: rest) →
      mc.code.code.Spells (p + 1 + 1 + switchPad (p + 1) + 4)
        ((Bytes.be4 0).toList ++ (Bytes.be4 (targets.length - 1).toUInt32).toList) := by
    intro s p rest hp
    obtain ⟨-, -, -, hlow, hhigh⟩ := hl.spells_switch hp hne
    rw [Bytes.spells_append, Array.length_toList, Bytes.size_be4,
      show p + 1 + 1 + switchPad (p + 1) + 4 = p + 2 + switchPad (p + 1) + 4 by omega]
    exact ⟨hlow, hhigh⟩
  have htarget : ∀ {s p k : Nat} {t : UInt16} {rest : List (Item UInt16)}, targets[k]? = some t →
      body.Stands code out s p (.switch targets :: rest) →
      ∃ d : Nat, (p + 1 : Nat) +
          (word4 mc.code.code (p + 1 + 1 + switchPad (p + 1) + 12 + 4 * k)).toInt = d ∧
        (body.layout code out).reloc.Finds t.toNat s d := by
    intro s p k t rest hk hp
    obtain ⟨w, dest, hw, hfinds, hoffset⟩ := hl.switch_target hp hk
    refine ⟨dest, ?_, hfinds⟩
    rw [word4, show p + 1 + 1 + switchPad (p + 1) + 12 + 4 * k =
      Item.switchOperand p + 4 * k from rfl, hw]
    exact hoffset
  obtain ⟨hconvert, htable, hsize, hother⟩ := hl.switch_table hx hne hcount
  obtain ⟨hconvert', htable', hsize', hother'⟩ := hl.switch_table hx' hne hcount
  have hspells : ∀ {p : Nat}, mc.code.code[p]? = some l2i → mc.code.code.Spells p [l2i] :=
    fun hp => Bytes.spells_cons.mpr ⟨hp, Bytes.spells_nil _ _⟩
  have hfirst : SameCode R mc.code.code pos pos' [pos] [pos'] (pos + 1) (pos' + 1) :=
    .plain (.fixed hconvert rfl (by decide)) (.fixed hconvert' rfl (by decide)) (hspells hconvert)
      (hspells hconvert')
  have hsecond := SameCode.tableSwitch htable htable' hsize hsize' (by simp) (hbounds hx)
    (hbounds hx') ⟨_, _, hother, hother', hnext⟩ (by
      intro k hk
      have hget := List.getElem?_eq_getElem hk
      obtain ⟨d, hd, hfinds⟩ := htarget hget hx
      obtain ⟨d', hd', hfinds'⟩ := htarget hget hx'
      exact ⟨d, d', hd, hd', hR _ d d' hfinds hfinds'⟩)
  rw [hlength, hlength]
  exact hfirst.append hsecond

-- An item that is no jump, at two places.
theorem Lowered.same_plain (hl : Lowered env f code out c c₁ body mc)
    (hx : body.Stands code out s pos (x :: rest)) (hx' : body.Stands code out s' pos' (x :: rest'))
    (hwhole : x.isWhole = true) (hhop : ∀ o distance, x ≠ .hop o distance)
    (hinert : x.isInert = true) (hstarts : ∀ p, x.starts p = [p]) :
    SameCode R mc.code.code pos pos' (x.starts pos) (x.starts pos') (pos + (x.raw pos).length)
      (pos' + (x.raw pos').length) := by
  have hraw : x.raw pos' = x.raw pos := by
    cases x with
    | mark | jump | switch | enter | leave => cases hinert
    | _ => rfl
  have hnodes : ∀ s p, x.nodes s p = [] := by
    cases x with
    | mark | jump | switch | enter | leave => cases hinert
    | _ => exact fun _ _ => rfl
  have hjump : ∀ kind o target, x ≠ .jump kind o target := by
    rintro kind o target rfl
    cases hinert
  have hswitch : ∀ targets, x ≠ .switch targets := by
    rintro targets rfl
    cases hinert
  have hfirst := hl.segment_plain (P := fun _ => False) hx hwhole hhop hjump hswitch
  have hsecond := hl.segment_plain (P := fun _ => False) hx' hwhole hhop hjump hswitch
  have hspells := hl.spells hx (hnodes _ _)
  have hspells' := hl.spells hx' (hnodes _ _)
  rw [hstarts] at hfirst hsecond
  rw [hraw] at hsecond hspells' ⊢
  rw [hstarts, hstarts]
  exact .plain hfirst hsecond hspells hspells'

-- An item is the same instructions wherever it stands.
theorem Lowered.same_item (hl : Lowered env f code out c c₁ body mc)
    (hx : body.Stands code out s pos (x :: rest)) (hx' : body.Stands code out s' pos' (x :: rest'))
    (hwhole : x.isWhole = true) (hcount : ∀ targets, x = .switch targets → targets.length < 2 ^ 16)
    (hhop : ∀ o distance, x = .hop o distance →
      distance.toNat < 2 ^ 15 ∧ R (pos + distance.toNat) (pos' + distance.toNat))
    (hR : ∀ q d d', (body.layout code out).reloc.Finds q s d →
      (body.layout code out).reloc.Finds q s' d' → R d d')
    (hnext : R (pos + (x.raw pos).length) (pos' + (x.raw pos').length)) :
    SameCode R mc.code.code pos pos' (x.starts pos) (x.starts pos') (pos + (x.raw pos).length)
      (pos' + (x.raw pos').length) := by
  cases x with
  | mark | reserve | enter | leave => exact .done
  | hop o distance =>
    obtain ⟨hlow, hdistance⟩ := hhop o distance rfl
    exact hl.same_hop hx hx' hwhole hlow hdistance
  | jump kind o target => exact hl.same_jump hx hx' hwhole (hR target.toNat)
  | switch targets =>
    by_cases hne : targets = []
    · subst hne
      have hpop : mc.code.code.Spells pos [pop2] := hl.spells hx rfl
      have hpop' : mc.code.code.Spells pos' [pop2] := hl.spells hx' rfl
      have hraw : ∀ p : Nat, (Item.switch []).raw p = [pop2] := fun _ => rfl
      have hstarts : ∀ p : Nat, (Item.switch []).starts p = [p] := fun _ => rfl
      rw [hraw, hraw, hstarts, hstarts]
      exact .plain (.fixed (Bytes.spells_cons.mp hpop).1 rfl (by simp))
        (.fixed (Bytes.spells_cons.mp hpop').1 rfl (by simp)) hpop hpop'
    · have hstarts : ∀ p : Nat, (Item.switch targets).starts p = [p, p + 1] :=
        fun p => if_neg (by simpa using hne)
      rw [hstarts, hstarts]
      exact hl.same_switch hx hx' hne (hcount targets rfl) hR hnext
  | _ => exact hl.same_plain hx hx' hwhole (by simp) rfl (fun _ => rfl)

end Items

-- As many instructions start in items wherever they stand.
theorem Item.length_allStarts (pos pos' : Nat) (items : List (Item UInt16)) :
    (allStarts pos items).length = (allStarts pos' items).length := by
  have hone : ∀ (x : Item UInt16) (pos pos' : Nat),
      (x.starts pos).length = (x.starts pos').length := by
    intro x pos pos'
    cases x with
    | switch targets =>
      by_cases hempty : targets.isEmpty = true
      · have hstarts : ∀ p, (switch targets).starts p = [p] := fun _ => if_pos hempty
        rw [hstarts, hstarts]
        rfl
      · have hstarts : ∀ p, (switch targets).starts p = [p, p + 1] := fun _ => if_neg hempty
        rw [hstarts, hstarts]
        rfl
    | _ => rfl
  induction items generalizing pos pos' with
  | nil => rfl
  | cons x rest ih =>
    rw [allStarts, allStarts, List.length_append, List.length_append, hone x pos pos', ih]

-- Where items begin an instruction of them starts, or they are over.
theorem Item.exists_allStarts_append (l : Layout) (items : List (Item UInt16)) :
    ∃ more, allStarts l.out.pos items ++ [(l.puts items).out.pos] = l.out.pos :: more := by
  induction items generalizing l with
  | nil => exact ⟨[], rfl⟩
  | cons x rest ih =>
    obtain ⟨more, hmore⟩ := ih (l.put x)
    rw [l.pos_put] at hmore
    rw [allStarts, Layout.puts_cons, List.append_assoc, hmore]
    cases x with
    | mark | reserve | enter | leave => exact ⟨more, rfl⟩
    | switch targets =>
      by_cases hempty : targets.isEmpty = true
      · have hstarts : (switch targets).starts l.out.pos = [l.out.pos] := if_pos hempty
        rw [hstarts]
        exact ⟨_, rfl⟩
      · have hstarts : (switch targets).starts l.out.pos = [l.out.pos, l.out.pos + 1] :=
          if_neg hempty
        rw [hstarts]
        exact ⟨_, rfl⟩
    | _ => exact ⟨_, rfl⟩

-- Positions behind the same prefix of items are in the same place among all of theirs.
theorem Layout.Beside.mem_zip {l l' : Layout} {own : List (Item UInt16)} {d d' : Nat}
    (h : l.Beside l' own d d') :
    (d, d') ∈ (Item.allStarts l.out.pos own ++ [(l.puts own).out.pos]).zip
      (Item.allStarts l'.out.pos own ++ [(l'.puts own).out.pos]) := by
  obtain ⟨xs, ys, rfl, rfl, rfl⟩ := h
  obtain ⟨more, hmore⟩ := Item.exists_allStarts_append (l.puts xs) ys
  obtain ⟨more', hmore'⟩ := Item.exists_allStarts_append (l'.puts xs) ys
  rw [Item.allStarts_append, Item.allStarts_append, List.append_assoc, List.append_assoc,
    Layout.puts_append, Layout.puts_append, hmore, hmore',
    List.zip_append (Item.length_allStarts _ _ _)]
  exact List.mem_append_right _ List.mem_cons_self

-- What a jump of the block leads to in the method itself and in a copy with the scope `s` inside `p`:
-- places that belong together, or what is known of a position in the scopes around.
def Relocation.LeadsAlike (r : Relocation) (s p : Nat) (places : List (Nat × Nat)) (d d' : Nat) :
    Prop :=
  (d, d') ∈ places ∨ ∃ q, r.getLocal s q = none ∧ r.Finds q Relocation.mainScope d ∧ r.Finds q p d'

-- Where blocks are copied, no jump enters a subroutine.
theorem Emits.kind_eq {env : ClassEnv} {f : Frame} {i : Instr} {next : Following} {e e' : EmitState}
    {fused : Bool} {its : List (Item UInt16)} (h : Emits env f i next e fused its e')
    (hinline : env.config.finallyStrategy = .inline) {kind : JumpKind} {o : UInt8}
    {target : UInt16} (hmem : .jump kind o target ∈ its) : kind = .branch := by
  have hne := h.op_ne hinline
  cases h.shape with
  | branch hb =>
    rw [List.mem_singleton] at hmem
    subst hmem
    unfold branchItem? at hb
    split at hb <;> cases hb
    · rfl
    · rfl
    · rfl
    · rfl
    · rename_i hop
      exact absurd hop hne
  | inert _ hinert => cases hinert _ hmem
  | fused _ _ hpre hbefore _ =>
    simp only [List.mem_append, List.mem_cons, List.not_mem_nil, or_false, reduceCtorEq,
      false_or, Item.jump.injEq] at hmem
    obtain hmem | hmem | hmem := hmem
    · cases hpre _ hmem
    · cases hbefore _ hmem
    · exact hmem.1

theorem Emission.kind_eq {env : ClassEnv} {f : Frame} {code : Bytes} {e e' : EmitState}
    {instrs : List Instr} {its : List (Item UInt16)} (h : Emission env f code e instrs its e')
    (hinline : env.config.finallyStrategy = .inline) {kind : JumpKind} {o : UInt8}
    {target : UInt16} (hmem : .jump kind o target ∈ its) : kind = .branch := by
  induction h with
  | nil => cases hmem
  | one hi _ ih | fused hi _ ih =>
    simp only [List.mem_cons, List.mem_append, reduceCtorEq, false_or] at hmem
    obtain hmem | hmem := hmem
    · exact hi.kind_eq hinline hmem
    · exact ih hmem
  | copy _ _ _ _ _ _ ihbody ihrest =>
    simp only [List.mem_cons, List.mem_append, reduceCtorEq, false_or] at hmem
    obtain hmem | hmem := hmem
    · exact ihbody hmem
    · exact ihrest hmem

-- The jumps of a layout are those of its items.
theorem Layout.exists_item {l : Layout} {items : List (Item UInt16)} {n : JumpNode}
    (h : n ∈ (l.puts items).jumps.toList) :
    n ∈ l.jumps.toList ∨ ∃ x ∈ items, ∃ s pos, n ∈ x.nodes s pos := by
  induction items generalizing l with
  | nil => exact .inl h
  | cons x rest ih =>
    obtain h | ⟨y, hy, hn⟩ := ih h
    · rw [jumps_put] at h
      obtain h | h := List.mem_append.mp h
      · exact .inl h
      · exact .inr ⟨x, List.mem_cons_self, _, _, h⟩
    · exact .inr ⟨y, List.mem_cons_of_mem _ hy, hn⟩

section Twice

variable {env : ClassEnv} {f : Frame} {code : Bytes} {out : CodeBuffer} {c c₁ : OpenClass}
  {body : BodyState} {mc : MethodCode} {l l' : Layout} {own after after' : List (Item UInt16)}
  {p : Nat}

-- A hop among the items leads as far behind both layouts.
theorem Layout.beside_of_hop {xs ys : List (Item UInt16)} {o : UInt8} {distance : UInt16}
    (hown : own = xs ++ .hop o distance :: ys)
    (hlands : Item.hopLands ys (.hop o distance) = true) :
    distance.toNat < 2 ^ 15 ∧ l.Beside l' own ((l.puts xs).out.pos + distance.toNat)
      ((l'.puts xs).out.pos + distance.toNat) := by
  simp only [Item.hopLands, Bool.and_eq_true, decide_eq_true_eq] at hlands
  obtain ⟨hlow, hhigh, hlands⟩ := hlands
  obtain ⟨mid, post, rfl, hmid⟩ := Item.exists_of_lands hlands
  have hlanding : ∀ l : Layout, (l.puts (xs ++ Item.hop o distance :: mid)).out.pos =
      (l.puts xs).out.pos + distance.toNat := by
    intro l
    rw [Layout.puts_append, Layout.puts_cons, hmid, Layout.pos_put]
    simp only [Item.raw, List.length_cons, Array.length_toList, Bytes.size_be2]
    omega
  exact ⟨hhigh, xs ++ Item.hop o distance :: mid, post, by simp [hown], hlanding l, hlanding l'⟩

-- A position that a jump of the items names is found in places that lead alike.
theorem BodyState.Twice.leadsAlike (h : body.Twice code out env f own l l' after after')
    (hemits : emitBody f code {} env c = .ok ((), body) c₁)
    (hmain : l.scope = Relocation.mainScope)
    (hparent : (body.layout code out).reloc.parent l'.scope = some p) {q : Nat}
    (hopen : ∀ java', (body.layout code out).reloc.getLocal l'.scope q = some java' →
      ∃ java, (body.layout code out).reloc.getLocal l.scope q = some java ∧
        l.Beside l' own java java') {xs ys : List (Item UInt16)} (hown : own = xs ++ ys) {d d' : Nat}
    (hd : (body.layout code out).reloc.Finds q (l.puts xs).scope d)
    (hd' : (body.layout code out).reloc.Finds q (l'.puts xs).scope d') :
    (body.layout code out).reloc.LeadsAlike l'.scope p
      ((Item.allStarts l.out.pos own ++ [(l.puts own).out.pos]).zip
        (Item.allStarts l'.out.pos own ++ [(l'.puts own).out.pos])) d d' := by
  have hfirst := h.first
  rw [hown, List.append_assoc] at hfirst
  have hlt : (l.puts xs).scope < (l.puts own).reloc.scopes.size := by
    have hin := hfirst.behind.valid.scope_lt
    have hgrow := (l.puts xs).scopes_le_puts ys
    rw [← Layout.puts_append, ← hown] at hgrow
    omega
  obtain hd | ⟨hnone, hd, hd'⟩ := h.finds hemits hopen (h.abreast hown).scope hlt hd hd'
  · exact .inl hd.mem_zip
  · rw [hmain] at hd
    cases hd' with
    | here hknown =>
      rw [hnone] at hknown
      cases hknown
    | outer _ hp hd' =>
      rw [hparent, Option.some.injEq] at hp
      subst hp
      exact .inr ⟨q, hnone, hd, hd'⟩

-- Items that stand twice are the same code.
theorem Lowered.same_items (hl : Lowered env f code out c c₁ body mc)
    (h : body.Twice code out env f own l l' after after') (htidy : Item.isTidy own = true)
    (hmain : l.scope = Relocation.mainScope)
    (hparent : (body.layout code out).reloc.parent l'.scope = some p)
    (hopen : ∀ q java', (body.layout code out).reloc.getLocal l'.scope q = some java' →
      ∃ java, (body.layout code out).reloc.getLocal l.scope q = some java ∧
        l.Beside l' own java java') :
    SameCode ((body.layout code out).reloc.LeadsAlike l'.scope p
        ((Item.allStarts l.out.pos own ++ [(l.puts own).out.pos]).zip
          (Item.allStarts l'.out.pos own ++ [(l'.puts own).out.pos])))
      mc.code.code l.out.pos l'.out.pos (Item.allStarts l.out.pos own)
      (Item.allStarts l'.out.pos own) (l.puts own).out.pos (l'.puts own).out.pos := by
  obtain ⟨e, e', instrs, start, stop, hemission, hs⟩ := h.emission
  generalize hplaces : (Item.allStarts l.out.pos own ++ [(l.puts own).out.pos]).zip
    (Item.allStarts l'.out.pos own ++ [(l'.puts own).out.pos]) = places
  have hbeside : ∀ {d d' : Nat}, l.Beside l' own d d' →
      (body.layout code out).reloc.LeadsAlike l'.scope p places d d' := by
    intro d d' hd
    rw [← hplaces]
    exact .inl hd.mem_zip
  -- What is left of the items, behind any number of them.
  have hsuffix : ∀ ys xs, own = xs ++ ys →
      SameCode ((body.layout code out).reloc.LeadsAlike l'.scope p places) mc.code.code
        (l.puts xs).out.pos (l'.puts xs).out.pos (Item.allStarts (l.puts xs).out.pos ys)
        (Item.allStarts (l'.puts xs).out.pos ys) (l.puts own).out.pos (l'.puts own).out.pos := by
    intro ys
    induction ys with
    | nil =>
      intro xs hown
      rw [List.append_nil] at hown
      subst hown
      exact .done
    | cons x ys ih =>
      intro xs hown
      have hrest := ih (xs ++ [x]) (by simp [hown])
      rw [Layout.puts_append, Layout.puts_append, Layout.puts_cons, Layout.puts_cons,
        Layout.puts_nil, Layout.puts_nil, Layout.pos_put, Layout.pos_put] at hrest
      have hfirst := h.first
      have hsecond := h.second
      rw [hown, List.append_assoc] at hfirst hsecond
      have htidy' : Item.isTidy (x :: ys) = true := by
        rw [hown] at htidy
        exact Item.isTidy_of_append htidy
      simp only [Item.isTidy, Bool.and_eq_true] at htidy'
      refine (hl.same_item hfirst.behind.stands hsecond.behind.stands htidy'.1 ?_ ?_ ?_ ?_).append
        hrest
      · rintro targets rfl
        exact hemission.targets_lt hs (by simp [hown])
      · rintro o distance rfl
        obtain ⟨hhigh, hlands⟩ := Layout.beside_of_hop hown htidy'.2.1
        exact ⟨hhigh, hbeside hlands⟩
      · intro q d d' hd hd'
        rw [← hplaces]
        exact h.leadsAlike hl.emits hmain hparent (hopen q) hown hd hd'
      · refine hbeside ⟨xs ++ [x], ys, by simp [hown], ?_, ?_⟩ <;>
          rw [Layout.puts_append, Layout.puts_cons, Layout.puts_nil, Layout.pos_put]
  exact hsuffix own [] rfl

end Twice

-- The code of a finally block in the method itself is that from `lo` to `hi`: behind the store of the
-- exception, and before that is loaded again to be thrown.
structure MethodCode.HasBlock (mc : MethodCode) (r : Relocation) (start stop lo hi : Nat) : Prop where
  stores : ∃ slot java, r.getLocal Relocation.mainScope start = some java ∧
    mc.code.code.Spells java (Item.storeRaw .obj slot) ∧
    lo = java + (Item.storeRaw .obj slot).length ∧
    mc.code.code.Spells hi (Item.loadRaw .obj slot ++ [athrow])
  ends : r.getLocal Relocation.mainScope stop = some hi

-- A copy with the scope `s` inside `p` is the code from `lo` to `hi` once more. Its instructions start
-- at `starts'`, where those of the code do at `starts`.
structure MethodCode.Copies (mc : MethodCode) (r : Relocation) (s p : Nat) (copy : InlineCopy)
    (lo hi : Nat) (starts starts' : List Nat) : Prop where
  same : SameCode (r.LeadsAlike s p ((starts ++ [hi]).zip (starts' ++ [copy.javaEnd]))) mc.code.code
    lo copy.javaStart starts starts' hi copy.javaEnd
  -- What the copy knows has its place in both.
  places : ∀ q java', r.getLocal s q = some java' → ∃ java,
    r.getLocal Relocation.mainScope q = some java ∧
      (java, java') ∈ (starts ++ [hi]).zip (starts' ++ [copy.javaEnd])
  ends : r.getLocal s copy.stop = some copy.javaEnd
  -- A jump goes to what the copy knows, or else to what the scope around finds.
  jumps : ∀ n ∈ mc.jumps, n.scope = s → ∃ (offset : Int) (dest : Nat),
    n.stored? mc.code.code = some offset ∧ n.origin + offset = dest ∧
    (r.getLocal s n.target.toNat = some dest ∨
      r.getLocal s n.target.toNat = none ∧ r.Finds n.target.toNat p dest)

section Copies

variable {env : ClassEnv} {f : Frame} {code : Bytes} {out : CodeBuffer} {c c' c₁ : OpenClass}
  {body : BodyState} {mc : MethodCode} {attrs : Pod.Attributes}

-- Where a scope has the position of an instruction that runs a finally block a copy begins.
theorem layout_enter (hbody : emitBody f code {} env c = .ok ((), body) c₁)
    (hinline : env.config.finallyStrategy = .inline) {p q java : Nat} {i : Instr}
    (hknown : (body.layout code out).reloc.getLocal p q = some java)
    (hi : Instr.decodeAt code q = .ok i) (hop : i.op = .jumpFinally) :
    ∃ pre post, body.items.toList = (pre ++ [Item.mark q]) ++ Item.enter :: post ∧
      ((Layout.start out code.size).puts pre).scope = p ∧
      ((Layout.start out code.size).puts pre).out.pos = java := by
  obtain hend | ⟨pre, post, hitems, hscope, hpos, hsite⟩ := layout_site out hbody hknown hi
  · rw [hop] at hend
    cases hend
  cases hsite with
  | @copy _ _ more _ _ _ => exact ⟨pre, more, by simp [hitems], hscope, hpos⟩
  | one hi' hown =>
    rw [hi] at hi'
    cases hi'
    exact absurd hop (hown.op_ne hinline)
  | fused hi' _ hown =>
    rw [hi] at hi'
    cases hi'
    exact absurd hop (hown.op_ne hinline)
  | swallowed _ _ hj hown =>
    -- The jump behind a comparison is a conditional one.
    rw [hi] at hj
    cases hj
    obtain ⟨sense, hsense⟩ := hown.sense
    rw [hop] at hsense
    cases hsense

-- Where blocks are copied, each jump goes to what its scope finds.
theorem Lowered.jump_target (hl : Lowered env f code out c c₁ body mc)
    (hinline : env.config.finallyStrategy = .inline) {n : JumpNode} (hn : n ∈ mc.jumps) :
    ∃ (offset : Int) (dest : Nat), n.stored? mc.code.code = some offset ∧
      n.origin + offset = dest ∧
      (body.layout code out).reloc.Finds n.target.toNat n.scope dest := by
  obtain ⟨offset, hstored, dest, hfinds, hoffset⟩ := hl.filled.targets n hn
  have hkind : n.kind ≠ .finally_ := by
    obtain ⟨instrs, its, -, hder, hitems⟩ := items_of_emitBody hl.emits
    rw [hl.filled.jumps, ← Array.mem_toList_iff, body.layout_eq] at hn
    obtain hn | ⟨x, hx, s, pos, hn⟩ := Layout.exists_item hn
    · cases hn
    rw [hitems, List.mem_append, List.mem_singleton] at hx
    obtain hx | rfl := hx
    · cases x with
      | jump kind o target =>
        rw [Item.nodes, List.mem_singleton] at hn
        rw [hn, hder.kind_eq hinline hx]
        exact JumpKind.noConfusion
      | switch targets =>
        rw [(Item.mem_switchNodes hn).2.1]
        exact JumpKind.noConfusion
      | _ => cases hn
    · cases hn
  rw [if_neg hkind] at hoffset
  exact ⟨offset, dest, hstored, hoffset, hfinds⟩

-- Behind the mark of an instruction that runs a block stands the copy of the block.
theorem goes_of_holds {pre own post : List (Item UInt16)} {s : Nat} {copy : InlineCopy}
    (h : body.Holds code out s copy pre own post) :
    body.Goes code out (((Layout.start out code.size).puts pre).put (.mark copy.site)).enter
      (own ++ Item.leave copy.site copy.finallyStart copy.stop :: post) := by
  refine ⟨pre ++ [Item.mark copy.site, Item.enter], by simp [h.items], ?_⟩
  rw [Layout.puts_append]
  rfl

-- The block of a method, with the layout behind the store of its exception.
theorem exists_goes_of_block (hl : Lowered env f code out c c₁ body mc)
    (hinline : env.config.finallyStrategy = .inline) (hblocks : RunsBlocks code) {q : Nat}
    {i : Instr} (hq : Reaches code 0 q) (hi : Instr.decodeAt code q = .ok i)
    (hop : i.op = .jumpFinally) {stop : Nat} (hstop : finallyEnd f.name code i = .ok stop) :
    ∃ l inner own after, Stream code stop (i.arg.toNat + 1) inner ∧
      (∃ d d', Emission env f code d inner own d' ∧ Onward env f ⟨{}, c⟩ d ∧
        Onward env f d' ⟨body.finallies, c₁⟩) ∧
      l.scope = Relocation.mainScope ∧ body.Goes code out l (own ++ Item.mark stop :: after) ∧
      mc.HasBlock (body.layout code out).reloc i.arg.toNat stop l.out.pos
        (l.puts own).out.pos := by
  obtain ⟨instrs, its, hstream, hder, hitems⟩ := items_of_emitBody hl.emits
  obtain ⟨j, hj, hpos, hjop⟩ := hblocks instrs (Instr.disassemble_eq_ok_iff.mpr hstream) i
    (Stream.mem_of_reaches hstream hq hi) hop
  have hend := (finallyEnd_eq_ok hstop).2
  rw [← hpos] at hend
  obtain ⟨slot, before, inner, own, behind, hblock⟩ :=
    hder.exists_block hstream hinline hj hjop hend
  have hscope := hblock.scope _ (Layout.valid_start out code.size)
  have hfull : body.items.toList = before ++ (Item.mark j.pos :: Item.store .obj slot ::
      (own ++ Item.mark stop :: .load .obj slot :: .op athrow ::
        (behind ++ [Item.mark code.size]))) := by
    rw [hitems, hblock.items]
    simp
  have hstart : body.Goes code out ((Layout.start out code.size).puts before) _ :=
    ⟨before, hfull, rfl⟩
  generalize hm : (Layout.start out code.size).puts before = m at hscope hstart
  have hstore := hstart.next
  have hown := hstore.next
  have hmark := hown.behind
  obtain ⟨e, e', hemission, hbefore, hbehind⟩ := hblock.emission
  obtain ⟨ps, hps, -⟩ := hemission.marked hblock.stream hown.valid
  have hload := hmark.stands.unmark
  have hspells := hl.spells hload rfl
  have hthrow := hl.spells (hload.tail fun _ => rfl) rfl
  rw [← hpos]
  refine ⟨(m.put (.mark j.pos)).put (.store .obj slot), inner, own, _, hblock.stream,
    ⟨e, e', hemission, hbefore, hbehind⟩, hscope, hown, ?_, ?_⟩
  · refine ⟨slot, m.out.pos, ?_, hl.spells hstore.stands rfl, Layout.pos_put _ _, ?_⟩
    · have hnote := hstart.note hl.emits ⟨_, _, rfl, .inl rfl⟩
      rwa [hscope] at hnote
    · exact Bytes.spells_append.mpr ⟨hspells, hthrow⟩
  · have hnote := hmark.note hl.emits ⟨_, _, rfl, .inl rfl⟩
    have hopen : ((m.put (.mark j.pos)).put (.store .obj slot)).scope = Relocation.mainScope :=
      hscope
    rw [hps.scope, hopen] at hnote
    exact hnote

-- A copy is the code of its block in the method itself.
theorem finally_copies_faithful (hc : c.WellFormed env)
    (hinline : env.config.finallyStrategy = .inline) (hblocks : RunsBlocks code)
    (h : lowerCode f code attrs out env c = .ok mc c') :
    ∃ body c₁, emitBody f code {} env c = .ok ((), body) c₁ ∧
      ∀ p q java i, (body.layout code out).reloc.getLocal p q = some java →
        Instr.decodeAt code q = .ok i → i.op = .jumpFinally →
        ∃ s copy inner lo hi starts starts',
          (body.layout code out).reloc.CopyScope code s p copy i inner ∧ copy.site = q ∧
          copy.javaStart = java ∧
          mc.HasBlock (body.layout code out).reloc copy.finallyStart copy.stop lo hi ∧
          mc.Copies (body.layout code out).reloc s p copy lo hi starts starts' := by
  obtain ⟨body, c₁, hl⟩ := lowered_of_lowerCode h
  refine ⟨body, c₁, hl.emits, ?_⟩
  intro p q java i hknown hi hop
  obtain ⟨pre, post, hitems, rfl, rfl⟩ := layout_enter hl.emits hinline hknown hi hop
  obtain ⟨pre', copy, i', inner, own, after', hpre, hscope, hholds, hcopied⟩ :=
    layout_copied out hl.emits hitems
  obtain ⟨rfl, hmark⟩ := List.append_inj' hpre rfl
  obtain rfl : q = copy.site := by simpa using hmark
  obtain rfl : i = i' := by
    have hsame := hscope.decodes
    rw [hi] at hsame
    exact Except.ok.inj hsame
  have hreach : Reaches code 0 copy.site := by
    have hlt : ((Layout.start out code.size).puts pre).scope <
        (body.layout code out).reloc.scopes.size := by
      obtain ⟨sc, hsc, -⟩ := Option.bind_eq_some_iff.mp hknown
      exact (Array.getElem?_eq_some_iff.mp hsc).1
    obtain ⟨lo, hi, hspans, -⟩ := layout_spans out hl.emits hblocks hlt
    exact ((hspans.known _).mp ⟨_, hknown⟩).1
  obtain ⟨l, inner₂, own₂, after, hstream, ⟨d, d', hder, hbegins, hbehind⟩, hmain, hgoes, hblock⟩ :=
    exists_goes_of_block hl hinline hblocks hreach hi hop hcopied.ends
  obtain ⟨e, e', hemission, hbefore, hbehind'⟩ := hcopied.emission
  -- The copy has the items of the block.
  obtain rfl := Stream.unique hcopied.stream hstream
  obtain ⟨rfl, -⟩ := hder.agree_of_closed hemission hinline (hbehind.below hinline)
    (hbehind'.below hinline)
    (openBlocks_of_findFinallyEnd (finallyEnd_eq_ok hcopied.ends).2 hstream)
  have hgoes' := goes_of_holds hholds
  have hv := (Layout.valid_start out code.size).puts pre
  obtain ⟨hleft, -⟩ := hcopied.copyScope hv rfl
  have htwice : body.Twice code out env f _ l _ (.mark copy.stop :: after) _ :=
    ⟨⟨d, d', inner, _, _, hder, hstream⟩, hgoes, hgoes'⟩
  have hstart : (((Layout.start out code.size).puts pre).put (.mark copy.site)).enter.out.pos =
      copy.javaStart := hholds.javaStart
  have hends := hgoes'.behind.note hl.emits ⟨_, _, rfl, .inr ⟨_, _, rfl⟩⟩
  have hopened : (((Layout.start out code.size).puts pre).put (.mark copy.site)).enter.scope =
      ((Layout.start out code.size).puts pre).reloc.scopes.size := Layout.size_put (by simp)
  obtain ⟨ps, hps, -⟩ := hder.marked hstream hgoes'.valid
  rw [hps.scope, hopened, hholds.javaEnd] at hends
  rw [← hopened] at hleft
  rw [← hscope.finallyStart, Instr.decodeAt_pos hi] at hleft
  rw [← hscope.finallyStart] at hblock
  have hplaces : ∀ q java', (body.layout code out).reloc.getLocal _ q = some java' → _ :=
    fun q java' hknown => htwice.exists_beside_of_copy hl.emits hleft hknown
  have hparent := hscope.parent
  rw [← hopened] at hparent
  have hwf : d.cls.WellFormed env := (hbegins.later.advances hc).1
  have hsame := hl.same_items htwice (hder.tidy hwf) hmain hparent hplaces
  rw [hopened, hstart, hholds.javaEnd] at hsame
  refine ⟨_, copy, inner, _, _, _, _, hscope, rfl, hstart.symm, hblock, hsame, ?_, hends, ?_⟩
  · intro q java' hknown
    rw [hopened] at hplaces
    obtain ⟨java, hjava, hbeside⟩ := hplaces q java' hknown
    have hmem := hbeside.mem_zip
    rw [hmain] at hjava
    rw [hstart, hholds.javaEnd] at hmem
    exact ⟨java, hjava, hmem⟩
  · intro n hn hns
    obtain ⟨offset, dest, hstored, hoffset, hfinds⟩ := hl.jump_target hinline hn
    refine ⟨offset, dest, hstored, hoffset, ?_⟩
    rw [hns] at hfinds
    cases hfinds with
    | here hknown => exact .inl hknown
    | outer hnone hp hrest =>
      rw [hscope.parent, Option.some.injEq] at hp
      subst hp
      exact .inr ⟨hnone, hrest⟩

end Copies

-- The block of the copy has a try of its own, and a leave that its copy ends.
theorem finally_copies_faithful_nestedTry : RunsBlocks nestedTry ∧
    errEnv.config.finallyStrategy = .inline ∧
    (nestedBody.layout nestedTry {}).reloc.getLocal 0 0 = some 0 ∧
    ∃ mc c', lowerCode bareFrame nestedTry nestedAttrs {} errEnv bareClass = .ok mc c' ∧
      ∃ s copy inner lo hi starts starts',
        (nestedBody.layout nestedTry {}).reloc.CopyScope nestedTry s 0 copy ⟨0, .jumpFinally, [7]⟩
          inner ∧ copy.site = 0 ∧ copy.javaStart = 0 ∧
        mc.HasBlock (nestedBody.layout nestedTry {}).reloc copy.finallyStart copy.stop lo hi ∧
        mc.Copies (nestedBody.layout nestedTry {}).reloc s 0 copy lo hi starts starts' := by
  have hknown : (nestedBody.layout nestedTry {}).reloc.getLocal 0 0 = some 0 := by
    decide +kernel
  obtain ⟨mc, c', h, -⟩ := exists_lowerCode_nestedTry
  obtain ⟨body, c₁, hbody, hall⟩ :=
    finally_copies_faithful (wellFormed_bare _) rfl runsBlocks_nestedTry h
  rw [emitBody_nestedTry] at hbody
  cases hbody
  have hi : Instr.decodeAt nestedTry 0 = .ok ⟨0, .jumpFinally, [7]⟩ := rfl
  exact ⟨runsBlocks_nestedTry, rfl, hknown, mc, c', h, hall 0 0 0 _ hknown hi rfl⟩

end PodCompiler.Lowering
