import PodCompiler.Proofs.Lowering.Steps
import PodCompiler.Lowering.Protection

namespace PodCompiler.Lowering.Protection

open Pod (ErrEntry)

-- Holes in the order of their beginnings, none of which ends before it begins.
structure Cut (hs : List (Nat × Nat)) : Prop where
  sorted : hs.Pairwise fun a b => a.1 ≤ b.1
  forward : ∀ h ∈ hs, h.1 ≤ h.2

theorem Cut.tail {h : Nat × Nat} {hs : List (Nat × Nat)} (hcut : Cut (h :: hs)) : Cut hs where
  sorted := (List.pairwise_cons.mp hcut.sorted).2
  forward k hk := hcut.forward k (List.mem_cons_of_mem _ hk)

section Pieces

variable {start stop : Nat} {hs : List (Nat × Nat)}

-- A piece lies in the range and is not empty.
theorem bounds_of_mem_pieces {p : Nat × Nat} (h : p ∈ pieces stop start hs) :
    start ≤ p.1 ∧ p.1 < p.2 ∧ p.2 ≤ stop := by
  induction hs generalizing start with
  | nil =>
    rw [pieces] at h
    split at h
    · obtain rfl := List.mem_singleton.mp h
      dsimp only
      omega
    · cases h
  | cons hole rest ih =>
    obtain ⟨first, last⟩ := hole
    rw [pieces] at h
    split at h
    · exact ih h
    · rename_i hskip
      simp only [Bool.or_eq_true, decide_eq_true_eq, not_or, not_le] at hskip
      obtain h | h := List.mem_append.mp h
      · split at h
        · obtain rfl := List.mem_singleton.mp h
          dsimp only
          omega
        · cases h
      · have := ih h
        omega

-- It begins and ends at an end of the range or of a hole.
theorem ends_of_mem_pieces {p : Nat × Nat} (h : p ∈ pieces stop start hs) :
    (p.1 = start ∨ ∃ hole ∈ hs, p.1 = hole.2) ∧ (p.2 = stop ∨ ∃ hole ∈ hs, p.2 = hole.1) := by
  induction hs generalizing start with
  | nil =>
    rw [pieces] at h
    split at h
    · obtain rfl := List.mem_singleton.mp h
      exact ⟨.inl rfl, .inl rfl⟩
    · cases h
  | cons hole rest ih =>
    rw [pieces] at h
    split at h
    · obtain ⟨hstart, hstop⟩ := ih h
      exact ⟨hstart.imp_right fun ⟨k, hk, hp⟩ => ⟨k, List.mem_cons_of_mem _ hk, hp⟩,
        hstop.imp_right fun ⟨k, hk, hp⟩ => ⟨k, List.mem_cons_of_mem _ hk, hp⟩⟩
    · obtain h | h := List.mem_append.mp h
      · split at h
        · obtain rfl := List.mem_singleton.mp h
          exact ⟨.inl rfl, .inr ⟨hole, List.mem_cons_self, rfl⟩⟩
        · cases h
      · obtain ⟨hstart, hstop⟩ := ih h
        refine ⟨?_, hstop.imp_right fun ⟨k, hk, hp⟩ => ⟨k, List.mem_cons_of_mem _ hk, hp⟩⟩
        obtain hstart | ⟨k, hk, hp⟩ := hstart
        · by_cases hle : start ≤ hole.2
          · exact .inr ⟨hole, List.mem_cons_self, by omega⟩
          · exact .inl (by omega)
        · exact .inr ⟨k, List.mem_cons_of_mem _ hk, hp⟩

-- Each piece ends before the next one begins.
theorem pairwise_pieces (hcut : Cut hs) :
    (pieces stop start hs).Pairwise fun p q => p.2 ≤ q.1 := by
  induction hs generalizing start with
  | nil =>
    rw [pieces]
    split
    · exact List.pairwise_singleton _ _
    · exact List.Pairwise.nil
  | cons hole rest ih =>
    have hforward := hcut.forward hole List.mem_cons_self
    rw [pieces]
    split
    · exact ih hcut.tail
    · refine List.pairwise_append.mpr ⟨?_, ih hcut.tail, ?_⟩
      · split
        · exact List.pairwise_singleton _ _
        · exact List.Pairwise.nil
      · intro p hp q hq
        have := bounds_of_mem_pieces hq
        split at hp
        · obtain rfl := List.mem_singleton.mp hp
          dsimp only
          omega
        · cases hp

-- A position is in a piece exactly if it is in the range and in no hole.
theorem exists_piece_iff (hcut : Cut hs) (pc : Nat) :
    (∃ p ∈ pieces stop start hs, p.1 ≤ pc ∧ pc < p.2) ↔
      start ≤ pc ∧ pc < stop ∧ ∀ hole ∈ hs, ¬(hole.1 ≤ pc ∧ pc < hole.2) := by
  induction hs generalizing start with
  | nil =>
    rw [pieces]
    split
    · simp
    · simp only [List.not_mem_nil, false_and, exists_false, IsEmpty.forall_iff, implies_true,
        and_true, false_iff]
      omega
  | cons hole rest ih =>
    obtain ⟨first, last⟩ := hole
    have hforward : first ≤ last := hcut.forward _ List.mem_cons_self
    have hbehind : ∀ k ∈ rest, first ≤ k.1 := (List.pairwise_cons.mp hcut.sorted).1
    rw [pieces, List.forall_mem_cons]
    split
    · rename_i hskip
      simp only [Bool.or_eq_true, decide_eq_true_eq] at hskip
      rw [ih hcut.tail]
      constructor
      · rintro ⟨hlo, hhi, hrest⟩
        exact ⟨hlo, hhi, by dsimp only; omega, hrest⟩
      · rintro ⟨hlo, hhi, -, hrest⟩
        exact ⟨hlo, hhi, hrest⟩
    · rename_i hskip
      simp only [Bool.or_eq_true, decide_eq_true_eq, not_or, not_le] at hskip
      have hsplit : (∃ p ∈ (if start < first then [(start, first)] else []) ++
          pieces stop (max start last) rest, p.1 ≤ pc ∧ pc < p.2) ↔
          (start ≤ pc ∧ pc < first) ∨
            ∃ p ∈ pieces stop (max start last) rest, p.1 ≤ pc ∧ pc < p.2 := by
        split
        · rw [List.singleton_append, List.exists_mem_cons_iff]
        · simp only [List.nil_append]
          constructor
          · exact .inr
          · rintro (h | h)
            · omega
            · exact h
      rw [hsplit, ih hcut.tail]
      dsimp only
      constructor
      · rintro (⟨hlo, hhi⟩ | ⟨hlo, hhi, hrest⟩)
        · -- Before the first hole there is no other one.
          refine ⟨hlo, by omega, by omega, ?_⟩
          intro k hk
          have := hbehind k hk
          omega
        · exact ⟨by omega, hhi, by omega, hrest⟩
      · rintro ⟨hlo, hhi, hhole, hrest⟩
        by_cases hfirst : pc < first
        · exact .inl ⟨hlo, hfirst⟩
        · exact .inr ⟨by omega, hhi, hrest⟩

end Pieces

section Holes

variable {r : Relocation} {scope : Nat} {e : ErrEntry}

-- A copy in a scope is that of a scope inside it.
theorem mem_children {copy : InlineCopy} :
    copy ∈ r.children scope ↔ ∃ s, r.parent s = some scope ∧ r.copy s = some copy := by
  unfold Relocation.children Relocation.parent Relocation.copy
  simp only [List.mem_filterMap, List.mem_filter, decide_eq_true_eq]
  constructor
  · rintro ⟨sc, ⟨hmem, hparent⟩, hcopy⟩
    obtain ⟨s, hs⟩ := List.mem_iff_getElem?.mp hmem
    rw [Array.getElem?_toList] at hs
    exact ⟨s, by simp [hs, hparent], by simp [hs, hcopy]⟩
  · rintro ⟨s, hparent, hcopy⟩
    obtain ⟨sc, hs, hparent⟩ := Option.bind_eq_some_iff.mp hparent
    rw [hs, Option.bind_some] at hcopy
    exact ⟨sc, ⟨Array.mem_toList_iff.mpr (Array.mem_of_getElem? hs), hparent⟩, hcopy⟩

theorem mem_holes {hole : Nat × Nat} :
    hole ∈ holes r scope e ↔ ∃ copy ∈ r.children scope, covers e copy.site = true ∧
      covers e copy.finallyStart = false ∧ hole = (copy.javaStart, copy.javaEnd) := by
  unfold holes
  simp only [List.mem_mergeSort, List.mem_map, List.mem_filter, Bool.and_eq_true,
    Bool.not_eq_true']
  constructor
  · rintro ⟨copy, ⟨hmem, hsite, hstart⟩, rfl⟩
    exact ⟨copy, hmem, hsite, hstart, rfl⟩
  · rintro ⟨copy, hmem, hsite, hstart, rfl⟩
    exact ⟨copy, ⟨hmem, hsite, hstart⟩, rfl⟩

-- The holes are in order.
theorem cut_holes (hforward : ∀ copy ∈ r.children scope, copy.javaStart ≤ copy.javaEnd) :
    Cut (holes r scope e) where
  sorted := by
    unfold holes
    dsimp only
    refine (List.pairwise_mergeSort ?_ ?_ _).imp ?_
    · intro a b c hab hbc
      simp only [Bool.or_eq_true, Bool.and_eq_true, decide_eq_true_eq] at hab hbc ⊢
      omega
    · intro a b
      simp only [Bool.or_eq_true, Bool.and_eq_true, decide_eq_true_eq]
      omega
    · intro a b hab
      simp only [Bool.or_eq_true, Bool.and_eq_true, decide_eq_true_eq] at hab
      omega
  forward := by
    intro hole hmem
    obtain ⟨copy, hcopy, -, -, rfl⟩ := mem_holes.mp hmem
    exact hforward copy hcopy

end Holes

-- What an entry of the method becomes in a scope that knows its ends and its handler.
theorem ofEntry_eq_ok {r : Relocation} {method : String} {scope : Nat} {e : ErrEntry}
    {env : ClassEnv} {c c' : OpenClass} {found : List ClassFile.ExceptionEntry}
    (h : ofEntry r method scope e env c = .ok found c') :
    ∃ start stop handler t types, r.get scope e.start.toNat = some start ∧
      r.get scope e.stop.toNat = some stop ∧ r.get scope e.handler.toNat = some handler ∧
      typeRefAt env.pod.symbols e.type = .ok t ∧ catchTypes t env c = .ok types c' ∧
      found = entries handler types (pieces stop start (holes r scope e)) := by
  have hposition : ∀ {pos : UInt16} {java : Nat}, position r method scope pos = .ok java →
      r.get scope pos.toNat = some java := by
    intro pos java hpos
    unfold position at hpos
    split at hpos
    · rename_i java' hget
      cases hpos
      exact hget
    · cases hpos
  obtain ⟨start, c₁, h₁, hafter₁⟩ := ClassM.bind_eq_ok.mp h
  obtain ⟨hstart, rfl⟩ := ClassM.ofExcept_eq_ok.mp h₁
  obtain ⟨stop, c₂, h₂, hafter₂⟩ := ClassM.bind_eq_ok.mp hafter₁
  obtain ⟨hstop, rfl⟩ := ClassM.ofExcept_eq_ok.mp h₂
  obtain ⟨handler, c₃, h₃, hafter₃⟩ := ClassM.bind_eq_ok.mp hafter₂
  obtain ⟨hhandler, rfl⟩ := ClassM.ofExcept_eq_ok.mp h₃
  obtain ⟨t, c₄, h₄, hafter₄⟩ := ClassM.bind_eq_ok.mp hafter₃
  obtain ⟨ht, rfl⟩ := ClassM.ofExcept_eq_ok.mp h₄
  obtain ⟨types, c₅, h₅, hpure⟩ := ClassM.bind_eq_ok.mp hafter₄
  obtain ⟨rfl, rfl⟩ := ClassM.pure_eq_ok.mp hpure
  exact ⟨start, stop, handler, t, types, hposition hstart, hposition hstop, hposition hhandler,
    ht, h₅, rfl⟩

end PodCompiler.Lowering.Protection
