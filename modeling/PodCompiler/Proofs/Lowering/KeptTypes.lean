import PodCompiler.Proofs.Lowering.Repetition

namespace PodCompiler.Lowering

-- A type stands at its index, behind those that were kept before if it is new.
theorem literalIndex_eq_ok {signature : String} {env : ClassEnv} {c c' : OpenClass} {n : Nat}
    (h : literalIndex signature env c = .ok n c') :
    c'.literals[n]? = some signature ∧ c'.draft = c.draft ∧
      (c' = c ∨ signature ∉ c.literals ∧ c'.literals = c.literals.push signature) := by
  rw [ClassM.literalIndex_eq] at h
  split at h
  · rename_i m hm
    cases h
    obtain ⟨hlt, hfound, -⟩ := List.findIdx?_eq_some_iff_getElem.mp hm
    have hfound : c.literals.toList[n] = signature := of_decide_eq_true hfound
    refine ⟨?_, rfl, .inl rfl⟩
    rw [← Array.getElem?_toList, List.getElem?_eq_getElem hlt, hfound]
  · rename_i hnew
    cases h
    refine ⟨by simp, rfl, .inr ⟨?_, rfl⟩⟩
    intro hmem
    have hnone := List.findIdx?_eq_none_iff.mp hnew signature (Array.mem_toList_iff.mpr hmem)
    simp at hnone

-- The field of a type is named by its index.
theorem typeLiteralField_eq_ok {signature sig : String} {env : ClassEnv} {c c' : OpenClass}
    (h : typeLiteralField signature env c = .ok sig c') :
    ∃ n, literalIndex signature env c = .ok n c' ∧
      sig = s!"{c.draft.name}.{literalField n}:{typeDesc}" := by
  obtain ⟨n, c₁, hn, hname⟩ := ClassM.bind_eq_ok.mp h
  obtain ⟨cls, c₂, hcls, hpure⟩ := ClassM.bind_eq_ok.mp hname
  cases hcls
  obtain ⟨rfl, rfl⟩ := ClassM.pure_eq_ok.mp hpure
  obtain ⟨-, hdraft, -⟩ := literalIndex_eq_ok hn
  refine ⟨n, hn, ?_⟩
  rw [hdraft]

end PodCompiler.Lowering
