import Mathlib
import PodCompiler.Archive.Store

namespace PodCompiler.Archive.Entries

theorem get?_insert (e : Entries) (name : String) (data : Bytes) (n : String) :
    (e.insert name data).get? n = if n = name then some data else e.get? n := by
  unfold insert get?
  split
  · rename_i hany
    rw [Array.find?_map]
    by_cases hn : n = name
    · subst hn
      obtain ⟨i, hi, hfound⟩ := Array.any_eq_true.mp hany
      have hsome : (e.items.find? fun item => decide (item.1 = n)).isSome := by
        rw [Array.find?_isSome]
        exact ⟨_, Array.getElem_mem hi, hfound⟩
      have hsame : ((fun item : String × Bytes => decide (item.1 = n)) ∘ fun item =>
          if item.1 = n then (n, data) else item) = fun item => decide (item.1 = n) := by
        funext item
        by_cases hitem : item.1 = n <;> simp [hitem]
      rw [hsame, if_pos rfl]
      obtain ⟨item, hitem⟩ := Option.isSome_iff_exists.mp hsome
      have hitem' := Array.find?_some hitem
      simp only [decide_eq_true_eq] at hitem'
      simp [hitem, hitem']
    · have hsame : ((fun item : String × Bytes => decide (item.1 = n)) ∘ fun item =>
          if item.1 = name then (name, data) else item) = fun item => decide (item.1 = n) := by
        funext item
        by_cases hitem : item.1 = name
        · simp [hitem, Ne.symm hn]
        · simp [hitem]
      rw [hsame, if_neg hn]
      cases hfind : e.items.find? fun item => decide (item.1 = n) with
      | none => rfl
      | some item =>
        have hitem := Array.find?_some hfind
        simp only [decide_eq_true_eq] at hitem
        simp [hitem, hn]
  · rename_i hany
    rw [Array.find?_push]
    by_cases hn : n = name
    · subst hn
      have hnone : (e.items.find? fun item => decide (item.1 = n)) = none := by
        rw [Array.find?_eq_none]
        intro item hitem hfound
        exact hany (Array.any_eq_true'.mpr ⟨item, hitem, hfound⟩)
      simp [hnone]
    · simp [Ne.symm hn, hn]

-- Insertions leave the entries of other names as they are.
theorem get?_foldl_insert_of_ne (items : List (String × Bytes)) (e : Entries) {n : String}
    (h : ∀ item ∈ items, item.1 ≠ n) :
    (items.foldl (fun e item => e.insert item.1 item.2) e).get? n = e.get? n := by
  induction items generalizing e with
  | nil => rfl
  | cons item items ih =>
    rw [List.foldl_cons, ih _ fun other hother => h other (List.mem_cons_of_mem _ hother),
      get?_insert, if_neg (Ne.symm (h item List.mem_cons_self))]

-- Entries that are inserted under different names all stay.
theorem get?_foldl_insert_of_mem (items : List (String × Bytes)) (e : Entries)
    (hnames : (items.map (·.1)).Nodup) {item : String × Bytes} (h : item ∈ items) :
    (items.foldl (fun e item => e.insert item.1 item.2) e).get? item.1 = some item.2 := by
  induction items generalizing e with
  | nil => cases h
  | cons first items ih =>
    rw [List.map_cons, List.nodup_cons] at hnames
    rw [List.foldl_cons]
    obtain rfl | h := List.mem_cons.mp h
    · rw [get?_foldl_insert_of_ne, get?_insert, if_pos rfl]
      intro other hother heq
      exact hnames.1 (List.mem_map.mpr ⟨other, hother, heq⟩)
    · exact ih _ hnames.2 h

end PodCompiler.Archive.Entries
