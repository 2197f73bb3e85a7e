import Mathlib.Data.List.Chain
import PodCompiler.Proofs.ClassFile.CodeWalk

namespace PodCompiler.ClassFile.Op

-- Whether the instruction at `pos` never goes on behind itself. A subroutine call does, when the
-- subroutine is back.
def endsPath (code : Bytes) (pos : Nat) : Bool :=
  let op := code.getD pos nop
  op = goto || op = ret || op = tableSwitch || (ireturn ≤ op && op ≤ returnVoid) || op = athrow ||
    op = wide && code.getD (pos + 1) nop = ret

-- Control goes from the instruction at a position to another position.
inductive Goes (code : Bytes) (pos : Nat) : Nat → Prop where
  | jumps {q : Nat} (ht : (q : Int) ∈ targets code pos) : Goes code pos q
  | on {n : Nat} (hn : length? code pos = some n) (hends : endsPath code pos = false) :
      Goes code pos (pos + n)

namespace Walk

variable {code : Bytes} {pos stop p n : Nat} {starts : List Nat}

-- Behind an instruction of a walk there is the next one, or the end.
theorem mem_or_eq_behind (h : Walk code pos starts stop) (hp : p ∈ starts)
    (hn : length? code p = some n) : p + n ∈ starts ∨ p + n = stop := by
  induction h with
  | done => cases hp
  | @step pos m stop starts hlt hm hrest ih =>
    obtain rfl | hp := List.mem_cons.mp hp
    · rw [hm] at hn
      cases hn
      exact hrest.mem_or_eq.imp_left (List.mem_cons_of_mem _)
    · exact (ih hp).imp_left (List.mem_cons_of_mem _)

end Walk

namespace Segment

variable {code : Bytes} {pos stop p q : Nat} {starts path : List Nat}

-- From an instruction of a segment control goes to one of them, or to the end.
theorem goes (h : Segment (fun pc => pc ∈ starts ∨ pc = stop) code pos starts stop)
    (hp : p ∈ starts) (hgoes : Goes code p q) : q ∈ starts ∨ q = stop := by
  cases hgoes with
  | jumps ht =>
    obtain ⟨pc, hpc, hin⟩ := h.targets p hp _ ht
    rwa [Int.natCast_inj.mp hpc]
  | on hn _ => exact h.walk.mem_or_eq_behind hp hn

-- So a path from there is among them up to where it comes to the end.
theorem exists_split (h : Segment (fun pc => pc ∈ starts ∨ pc = stop) code pos starts stop)
    (hpath : path.IsChain (Goes code)) (hfirst : ∀ p ∈ path.head?, p ∈ starts ∨ p = stop) :
    ∃ own more, path = own ++ more ∧ (∀ p ∈ own, p ∈ starts) ∧ ∀ p ∈ more.head?, p = stop := by
  induction path with
  | nil => exact ⟨[], [], rfl, by simp, by simp⟩
  | cons p rest ih =>
    obtain hp | hp := hfirst p rfl
    · rw [List.isChain_cons] at hpath
      obtain ⟨own, more, rfl, hown, hmore⟩ :=
        ih hpath.2 fun q hq => h.goes hp (hpath.1 q hq)
      exact ⟨p :: own, more, rfl, List.forall_mem_cons.mpr ⟨hp, hown⟩, hmore⟩
    · exact ⟨[], p :: rest, rfl, by simp, fun q hq => by simpa [← hp] using hq.symm⟩

end Segment

end PodCompiler.ClassFile.Op
