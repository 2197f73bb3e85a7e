import PodCompiler.Archive.Deflate
import PodCompiler.Archive.Inflate
import PodCompiler.Proofs.Bytes

namespace PodCompiler.Archive

namespace Inflate

variable {s : State} {b : UInt8} {k n : Nat}

theorem run_bind {α β : Type} (m : InflateM α) (f : α → InflateM β) (s : State) :
    (m >>= f) s = (m s).bind fun r => f r.1 r.2 :=
  rfl

theorem get_eq (s : State) : (get : InflateM State) s = some (s, s) :=
  rfl

theorem bit_eq (hb : s.data[s.bitPos / 8]? = some b) :
    bit s = some (b.toNat / 2 ^ (s.bitPos % 8) % 2, { s with bitPos := s.bitPos + 1 }) := by
  rw [bit, hb]
  rfl

theorem bits_succ (n : Nat) (s : State) : bits (n + 1) s =
    (bit s).bind fun low => (bits n low.2).bind fun high => some (low.1 + 2 * high.1, high.2) :=
  rfl

-- Bits of one byte.
theorem bits_within (hb : s.data[s.bitPos / 8]? = some b) (hn : s.bitPos % 8 + n ≤ 8) :
    bits n s =
      some (b.toNat / 2 ^ (s.bitPos % 8) % 2 ^ n, { s with bitPos := s.bitPos + n }) := by
  induction n generalizing s with
  | zero =>
    rw [Nat.pow_zero, Nat.mod_one]
    rfl
  | succ n ih =>
    rw [bits_succ, bit_eq hb, Option.bind_some]
    cases n with
    | zero =>
      rw [Nat.pow_one]
      rfl
    | succ n =>
      have hsame : (s.bitPos + 1) / 8 = s.bitPos / 8 := by omega
      have hnext : (s.bitPos + 1) % 8 = s.bitPos % 8 + 1 := by omega
      have hrest := ih (s := { s with bitPos := s.bitPos + 1 }) (by rw [hsame]; exact hb)
        (by dsimp only; omega)
      dsimp only at hrest ⊢
      rw [hrest, Option.bind_some, hnext, Nat.pow_succ 2 (n + 1), Nat.mul_comm _ 2, Nat.mod_mul,
        Nat.div_div_eq_div_mul, ← Nat.pow_succ, Nat.add_assoc, Nat.add_comm 1]

theorem bits_add (m n : Nat) (s : State) : bits (m + n) s =
    (bits m s).bind fun low => (bits n low.2).bind fun high =>
      some (low.1 + 2 ^ m * high.1, high.2) := by
  induction m generalizing s with
  | zero =>
    rw [Nat.zero_add]
    change _ = (bits n s).bind fun high => some (0 + 1 * high.1, high.2)
    simp
  | succ m ih =>
    rw [Nat.add_right_comm, bits_succ, bits_succ]
    cases hlow : bit s with
    | none => rfl
    | some low =>
      rw [Option.bind_some, Option.bind_some, ih]
      cases bits m low.2 with
      | none => rfl
      | some mid =>
        rw [Option.bind_some, Option.bind_some, Option.bind_some]
        cases bits n mid.2 with
        | none => rfl
        | some high =>
          simp only [Option.bind_some]
          rw [Nat.pow_succ]
          ring_nf

-- A word of two bytes, of which the first is at a whole byte.
theorem bits_word {v : UInt16} (hpos : s.bitPos = 8 * k)
    (h : s.data.Spells k (Bytes.le2 v).toList) :
    bits 16 s = some (v.toNat, { s with bitPos := 8 * (k + 2) }) := by
  have hv := v.toNat_lt
  simp only [Bytes.le2, Bytes.spells_cons] at h
  obtain ⟨hlow, hhigh, -⟩ := h
  have hwhole : s.bitPos / 8 = k ∧ s.bitPos % 8 = 0 := by omega
  have hfirst := bits_within (n := 8) (hwhole.1.symm ▸ hlow) (by omega)
  have hsecond := bits_within (s := { s with bitPos := s.bitPos + 8 }) (n := 8) (b := (v >>> 8).toUInt8)
    (by
      have hnext : (s.bitPos + 8) / 8 = k + 1 := by omega
      dsimp only
      rw [hnext]
      exact hhigh) (by dsimp only; omega)
  have hjoin : v.toUInt8.toNat / 2 ^ (s.bitPos % 8) % 2 ^ 8 +
      2 ^ 8 * ((v >>> 8).toUInt8.toNat / 2 ^ ((s.bitPos + 8) % 8) % 2 ^ 8) = v.toNat := by
    have hnext : (s.bitPos + 8) % 8 = 0 := by omega
    rw [hwhole.2, hnext, UInt16.toNat_toUInt8, UInt16.toNat_toUInt8, UInt16.toNat_shiftRight]
    simp only [UInt16.reduceToNat, Nat.reduceMod, Nat.shiftRight_eq_div_pow]
    omega
  have hend : s.bitPos + 8 + 8 = 8 * (k + 2) := by omega
  rw [show 16 = 8 + 8 from rfl, bits_add, hfirst, Option.bind_some, hsecond, Option.bind_some, hjoin,
    hend]

-- A plain block behind its mark.
theorem stored_eq {size : UInt16} {chunk : Bytes} (hsize : size.toNat = chunk.size)
    (hpos : s.bitPos = 8 * k + 3)
    (h : s.data.Spells (k + 1) ((Bytes.le2 size).toList ++
      ((Bytes.le2 (maxChunk - chunk.size).toUInt16).toList ++ chunk.toList)))
    (hend : k + 5 ≤ s.data.size) :
    stored s = some ((), { s with
      out := s.out ++ chunk, bitPos := 8 * (k + 5 + chunk.size) }) := by
  have hle := size.toNat_lt
  rw [Bytes.spells_append, Bytes.spells_append] at h
  obtain ⟨hsizeAt, hcomplementAt, hchunkAt⟩ := h
  have halign : (s.bitPos + 7) / 8 * 8 = 8 * (k + 1) := by omega
  have hlength := bits_word (s := { s with bitPos := 8 * (k + 1) }) rfl hsizeAt
  have hcomplement := bits_word (s := { s with bitPos := 8 * (k + 1 + 2) }) rfl hcomplementAt
  have hslice : s.data.slice? (k + 5) chunk.size = some chunk :=
    Bytes.slice?_of_spells hchunkAt hend
  have hsum : ¬size.toNat + (maxChunk - chunk.size).toUInt16.toNat ≠ 0xFFFF := by
    rw [UInt16.toNat_ofNat', maxChunk, hsize]
    omega
  have hwhole : 8 * (k + 1 + 2 + 2) / 8 = k + 5 := by omega
  have hbehind : 8 * (k + 1 + 2 + 2) + 8 * chunk.size = 8 * (k + 5 + chunk.size) := by ring
  unfold stored
  rw [run_bind]
  change ((bits 16 >>= _) { s with bitPos := (s.bitPos + 7) / 8 * 8 }) = _
  rw [halign, run_bind, hlength, Option.bind_some]
  dsimp only
  rw [run_bind, hcomplement, Option.bind_some]
  dsimp only
  rw [if_neg hsum]
  rw [run_bind, get_eq, Option.bind_some]
  dsimp only
  rw [hwhole, hsize, hslice, ← hbehind]
  rfl

theorem size_storedBlock (last : Bool) (chunk : Bytes) :
    (storedBlock last chunk).size = 5 + chunk.size := by
  simp [storedBlock, Bytes.le2]

-- A plain block with its mark. After the last one there is nothing to do.
theorem blocks_storedBlock {last : Bool} {chunk : Bytes} (hpos : s.bitPos = 8 * k)
    (h : s.data.Spells k (storedBlock last chunk).toList) (hk : k ≤ s.data.size)
    (hchunk : chunk.size ≤ maxChunk) (fuel : Nat) :
    blocks (fuel + 1) s =
      let s' := { s with out := s.out ++ chunk, bitPos := 8 * (k + 5 + chunk.size) }
      if last then some ((), s') else blocks fuel s' := by
  have hend := h.length_le hk
  rw [Array.length_toList, size_storedBlock] at hend
  have hsize : chunk.size.toUInt16.toNat = chunk.size := by
    rw [UInt16.toNat_ofNat', Nat.mod_eq_of_lt (by rw [maxChunk] at hchunk; omega)]
  simp only [storedBlock, Array.toList_append, List.append_assoc] at h
  rw [Bytes.spells_append] at h
  obtain ⟨hmark, hrest⟩ := h
  have hbyte : s.data[s.bitPos / 8]? = some (if last then 1 else 0) := by
    have hwhole : s.bitPos / 8 = k := by omega
    rw [hwhole]
    exact (Bytes.spells_cons.mp hmark).1
  have hlast : bit s = some (if last then 1 else 0, { s with bitPos := s.bitPos + 1 }) := by
    have hwhole : s.bitPos % 8 = 0 := by omega
    rw [bit_eq hbyte, hwhole]
    cases last <;> rfl
  have hkind : bits 2 { s with bitPos := s.bitPos + 1 } =
      some (0, { s with bitPos := s.bitPos + 1 + 2 }) := by
    have hsame : (s.bitPos + 1) / 8 = s.bitPos / 8 := by omega
    have hnext : (s.bitPos + 1) % 8 = 1 := by omega
    have hbits := bits_within (s := { s with bitPos := s.bitPos + 1 }) (n := 2) (hsame ▸ hbyte)
      (by dsimp only; omega)
    dsimp only at hbits
    rw [hbits, hnext]
    cases last <;> rfl
  have hstored := stored_eq (s := { s with bitPos := s.bitPos + 1 + 2 }) hsize
    (by dsimp only; omega) hrest (by dsimp only; omega)
  dsimp only at hstored
  rw [blocks, run_bind, hlast, Option.bind_some, run_bind, hkind, Option.bind_some]
  change (stored >>= fun _ => if (if last then 1 else 0) = 0 then blocks fuel else pure ())
    { s with bitPos := s.bitPos + 1 + 2 } = _
  rw [run_bind, hstored, Option.bind_some]
  cases last <;> rfl

theorem size_le_deflate (content : Bytes) : content.size ≤ (deflate content).size := by
  induction content using deflate.induct with
  | case1 content hlarge ih =>
    rw [deflate, if_pos hlarge, Array.size_append, size_storedBlock]
    simp only [Array.size_extract] at ih ⊢
    omega
  | case2 content hsmall =>
    rw [deflate, if_neg hsmall, size_storedBlock]
    omega

-- One block after the other, up to the last one.
theorem blocks_deflate (content : Bytes) {fuel : Nat} (hfuel : content.size < fuel)
    (hpos : s.bitPos = 8 * k) (h : s.data.Spells k (deflate content).toList)
    (hk : k ≤ s.data.size) :
    ∃ s', blocks fuel s = some ((), s') ∧ s'.out = s.out ++ content := by
  obtain ⟨fuel, rfl⟩ : ∃ n, fuel = n + 1 := ⟨fuel - 1, by omega⟩
  induction content using deflate.induct generalizing s k fuel with
  | case1 content hlarge ih =>
    have hchunk : (content.extract 0 maxChunk).size = maxChunk := by
      rw [Array.size_extract]
      omega
    have hrest : (content.extract maxChunk content.size).size = content.size - maxChunk := by
      rw [Array.size_extract]
      omega
    have hmax : 0 < maxChunk := by decide
    rw [deflate, if_pos hlarge, Array.toList_append, Bytes.spells_append, Array.length_toList,
      size_storedBlock] at h
    obtain ⟨hblock, htail⟩ := h
    have hend := hblock.length_le hk
    rw [Array.length_toList, size_storedBlock] at hend
    rw [blocks_storedBlock hpos hblock hk hchunk.le]
    obtain ⟨n, rfl⟩ : ∃ n, fuel = n + 1 := ⟨fuel - 1, by omega⟩
    obtain ⟨s', hrun, hout⟩ := ih (s := { s with
        out := s.out ++ content.extract 0 maxChunk,
        bitPos := 8 * (k + 5 + (content.extract 0 maxChunk).size) })
      (k := k + (5 + (content.extract 0 maxChunk).size)) (by dsimp only; omega) htail hend n
      (by omega)
    have hjoin : content.extract 0 maxChunk ++ content.extract maxChunk content.size = content := by
      rw [Array.extract_append_extract, Nat.min_eq_left (Nat.zero_le _), Nat.max_eq_right hlarge.le]
      exact Array.extract_size
    exact ⟨s', hrun, by rw [hout, Array.append_assoc, hjoin]⟩
  | case2 content hsmall =>
    rw [deflate, if_neg hsmall] at h
    rw [blocks_storedBlock hpos h hk (by omega)]
    exact ⟨_, rfl, rfl⟩

end Inflate

-- Unpacking gives back what was packed.
theorem inflate_deflate (content : Bytes) : inflate (deflate content) = some content := by
  have hsize := Inflate.size_le_deflate content
  have hspells : (deflate content).Spells 0 (deflate content).toList := fun i _ => by
    rw [Nat.zero_add, Array.getElem?_toList]
  obtain ⟨s', hrun, hout⟩ := Inflate.blocks_deflate (s := { data := deflate content }) content
    (Nat.lt_succ_of_le (by omega : content.size ≤ 8 * (deflate content).size)) rfl hspells (Nat.zero_le _)
  have hrun' : (Inflate.blocks (8 * (deflate content).size + 1)).run { data := deflate content } =
      some ((), s') := hrun
  rw [inflate, hrun', Option.map_some, hout, Array.empty_append]

end PodCompiler.Archive
