import HybridSE.Codec.RowView

/-!
# HybridSE.Codec.BitmapRow

A row under construction in any of the formats: a header, a bitmap of null bits, and what has
been written behind it.

A store behind the bitmap keeps the null bits and all places that it shares no byte with
(`BitmapRow.storeAll`); writing a null bit keeps the other bits and every place
(`BitmapRow.storeNull`).
-/

namespace HybridSE.Codec

open HybridSE.Lib List Option

section Bitmap

variable {row row' : List Byte} {i k : Nat}

theorem isNullAt_congr (h : row[headerLength + i / 8]? = row'[headerLength + i / 8]?) :
    isNullAt row i = isNullAt row' i := by
  unfold isNullAt
  rw [h]

theorem isNullAt_eq_getLsbD {byte} (h : row[headerLength + i / 8]? = some byte) :
    isNullAt row i = some (byte.getLsbD (i % 8)) := by
  unfold isNullAt
  rw [h]
  refine congrArg some ?_
  rw [Bool.eq_iff_iff, decide_eq_true_eq]
  exact and_bit_ne_zero_iff (Nat.mod_lt i (by decide))

/-- A store of one byte of the bitmap that changes the bit of column `k` only. -/
theorem isNullAt_store_bit {byte byte' bit} (hbyte : row[headerLength + k / 8]? = some byte)
    (h : store row (headerLength + k / 8) [byte'] = some row') (hbit : byte'.getLsbD (k % 8) = bit)
    (hother : ∀ s < 8, s ≠ k % 8 → byte'.getLsbD s = byte.getLsbD s) :
    isNullAt row' i = if i = k then some bit else isNullAt row i := by
  have hnew := getElem?_store h (headerLength + i / 8)
  by_cases hdiv : i / 8 = k / 8
  · rw [hdiv, if_pos ⟨Nat.le_refl _, Nat.lt_succ_self _⟩, Nat.sub_self] at hnew
    rw [← hdiv] at hnew hbyte
    rw [isNullAt_eq_getLsbD hnew]
    split
    · rename_i hik
      rw [hik, hbit]
    · rw [isNullAt_eq_getLsbD hbyte, hother _ (Nat.mod_lt i (by decide)) (by omega)]
  · rw [if_neg (by simp; omega)] at hnew
    rw [isNullAt_congr hnew, if_neg (fun hik => hdiv (by rw [hik]))]

end Bitmap

/-- A byte with one bit set or cleared. -/
def withBit (byte : Byte) (s : Nat) (bit : Bool) : Byte :=
  if bit then byte ||| (1#8 <<< s) else byte &&& ~~~(1#8 <<< s)

theorem getLsbD_withBit (byte : Byte) (bit : Bool) {s t} (ht : t < 8) :
    (withBit byte s bit).getLsbD t = if t = s then bit else byte.getLsbD t := by
  cases bit with
  | false =>
    change (byte &&& ~~~(1#8 <<< s)).getLsbD t = _
    rw [BitVec.getLsbD_and, BitVec.getLsbD_not, getLsbD_bit ht]
    by_cases hts : t = s
    · simp [hts]
    · simp only [hts, ht, decide_true, decide_false, Bool.not_false, Bool.and_true, if_false]
  | true =>
    change (byte ||| (1#8 <<< s)).getLsbD t = _
    rw [BitVec.getLsbD_or, getLsbD_bit ht]
    by_cases hts : t = s
    · simp [hts]
    · simp only [hts, decide_false, Bool.or_false, if_false]

/-- A row of `n` columns with the null bits `nulls` and the places `Written`. -/
structure BitmapRow (n size : Nat) (nulls : Nat → Bool) (Written : Place → Prop)
    (row : List Byte) : Prop where
  size_eq : row.length = size
  null : ∀ i < n, isNullAt row i = some (nulls i)
  written : ∀ p, Written p → HasBytes row p.1 p.2

/-- The header and an empty bitmap. -/
def bitmapHeader (bitmapSize size : Nat) : List Place :=
  [(0, [1#8]), (1, [1#8]), (versionLength, leBytes 4 size),
    (headerLength, List.replicate bitmapSize 0#8)]

theorem bitmapRow_header {n bitmapSize buf} (hroom : headerLength + bitmapSize ≤ buf.length)
    (hbits : ∀ i < n, i / 8 < bitmapSize) :
    ∃ row, storeAll buf (bitmapHeader bitmapSize buf.length) = some row ∧
      BitmapRow n buf.length (fun _ => false) (· = (versionLength, leBytes 4 buf.length)) row := by
  obtain ⟨row, hrun, hlen, hplaces, -⟩ := @storeAll_spec buf (bitmapHeader bitmapSize buf.length)
    (by
      unfold bitmapHeader versionLength
      unfold headerLength at *
      simp
      omega)
    (by
      unfold bitmapHeader versionLength headerLength Place.Disjoint
      simp)
  refine ⟨row, hrun, hlen, fun i hi => ?_, ?_⟩
  · have hzero := hplaces (headerLength, List.replicate bitmapSize 0#8) (by simp [bitmapHeader])
    have hbyte := (hasBytes_iff.mp hzero).2 (i / 8) (by rw [length_replicate]; exact hbits i hi)
    rw [getElem?_replicate, if_pos (hbits i hi)] at hbyte
    rw [isNullAt_eq_getLsbD hbyte, BitVec.getLsbD_zero]
  · rintro p rfl
    exact hplaces _ (by simp [bitmapHeader])

namespace BitmapRow

variable {n size base : Nat} {nulls : Nat → Bool} {Written : Place → Prop} {row : List Byte}
  (h : BitmapRow n size nulls Written row)
include h

theorem mono {Written'} (hsub : ∀ p, Written' p → Written p) :
    BitmapRow n size nulls Written' row := ⟨h.size_eq, h.null, fun p hp => h.written p (hsub p hp)⟩

/-- The byte with a column's bit. -/
theorem exists_byte {i} (hi : i < n) :
    ∃ byte, HasBytes row (headerLength + i / 8) [byte] ∧ row[headerLength + i / 8]? = some byte := by
  obtain ⟨byte, hbyte⟩ : ∃ byte, row[headerLength + i / 8]? = some byte := by
    have hnull := h.null i hi
    obtain ⟨byte, hbyte, -⟩ := bind_eq_some_iff.mp hnull
    exact ⟨byte, hbyte⟩
  refine ⟨byte, hasBytes_iff.mpr ⟨(List.getElem?_eq_some_iff.mp hbyte).1, fun j hj => ?_⟩, hbyte⟩
  rw [Nat.lt_one_iff.mp hj]
  exact hbyte

/-- Stores behind the bitmap. -/
theorem storeAll (hbits : ∀ i < n, headerLength + i / 8 < base) {places}
    (hin : ∀ p ∈ places, base ≤ p.1 ∧ p.1 + p.2.length ≤ size)
    (hdisj : places.Pairwise Place.Disjoint) (hold : ∀ p, Written p → ∀ q ∈ places, p.Disjoint q) :
    ∃ row', Lib.storeAll row places = some row' ∧
      BitmapRow n size nulls (fun p => Written p ∨ p ∈ places) row' := by
  obtain ⟨row', hrun, hlen, hnew, hkeep⟩ := storeAll_spec
    (fun p hp => by rw [h.size_eq]; exact (hin p hp).2) hdisj
  refine ⟨row', hrun, hlen.trans h.size_eq, fun i hi => ?_, fun p hp => ?_⟩
  · obtain ⟨byte, hplace, hbyte⟩ := h.exists_byte hi
    have hplace' := hkeep _ _ hplace fun p hp => Or.inl (Nat.le_trans (hbits i hi) (hin p hp).1)
    rw [← h.null i hi]
    exact isNullAt_congr (((hasBytes_iff.mp hplace').2 0 Nat.one_pos).trans hbyte.symm)
  · rcases hp with hp | hp
    · exact hkeep _ _ (h.written p hp) (hold p hp)
    · exact hnew p hp

/-- Write the null bit of a column. -/
theorem storeNull (hbits : ∀ i < n, headerLength + i / 8 < base)
    (hfar : ∀ p, Written p → p.1 + p.2.length ≤ headerLength ∨ base ≤ p.1) {k} (hk : k < n)
    (bit : Bool) :
    ∃ byte row', row[headerLength + k / 8]? = some byte ∧
      store row (headerLength + k / 8) [withBit byte (k % 8) bit] = some row' ∧
      BitmapRow n size (fun i => if i = k then bit else nulls i) Written row' := by
  obtain ⟨byte, hplace, hbyte⟩ := h.exists_byte hk
  obtain ⟨row', hrun⟩ := @exists_store row [withBit byte (k % 8) bit] (headerLength + k / 8)
    hplace.le_length
  refine ⟨byte, row', hbyte, hrun, (length_store hrun).trans h.size_eq, fun i hi => ?_,
    fun p hp => (h.written p hp).store hrun ?_⟩
  · have hmod := Nat.mod_lt k (show 8 > 0 by decide)
    rw [isNullAt_store_bit hbyte hrun ((getLsbD_withBit byte bit hmod).trans (if_pos rfl))
      fun s hs hne => (getLsbD_withBit byte bit hs).trans (if_neg hne)]
    split
    · rfl
    · exact h.null i hi
  · have := hbits k hk
    have := hfar p hp
    simp only [length_singleton]
    omega

end BitmapRow

end HybridSE.Codec
