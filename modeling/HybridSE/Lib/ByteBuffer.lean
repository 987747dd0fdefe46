import Mathlib.Data.List.Basic
import Mathlib.Tactic.Ring

/-!
# HybridSE.Lib.ByteBuffer

A byte buffer of fixed length with accesses that fail out of bounds.

`load` and `store` return `none` for an access outside the buffer, so a run that
succeeds has touched no other byte. `HasBytes buf off bs` says that the bytes
`bs` stand at `off`; a store establishes it for what it writes
(`hasBytes_store`) and keeps it for every other place (`HasBytes.store`), which
is all that a layout proof needs. Numbers are stored least significant byte
first (`leBytes`, `leNat`).
-/

namespace HybridSE.Lib

open List

/-- A byte. -/
abbrev Byte := BitVec 8

/-! ### Little-endian numbers -/

/-- The `w` low bytes of a number, least significant first. -/
def leBytes : Nat → Nat → List Byte
  | 0, _ => []
  | w + 1, n => BitVec.ofNat 8 n :: leBytes w (n / 256)

/-- The number of some bytes, least significant first. -/
def leNat : List Byte → Nat
  | [] => 0
  | b :: bs => b.toNat + 256 * leNat bs

@[simp] theorem length_leBytes (w n : Nat) : (leBytes w n).length = w := by
  induction w generalizing n with
  | zero => rfl
  | succ w ih => rw [leBytes, length_cons, ih]

theorem leNat_leBytes (w n : Nat) : leNat (leBytes w n) = n % 256 ^ w := by
  induction w generalizing n with
  | zero => rw [Nat.pow_zero, Nat.mod_one]; rfl
  | succ w ih =>
    rw [leBytes, leNat, ih, BitVec.toNat_ofNat, Nat.pow_succ 256 w, Nat.mul_comm (256 ^ w),
      Nat.mod_mul]

variable {w off : Nat} {buf bs : List Byte}

/-- A number that fits comes back. -/
theorem leNat_leBytes_of_lt {n} (h : n < 256 ^ w) : leNat (leBytes w n) = n := by
  rw [leNat_leBytes, Nat.mod_eq_of_lt h]

/-! ### Bits of a byte -/

theorem getLsbD_bit {r s} (hs : s < 8) : (1#8 <<< r).getLsbD s = decide (s = r) := by
  rw [BitVec.getLsbD_shiftLeft, BitVec.getLsbD_one, Bool.eq_iff_iff]
  simp only [Bool.and_eq_true, decide_eq_true_eq, Bool.not_eq_true', decide_eq_false_iff_not]
  omega

/-- Masking tests a bit. -/
theorem and_bit_ne_zero_iff {x : Byte} {s : Nat} (hs : s < 8) :
    x &&& (1#8 <<< s) ≠ 0#8 ↔ x.getLsbD s = true := by
  constructor
  · intro h
    by_contra hbit
    refine h (BitVec.eq_of_getLsbD_eq fun i hi => ?_)
    rw [BitVec.getLsbD_and, getLsbD_bit hi, BitVec.getLsbD_zero]
    by_cases his : i = s
    · rw [his, Bool.eq_false_iff.mpr hbit, Bool.false_and]
    · rw [decide_eq_false his, Bool.and_false]
  · intro hbit h
    have hzero := congrArg (fun y => BitVec.getLsbD y s) h
    rw [BitVec.getLsbD_and, getLsbD_bit hs, hbit, decide_eq_true rfl, BitVec.getLsbD_zero] at hzero
    cases hzero

/-! ### Access -/

/-- The `w` bytes at `off`. -/
def load (buf : List Byte) (off w : Nat) : Option (List Byte) :=
  if off + w ≤ buf.length then some ((buf.drop off).take w) else none

/-- Overwrite the bytes at `off`. -/
def store (buf : List Byte) (off : Nat) (bs : List Byte) : Option (List Byte) :=
  if off + bs.length ≤ buf.length then
    some (buf.take off ++ bs ++ buf.drop (off + bs.length))
  else none

/-- The bytes `bs` stand at `off`. -/
def HasBytes (buf : List Byte) (off : Nat) (bs : List Byte) : Prop :=
  load buf off bs.length = some bs

theorem HasBytes.load_eq (h : HasBytes buf off bs) (hw : bs.length = w) :
    load buf off w = some bs := hw ▸ h

theorem hasBytes_of_load (h : load buf off w = some bs) : bs.length = w ∧ HasBytes buf off bs := by
  have hlen : bs.length = w := by
    unfold load at h
    split at h
    · cases h
      simp only [length_take, length_drop]
      omega
    · cases h
  exact ⟨hlen, by unfold HasBytes; rw [hlen]; exact h⟩

theorem HasBytes.le_length (h : HasBytes buf off bs) : off + bs.length ≤ buf.length := by
  unfold HasBytes load at h
  split at h
  · assumption
  · cases h

theorem hasBytes_append (pre bs post : List Byte) : HasBytes (pre ++ bs ++ post) pre.length bs := by
  unfold HasBytes load
  simp

/-- `HasBytes` byte by byte. -/
theorem hasBytes_iff :
    HasBytes buf off bs ↔
      off + bs.length ≤ buf.length ∧ ∀ i < bs.length, buf[off + i]? = bs[i]? := by
  constructor
  · intro h
    have hle := h.le_length
    refine ⟨hle, fun i hi => ?_⟩
    unfold HasBytes load at h
    rw [if_pos hle] at h
    have hi' := congrArg (fun l => l[i]?) (Option.some.inj h)
    rwa [getElem?_take_of_lt hi, getElem?_drop] at hi'
  · rintro ⟨hle, h⟩
    unfold HasBytes load
    rw [if_pos hle]
    refine congrArg some (ext_getElem? fun i => ?_)
    by_cases hi : i < bs.length
    · rw [getElem?_take_of_lt hi, getElem?_drop, h i hi]
    · rw [getElem?_eq_none (by rw [length_take]; omega),
        getElem?_eq_none (by omega)]

section Store

variable {buf buf' bs : List Byte} {off : Nat}

theorem exists_store (h : off + bs.length ≤ buf.length) : ∃ buf', store buf off bs = some buf' :=
  ⟨_, if_pos h⟩

theorem store_eq_some (h : store buf off bs = some buf') :
    off + bs.length ≤ buf.length ∧ buf' = buf.take off ++ bs ++ buf.drop (off + bs.length) := by
  unfold store at h
  split at h
  · rename_i hle
    exact ⟨hle, (Option.some.inj h).symm⟩
  · cases h

/-- A store keeps the length. -/
theorem length_store (h : store buf off bs = some buf') : buf'.length = buf.length := by
  obtain ⟨hle, rfl⟩ := store_eq_some h
  simp only [length_append, length_take, length_drop]
  omega

theorem store_nil (h : off ≤ buf.length) : store buf off [] = some buf := by
  simp [store, h]

/-- The bytes after a store. -/
theorem getElem?_store (h : store buf off bs = some buf') (j : Nat) :
    buf'[j]? = if off ≤ j ∧ j < off + bs.length then bs[j - off]? else buf[j]? := by
  obtain ⟨hle, rfl⟩ := store_eq_some h
  have htake : (buf.take off).length = off := by rw [length_take]; omega
  split
  · rw [append_assoc, getElem?_append_right (by omega), htake,
      getElem?_append_left (by omega)]
  · rw [append_assoc]
    by_cases hlt : j < off
    · rw [getElem?_append_left (by omega), getElem?_take_of_lt hlt]
    · rw [getElem?_append_right (by omega), getElem?_append_right (by omega),
        getElem?_drop]
      congr 1
      omega

/-- What was written stands there. -/
theorem hasBytes_store (h : store buf off bs = some buf') : HasBytes buf' off bs := by
  refine hasBytes_iff.mpr ⟨by rw [length_store h]; exact (store_eq_some h).1, fun i hi => ?_⟩
  rw [getElem?_store h, if_pos (by omega), Nat.add_sub_cancel_left]

/-- Everything outside stays. -/
theorem HasBytes.store {off' bs'} (hb : HasBytes buf off' bs')
    (h : Lib.store buf off bs = some buf')
    (hdisj : off' + bs'.length ≤ off ∨ off + bs.length ≤ off') : HasBytes buf' off' bs' := by
  obtain ⟨hle, hbytes⟩ := hasBytes_iff.mp hb
  refine hasBytes_iff.mpr ⟨by rwa [length_store h], fun i hi => ?_⟩
  rw [getElem?_store h, if_neg (by omega), hbytes i hi]

end Store

/-! ### Several stores -/

/-- Bytes and where they go. -/
abbrev Place := Nat × List Byte

/-- Two places share no byte. -/
def Place.Disjoint (p q : Place) : Prop :=
  p.1 + p.2.length ≤ q.1 ∨ q.1 + q.2.length ≤ p.1

/-- Write all places in turn. -/
def storeAll (buf : List Byte) : List Place → Option (List Byte)
  | [] => some buf
  | p :: places => do
      let buf ← store buf p.1 p.2
      storeAll buf places

/-- Places inside the buffer that share no byte are all there after the stores,
and so is everything that shares no byte with them. -/
theorem storeAll_spec {places} (hin : ∀ p ∈ places, p.1 + p.2.length ≤ buf.length)
    (hdisj : places.Pairwise Place.Disjoint) :
    ∃ buf', storeAll buf places = some buf' ∧ buf'.length = buf.length ∧
      (∀ p ∈ places, HasBytes buf' p.1 p.2) ∧
      ∀ off bs, HasBytes buf off bs → (∀ p ∈ places, Place.Disjoint (off, bs) p) →
        HasBytes buf' off bs := by
  induction places generalizing buf with
  | nil => exact ⟨buf, rfl, rfl, fun p hp => absurd hp not_mem_nil, fun _ _ h _ => h⟩
  | cons p places ih =>
    obtain ⟨hfirst, hrest⟩ := pairwise_cons.mp hdisj
    obtain ⟨buf₁, hstore⟩ := exists_store (hin p mem_cons_self)
    have hlen := length_store hstore
    obtain ⟨buf', hall, hlen', hplaces, hother⟩ := @ih buf₁
      (fun q hq => by rw [hlen]; exact hin q (mem_cons_of_mem _ hq)) hrest
    refine ⟨buf', ?_, hlen'.trans hlen, fun q hq => ?_, fun off bs hbs hdis => ?_⟩
    · rw [storeAll, hstore]
      exact hall
    · rcases mem_cons.mp hq with rfl | hq
      · exact hother _ _ (hasBytes_store hstore) hfirst
      · exact hplaces q hq
    · exact hother off bs (hbs.store hstore (hdis p mem_cons_self)) fun q hq =>
        hdis q (mem_cons_of_mem _ hq)

end HybridSE.Lib
