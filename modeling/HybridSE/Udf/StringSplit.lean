import HybridSE.Lib.SeparatedText
import HybridSE.Lib.Machine

/-!
# HybridSE.Udf.StringSplit

Model of the string list functions of `src/udf/default_defs/feature_zero_def.cc`:
`FZStringOpsDef::UpdateSplit`, `UpdateSplitByKey`, `UpdateSplitByValue` and `StringJoin` over the
list `MutableStringListV`, whose `Add` drops a string that would take it above 4096 bytes.

Each loop over the bytes adds the pieces that splitting the string gives (`addSplit_eq`,
`addByKey_eq`, `addByValue_eq`), so everything that may go wrong is in `Add`: the pieces are all in
the list exactly when their bytes fit (`buffer_addAll_iff`).
-/

namespace HybridSE.Udf

open List Lib

abbrev Bytes := List (BitVec 8)

def maximumStringLength : Nat := 4096

/-- `MutableStringListV`. -/
structure MutableStringListV where
  buffer : List Bytes := []
  totalLen : Nat := 0
  fits : totalLen ≤ maximumStringLength := by decide

/-- `MutableStringListV::Add`. -/
def MutableStringListV.add (list : MutableStringListV) (str : Bytes) : MutableStringListV :=
  if h : list.totalLen + str.length > maximumStringLength then list
  else ⟨list.buffer ++ [str], list.totalLen + str.length, Nat.le_of_not_lt h⟩

/-- `StringSplitState`: the list, and the delimiters that were compiled. -/
structure StringSplitState where
  list : MutableStringListV := {}
  delims : Option (Bytes × Bytes) := none

/-! ### The loops

In each of them `piece` is what stands between `begin` and `cur`. -/

/-- The loop of `UpdateSplit` for a delimiter of one byte. -/
def addSplit (d : BitVec 8) : MutableStringListV → Bytes → Bytes → MutableStringListV
  | list, piece, [] => list.add piece
  | list, piece, c :: str =>
    if c = d then addSplit d (list.add piece) [] str else addSplit d list (piece ++ [c]) str

/-- The loop of `UpdateSplitByKey`. -/
def addByKey (d₁ d₂ : BitVec 8) :
    MutableStringListV → Bytes → Bool → Bytes → MutableStringListV
  | list, _, _, [] => list
  | list, piece, partFound, c :: str =>
    if c = d₁ then addByKey d₁ d₂ list [] false str
    else if c = d₂ ∧ !partFound then addByKey d₁ d₂ (list.add piece) (piece ++ [c]) true str
    else addByKey d₁ d₂ list (piece ++ [c]) partFound str

/-- The loop of `UpdateSplitByValue`. -/
def addByValue (d₁ d₂ : BitVec 8) :
    MutableStringListV → Bytes → Nat → Bytes → MutableStringListV
  | list, piece, curParts, [] => if curParts = 1 then list.add piece else list
  | list, piece, curParts, c :: str =>
    if c = d₁ then
      addByValue d₁ d₂ (if curParts = 1 then list.add piece else list) (piece ++ [c]) 0 str
    else if c = d₂ then
      if curParts + 1 = 1 then addByValue d₁ d₂ list [] (curParts + 1) str
      else addByValue d₁ d₂ (if curParts + 1 = 2 then list.add piece else list) (piece ++ [c])
        (curParts + 1) str
    else addByValue d₁ d₂ list (piece ++ [c]) curParts str

section Update

/-! `boost::split_regex` of a string with a compiled delimiter. -/
variable (splitRegex : Bytes → Bytes → List Bytes) (state : StringSplitState)

/-- `FZStringOpsDef::UpdateSplit`; `none` is a null string. -/
def updateSplit (str : Option Bytes) (delimeter : Bytes) : StringSplitState :=
  match str, delimeter with
  | none, _ | _, [] => state
  | some str, [d] => { state with list := addSplit d state.list [] str }
  | some str, delimeter =>
    let delims := state.delims.getD (delimeter, [])
    ⟨(splitRegex delims.1 str).foldl .add state.list, some delims⟩

/-- What `UpdateSplitByKey` and `UpdateSplitByValue` share: the loop for delimiters of one byte,
and for others the pieces of the parts with at least two of them. -/
def updateSplitBy (loop : BitVec 8 → BitVec 8 → Bytes → MutableStringListV) (i : Nat)
    (str : Option Bytes) (delimeter kvDelimeter : Bytes) : StringSplitState :=
  match str, delimeter, kvDelimeter with
  | none, _, _ | _, [], _ | _, _, [] => state
  | some str, [d₁], [d₂] => { state with list := loop d₁ d₂ str }
  | some str, delimeter, kvDelimeter =>
    let delims := state.delims.getD (delimeter, kvDelimeter)
    let subParts := (splitRegex delims.1 str).map (splitRegex delims.2)
    ⟨(subParts.filterMap fun sub => if 2 ≤ sub.length then sub[i]? else none).foldl .add state.list,
      some delims⟩

/-- `FZStringOpsDef::UpdateSplitByKey`. -/
def updateSplitByKey : Option Bytes → Bytes → Bytes → StringSplitState :=
  updateSplitBy splitRegex state (fun d₁ d₂ => addByKey d₁ d₂ state.list [] false) 0

/-- `FZStringOpsDef::UpdateSplitByValue`. -/
def updateSplitByValue : Option Bytes → Bytes → Bytes → StringSplitState :=
  updateSplitBy splitRegex state (fun d₁ d₂ => addByValue d₁ d₂ state.list [] 0) 1

end Update

/-! ### Joining -/

/-- The first loop of `StringJoin`. -/
def joinBytes (delim : Bytes) : List Bytes → Nat
  | [] => 0
  | [s] => s.length
  | s :: rest => s.length + (delim.length + joinBytes delim rest)

/-- `std::copy_n` into a buffer; writing beyond its end fails. -/
def copyN (buf : Bytes) (offset : Nat) (data : Bytes) : Option Bytes :=
  if offset + data.length ≤ buf.length then
    some (buf.take offset ++ data ++ buf.drop (offset + data.length))
  else none

/-- The second loop of `StringJoin`. -/
def joinCopy (delim : Bytes) : Bytes → Nat → List Bytes → Option Bytes
  | buf, _, [] => some buf
  | buf, offset, [s] => copyN buf offset s
  | buf, offset, s :: rest => do
    let buf ← copyN buf offset s
    let buf ← copyN buf (offset + s.length) delim
    joinCopy delim buf (offset + s.length + delim.length) rest

/-- `FZStringOpsDef::StringJoin` into memory that holds `memory` before; there is no buffer when the
size is no `int32_t`. -/
def stringJoin (memory : Nat → BitVec 8) (list : List Bytes) (delim : Bytes) : Option Bytes := do
  let bytes := joinBytes delim list
  if toInt32 (bytes + 1) < 0 then none
  let buf := (List.range (bytes + 1)).map memory
  return (← joinCopy delim (buf.set bytes 0) 0 list).take bytes

/-! ### Splitting -/

section SplitOn

variable {α : Type*} [DecidableEq α] {a c : α} {xs hd : List α} {tl : List (List α)}

theorem splitOn_cons_of_ne (hc : c ≠ a) (h : xs.splitOn a = hd :: tl) :
    (c :: xs).splitOn a = (c :: hd) :: tl := by
  simp [splitOn_cons_eq_if_modifyHead, hc, h]

theorem splitOn_cons_self : (a :: xs).splitOn a = [] :: xs.splitOn a := by
  simp [splitOn_cons_eq_if_modifyHead]

theorem exists_splitOn_eq_cons (a : α) (xs : List α) : ∃ hd tl, xs.splitOn a = hd :: tl :=
  exists_cons_of_ne_nil (splitOn_ne_nil a xs)

/-- The pieces of a string: how many they are, that they hold no delimiter, and how long they
are. -/
theorem splitOn_spec (a : α) (xs : List α) :
    (xs.splitOn a).length = xs.count a + 1 ∧ (∀ piece ∈ xs.splitOn a, a ∉ piece) ∧
      ((xs.splitOn a).map length).sum = xs.countP (· ≠ a) := by
  induction xs with
  | nil => simp
  | cons c xs ih =>
    by_cases hc : c = a
    · subst hc
      simpa [splitOn_cons_self] using ih
    · obtain ⟨hd, tl, h⟩ := exists_splitOn_eq_cons a xs
      rw [splitOn_cons_of_ne hc h]
      simp_all [Nat.add_right_comm, Ne.symm hc]

end SplitOn

namespace MutableStringListV

/-- Several strings added. -/
def addAll (list : MutableStringListV) (strs : List Bytes) : MutableStringListV :=
  strs.foldl add list

theorem length_buffer_addAll_le (list : MutableStringListV) (strs : List Bytes) :
    (list.addAll strs).buffer.length ≤ list.buffer.length + strs.length := by
  induction strs generalizing list with
  | nil => simp [addAll]
  | cons str strs ih =>
    have hadd : (list.add str).buffer.length ≤ list.buffer.length + 1 := by
      unfold add
      split <;> simp
    have := ih (list.add str)
    rw [length_cons]
    exact this.trans (by omega)

/-- All the strings are in the list exactly when it has room for their bytes. -/
theorem buffer_addAll_iff (list : MutableStringListV) (strs : List Bytes) :
    (list.addAll strs).buffer = list.buffer ++ strs ↔
      list.totalLen + (strs.map length).sum ≤ maximumStringLength := by
  induction strs generalizing list with
  | nil => simpa [addAll] using list.fits
  | cons str strs ih =>
    rw [map_cons, sum_cons, addAll, foldl_cons, ← addAll]
    by_cases hstr : list.totalLen + str.length > maximumStringLength
    · -- the string is dropped, and nothing takes its place
      have hlen := length_buffer_addAll_le list strs
      rw [add, dif_pos hstr]
      refine iff_of_false (fun heq => ?_) (by omega)
      rw [heq, length_append, length_cons] at hlen
      omega
    · have hadd := ih (list.add str)
      simp only [add, dif_neg hstr, append_assoc, singleton_append] at hadd ⊢
      rw [hadd, Nat.add_assoc]

end MutableStringListV

/-! ### The loops are the splits -/

variable {d d₁ d₂ : BitVec 8}

theorem addSplit_eq (list : MutableStringListV) (piece str : Bytes) :
    addSplit d list piece str = list.addAll ((str.splitOn d).modifyHead (piece ++ ·)) := by
  induction str generalizing list piece with
  | nil => simp [addSplit, MutableStringListV.addAll]
  | cons c str ih =>
    obtain ⟨hd, tl, h⟩ := exists_splitOn_eq_cons d str
    unfold addSplit
    split
    · subst c
      rw [ih, splitOn_cons_self, h]
      simp [MutableStringListV.addAll]
    case isFalse hc =>
      rw [ih, splitOn_cons_of_ne hc h, h]
      simp

/-- The piece `i` of a part with at least two pieces. -/
def pieceOf (i : Nat) (d₂ : BitVec 8) (part : Bytes) : Option Bytes :=
  if 2 ≤ (part.splitOn d₂).length then (part.splitOn d₂)[i]? else none

/-- Literal splitting on `d₁`, and of each part on `d₂`: the pieces `i` in order. -/
def splitPieces (i : Nat) (d₁ d₂ : BitVec 8) (str : Bytes) : List Bytes :=
  (str.splitOn d₁).filterMap (pieceOf i d₂)

variable {piece part : Bytes} {tl : List Bytes}

theorem pieceOf_of_notMem {i} (h : d₂ ∉ part) : pieceOf i d₂ part = none := by
  simp [pieceOf, splitOn_eq_singleton h]

theorem pieceOf_zero (h : d₂ ∉ piece) : pieceOf 0 d₂ (piece ++ d₂ :: part) = some piece := by
  simp [pieceOf, splitOn_append_cons_self_of_not_mem h]

theorem filterMap_cons_eq {α β} {f : α → Option β} {x l} :
    (x :: l).filterMap f = (f x).toList ++ l.filterMap f := by
  cases h : f x <;> simp [h]

/-- The key that the loop still finds in the part that it is in; `part` is the rest of it. -/
def restKey (d₂ : BitVec 8) (piece : Bytes) (partFound : Bool) (part : Bytes) : Option Bytes :=
  bif partFound then none else pieceOf 0 d₂ (piece ++ part)

theorem addByKey_eq {str} (list : MutableStringListV) (partFound : Bool)
    (hpiece : partFound = false → d₂ ∉ piece) (h : str.splitOn d₁ = part :: tl) :
    addByKey d₁ d₂ list piece partFound str = list.addAll
      ((restKey d₂ piece partFound part).toList ++ tl.filterMap (pieceOf 0 d₂)) := by
  induction str generalizing list piece partFound part tl with
  | nil =>
    obtain ⟨rfl, rfl⟩ : [] = part ∧ [] = tl := by simpa using h
    cases partFound with
    | true => simp [addByKey, restKey, MutableStringListV.addAll]
    | false =>
      simp [addByKey, restKey, MutableStringListV.addAll, pieceOf_of_notMem (hpiece rfl)]
  | cons c str ih =>
    obtain ⟨hd, tl', h'⟩ := exists_splitOn_eq_cons d₁ str
    unfold addByKey
    by_cases hc : c = d₁
    · subst hc
      obtain ⟨rfl, rfl⟩ : [] = part ∧ _ = tl := by simpa [splitOn_cons_self] using h
      rw [ih _ _ (by simp) h', h']
      cases partFound with
      | true => simp [restKey, filterMap_cons_eq]
      | false => simp [restKey, filterMap_cons_eq, pieceOf_of_notMem (hpiece rfl)]
    · rw [splitOn_cons_of_ne hc h'] at h
      obtain ⟨rfl, rfl⟩ := h
      rw [if_neg hc]
      split
      case isTrue hfound =>
        obtain ⟨rfl, hfound⟩ := hfound
        obtain rfl : partFound = false := by simpa using hfound
        rw [ih _ _ (by simp) h']
        simp [restKey, pieceOf_zero (hpiece rfl), MutableStringListV.addAll]
      case isFalse hfound =>
        rw [ih _ _ (by grind) h']
        simp [restKey]

/-- The value that the loop still finds in the part that it is in. -/
def restValue (d₂ : BitVec 8) (piece : Bytes) : Nat → Bytes → Option Bytes
  | 0, part => pieceOf 1 d₂ part
  | 1, part => ((piece ++ part).splitOn d₂).head?
  | _, _ => none

theorem head?_splitOn (h : d₂ ∉ piece) : (piece.splitOn d₂).head? = some piece := by
  simp [splitOn_eq_singleton h]

theorem pieceOf_one_cons_self : pieceOf 1 d₂ (d₂ :: part) = (part.splitOn d₂).head? := by
  obtain ⟨hd, tl, heq⟩ := exists_splitOn_eq_cons d₂ part
  simp [pieceOf, splitOn_cons_self, heq]

theorem pieceOf_one_cons_of_ne {c} (hc : c ≠ d₂) :
    pieceOf 1 d₂ (c :: part) = pieceOf 1 d₂ part := by
  obtain ⟨hd, tl, heq⟩ := exists_splitOn_eq_cons d₂ part
  simp [pieceOf, splitOn_cons_of_ne hc heq, heq]

/-- What is left to do at the end of a part. -/
theorem addAll_restValue_nil (list : MutableStringListV) {curParts}
    (hpiece : curParts = 1 → d₂ ∉ piece) :
    list.addAll (restValue d₂ piece curParts []).toList =
      if curParts = 1 then list.add piece else list := by
  obtain _ | _ | n := curParts
  · simp [restValue, pieceOf, MutableStringListV.addAll]
  · simp [restValue, head?_splitOn (hpiece rfl), MutableStringListV.addAll]
  · simp [restValue, MutableStringListV.addAll]

theorem addAll_append {list : MutableStringListV} {xs ys} :
    list.addAll (xs ++ ys) = (list.addAll xs).addAll ys := foldl_append

theorem addByValue_eq {str} (list : MutableStringListV) (curParts : Nat)
    (hpiece : curParts = 1 → d₂ ∉ piece) (h : str.splitOn d₁ = part :: tl) :
    addByValue d₁ d₂ list piece curParts str = list.addAll
      ((restValue d₂ piece curParts part).toList ++ tl.filterMap (pieceOf 1 d₂)) := by
  induction str generalizing list piece curParts part tl with
  | nil =>
    obtain ⟨rfl, rfl⟩ : [] = part ∧ [] = tl := by simpa using h
    simp [addByValue, addAll_restValue_nil list hpiece]
  | cons c str ih =>
    obtain ⟨hd, tl', h'⟩ := exists_splitOn_eq_cons d₁ str
    unfold addByValue
    by_cases hc : c = d₁
    · subst hc
      obtain ⟨rfl, rfl⟩ : [] = part ∧ _ = tl := by simpa [splitOn_cons_self] using h
      rw [if_pos rfl, ih _ _ (by simp) h', h', ← addAll_restValue_nil list hpiece, ← addAll_append,
        filterMap_cons_eq]
      rfl
    · rw [splitOn_cons_of_ne hc h'] at h
      obtain ⟨rfl, rfl⟩ := h
      rw [if_neg hc]
      by_cases hd₂ : c = d₂
      · subst hd₂
        rw [if_pos rfl]
        obtain _ | _ | n := curParts
        · rw [ih _ _ (by simp) h']
          simp [restValue, pieceOf_one_cons_self]
        · have hpieces := splitOn_append_cons_self_of_not_mem (hpiece rfl) hd
          rw [if_neg (by simp), ih _ _ (by simp) h']
          simp [restValue, hpieces, MutableStringListV.addAll]
        · rw [if_neg (by simp), ih _ _ (by simp) h']
          simp [restValue]
      · rw [if_neg hd₂, ih _ _ (by grind) h']
        obtain _ | _ | n := curParts <;> simp [restValue, pieceOf_one_cons_of_ne hd₂]

/-! ### The join -/

section Join

variable {buf data delim : Bytes} {offset : Nat}

theorem copyN_spec (h : offset + data.length ≤ buf.length) :
    ∃ buf', copyN buf offset data = some buf' ∧ buf'.length = buf.length ∧
      buf'.take (offset + data.length) = buf.take offset ++ data := by
  have hlen : (buf.take offset ++ data).length = offset + data.length := by
    simp
    omega
  refine ⟨_, if_pos h, ?_, ?_⟩
  · simp
    omega
  · rw [← hlen, take_left]

theorem joinBytes_eq (list : List Bytes) :
    joinBytes delim list = (delim.intercalate list).length := by
  induction list with
  | nil => rfl
  | cons s rest ih =>
    cases rest with
    | nil => simp [joinBytes]
    | cons t rest => simp [joinBytes, ih]

/-- The second loop writes the strings with the delimiter in between. -/
theorem joinCopy_spec (list : List Bytes)
    (h : offset + (delim.intercalate list).length ≤ buf.length) :
    ∃ buf', joinCopy delim buf offset list = some buf' ∧
      buf'.take (offset + (delim.intercalate list).length) =
        buf.take offset ++ delim.intercalate list := by
  induction list generalizing buf offset with
  | nil => exact ⟨buf, rfl, by simp⟩
  | cons s rest ih =>
    cases rest with
    | nil =>
      obtain ⟨buf', heq, -, htake⟩ : ∃ _, _ := copyN_spec (by simpa using h)
      exact ⟨buf', heq, by simpa using htake⟩
    | cons t rest =>
      simp only [intercalate_cons_cons, length_append] at h ⊢
      obtain ⟨buf₁, heq₁, hlen₁, htake₁⟩ :=
        copyN_spec (show offset + s.length ≤ buf.length by omega)
      obtain ⟨buf₂, heq₂, hlen₂, htake₂⟩ :=
        copyN_spec (show offset + s.length + delim.length ≤ buf₁.length by omega)
      obtain ⟨buf₃, heq₃, htake₃⟩ :=
        ih (show offset + s.length + delim.length + _ ≤ buf₂.length by omega)
      refine ⟨buf₃, by simp [joinCopy, heq₁, heq₂, heq₃], ?_⟩
      rw [htake₂, htake₁] at htake₃
      simpa [Nat.add_assoc] using htake₃

theorem stringJoin_eq (memory : Nat → BitVec 8) {list : List Bytes}
    (h : (delim.intercalate list).length + 1 < 2 ^ 31) :
    stringJoin memory list delim = some (delim.intercalate list) := by
  have hnonneg : ¬ toInt32 ((delim.intercalate list).length + 1) < 0 := by
    rw [toInt32_of_lt h]
    omega
  have hcopy : ∀ buf : Bytes, (delim.intercalate list).length ≤ buf.length →
      (joinCopy delim buf 0 list).bind (fun b => some (b.take (delim.intercalate list).length)) =
        some (delim.intercalate list) := by
    intro buf hlen
    obtain ⟨buf', heq, htake⟩ := joinCopy_spec list (show 0 + _ ≤ buf.length by rwa [Nat.zero_add])
    simpa [heq] using htake
  simpa [stringJoin, joinBytes_eq, hnonneg] using hcopy _ (by simp)

end Join

/-! ### What the lists hold -/

section Lists

variable (splitRegex : Bytes → Bytes → List Bytes) (memory : Nat → BitVec 8)

theorem list_updateSplit (state : StringSplitState) (str : Bytes) :
    (updateSplit splitRegex state (some str) [d]).list = state.list.addAll (str.splitOn d) := by
  obtain ⟨hd, tl, h⟩ := exists_splitOn_eq_cons d str
  rw [updateSplit, addSplit_eq, h]
  rfl

/-- The list of one string, and of several strings pushed to one state. -/
def splitAll (d : BitVec 8) (strs : List Bytes) : List Bytes :=
  (strs.foldl (fun state str => updateSplit splitRegex state (some str) [d]) {}).list.buffer

theorem splitAll_eq (strs : List Bytes) : splitAll splitRegex d strs =
    (MutableStringListV.addAll {} (strs.flatMap (splitOn d))).buffer := by
  have hfold : ∀ state : StringSplitState,
      (strs.foldl (fun state str => updateSplit splitRegex state (some str) [d]) state).list =
        state.list.addAll (strs.flatMap (splitOn d)) := by
    induction strs with
    | nil => exact fun _ => rfl
    | cons str strs ih =>
      intro state
      rw [foldl_cons, ih, list_updateSplit, flatMap_cons, addAll_append]
  exact congrArg _ (hfold {})

/-- Splitting a string and joining the pieces. -/
structure SplitInverse (d : BitVec 8) (str : Bytes) : Prop where
  length_eq : (splitAll splitRegex d [str]).length = str.count d + 1
  notMem : ∀ piece ∈ splitAll splitRegex d [str], d ∉ piece
  join : stringJoin memory (splitAll splitRegex d [str]) [d] = some str

/-- All pieces are in the list exactly when the strings have together at most 4096 bytes that are
not the delimiter. -/
theorem splitAll_iff (strs : List Bytes) :
    splitAll splitRegex d strs = strs.flatMap (splitOn d) ↔
      (strs.map fun str => str.countP (· ≠ d)).sum ≤ maximumStringLength := by
  have hsum : ((strs.flatMap (splitOn d)).map length).sum =
      (strs.map fun str => str.countP (· ≠ d)).sum := by
    induction strs with
    | nil => rfl
    | cons str strs ih =>
      rw [flatMap_cons, map_append, sum_append, (splitOn_spec d str).2.2, ih]
      rfl
  simpa [splitAll_eq, hsum] using
    MutableStringListV.buffer_addAll_iff {} (strs.flatMap (splitOn d))

/-- A single string always fits. -/
theorem splitAll_singleton {str : Bytes} (h : str.length ≤ maximumStringLength) :
    splitAll splitRegex d [str] = str.splitOn d := by
  have hle : ([str].map fun str => str.countP (· ≠ d)).sum ≤ maximumStringLength := by
    simpa using countP_le_length.trans h
  simpa using (splitAll_iff splitRegex [str]).mpr hle

theorem splitInverse_of_le {str : Bytes} (h : str.length ≤ maximumStringLength) :
    SplitInverse splitRegex memory d str := by
  have hall := splitAll_singleton splitRegex (d := d) h
  obtain ⟨hlen, hmem, -⟩ := splitOn_spec d str
  refine ⟨hall ▸ hlen, hall ▸ hmem, ?_⟩
  rw [hall, stringJoin_eq memory, intercalate_splitOn]
  rw [intercalate_splitOn]
  unfold maximumStringLength at h
  omega

theorem flatMap_splitAll {strs : List Bytes} (h : ∀ str ∈ strs, str.length ≤ maximumStringLength) :
    strs.flatMap (fun str => splitAll splitRegex d [str]) = strs.flatMap (splitOn d) := by
  exact flatMap_congr fun str hstr => splitAll_singleton splitRegex (h str hstr)

/-- Splitting a string of at most 4096 bytes and joining the pieces gives the string back, and
strings that are pushed to one state give the pieces of all of them exactly when they have together
at most 4096 bytes that are not the delimiter. -/
theorem split_join {strs : List Bytes} (h : ∀ str ∈ strs, str.length ≤ maximumStringLength) :
    (∀ str ∈ strs, SplitInverse splitRegex memory d str) ∧
      (splitAll splitRegex d strs = strs.flatMap (fun str => splitAll splitRegex d [str]) ↔
        (strs.map fun str => str.countP (· ≠ d)).sum ≤ maximumStringLength) := by
  refine ⟨fun str hstr => splitInverse_of_le splitRegex memory (h str hstr), ?_⟩
  rw [flatMap_splitAll splitRegex h, splitAll_iff]

theorem splitPieces_spec (state : StringSplitState) (str : Bytes) (d₁ d₂ : BitVec 8) :
    (updateSplitByKey splitRegex state (some str) [d₁] [d₂]).list =
        state.list.addAll (splitPieces 0 d₁ d₂ str) ∧
      (updateSplitByValue splitRegex state (some str) [d₁] [d₂]).list =
        state.list.addAll (splitPieces 1 d₁ d₂ str) := by
  obtain ⟨part, tl, h⟩ := exists_splitOn_eq_cons d₁ str
  simp only [splitPieces, h, filterMap_cons_eq]
  exact ⟨addByKey_eq state.list false (by simp) h, addByValue_eq state.list 0 (by simp) h⟩

/-- Splitting by key adds all the keys, and splitting by value all the values, exactly when the
list has room for their bytes. -/
theorem splitBy_iff (state : StringSplitState) (str : Bytes) (d₁ d₂ : BitVec 8) :
    ((updateSplitByKey splitRegex state (some str) [d₁] [d₂]).list.buffer =
        state.list.buffer ++ splitPieces 0 d₁ d₂ str ↔
      state.list.totalLen + ((splitPieces 0 d₁ d₂ str).map length).sum ≤ maximumStringLength) ∧
    ((updateSplitByValue splitRegex state (some str) [d₁] [d₂]).list.buffer =
        state.list.buffer ++ splitPieces 1 d₁ d₂ str ↔
      state.list.totalLen + ((splitPieces 1 d₁ d₂ str).map length).sum ≤ maximumStringLength) := by
  obtain ⟨hkey, hvalue⟩ := splitPieces_spec splitRegex state str d₁ d₂
  rw [hkey, hvalue]
  exact ⟨state.list.buffer_addAll_iff _, state.list.buffer_addAll_iff _⟩

end Lists

/-- The text `a,b` is split and joined. -/
theorem split_join_two : SplitInverse (fun _ _ => []) (fun _ => 0) 44 [97, 44, 98] := by
  have hlen : ∀ str ∈ [[97, 44, 98]], (str : Bytes).length ≤ maximumStringLength := by decide
  exact (split_join (fun _ _ => []) (fun _ => 0) hlen).1 _ mem_cons_self

/-- A string of 4096 bytes leaves no room for the next one. -/
theorem not_split_long : splitAll (fun _ _ => []) 44 [replicate 4096 97, [97]] ≠
    [replicate 4096 97, [97]].flatMap fun str => splitAll (fun _ _ => []) 44 [str] := by
  generalize hn : 4096 = n
  have hmax : maximumStringLength = n := hn
  rw [flatMap_splitAll _ (by simp [hmax]; omega), Ne, splitAll_iff]
  simp [countP_replicate, hmax]

/-- A key of 4097 bytes is left out. -/
theorem not_splitBy_long : (updateSplitByKey (fun _ _ => []) {} (some (replicate 4097 97 ++ [58]))
    [44] [58]).list.buffer ≠ splitPieces 0 44 58 (replicate 4097 97 ++ [58]) := by
  generalize hn : 4097 = n
  have hkeys : splitPieces 0 44 58 (replicate n 97 ++ [58]) = [replicate n 97] := by
    rw [splitPieces, splitOn_eq_singleton (by simp), filterMap_cons_eq, pieceOf_zero (by simp)]
    rfl
  have hroom := MutableStringListV.buffer_addAll_iff {} [replicate n 97]
  have hmax : ¬ n ≤ maximumStringLength := by
    rw [← hn]
    decide
  rw [(splitPieces_spec _ _ _ _ _).1, hkeys]
  simpa [hmax] using hroom

end HybridSE.Udf
