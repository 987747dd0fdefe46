import HybridSE.Vm.KeyEncoders
import HybridSE.Vm.KeyStrings
import HybridSE.Vm.LastJoinPaths

/-!
# HybridSE.Vm.LastJoinExact

When the execution paths of a last join agree with the join.

A path sorts the rows whose strings match and picks the first that the condition
accepts. The strings of plain keys match where the key values do
(`JoinKeys.Plain.stringsExact`), and if the sort tells the matching rows apart, these are
the rows of the specification in its order (`loopOrder_filter_eq`), so every condition
picks the same row. Conversely a condition that accepts two rows only exposes an order
value that the cast to unsigned moves to the other end, and a tie that `std::sort` may
break either way (`preferSort`).
-/

namespace HybridSE.Vm

open HybridSE.Lib HybridSE.Codec List Option

variable {L R : Type*}

/-- The rows of a table. -/
def TableHandler.rowList (table : TableHandler R) : List R :=
  (table.iterator.getD []).map Prod.snd

/-! ### Orders -/

section Order

variable {s : SortGenerator R} {order : R → BitVec 64}

/-- The reversed sort order by the order column as a signed number. -/
def signedOrder (s : SortGenerator R) (order : R → BitVec 64) (x y : R) : Prop :=
  if s.isAsc then (order y).toInt ≤ (order x).toInt else (order x).toInt ≤ (order y).toInt

/-- The same by the order column as an unsigned number. -/
def unsignedOrder (s : SortGenerator R) (order : R → BitVec 64) (x y : R) : Prop :=
  if s.isAsc then (order y).toNat ≤ (order x).toNat else (order x).toNat ≤ (order y).toNat

theorem indexOrder_perm (isAsc : Bool) (o : OrderType) (rows : List R) :
    (indexOrder isAsc o rows).Perm rows := by
  unfold indexOrder
  by_cases h : o = (if isAsc then .kAscOrder else .kDescOrder)
  · simp [h]
  · rw [if_neg h]

theorem filter_indexOrder (isAsc : Bool) (o : OrderType) (rows : List R) (p : R → Bool) :
    (indexOrder isAsc o rows).filter p = indexOrder isAsc o (rows.filter p) := by
  unfold indexOrder
  by_cases h : o = (if isAsc then .kAscOrder else .kDescOrder)
  · rw [if_pos h, if_pos h, filter_reverse]
  · rw [if_neg h, if_neg h]

theorem loopOrder_perm (s : SortGenerator R) (std : StdSort R) (o : OrderType)
    (rows : List (Nat × R)) : (s.loopOrder std o rows).Perm (rows.map Prod.snd) := by
  unfold SortGenerator.loopOrder
  split
  · split
    · refine ((std.perm _ _).map Prod.snd).trans (List.Perm.of_eq ?_)
      simp
    · exact indexOrder_perm _ _ _
  · exact List.Perm.refl _

theorem reversedOrder_perm (s : SortGenerator R) (table : TableHandler R) :
    (s.reversedOrder table).Perm table.rowList := by
  unfold SortGenerator.reversedOrder TableHandler.rowList
  split
  · split
    · exact mergeSort_perm _ _
    · exact indexOrder_perm _ _ _
  · exact List.Perm.refl _

theorem unsignedOrder_refl (s : SortGenerator R) (order : R → BitVec 64) (r : R) :
    unsignedOrder s order r r := by
  unfold unsignedOrder
  split <;> exact Nat.le_refl _

theorem unsignedOrder_antisymm {x y} (hxy : unsignedOrder s order x y)
    (hyx : unsignedOrder s order y x) : order x = order y := by
  refine BitVec.eq_of_toNat_eq ?_
  unfold unsignedOrder at hxy hyx
  cases hasc : s.isAsc <;> simp only [hasc, if_true, Bool.false_eq_true, if_false] at hxy hyx <;>
    omega

theorem loopOrder_pairwise (std : StdSort R) (hvalid : s.isValid = true) (horder : s.orderGen = some order)
    (o : OrderType) (rows : List (Nat × R)) :
    (s.loopOrder std o rows).Pairwise (unsignedOrder s order) := by
  unfold SortGenerator.loopOrder
  rw [if_pos hvalid, horder]
  have hkey : ∀ x ∈ std.sort (!s.isAsc) (rows.map fun x => ((order x.2).toNat, x.2)),
      x.1 = (order x.2).toNat := by
    intro x hx
    obtain ⟨y, -, rfl⟩ := List.mem_map.mp ((std.perm _ _).mem_iff.mp hx)
    rfl
  refine pairwise_map.mpr ((std.sorted _ _).imp_of_mem fun {x y} hx hy hxy => ?_)
  unfold unsignedOrder
  rw [hkey x hx, hkey y hy] at hxy
  cases hasc : s.isAsc <;> simpa [hasc] using hxy

theorem reversedOrder_pairwise (hvalid : s.isValid = true) (horder : s.orderGen = some order)
    (table : TableHandler R) : (s.reversedOrder table).Pairwise (signedOrder s order) := by
  unfold SortGenerator.reversedOrder
  rw [if_pos hvalid, horder]
  refine (pairwise_mergeSort ?_ ?_ _).imp fun {x y} hxy => ?_
  · intro x y z hxy hyz
    cases hasc : s.isAsc <;> simp only [hasc, decide_eq_true_eq, if_true, Bool.false_eq_true,
      if_false] at hxy hyz ⊢ <;> omega
  · cases hasc : s.isAsc <;> simp only [if_true, Bool.false_eq_true,
      if_false, Bool.or_eq_true, decide_eq_true_eq] <;> omega
  · unfold signedOrder
    cases hasc : s.isAsc <;> simpa [hasc] using hxy

/-- Numbers of one sign are ordered alike. -/
theorem toNat_le_iff_of_sign {x y : BitVec 64} (h : x.toInt < 0 ↔ y.toInt < 0) :
    x.toNat ≤ y.toNat ↔ x.toInt ≤ y.toInt := by
  rw [BitVec.toInt_eq_toNat_cond, BitVec.toInt_eq_toNat_cond] at h ⊢
  split at h <;> split at h <;> omega

/-- Numbers of different signs are ordered the other way round. -/
theorem toNat_le_of_sign_ne {x y : BitVec 64} (h : ¬ (x.toInt < 0 ↔ y.toInt < 0)) :
    x.toNat ≤ y.toNat → ¬ x.toInt ≤ y.toInt := by
  rw [BitVec.toInt_eq_toNat_cond, BitVec.toInt_eq_toNat_cond] at h ⊢
  split at h <;> split at h <;> omega

end Order

/-! ### Agreement -/

/-- The sort tells rows with a property apart: no ties, and no order values of different
sign. -/
def SortGenerator.Separates (s : SortGenerator R) (table : TableHandler R) (m : R → Bool) : Prop :=
  ∀ order : R → BitVec 64, s.isValid = true → s.orderGen = some order →
    ∀ r ∈ table.rowList, ∀ r' ∈ table.rowList, m r = true → m r' = true → r ≠ r' →
      order r ≠ order r' ∧ ((order r).toInt < 0 ↔ (order r').toInt < 0)

section Agree

variable {s : SortGenerator R} {std : StdSort R} {table : TableHandler R} {rows : List (Nat × R)}
  {q m : R → Bool}

/-- The loop visits the matching rows in the order of the specification. -/
theorem loopOrder_filter_eq
    (hrows : rows.filter (fun x => q x.2) = (table.iterator.getD []).filter fun x => m x.2)
    (hsep : s.Separates table m) :
    (s.loopOrder std table.orderType rows).filter q = (s.reversedOrder table).filter m := by
  have hmap : (rows.map Prod.snd).filter q = table.rowList.filter m := by
    have := congrArg (List.map Prod.snd) hrows
    rw [TableHandler.rowList, List.filter_map, List.filter_map]
    exact this
  by_cases hvalid : s.isValid = true
  · rcases horder : s.orderGen with _ | order
    · unfold SortGenerator.loopOrder SortGenerator.reversedOrder
      simp only [if_pos hvalid, horder]
      rw [filter_indexOrder, filter_indexOrder, hmap]
      rfl
    · -- two sorted lists of the same rows
      have hperm : ((s.loopOrder std table.orderType rows).filter q).Perm
          ((s.reversedOrder table).filter m) :=
        ((loopOrder_perm s std _ rows).filter q).trans
          ((List.Perm.of_eq hmap).trans ((reversedOrder_perm s table).filter m).symm)
      have hmem : ∀ r, r ∈ (s.reversedOrder table).filter m →
          r ∈ table.rowList ∧ m r = true := fun r hr =>
        ⟨(reversedOrder_perm s table).mem_iff.mp (mem_filter.mp hr).1,
          (mem_filter.mp hr).2⟩
      have hspec := ((reversedOrder_pairwise hvalid horder table).filter m)
      refine List.Perm.eq_of_pairwise ?_
        ((loopOrder_pairwise std hvalid horder table.orderType rows).filter q)
        (hspec.imp_of_mem fun {r r'} hr hr' h => ?_) hperm
      · intro r r' hr hr' hle hge
        by_contra hne
        obtain ⟨hr, hmr⟩ := hmem r (hperm.mem_iff.mp hr)
        obtain ⟨hr', hmr'⟩ := hmem r' hr'
        exact (hsep order hvalid horder r hr r' hr' hmr hmr' hne).1
          (unsignedOrder_antisymm hle hge)
      · by_cases hne : r = r'
        · subst hne
          exact (unsignedOrder_refl s order r)
        · obtain ⟨hr, hmr⟩ := hmem r hr
          obtain ⟨hr', hmr'⟩ := hmem r' hr'
          have hsign := (hsep order hvalid horder r hr r' hr' hmr hmr' hne).2
          unfold unsignedOrder
          rwa [toNat_le_iff_of_sign hsign, toNat_le_iff_of_sign hsign.symm]
  · unfold SortGenerator.loopOrder SortGenerator.reversedOrder
    simp only [if_neg hvalid]
    exact hmap

/-- Every condition picks the row of the specification. -/
theorem pick_eq (hfails : ¬ s.fails table.orderType)
    (hrows : rows.filter (fun x => q x.2) = (table.iterator.getD []).filter fun x => m x.2)
    (hsep : s.Separates table m) (c : R → Bool) :
    s.pick std table.orderType rows (fun r => q r && c r) =
      (s.reversedOrder table).find? fun r => m r && c r := by
  have hand : ∀ (p : R → Bool) (xs : List R),
      xs.find? (fun r => p r && c r) = (xs.filter p).find? c := by
    intro p xs
    simp only [find?_filter, Bool.decide_and, Bool.decide_eq_true]
  rw [SortGenerator.pick, if_neg hfails, hand, hand, loopOrder_filter_eq hrows hsep]

end Agree

/-! ### Disagreement -/

section Disagree

variable {s : SortGenerator R} {std : StdSort R} {o : OrderType} {rows : List (Nat × R)}

theorem mem_loopOrder {r} : r ∈ s.loopOrder std o rows ↔ ∃ ts, (ts, r) ∈ rows := by
  rw [(loopOrder_perm s std o rows).mem_iff]
  simp

/-- The first accepted element of a sorted list is in order with every accepted one. -/
theorem rel_of_find?_eq_some {α : Type*} {rel p} {xs : List α} {x y} (hxs : xs.Pairwise rel)
    (hfind : xs.find? p = some x) (hy : y ∈ xs) (hp : p y = true) (hne : x ≠ y) : rel x y := by
  obtain ⟨-, front, back, rfl, hfront⟩ := find?_eq_some_iff_append.mp hfind
  rcases mem_append.mp hy with hy | hy
  · exact absurd hp (by simpa using hfront y hy)
  · rcases mem_cons.mp hy with rfl | hy
    · exact absurd rfl hne
    · exact rel_of_pairwise_cons (pairwise_append.mp hxs).2.1 hy

/-- The order of `preferSort`. -/
def preferOrder (r : R) (isAsc : Bool) (x y : Nat × R) : Prop :=
  (if isAsc then x.1 < y.1 else y.1 < x.1) ∨ x.1 = y.1 ∧ (x.2 = r ∨ y.2 ≠ r)

open Classical in
theorem pairwise_preferOrder (r : R) (isAsc : Bool) (rows : List (Nat × R)) :
    (rows.mergeSort fun x y => decide (preferOrder r isAsc x y)).Pairwise
      (preferOrder r isAsc) := by
  refine (pairwise_mergeSort ?_ ?_ _).imp fun {x y} hxy => of_decide_eq_true hxy
  · intro x y z hxy hyz
    simp only [preferOrder] at hxy hyz ⊢
    cases isAsc <;> simp only [Bool.false_eq_true, if_false, if_true] at hxy hyz ⊢ <;> grind
  · simp only [preferOrder]
    cases isAsc <;> simp only [Bool.false_eq_true, if_false, if_true] <;> grind

open Classical in
/-- A sort that puts a given row before the other rows of its key. -/
noncomputable def preferSort (r : R) : StdSort R where
  sort isAsc rows := rows.mergeSort fun x y => decide (preferOrder r isAsc x y)
  perm _ _ := mergeSort_perm _ _
  sorted isAsc rows := (pairwise_preferOrder r isAsc rows).imp fun {x y} hxy => by
    unfold preferOrder at hxy
    cases isAsc <;> simp only [Bool.false_eq_true, if_false, if_true] at hxy ⊢ <;> omega

/-- Of the rows with the order value of the preferred one, the preferred one is first. -/
theorem loopOrder_preferSort {order r} (hvalid : s.isValid = true)
    (horder : s.orderGen = some order) :
    (s.loopOrder (preferSort r) o rows).Pairwise fun x y => order x = order y → y = r → x = r := by
  unfold SortGenerator.loopOrder
  rw [if_pos hvalid, horder]
  refine pairwise_map.mpr ((pairwise_preferOrder r _ _).imp_of_mem fun {x y} hx hy hxy => ?_)
  have hkey : ∀ z ∈ (preferSort r).sort (!s.isAsc) (rows.map fun x => ((order x.2).toNat, x.2)),
      z.1 = (order z.2).toNat := by
    intro z hz
    obtain ⟨w, -, rfl⟩ := List.mem_map.mp (((preferSort r).perm _ _).mem_iff.mp hz)
    rfl
  intro heq hr
  have h1 : x.1 = y.1 := by rw [hkey x hx, hkey y hy, heq]
  rcases hxy with hlt | ⟨-, hpref⟩
  · cases hasc : s.isAsc <;> simp [hasc, h1] at hlt
  · exact hpref.resolve_right fun hne => hne hr

/-- If every condition picks the same row under every sort, the sort tells the rows
apart. -/
theorem separates_of_pick {table : TableHandler R} {q m : R → Bool}
    (hfails : ¬ s.fails table.orderType)
    (hmem : ∀ r ∈ table.rowList, m r = true → (∃ ts, (ts, r) ∈ rows) ∧ q r = true)
    (h : ∀ (std : StdSort R) (c : R → Bool),
      s.pick std table.orderType rows (fun r => q r && c r) =
        (s.reversedOrder table).find? fun r => m r && c r) :
    s.Separates table m := by
  classical
  intro order hvalid horder r hr r' hr' hmr hmr' hne
  let c : R → Bool := fun z => decide (z = r ∨ z = r')
  -- both lists have a first accepted row, and it is the same one
  have hpick : ∀ std : StdSort R, ∃ e, (e = r ∨ e = r') ∧
      (s.loopOrder std table.orderType rows).find? (fun z => q z && c z) = some e ∧
      (s.reversedOrder table).find? (fun z => m z && c z) = some e := by
    intro std
    have heq := h std c
    rw [SortGenerator.pick, if_neg hfails] at heq
    have hsome : ((s.reversedOrder table).find? fun z => m z && c z).isSome := by
      rw [find?_isSome]
      exact ⟨r, (reversedOrder_perm s table).mem_iff.mpr hr, by simp [hmr, c]⟩
    obtain ⟨e, he⟩ := isSome_iff_exists.mp hsome
    have hce : m e = true ∧ (e = r ∨ e = r') := by simpa [c] using find?_some he
    exact ⟨e, hce.2, heq.trans he, he⟩
  -- the row of the two that was not picked
  have hother : ∀ {std : StdSort R} {e e' : R}, (e' = r ∨ e' = r') → e ≠ e' →
      (s.loopOrder std table.orderType rows).find? (fun z => q z && c z) = some e →
      (s.reversedOrder table).find? (fun z => m z && c z) = some e →
      unsignedOrder s order e e' ∧ signedOrder s order e e' := by
    intro std e e' he' hne' hloop hspec
    have hrow : e' ∈ table.rowList ∧ m e' = true := by
      rcases he' with rfl | rfl
      · exact ⟨hr, hmr⟩
      · exact ⟨hr', hmr'⟩
    obtain ⟨⟨ts, hts⟩, hq⟩ := hmem e' hrow.1 hrow.2
    have hc : c e' = true := by simpa [c] using he'
    exact ⟨rel_of_find?_eq_some (loopOrder_pairwise std hvalid horder _ rows) hloop
        (mem_loopOrder.mpr ⟨ts, hts⟩) (by simp [hq, hc]) hne',
      rel_of_find?_eq_some (reversedOrder_pairwise hvalid horder table) hspec
        ((reversedOrder_perm s table).mem_iff.mpr hrow.1) (by simp [hrow.2, hc]) hne'⟩
  constructor
  · intro htie
    have hprefer : ∀ {z z' : R}, (z = r ∨ z = r') → (∀ e, e = r ∨ e = r' → order e = order z) →
        (s.reversedOrder table).find? (fun z => m z && c z) = some z' → z' = z := by
      intro z z' hz hord hspec
      obtain ⟨e, he, hloop, hspec'⟩ := hpick (preferSort z)
      obtain rfl : e = z' := Option.some.inj (hspec'.symm.trans hspec)
      by_contra hne'
      have hrow : z ∈ table.rowList ∧ m z = true := by
        rcases hz with rfl | rfl
        · exact ⟨hr, hmr⟩
        · exact ⟨hr', hmr'⟩
      obtain ⟨⟨ts, hts⟩, hq⟩ := hmem z hrow.1 hrow.2
      exact hne' (rel_of_find?_eq_some (loopOrder_preferSort hvalid horder) hloop
        (mem_loopOrder.mpr ⟨ts, hts⟩) (by simpa [hq, c] using hz) hne' (hord e he) rfl)
    obtain ⟨e, -, -, hspec⟩ := hpick (preferSort r)
    have h1 := hprefer (.inl rfl) (by rintro e (rfl | rfl); exacts [rfl, htie.symm]) hspec
    have h2 := hprefer (.inr rfl) (by rintro e (rfl | rfl); exacts [htie, rfl]) hspec
    exact hne (h1.symm.trans h2)
  · by_contra hsign
    obtain ⟨e, he, hloop, hspec⟩ := hpick (preferSort r)
    obtain ⟨e', he', hne', hsign'⟩ : ∃ e', (e' = r ∨ e' = r') ∧ e ≠ e' ∧
        ¬ ((order e).toInt < 0 ↔ (order e').toInt < 0) := by
      rcases he with rfl | rfl
      · exact ⟨r', .inr rfl, hne, hsign⟩
      · exact ⟨r, .inl rfl, hne.symm, fun hiff => hsign hiff.symm⟩
    obtain ⟨hu, hs⟩ := hother he' hne' hloop hspec
    unfold unsignedOrder at hu
    unfold signedOrder at hs
    cases hasc : s.isAsc <;> simp only [hasc, if_true, Bool.false_eq_true, if_false] at hu hs
    · exact toNat_le_of_sign_ne hsign' hu hs
    · exact toNat_le_of_sign_ne (fun hiff => hsign' hiff.symm) hu hs

end Disagree

/-! ### Plain keys -/

/-- Two tuples of the same columns with plain values only. -/
structure PlainPair (a b : List Value) : Prop where
  typed : ∃ schema, schema ≠ [] ∧ Typed schema a ∧ Typed schema b
  left : ∀ val ∈ a, PlainKey val
  right : ∀ val ∈ b, PlainKey val

namespace PlainPair

variable {a b a' b' : List Value}

theorem ne_nil (h : PlainPair a b) : a ≠ [] ∧ b ≠ [] := by
  obtain ⟨schema, hne, ha, hb⟩ := h.typed
  constructor
  · rintro rfl
    exact hne (length_eq_zero_iff.mp ha.length_eq.symm)
  · rintro rfl
    exact hne (length_eq_zero_iff.mp hb.length_eq.symm)

theorem gen_eq_iff (h : PlainPair a b) : gen (some a) = gen (some b) ↔ a = b := by
  obtain ⟨schema, -, ha, hb⟩ := h.typed
  exact ⟨gen_inj ha hb h.left h.right, fun heq => by rw [heq]⟩

/-- Two plain tuples, one after the other in a string. -/
theorem gen_append_eq_iff (h : PlainPair a b) (h' : PlainPair a' b') :
    gen (some a) ++ keySep :: gen (some a') = gen (some b) ++ keySep :: gen (some b') ↔
      a = b ∧ a' = b' := by
  obtain ⟨schema, -, ha, hb⟩ := h.typed
  obtain ⟨schema', -, ha', hb'⟩ := h'.typed
  have hstring : ∀ {u v : List Value}, v ≠ [] → (∀ val ∈ v, PlainKey val) →
      gen (some u) ++ keySep :: gen (some v) =
        gen (some u) ++ trailing keySep (v.map genText) := by
    intro u v hne hplain
    obtain ⟨x, xs, rfl⟩ := exists_cons_of_ne_nil hne
    rw [gen_some (x :: xs), List.map_cons,
      joinFields_cons (isField_genText (hplain x mem_cons_self)).1, trailing_cons]
  have hfield : ∀ {v : List Value}, (∀ val ∈ v, PlainKey val) →
      ∀ text ∈ v.map genText, keySep ∉ text := by
    intro v hplain text htext
    obtain ⟨val, hval, rfl⟩ := List.mem_map.mp htext
    exact (isField_genText (hplain val hval)).2
  rw [hstring h'.ne_nil.1 h'.left, hstring h'.ne_nil.2 h'.right]
  constructor
  · intro heq
    obtain ⟨hfirst, htexts⟩ := append_trailing_inj (by simp [ha'.length_eq, hb'.length_eq])
      (hfield h'.left) (hfield h'.right) heq
    exact ⟨h.gen_eq_iff.mp hfirst, h'.gen_eq_iff.mp (by rw [gen_some, gen_some, htexts])⟩
  · rintro ⟨rfl, rfl⟩
    rfl

end PlainPair

/-- The string of a plain tuple is not empty. -/
theorem gen_ne_nil {a : List Value} (ha : ∀ val ∈ a, PlainKey val) (hne : a ≠ []) :
    gen (some a) ≠ [] := by
  obtain ⟨x, xs, rfl⟩ := exists_cons_of_ne_nil hne
  have hx := (isField_genText (ha x mem_cons_self)).1
  rw [gen_some, List.map_cons, joinFields_cons hx]
  exact fun h => hx (append_eq_nil_iff.mp h).1

/-- An indexed tuple is stored under the string of a lookup. -/
theorem decodeKeys_eq_gen {a : List Value} (h : ∀ val ∈ a, IntegerOrString val) :
    decodeKeys a = gen (some a) := by
  rw [decodeKeys, gen_some]
  exact congrArg _ (map_congr_left fun val hval => (genText_eq_storedText (h val hval)).symm)

/-- The keys of the two rows have the same types and plain values; those of an index are
integers or strings. -/
structure JoinKeys.Plain (keys : JoinKeys L R) (left : L) (right : R) : Prop where
  index : ∀ leftIndex rightIndex, keys.index = some (leftIndex, rightIndex) →
    ∃ a, leftIndex left = some a ∧ PlainPair a (rightIndex right) ∧
      ∀ val ∈ rightIndex right, IntegerOrString val
  group : ∀ leftKey rightKey, keys.group = some (leftKey, rightKey) →
    ∃ a b, leftKey left = some a ∧ rightKey right = some b ∧ PlainPair a b

/-- The strings of every path match where the key values do. -/
structure JoinKeys.StringsExact (keys : JoinKeys L R) (left : L) (right : R) : Prop where
  table : keys.tableMatch left right = keys.keysEqual left right
  partition : keys.partitionMatch left right = keys.keysEqual left right
  row : keys.rowMatch left right = keys.keysEqual left right

/-- Plain keys match by their strings where they match by their values. -/
theorem JoinKeys.Plain.stringsExact {keys : JoinKeys L R} {left : L} {right : R}
    (h : keys.Plain left right) (hcarried : keys.index = none ∨ keys.group ≠ none) :
    keys.StringsExact left right := by
  rcases hi : keys.index with _ | ⟨leftIndex, rightIndex⟩ <;>
    rcases hg : keys.group with _ | ⟨leftKey, rightKey⟩
  case none.none =>
    constructor <;>
      simp [JoinKeys.tableMatch, JoinKeys.partitionMatch, JoinKeys.rowMatch, JoinKeys.keysEqual,
        hi, hg]
  case none.some =>
    obtain ⟨a, b, hl, hr, hplain⟩ := h.group _ _ hg
    have hsym : gen (some b) = gen (some a) ↔ a = b := eq_comm.trans hplain.gen_eq_iff
    constructor <;> rw [Bool.eq_iff_iff] <;>
      simp [JoinKeys.tableMatch, JoinKeys.partitionMatch, JoinKeys.rowMatch, JoinKeys.keysEqual,
        hi, hg, hl, hr, hplain.gen_eq_iff, hsym]
  case some.none => simp_all
  case some.some =>
    obtain ⟨a, hl, hplain, hstored⟩ := h.index _ _ hi
    obtain ⟨b, c, hbl, hcr, hplain'⟩ := h.group _ _ hg
    have hne := gen_ne_nil hplain.left hplain.ne_nil.1
    have hsym : gen (some (rightIndex right)) = gen (some a) ↔ a = rightIndex right :=
      eq_comm.trans hplain.gen_eq_iff
    have hboth := eq_comm.trans (hplain.gen_append_eq_iff hplain')
    constructor <;> rw [Bool.eq_iff_iff] <;>
      simp [JoinKeys.tableMatch, JoinKeys.partitionMatch, JoinKeys.rowMatch, JoinKeys.keysEqual,
        hi, hg, hl, hbl, hcr, hne, decodeKeys_eq_gen hstored, hsym, hboth, hplain'.gen_eq_iff]

/-! ### All paths -/

section Paths

variable (keys : JoinKeys L R) (sort : SortGenerator R) (table : TableHandler R)

/-- Every path gives every left row its row of the join: the left rows as a table, as any
partition, and one by one. -/
structure PathsExact (cond : Option (L → R → Bool)) (std : StdSort R) (left : List (Nat × L))
    (o : OrderType) : Prop where
  leftTable : (keys.generator sort cond).run std (.table ⟨some left, o⟩) (keys.rightInput table) =
    some (.table ⟨some (left.map fun x => (x.1, lastJoin keys sort cond table x.2)), o⟩)
  leftPartition : ∀ p : PartitionHandler L, (∀ a ∈ p.added, a.2 ∈ left) →
    ∃ out, (keys.generator sort cond).run std (.partition p) (keys.rightInput table) =
        some (.partition out) ∧
      ∀ key, out.segment key =
        (p.segment key).map fun x => (x.1, lastJoin keys sort cond table x.2)
  leftRow : ∀ x ∈ left, (keys.generator sort cond).run std (.row x.2) (keys.rightInput table) =
    some (.row (lastJoin keys sort cond table x.2))

/-- What the left rows, the right table and the carriers of the keys have to satisfy. -/
structure JoinExact (left : List (Nat × L)) : Prop where
  index : keys.index = none ∨ keys.group ≠ none
  groupable : keys.Groupable table
  failing : sort.fails table.orderType → ∀ x ∈ left, ∀ r ∈ table.rowList,
    keys.keysEqual x.2 r = false
  order : ¬ sort.fails table.orderType → ∀ x ∈ left,
    sort.Separates table (keys.keysEqual x.2)

variable {keys sort table} {left : L}

theorem mem_rowList {x} (h : x ∈ table.iterator.getD []) : x.2 ∈ table.rowList :=
  List.mem_map_of_mem h

/-- Behind a string of both keys stands one index key. -/
theorem index_of_rowMatch {leftIndex rightIndex r}
    (hindex : keys.index = some (leftIndex, rightIndex)) (h : keys.rowMatch left r = true) :
    decodeKeys (rightIndex r) = gen (leftIndex left) := by
  simp only [JoinKeys.rowMatch, hindex, Bool.and_eq_true, decide_eq_true_eq] at h
  exact h.1

/-- A lookup of both keys by a string that matches where the key values do. -/
theorem bothSegment_eq_filter {leftIndex : KeyGen L} {rightIndex : R → List Value}
    {rightKey : KeyGen R} {s : List Byte} (hindex : keys.index = some (leftIndex, rightIndex))
    (hstring : ∀ r ∈ table.rowList,
      decide (decodeKeys (rightIndex r) ++ keySep :: gen (rightKey r) = s) =
        keys.keysEqual left r)
    (hrow : ∀ r ∈ table.rowList, keys.rowMatch left r = keys.keysEqual left r) :
    bothSegment table rightIndex rightKey s =
      (table.iterator.getD []).filter fun x => keys.keysEqual left x.2 := by
  refine (bothSegment_eq table (gen (leftIndex left)) fun x hx hs => ?_).trans
    (filter_congr fun x hx => hstring x.2 (mem_rowList hx))
  have hmem := mem_rowList hx
  refine index_of_rowMatch hindex ?_
  rw [hrow x.2 hmem, ← hstring x.2 hmem]
  exact decide_eq_true hs

theorem tableRows_eq (h : ∀ r ∈ table.rowList, keys.StringsExact left r) :
    keys.tableRows table left =
      (table.iterator.getD []).filter fun x => keys.keysEqual left x.2 := by
  unfold JoinKeys.tableRows
  rcases hindex : keys.index with _ | ⟨leftIndex, rightIndex⟩ <;>
    rcases hgroup : keys.group with _ | ⟨leftKey, rightKey⟩
  case some.some =>
    refine bothSegment_eq_filter hindex (fun r hr => ?_) fun r hr => (h r hr).row
    simp [← (h r hr).table, JoinKeys.tableMatch, hindex, hgroup]
  all_goals exact filter_congr fun x hx => (h x.2 (mem_rowList hx)).table

theorem partitionRows_eq (h : ∀ r ∈ table.rowList, keys.StringsExact left r) :
    keys.partitionRows table left =
      (table.iterator.getD []).filter fun x => keys.keysEqual left x.2 := by
  unfold JoinKeys.partitionRows
  rcases hindex : keys.index with _ | ⟨leftIndex, rightIndex⟩ <;>
    rcases hgroup : keys.group with _ | ⟨leftKey, rightKey⟩
  case some.some =>
    refine bothSegment_eq_filter hindex (fun r hr => ?_) fun r hr => (h r hr).row
    simp [← (h r hr).partition, JoinKeys.partitionMatch, hindex, hgroup]
  all_goals exact filter_congr fun x hx => (h x.2 (mem_rowList hx)).partition

/-- A table of known order: the picks are those of the join. -/
theorem pick_eq_lastJoin {left : List (Nat × L)} (h : JoinExact keys sort table left)
    {x : Nat × L} (hx : x ∈ left) {rows : List (Nat × R)} {q : R → Bool}
    (hrows : rows.filter (fun y => q y.2) =
      (table.iterator.getD []).filter fun y => keys.keysEqual x.2 y.2)
    (std : StdSort R) (cond : Option (L → R → Bool)) :
    JoinedRow.row x.2 (sort.pick std table.orderType rows fun r => q r && condHolds cond x.2 r) =
      lastJoin keys sort cond table x.2 := by
  congr 1
  by_cases hfails : sort.fails table.orderType
  · rw [SortGenerator.pick, if_pos hfails]
    refine (find?_eq_none.mpr fun r hr => ?_).symm
    simp [h.failing hfails x hx r ((reversedOrder_perm sort table).mem_iff.mp hr)]
  · exact pick_eq hfails hrows (h.order hfails x hx) _

theorem pathsExact_of_joinExact {left}
    (hstrings : ∀ x ∈ left, ∀ r ∈ table.rowList, keys.StringsExact x.2 r)
    (h : JoinExact keys sort table left) (cond : Option (L → R → Bool)) (std : StdSort R) (o : OrderType) :
    PathsExact keys sort table cond std left o := by
  have htable : ∀ x ∈ left, JoinedRow.row x.2
      (sort.pick std table.orderType (keys.tableRows table x.2) (condHolds cond x.2)) =
      lastJoin keys sort cond table x.2 := by
    intro x hx
    rw [← pick_eq_lastJoin (q := fun _ => true) h hx
      ((filter_true _).trans (tableRows_eq (hstrings x hx))) std cond]
    simp only [Bool.true_and]
  have hpartition : ∀ x ∈ left, JoinedRow.row x.2
      (sort.pick std table.orderType (keys.partitionRows table x.2) (condHolds cond x.2)) =
      lastJoin keys sort cond table x.2 := by
    intro x hx
    rw [← pick_eq_lastJoin (q := fun _ => true) h hx
      ((filter_true _).trans (partitionRows_eq (hstrings x hx))) std cond]
    simp only [Bool.true_and]
  refine ⟨?_, fun p hp => ⟨_, run_partition keys sort cond std table h.groupable h.index p, ?_⟩, ?_⟩
  · rw [run_table keys sort cond std table h.groupable]
    refine congrArg (fun rows => some (DataHandler.table ⟨some rows, o⟩)) ?_
    exact map_congr_left fun x hx => congrArg (Prod.mk x.1) (htable x hx)
  · intro key
    refine (PartitionHandler.segment_addAll p (fun x => (x.1, _)) p.orderType key).trans ?_
    refine map_congr_left fun x hx => congrArg (Prod.mk x.1) (hpartition x ?_)
    exact hp (key, x) (PartitionHandler.mem_segment.mp hx)
  · intro x hx
    rw [run_row]
    refine congrArg (fun r => some (DataHandler.row r)) (pick_eq_lastJoin h hx ?_ std cond)
    rw [rowRows_filter]
    exact filter_congr fun y hy => (hstrings x hx y.2 (mem_rowList hy)).row

/-- A left partition needs keys that are not in the index. -/
theorem run_partition_index_only {leftIndex rightIndex}
    (hindex : keys.index = some (leftIndex, rightIndex)) (hgroup : keys.group = none)
    (cond : Option (L → R → Bool)) (std : StdSort R) (p : PartitionHandler L) :
    (keys.generator sort cond).run std (.partition p) (keys.rightInput table) = none := by
  have hgrouped := groupedRight_eq keys sort cond table (.inl hgroup)
  have hleft : (keys.generator sort cond).leftKeyGen = none := by
    simp [JoinKeys.generator, hgroup]
  simp [JoinGenerator.run, hgrouped, hindex, hgroup, JoinGenerator.partitionJoinPartition, hleft,
    map_none]

theorem run_table_not_groupable (h : ¬ keys.Groupable table) (cond : Option (L → R → Bool))
    (std : StdSort R) (left : List (Nat × L)) (o : OrderType) :
    (keys.generator sort cond).run std (.table ⟨some left, o⟩) (keys.rightInput table) = none := by
  unfold JoinKeys.Groupable at h
  push Not at h
  obtain ⟨hgroup, hindex, hiter⟩ := h
  obtain ⟨⟨leftKey, rightKey⟩, hgroup⟩ := ne_none_iff_exists'.mp hgroup
  simp [JoinGenerator.run, JoinGenerator.groupedRight, JoinKeys.generator, JoinKeys.rightInput,
    hgroup, hindex, partitionInput, partitionTable, hiter]

/-- A row that `RowLastJoin` accepts. -/
theorem exists_rowRows_iff {r} :
    (∃ ts, (ts, r) ∈ keys.rowRows table left) ∧ keys.groupMatch left r = true ↔
      (∃ ts, (ts, r) ∈ table.iterator.getD []) ∧ keys.rowMatch left r = true := by
  have hmem : ∀ ts, (ts, r) ∈ keys.rowRows table left ∧ keys.groupMatch left r = true ↔
      (ts, r) ∈ table.iterator.getD [] ∧ keys.rowMatch left r = true := by
    intro ts
    have := congrArg (fun rows => (ts, r) ∈ rows) (rowRows_filter keys table left)
    simpa only [mem_filter, eq_iff_iff] using this
  simpa [← exists_and_right] using exists_congr hmem

/-- What the table and the row by row path pick for a left row, if all paths are exact. -/
theorem picks_of_pathsExact {left o} (hgroupable : keys.Groupable table) {std c}
    (h : PathsExact keys sort table (some fun _ r => c r) std left o) {x} (hx : x ∈ left) :
    let wanted := (sort.reversedOrder table).find? fun r => keys.keysEqual x.2 r && c r
    sort.pick std table.orderType (keys.tableRows table x.2) c = wanted ∧
      sort.pick std table.orderType (keys.rowRows table x.2)
        (fun r => keys.groupMatch x.2 r && c r) = wanted := by
  constructor
  · have htable := h.leftTable
    rw [run_table keys sort _ std table hgroupable] at htable
    simp only [Option.some.injEq, DataHandler.table.injEq, TableHandler.mk.injEq, and_true,
      map_inj_left, Prod.mk.injEq, true_and] at htable
    exact (JoinedRow.row.inj (htable x hx)).2
  · have hrow := h.leftRow x hx
    rw [run_row] at hrow
    simp only [Option.some.injEq, DataHandler.row.injEq] at hrow
    exact (JoinedRow.row.inj hrow).2

theorem joinExact_of_pathsExact {left : List (Nat × L)} {o : OrderType}
    (hplain : ∀ x ∈ left, ∀ r ∈ table.rowList, keys.Plain x.2 r)
    (h : ∀ (cond : Option (L → R → Bool)) (std : StdSort R),
      PathsExact keys sort table cond std left o) : JoinExact keys sort table left := by
  have hgroupable : keys.Groupable table := by
    by_contra hnot
    have := (h none stableSort).leftTable
    rw [run_table_not_groupable hnot] at this
    cases this
  have hindex : keys.index = none ∨ keys.group ≠ none := by
    by_contra hnot
    push Not at hnot
    obtain ⟨⟨leftIndex, rightIndex⟩, hindex⟩ := ne_none_iff_exists'.mp hnot.1
    obtain ⟨out, hrun, -⟩ := (h none stableSort).leftPartition ⟨[], o⟩ (by simp)
    rw [run_partition_index_only hindex hnot.2] at hrun
    cases hrun
  have hpicks := fun (std : StdSort R) (c : R → Bool) {x : Nat × L} (hx : x ∈ left) =>
    picks_of_pathsExact hgroupable (h (some fun _ r => c r) std) hx
  refine ⟨hindex, hgroupable, fun hfails x hx r hr => ?_, fun hfails x hx => ?_⟩
  · have hnone := (hpicks stableSort (fun _ => true) hx).1
    rw [SortGenerator.pick, if_pos hfails] at hnone
    have := find?_eq_none.mp hnone.symm r ((reversedOrder_perm sort table).mem_iff.mpr hr)
    simpa using this
  · refine separates_of_pick hfails (fun r hr hm => ?_) fun std c => (hpicks std c hx).2
    obtain ⟨y, hy, rfl⟩ := List.mem_map.mp hr
    exact exists_rowRows_iff.mpr
      ⟨⟨y.1, hy⟩, ((hplain x hx y.2 hr).stringsExact hindex).row.trans hm⟩

end Paths

/-- A join on a column that is no index, with an order column on the right. -/
def groupJoin : JoinKeys (BitVec 32) (BitVec 32 × BitVec 64) where
  index := none
  group := some (fun l => some [.int32 l], fun r => some [.int32 r.1])

def byOrder : SortGenerator (BitVec 32 × BitVec 64) where
  isValid := true
  isAsc := true
  orderGen := some Prod.snd

def twoSevens : TableHandler (BitVec 32 × BitVec 64) where
  iterator := some [(1, 7, 1), (2, 7, 2)]
  orderType := .kNoneOrder

/-- A join on one index column, without a sort. -/
def indexJoin : JoinKeys (BitVec 32) (BitVec 32) where
  index := some (fun l => some [.int32 l], fun r => [.int32 r])
  group := none

def unsorted : SortGenerator (BitVec 32) where
  isValid := false
  isAsc := true
  orderGen := none

def oneSeven : TableHandler (BitVec 32) where
  iterator := some [(1, 7)]
  orderType := .kNoneOrder

end HybridSE.Vm
