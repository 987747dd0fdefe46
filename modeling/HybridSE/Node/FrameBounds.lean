import HybridSE.Node.Frame
import Mathlib.Algebra.Order.Ring.Rat
import Mathlib.Data.Rat.Cast.Order
import Mathlib.Order.Lattice.Nat
import Mathlib.Tactic.MkIffOfInductiveProp

/-!
# HybridSE.Node.FrameBounds

What becomes of the declared bounds of frames.

`NodeManager::MergeFrameNode` is folded over the windows of a select, so it should be a join.
The bounds of the merged frame are the hull of the bounds (`map_offsets_mergeFrameExtent`),
which does not depend on the order. `MAXSIZE` is the first one that is not zero, which does.
The end of a rows frame counts as declared as long as there is no range, but is cut at
the current row in the merged frame. And a missing bound is the least one for the merge, but
a missing end means the current row afterwards, and so does a missing start if there are both
rows and a range (`mergeFrameNode_isJoin_iff`).

`Planner::CheckWindowFrame` and `BatchModeTransformer::CheckHistoryWindowFrame` should let
frames pass only if they end at the current row. They ask the accessors of `FrameNode`,
which cut the bounds at the current row themselves, so every bound passes
(`checkHistoryWindowFrame_eq_ok_iff`).
-/

namespace HybridSE.Node

open HybridSE.Lib

/-! ### Extents -/

/-- Where the bounds lie. -/
def FrameExtent.offsets (e : FrameExtent) : WithBot Int × WithBot Int :=
  (position e.start, position e.stop)

/-- The smallest interval with two given ones. -/
def hull (a b : WithBot Int × WithBot Int) : WithBot Int × WithBot Int :=
  (min a.1 b.1, max a.2 b.2)

instance : Std.Commutative hull where
  comm a b := by simp only [hull, min_comm, max_comm]

instance : Std.Associative hull where
  assoc a b c := by simp only [hull, min_assoc, max_assoc]

instance : Std.IdempotentOp hull where
  idempotent a := by simp only [hull, min_self, max_self]

/-- The hull of two intervals that may be missing. -/
abbrev hullOption : Option (WithBot Int × WithBot Int) → Option (WithBot Int × WithBot Int) →
    Option (WithBot Int × WithBot Int) :=
  Option.merge hull

theorem hullOption_comm (a b : Option (WithBot Int × WithBot Int)) :
    hullOption a b = hullOption b a :=
  Std.Commutative.comm a b

theorem hullOption_assoc (a b c : Option (WithBot Int × WithBot Int)) :
    hullOption (hullOption a b) c = hullOption a (hullOption b c) :=
  Std.Associative.assoc a b c

theorem hullOption_self (a : Option (WithBot Int × WithBot Int)) : hullOption a a = a :=
  Std.IdempotentOp.idempotent a

theorem map_offsets_mergeFrameExtent (x y : Option FrameExtent) :
    (mergeFrameExtent x y).map FrameExtent.offsets =
      hullOption (x.map FrameExtent.offsets) (y.map FrameExtent.offsets) := by
  cases x with
  | none => cases y <;> rfl
  | some e1 =>
    cases y with
    | none => rfl
    | some e2 =>
      exact congrArg some (Prod.ext (e1.position_merge_start e2) (e1.position_merge_stop e2))

/-! ### Attributes -/

namespace FrameNode

/-- The attributes of a frame that execution looks at. -/
structure Attributes where
  frameType : FrameType
  historyRows : Int × Option Int
  historyRange : Int × Int
  maxsize : Int
  deriving DecidableEq

def attributes (f : FrameNode) : Attributes :=
  ⟨f.frameType, (f.getHistoryRowsStart, f.getHistoryRowsEnd),
    (f.getHistoryRangeStart, f.getHistoryRangeEnd), f.frameMaxsize⟩

end FrameNode

open FrameNode

/-- The history offset of a position. -/
def historyAt (missing : Int) : WithBot Int → Int :=
  WithBot.recBotCoe missing historyOffset

theorem historyBound_eq (missing : Int) (b : Option FrameBound) :
    historyBound missing b = historyAt missing (position b) := by
  cases b <;> rfl

/-- The end of the rows from the positions of their bounds. -/
def rowsEndAt (missing : Int) (cut : Int → Int) (rows : WithBot Int × WithBot Int) : Option Int :=
  if rows.1 = ⊥ then some missing else WithBot.recBotCoe none (fun a => some (cut a)) rows.2

theorem rowsEndAt_offsets (missing : Int) (cut : Int → Int) (e : FrameExtent) :
    rowsEndAt missing cut e.offsets =
      if e.start = none then some missing else e.stop.map fun b => cut b.getSignedOffset := by
  obtain ⟨start, stop⟩ := e
  cases start <;> cases stop <;> simp [rowsEndAt, FrameExtent.offsets, position]

/-- The history bounds from the positions of the bounds. -/
def historyOf : Option (WithBot Int × WithBot Int) → Option (WithBot Int × WithBot Int) →
    (Int × Option Int) × (Int × Int)
  | none, none => ((int64Min, some int64Min), (int64Min, 0))
  | none, some rows => ((historyAt int64Min rows.1, rowsEndAt int64Min id rows), (0, 0))
  | some range, none => ((0, some 0), (historyAt int64Min range.1, historyAt 0 range.2))
  | some range, some rows => ((historyAt 0 rows.1, rowsEndAt 0 historyOffset rows),
      (historyAt 0 range.1, historyAt 0 range.2))

theorem attributes_eq (f : FrameNode) :
    f.attributes =
      let history := historyOf (f.frameRange.map FrameExtent.offsets)
        (f.frameRows.map FrameExtent.offsets)
      ⟨f.frameType, history.1, history.2, f.frameMaxsize⟩ := by
  unfold attributes getHistoryRowsStart getHistoryRowsEnd getHistoryRangeStart getHistoryRangeEnd
  cases f.frameRange <;> cases f.frameRows <;>
    simp only [Option.map_none, Option.map_some, historyOf, historyBound_eq, rowsEndAt_offsets] <;>
    rfl

/-! ### Merging -/

/-- The merged bounds contain those that a frame declares. -/
@[mk_iff]
structure Contains (m f : FrameNode) : Prop where
  rows : f.frameRows ≠ none → m.getHistoryRowsStart ≤ f.getHistoryRowsStart ∧
    ∃ stop ∈ f.getHistoryRowsEnd, ∃ stop' ∈ m.getHistoryRowsEnd, stop ≤ stop'
  range : f.frameRange ≠ none →
    m.getHistoryRangeStart ≤ f.getHistoryRangeStart ∧ f.getHistoryRangeEnd ≤ m.getHistoryRangeEnd

/-- Merging these frames is a join. -/
structure MergeIsJoin (f g h : FrameNode) : Prop where
  comm : (mergeFrameNode f g).attributes = (mergeFrameNode g f).attributes
  assoc : (mergeFrameNode (mergeFrameNode f g) h).attributes =
    (mergeFrameNode f (mergeFrameNode g h)).attributes
  idem : (mergeFrameNode f f).attributes = f.attributes
  left : Contains (mergeFrameNode f g) f
  right : Contains (mergeFrameNode f g) g

/-- A frame as the planner has it: `Planner::CheckWindowFrame` reads the types of both bounds
of a rows frame without a test, so the rows have both. -/
structure PlannedFrame extends FrameNode where
  rows_bounded : ∀ rows, frameRows = some rows → rows.start ≠ none ∧ rows.stop ≠ none

/-- The merged frame keeps the bounds of the first one. -/
structure BoundsKept (f g : FrameNode) : Prop where
  /-- The end of rows without a range is not cut off by a range of the other frame. -/
  rowsEnd : ∀ rows, f.frameRange = none → f.frameRows = some rows → g.frameRange ≠ none →
    ∀ b, rows.stop = some b → b.getSignedOffset ≤ 0
  /-- If a range start is missing where there are rows, the range starts at the current row. -/
  rangeStart : ∀ range, f.frameRange = some range → f.frameRows ≠ none ∨ g.frameRows ≠ none →
    range.start = none ∨ (∃ other, g.frameRange = some other ∧ other.start = none) →
    0 ≤ f.getHistoryRangeStart
  /-- A missing range end is not replaced by one before the current row. -/
  rangeEnd : ∀ range other, f.frameRange = some range → g.frameRange = some other →
    range.stop = none → ∀ b, other.stop = some b → 0 ≤ b.getSignedOffset

/-- The type of a merged frame. -/
def joinType (a b : FrameType) : FrameType := if a = b then a else .kFrameRowsMergeRowsRange

theorem joinType_comm (a b : FrameType) : joinType a b = joinType b a := by
  cases a <;> cases b <;> rfl

theorem joinType_assoc (a b c : FrameType) :
    joinType (joinType a b) c = joinType a (joinType b c) := by
  cases a <;> cases b <;> cases c <;> rfl

/-- The size of a merged frame. -/
def joinSize (a b : Int) : Int := if a = 0 then b else a

theorem joinSize_assoc (a b c : Int) : joinSize (joinSize a b) c = joinSize a (joinSize b c) := by
  unfold joinSize
  split <;> simp_all

theorem attributes_mergeFrameNode (f g : FrameNode) :
    (mergeFrameNode f g).attributes =
      let history := historyOf
        (hullOption (f.frameRange.map FrameExtent.offsets) (g.frameRange.map FrameExtent.offsets))
        (hullOption (f.frameRows.map FrameExtent.offsets) (g.frameRows.map FrameExtent.offsets))
      ⟨joinType f.frameType g.frameType, history.1, history.2,
        joinSize f.frameMaxsize g.frameMaxsize⟩ := by
  rw [attributes_eq, ← map_offsets_mergeFrameExtent, ← map_offsets_mergeFrameExtent]
  rfl

theorem mergeFrameNode_comm_iff (f g : FrameNode) :
    (mergeFrameNode f g).attributes = (mergeFrameNode g f).attributes ↔
      f.frameMaxsize = 0 ∨ g.frameMaxsize = 0 ∨ f.frameMaxsize = g.frameMaxsize := by
  rw [attributes_mergeFrameNode, attributes_mergeFrameNode, joinType_comm,
    hullOption_comm (f.frameRange.map _), hullOption_comm (f.frameRows.map _)]
  simp only [Attributes.mk.injEq, true_and, joinSize]
  split <;> split <;> omega

theorem mergeFrameNode_assoc (f g h : FrameNode) :
    (mergeFrameNode (mergeFrameNode f g) h).attributes =
      (mergeFrameNode f (mergeFrameNode g h)).attributes := by
  rw [attributes_mergeFrameNode, attributes_mergeFrameNode]
  simp only [mergeFrameNode, map_offsets_mergeFrameExtent, hullOption_assoc, Attributes.mk.injEq,
    true_and]
  exact ⟨joinType_assoc .., joinSize_assoc ..⟩

theorem mergeFrameNode_idem (f : FrameNode) : (mergeFrameNode f f).attributes = f.attributes := by
  rw [attributes_mergeFrameNode, attributes_eq]
  simp only [hullOption_self, joinType, joinSize, if_true, ite_self]

theorem historyOffset_eq_min (a : Int) : historyOffset a = min a 0 := by
  unfold historyOffset
  split <;> omega

theorem historyAt_bot (missing : Int) : historyAt missing ⊥ = missing := rfl

theorem historyAt_coe (missing a : Int) : historyAt missing (a : WithBot Int) = min a 0 :=
  historyOffset_eq_min a

theorem rowsEndAt_coe (missing : Int) (cut : Int → Int) (a b : Int) :
    rowsEndAt missing cut ((a : WithBot Int), (b : WithBot Int)) = some (cut b) :=
  if_neg WithBot.coe_ne_bot

theorem historyAt_min_coe (missing a c : Int) :
    historyAt missing (min (a : WithBot Int) c) = min (min a c) 0 := by
  rw [← WithBot.coe_min, historyAt_coe]

theorem historyAt_max_coe (missing b d : Int) :
    historyAt missing (max (b : WithBot Int) d) = min (max b d) 0 := by
  rw [← WithBot.coe_max, historyAt_coe]

theorem rowsEndAt_hull_coe (missing : Int) (cut : Int → Int) (a b c d : Int) :
    rowsEndAt missing cut (min (a : WithBot Int) c, max (b : WithBot Int) d) =
      some (cut (max b d)) := by
  rw [← WithBot.coe_min, ← WithBot.coe_max, rowsEndAt_coe]

/-- The history bounds of rows in a hull. -/
theorem historyOf_rows_le (r1 r2 : Option (WithBot Int × WithBot Int)) (a b : Int)
    (o : Option (Int × Int)) :
    let m := historyOf (hullOption r1 r2)
      (hullOption (some ((a : WithBot Int), (b : WithBot Int)))
        (o.map fun p => ((p.1 : WithBot Int), (p.2 : WithBot Int))))
    let f := historyOf r1 (some ((a : WithBot Int), (b : WithBot Int)))
    m.1.1 ≤ f.1.1 ∧
      ((∃ stop ∈ f.1.2, ∃ stop' ∈ m.1.2, stop ≤ stop') ↔ (r1 = none → r2 ≠ none → b ≤ 0)) := by
  cases r1 <;> cases r2 <;> cases o <;>
    simp [historyOf, hull, historyAt_coe, historyAt_min_coe, rowsEndAt_coe, rowsEndAt_hull_coe,
      historyOffset_eq_min]

theorem historyAt_min_le {s : WithBot Int} (hlo : ∀ a : Int, s = a → int64Min ≤ a)
    (s' : WithBot Int) : historyAt int64Min (min s s') ≤ historyAt int64Min s := by
  induction s using WithBot.recBotCoe with
  | bot => simp
  | coe a =>
    induction s' using WithBot.recBotCoe with
    | bot =>
      have := hlo a rfl
      simp only [min_bot_right, historyAt_bot, historyAt_coe]
      exact le_min this (by decide)
    | coe c => simp [historyAt_coe, historyAt_min_coe]

/-- With rows a missing start is the current row. -/
theorem historyAt_zero_min_le_iff (missing : Int) (s s' : WithBot Int) :
    historyAt 0 (min s s') ≤ historyAt missing s ↔ (s = ⊥ ∨ s' = ⊥ → 0 ≤ historyAt missing s) := by
  induction s using WithBot.recBotCoe with
  | bot => simp [historyAt_bot]
  | coe a =>
    induction s' using WithBot.recBotCoe <;>
      simp [historyAt_coe, historyAt_min_coe, historyAt_bot]

theorem historyAt_max_iff (t t' : WithBot Int) :
    historyAt 0 t ≤ historyAt 0 (max t t') ↔ (t = ⊥ → ∀ b : Int, t' = b → 0 ≤ b) := by
  induction t using WithBot.recBotCoe with
  | bot =>
    induction t' using WithBot.recBotCoe with
    | bot => simp
    | coe d => simp [historyAt_bot, historyAt_coe]
  | coe b =>
    induction t' using WithBot.recBotCoe with
    | bot => simp
    | coe d => simp [historyAt_coe, historyAt_max_coe]

theorem historyOf_rangeStart_le_iff {range : WithBot Int × WithBot Int}
    (hlo : ∀ a : Int, range.1 = a → int64Min ≤ a) (r o1 o2 : Option (WithBot Int × WithBot Int)) :
    let m := historyOf (hullOption (some range) r) (hullOption o1 o2)
    let f := historyOf (some range) o1
    m.2.1 ≤ f.2.1 ↔ (o1 ≠ none ∨ o2 ≠ none →
      range.1 = ⊥ ∨ (∃ other, r = some other ∧ other.1 = ⊥) → 0 ≤ f.2.1) := by
  cases r with
  | none =>
    have hself : ∀ missing, historyAt 0 range.1 ≤ historyAt missing range.1 ↔
        (range.1 = ⊥ → 0 ≤ historyAt missing range.1) := fun missing => by
      have := historyAt_zero_min_le_iff missing range.1 range.1
      rwa [min_self, or_self] at this
    have hzero := (hself 0).mp le_rfl
    cases o1 <;> cases o2 <;> simp only [historyOf, Option.merge_none_right] <;>
      simp [hself] <;> exact hzero
  | some other =>
    cases o1 <;> cases o2 <;>
      simp [historyOf, hull, historyAt_min_le hlo, historyAt_zero_min_le_iff]

theorem historyOf_rangeEnd_le_iff (range : WithBot Int × WithBot Int)
    (r o1 o2 : Option (WithBot Int × WithBot Int)) :
    let m := historyOf (hullOption (some range) r) (hullOption o1 o2)
    let f := historyOf (some range) o1
    f.2.2 ≤ m.2.2 ↔ (range.2 = ⊥ → ∀ other, r = some other → ∀ b : Int, other.2 = b → 0 ≤ b) := by
  cases r <;> cases o1 <;> cases o2 <;> simp [historyOf, hull, historyAt_max_iff]

/-- The positions of the rows of a planned frame. -/
theorem PlannedFrame.exists_rowOffsets (f : PlannedFrame) :
    ∃ o : Option (Int × Int), f.frameRows.map FrameExtent.offsets =
      o.map fun p => ((p.1 : WithBot Int), (p.2 : WithBot Int)) := by
  cases hrows : f.frameRows with
  | none => exact ⟨none, rfl⟩
  | some rows =>
    obtain ⟨hstart, hstop⟩ := f.rows_bounded rows hrows
    obtain ⟨b1, hb1⟩ := Option.ne_none_iff_exists'.mp hstart
    obtain ⟨b2, hb2⟩ := Option.ne_none_iff_exists'.mp hstop
    exact ⟨some (b1.getSignedOffset, b2.getSignedOffset),
      by simp [FrameExtent.offsets, position, hb1, hb2]⟩

theorem position_eq_bot_iff (b : Option FrameBound) : position b = ⊥ ↔ b = none := by
  cases b <;> simp [position]

theorem position_eq_coe_iff (b : Option FrameBound) (a : Int) :
    position b = a ↔ ∃ bound, b = some bound ∧ bound.getSignedOffset = a := by
  cases b <;> simp [position]

/-- The rows of the first frame are in those of the merged one. -/
theorem rows_contained_iff (f g : PlannedFrame) {rows} (hrows : f.frameRows = some rows) :
    let m := mergeFrameNode f.toFrameNode g.toFrameNode
    (m.getHistoryRowsStart ≤ f.getHistoryRowsStart ∧
      ∃ stop ∈ f.getHistoryRowsEnd, ∃ stop' ∈ m.getHistoryRowsEnd, stop ≤ stop') ↔
      (f.frameRange = none → g.frameRange ≠ none →
        ∀ b, rows.stop = some b → b.getSignedOffset ≤ 0) := by
  intro m
  obtain ⟨hstart, hstop⟩ := f.rows_bounded rows hrows
  obtain ⟨start, hstart⟩ := Option.ne_none_iff_exists'.mp hstart
  obtain ⟨stop, hstop⟩ := Option.ne_none_iff_exists'.mp hstop
  obtain ⟨o, ho⟩ := g.exists_rowOffsets
  have hm := congrArg Attributes.historyRows (attributes_mergeFrameNode f.toFrameNode g.toFrameNode)
  have hf := congrArg Attributes.historyRows (attributes_eq f.toFrameNode)
  have hoffsets : rows.offsets =
      ((start.getSignedOffset : WithBot Int), (stop.getSignedOffset : WithBot Int)) := by
    simp [FrameExtent.offsets, position, hstart, hstop]
  rw [hrows, Option.map_some, hoffsets] at hf hm
  rw [ho] at hm
  obtain ⟨hle, hiff⟩ := historyOf_rows_le (f.frameRange.map FrameExtent.offsets)
    (g.frameRange.map FrameExtent.offsets) start.getSignedOffset stop.getSignedOffset o
  dsimp only at hm hf
  rw [← hm, ← hf] at hle hiff
  refine (and_iff_right hle).trans (hiff.trans ?_)
  simp [hstop]

/-- The range of the first frame is in that of the merged one. -/
theorem range_contained_iff (f g : FrameNode) {range} (hrange : f.frameRange = some range) :
    let m := mergeFrameNode f g
    (m.getHistoryRangeStart ≤ f.getHistoryRangeStart ∧
      f.getHistoryRangeEnd ≤ m.getHistoryRangeEnd) ↔
      (f.frameRows ≠ none ∨ g.frameRows ≠ none →
        range.start = none ∨ (∃ other, g.frameRange = some other ∧ other.start = none) →
        0 ≤ f.getHistoryRangeStart) ∧
      (range.stop = none → ∀ other, g.frameRange = some other →
        ∀ b, other.stop = some b → 0 ≤ b.getSignedOffset) := by
  intro m
  have hm := congrArg Attributes.historyRange (attributes_mergeFrameNode f g)
  have hf := congrArg Attributes.historyRange (attributes_eq f)
  rw [hrange, Option.map_some] at hf hm
  have hlo : ∀ a : Int, range.offsets.1 = a → int64Min ≤ a := fun a ha => by
    obtain ⟨b, -, rfl⟩ := (position_eq_coe_iff range.start a).mp ha
    exact (isInt64_getSignedOffset b).1
  have hstart := historyOf_rangeStart_le_iff hlo (g.frameRange.map FrameExtent.offsets)
    (f.frameRows.map FrameExtent.offsets) (g.frameRows.map FrameExtent.offsets)
  have hstop := historyOf_rangeEnd_le_iff range.offsets (g.frameRange.map FrameExtent.offsets)
    (f.frameRows.map FrameExtent.offsets) (g.frameRows.map FrameExtent.offsets)
  dsimp only at hm hf hstart hstop
  rw [← hm, ← hf] at hstart hstop
  refine and_congr (hstart.trans ?_) (hstop.trans ?_)
  · simp [FrameExtent.offsets, position_eq_bot_iff, attributes]
  · simp [FrameExtent.offsets, position_eq_bot_iff, position_eq_coe_iff]

/-- The bounds of the first frame are in those of the merged one. -/
theorem contains_mergeFrameNode_iff (f g : PlannedFrame) :
    Contains (mergeFrameNode f.toFrameNode g.toFrameNode) f.toFrameNode ↔
      BoundsKept f.toFrameNode g.toFrameNode := by
  constructor
  · intro hcontains
    have hrange : ∀ range, f.frameRange = some range → _ := fun range h =>
      (range_contained_iff f.toFrameNode g.toFrameNode h).mp (hcontains.range (by simp [h]))
    exact
      { rowsEnd := fun rows hnone hrows =>
          (rows_contained_iff f g hrows).mp (hcontains.rows (by simp [hrows])) hnone
        rangeStart := fun range h => (hrange range h).1
        rangeEnd := fun range other h hother hstop => (hrange range h).2 hstop other hother }
  · intro hkept
    constructor
    · intro hsome
      obtain ⟨rows, hrows⟩ := Option.ne_none_iff_exists'.mp hsome
      exact (rows_contained_iff f g hrows).mpr fun hnone => hkept.rowsEnd rows hnone hrows
    · intro hsome
      obtain ⟨range, hrange⟩ := Option.ne_none_iff_exists'.mp hsome
      exact (range_contained_iff _ _ hrange).mpr ⟨hkept.rangeStart range hrange,
        fun hstop other hother => hkept.rangeEnd range other hrange hother hstop⟩

/-- The bounds of the merged frame do not depend on the order. -/
theorem contains_mergeFrameNode_comm (f g e : FrameNode) :
    Contains (mergeFrameNode f g) e ↔ Contains (mergeFrameNode g f) e := by
  have h1 := attributes_mergeFrameNode f g
  have h2 := attributes_mergeFrameNode g f
  rw [hullOption_comm (f.frameRange.map _), hullOption_comm (f.frameRows.map _)] at h1
  simp only [attributes, Attributes.mk.injEq, Prod.ext_iff] at h1 h2
  rw [contains_iff, contains_iff, h1.2.1.1, h1.2.1.2, h1.2.2.1.1, h1.2.2.1.2, h2.2.1.1, h2.2.1.2,
    h2.2.2.1.1, h2.2.2.1.2]

/-- Merging is a join exactly if the frames do not have two different sizes other than zero
and each keeps its bounds. -/
theorem mergeFrameNode_isJoin_iff (f g : PlannedFrame) (h : FrameNode) :
    MergeIsJoin f.toFrameNode g.toFrameNode h ↔
      (f.frameMaxsize = 0 ∨ g.frameMaxsize = 0 ∨ f.frameMaxsize = g.frameMaxsize) ∧
        BoundsKept f.toFrameNode g.toFrameNode ∧ BoundsKept g.toFrameNode f.toFrameNode := by
  rw [← contains_mergeFrameNode_iff f g, ← contains_mergeFrameNode_iff g f,
    ← contains_mergeFrameNode_comm f.toFrameNode g.toFrameNode, ← mergeFrameNode_comm_iff]
  constructor
  · intro hjoin
    exact ⟨hjoin.comm, hjoin.left, hjoin.right⟩
  · rintro ⟨hcomm, hleft, hright⟩
    exact ⟨hcomm, mergeFrameNode_assoc .., mergeFrameNode_idem _, hleft, hright⟩

/-- `n PRECEDING` and `n FOLLOWING`. -/
def preceding (n : Int) (h : IsInt64 n := by decide) : FrameBound :=
  { boundType := .kPreceding, offset := n, offset_int64 := h }
def following (n : Int) (h : IsInt64 n := by decide) : FrameBound :=
  { boundType := .kFollowing, offset := n, offset_int64 := h }

/-- A `ROWS` frame with both bounds, and a `ROWS_RANGE` frame. -/
def rowsFrame (start stop : FrameBound) : PlannedFrame where
  frameType := .kFrameRows
  frameRange := none
  frameRows := some ⟨some start, some stop⟩
  frameMaxsize := 0
  rows_bounded := by simp
def rangeFrame (start stop : Option FrameBound) : PlannedFrame where
  frameType := .kFrameRowsRange
  frameRange := some ⟨start, stop⟩
  frameRows := none
  frameMaxsize := 0
  rows_bounded := by simp

/-- A rows frame loses the rows behind the current one when it is merged with a range. A range
whose end is missing reaches up to the current row, and no longer does so when it is merged
with one that ends earlier. -/
theorem not_mergeFrameNode_isJoin :
    (let f := (rowsFrame (preceding 3) (following 2)).toFrameNode
      let g := (rangeFrame (some (preceding 1000)) (some .current)).toFrameNode
      f.canMergeWith g true = some true ∧ ¬MergeIsJoin f g g) ∧
    (let f := (rangeFrame (some (preceding 1000)) none).toFrameNode
      let g := (rangeFrame (some (preceding 2000)) (some (preceding 1000))).toFrameNode
      f.canMergeWith g true = some true ∧ ¬MergeIsJoin f g g) := by
  refine ⟨⟨by decide, fun hjoin => ?_⟩, by decide, fun hjoin => ?_⟩
  · obtain ⟨stop, hstop, stop', hstop', hle⟩ := (hjoin.left.rows (by decide)).2
    have h2 : some 2 = some stop := hstop
    have h0 : some 0 = some stop' := hstop'
    rw [← Option.some.inj h2, ← Option.some.inj h0] at hle
    exact absurd hle (by decide)
  · exact absurd (hjoin.left.range (by decide)).2 (by decide)

/-! ### Checks -/

/-- The bound is a number of rows only. -/
def FrameBound.rejectsTimeOffset (b : FrameBound) : Bool :=
  (b.boundType = .kPreceding || b.boundType = .kFollowing) && b.isTimeOffset

/-- `Planner::CheckWindowFrame` on a frame that is there. The rows of a rows frame and both
bounds are read without a test; `none` if one of them is missing. -/
def checkWindowFrame (f : FrameNode) : Option (Except String Unit) := do
  if f.frameType = .kFrameRows then
    let extent ← f.frameRows
    if (← extent.start).rejectsTimeOffset then
      return .error "Fail Make Rows Frame Node: time offset un-support"
    if (← extent.stop).rejectsTimeOffset then
      return .error "Fail Make Rows Frame Node: time offset un-support"
    if 0 < f.frameMaxsize then
      return .error "Fail Make Rows Window: MAXSIZE non-support for Rows Window"
  return .ok ()

/-- `BatchModeTransformer::CheckHistoryWindowFrame`. -/
def checkHistoryWindowFrame (f : FrameNode) : Option (Except String Unit) := do
  if f.frameType = .kFrameRange then
    return .error "Invalid Request Window: Non-support FrameType RANGE,use ROWS or ROWS_RANGE"
  if ¬f.getHistoryRangeEnd ≤ 0 then
    if ¬(← f.getHistoryRowsEnd) ≤ 0 then
      return .error "Invalid Request Window: end frame can't exceed CURRENT"
  if ¬(f.getHistoryRangeStart ≤ 0 ∧ f.getHistoryRowsStart ≤ 0) then
    return .error "Invalid Request Window: start frame can't exceed CURRENT"
  return .ok ()

/-- Both checks pass. -/
def Accepted (f : FrameNode) : Prop :=
  checkWindowFrame f = some (.ok ()) ∧ checkHistoryWindowFrame f = some (.ok ())

/-- The rows have both bounds, numbers of rows, and there is no `MAXSIZE`. -/
def RowsInOrder (f : FrameNode) : Prop :=
  ∃ rows start stop, f.frameRows = some rows ∧ rows.start = some start ∧ rows.stop = some stop ∧
    start.rejectsTimeOffset = false ∧ stop.rejectsTimeOffset = false ∧ f.frameMaxsize ≤ 0

theorem checkWindowFrame_eq_ok_iff (f : FrameNode) :
    checkWindowFrame f = some (.ok ()) ↔ f.frameType ≠ .kFrameRows ∨ RowsInOrder f := by
  unfold checkWindowFrame RowsInOrder
  by_cases htype : f.frameType = .kFrameRows
  · cases hrows : f.frameRows with
    | none => simp [htype]
    | some rows =>
      obtain ⟨start, stop⟩ := rows
      cases start with
      | none => simp [htype]
      | some start =>
        cases htime : start.rejectsTimeOffset <;> cases stop <;> simp [htype, htime]
        split_ifs <;> simp_all
  · simp [htype]

/-- The check does not see the bounds at all. -/
theorem checkHistoryWindowFrame_eq_ok_iff (f : FrameNode) :
    checkHistoryWindowFrame f = some (.ok ()) ↔ f.frameType ≠ .kFrameRange := by
  have hmin : int64Min ≤ 0 := by decide
  have hend : f.getHistoryRangeEnd ≤ 0 := by
    unfold getHistoryRangeEnd
    cases f.frameRange <;> simp [historyBound_nonpos]
  have hstart : f.getHistoryRangeStart ≤ 0 ∧ f.getHistoryRowsStart ≤ 0 := by
    unfold getHistoryRangeStart getHistoryRowsStart
    cases f.frameRange <;> cases f.frameRows <;> simp [hmin, historyBound_nonpos]
  unfold checkHistoryWindowFrame
  by_cases htype : f.frameType = .kFrameRange <;> simp [htype, hend, hstart]

/-! ### Declared frames -/

/-- A bound as it is declared. Of an offset that `NodeManager::MakeFrameBound` does not take,
such as `2.5 FOLLOWING` or the operator in `-1 PRECEDING`, only the declaration knows where the
bound lies; the frame has a null pointer. -/
inductive DeclaredBound
  | bound (b : FrameBound)
  | other (position : ℚ)

namespace DeclaredBound

/-- The bound of the frame. -/
def toBound : DeclaredBound → Option FrameBound
  | bound b => some b
  | other _ => none

/-- The distance from the current row, in rows or in time. -/
def distance : DeclaredBound → ℚ
  | bound b => b.getSignedOffset
  | other position => position

end DeclaredBound

/-- An extent as it is declared. -/
structure DeclaredExtent where
  start : DeclaredBound
  stop : DeclaredBound

/-- The distances between the bounds. -/
def DeclaredExtent.Holds (e : DeclaredExtent) (d : Int) : Prop :=
  IsInt64 d ∧ e.start.distance ≤ d ∧ (d : ℚ) ≤ e.stop.distance

/-- A frame as it is declared, or merged from declared ones. -/
structure DeclaredFrame where
  frameType : FrameType
  range : Option DeclaredExtent
  rows : Option DeclaredExtent
  maxsize : Int
  maxsize_int64 : IsInt64 maxsize := by decide

namespace DeclaredFrame

def toExtent (e : DeclaredExtent) : FrameExtent := ⟨e.start.toBound, e.stop.toBound⟩

/-- The frame node. -/
def node (d : DeclaredFrame) : FrameNode where
  frameType := d.frameType
  frameRange := d.range.map toExtent
  frameRows := d.rows.map toExtent
  frameMaxsize := d.maxsize
  frameMaxsize_int64 := d.maxsize_int64

/-- No declared bound lies after the current row. -/
def DeclaresHistory (f : DeclaredFrame) : Prop :=
  ∀ e, f.rows = some e ∨ f.range = some e → e.start.distance ≤ 0 ∧ e.stop.distance ≤ 0

/-- The window that is run, up to the current row and within the history bounds, contains
what the frame declares. -/
structure RunContains (f : DeclaredFrame) : Prop where
  rows : ∀ e, f.rows = some e → ∀ d, e.Holds d → f.node.getHistoryRowsStart ≤ d ∧ d ≤ 0
  range : ∀ e, f.range = some e → ∀ d, e.Holds d →
    f.node.getHistoryRangeStart ≤ d ∧ d ≤ f.node.getHistoryRangeEnd

/-- In a frame with rows and a range, a part whose start `MakeFrameBound` did not take holds
nothing before the current row. -/
def StartsKept (f : DeclaredFrame) : Prop :=
  ∀ e, f.rows = some e ∨ f.range = some e → f.rows ≠ none → f.range ≠ none →
    e.start.toBound = none → ∀ d, e.Holds d → 0 ≤ d

theorem node_rowsStart {f : DeclaredFrame} {e} (he : f.rows = some e) :
    f.node.getHistoryRowsStart =
      historyBound (if f.range = none then int64Min else 0) e.start.toBound := by
  unfold getHistoryRowsStart node
  cases f.range <;> simp [he, toExtent]

theorem node_rangeStart {f : DeclaredFrame} {e} (he : f.range = some e) :
    f.node.getHistoryRangeStart =
      historyBound (if f.rows = none then int64Min else 0) e.start.toBound := by
  unfold getHistoryRangeStart node
  cases f.rows <;> simp [he, toExtent]

theorem node_rangeEnd {f : DeclaredFrame} {e} (he : f.range = some e) :
    f.node.getHistoryRangeEnd = historyBound 0 e.stop.toBound := by
  unfold getHistoryRangeEnd node
  simp [he, toExtent]

theorem historyBound_toBound_le {missing : Int} {b : DeclaredBound} {d : Int}
    (hmissing : b.toBound = none → missing ≤ d) (hle : b.distance ≤ d) :
    historyBound missing b.toBound ≤ d := by
  cases b with
  | bound b =>
    have hle : b.getSignedOffset ≤ d := Rat.intCast_le_intCast.mp hle
    have := historyOffset_eq_min b.getSignedOffset
    simp only [DeclaredBound.toBound, historyBound]
    omega
  | other position => exact hmissing rfl

theorem le_historyBound_toBound {b : DeclaredBound} {d : Int} (hle : (d : ℚ) ≤ b.distance)
    (h0 : d ≤ 0) : d ≤ historyBound 0 b.toBound := by
  cases b with
  | bound b =>
    have hle : d ≤ b.getSignedOffset := Rat.intCast_le_intCast.mp hle
    have := historyOffset_eq_min b.getSignedOffset
    simp only [DeclaredBound.toBound, historyBound]
    omega
  | other position => exact h0

/-- A declared history is run as it is declared, up to the starts that became zero. -/
theorem runContains_iff {f : DeclaredFrame} (h : f.DeclaresHistory) :
    f.RunContains ↔ f.StartsKept := by
  have hstop : ∀ e, f.rows = some e ∨ f.range = some e → ∀ d, e.Holds d → d ≤ 0 := by
    intro e he d hd
    have : (d : ℚ) ≤ 0 := hd.2.2.trans (h e he).2
    exact_mod_cast this
  constructor
  · rintro hrun e (he | he) hrows hrange hnone d hd
    · have := (hrun.rows e he d hd).1
      rwa [node_rowsStart he, if_neg hrange, hnone] at this
    · have := (hrun.range e he d hd).1
      rwa [node_rangeStart he, if_neg hrows, hnone] at this
  · intro hkept
    constructor
    · intro e he d hd
      refine ⟨?_, hstop e (.inl he) d hd⟩
      rw [node_rowsStart he]
      refine historyBound_toBound_le (fun hnone => ?_) hd.2.1
      split
      · exact hd.1.1
      · rename_i hrange
        exact hkept e (.inl he) (by simp [he]) hrange hnone d hd
    · intro e he d hd
      rw [node_rangeStart he, node_rangeEnd he]
      refine ⟨historyBound_toBound_le (fun hnone => ?_) hd.2.1,
        le_historyBound_toBound hd.2.2 (hstop e (.inr he) d hd)⟩
      split
      · exact hd.1.1
      · rename_i hrows
        exact hkept e (.inr he) hrows (by simp [he]) hnone d hd

/-- The checks reject `RANGE` frames, and rows frames with a time or a size, and do not get
past rows without both bounds. Any other frame passes, and is what the checks should let
through only if it does not exceed the current row. -/
theorem accepted_history_iff (f : DeclaredFrame) :
    (Accepted f.node → f.DeclaresHistory ∧ f.RunContains) ↔
      f.frameType = .kFrameRange ∨ (f.frameType = .kFrameRows ∧ ¬RowsInOrder f.node) ∨
        (f.DeclaresHistory ∧ f.StartsKept) := by
  have hhistory : f.DeclaresHistory ∧ f.RunContains ↔ f.DeclaresHistory ∧ f.StartsKept :=
    and_congr_right runContains_iff
  rw [Accepted, checkWindowFrame_eq_ok_iff, checkHistoryWindowFrame_eq_ok_iff, hhistory]
  change ((f.frameType ≠ .kFrameRows ∨ RowsInOrder f.node) ∧ f.frameType ≠ .kFrameRange → _) ↔ _
  constructor
  · intro h
    by_cases htype : f.frameType = .kFrameRange
    · exact .inl htype
    · by_cases hrows : f.frameType = .kFrameRows ∧ ¬RowsInOrder f.node
      · exact .inr (.inl hrows)
      · exact .inr (.inr (h ⟨not_and_or.mp hrows |>.imp_right not_not.mp, htype⟩))
  · rintro (htype | ⟨hrows, horder⟩ | h) ⟨hok, hne⟩
    · exact absurd htype hne
    · exact absurd hrows (hok.resolve_right horder)
    · exact h

/-- `ROWS BETWEEN 3 PRECEDING AND 2 FOLLOWING`. -/
def rowsAround : DeclaredFrame where
  frameType := .kFrameRows
  range := none
  rows := some ⟨.bound (preceding 3), .bound (following 2)⟩
  maxsize := 0

/-- `ROWS_RANGE BETWEEN 1000 PRECEDING AND 2.5 FOLLOWING`. -/
def rangeAround : DeclaredFrame where
  frameType := .kFrameRowsRange
  range := some ⟨.bound (preceding 1000), .other (5 / 2)⟩
  rows := none
  maxsize := 0

/-- Both frames pass, although they end after the current row. -/
theorem accepted_around :
    ¬(Accepted rowsAround.node → rowsAround.DeclaresHistory ∧ rowsAround.RunContains) ∧
      ¬(Accepted rangeAround.node → rangeAround.DeclaresHistory ∧ rangeAround.RunContains) := by
  constructor
  · intro h
    have hhistory := (h ⟨rfl, rfl⟩).1 _ (.inl rfl)
    exact absurd hhistory.2 (by decide)
  · intro h
    have hhistory := (h ⟨rfl, rfl⟩).1 _ (.inr rfl)
    have hpos : (0 : ℚ) < 5 / 2 := by norm_num
    exact absurd hhistory.2 hpos.not_ge

end DeclaredFrame

end HybridSE.Node
