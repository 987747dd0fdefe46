import HybridSE.Lib.Cursor

/-!
# HybridSE.Codec.RowList

`ListV` of `include/codec/row_list.h`: a list is what its iterators show. The class itself
counts and reads by position with a new iterator, which it never puts to the start.

`represents_ofIterator_iff`: for such a list all of these show the same entries when a new
iterator does, and the start of one is where `SeekToFirst` leads.
-/

namespace HybridSE.Codec

open HybridSE.Lib

variable {σ V : Type*}

/-- What a `ListV` offers; the overriding classes may count and index on their own. -/
structure ListV (σ V : Type*) where
  getIterator : Cursor σ V
  getRawIterator : Cursor σ V
  getCount : Nat
  elemAt : Nat → V

namespace ListV

variable [Inhabited V]

/-- `ListV::GetCount` and `ListV::At` of the base class. The default value stands for
`V()`. -/
def ofIterator (iter raw : Cursor σ V) : ListV σ V where
  getIterator := iter
  getRawIterator := raw
  getCount := iter.countMoves (iter.left iter.fresh) iter.fresh
  elemAt := fun pos => ((iter.current (iter.advance pos iter.fresh)).map Prod.snd).getD default

/-- A list of entries with the iterator that walks it. -/
def ofList (rows : List (Nat × V)) : ListV (List (Nat × V)) V :=
  ofIterator (Cursor.ofList rows) (Cursor.ofList rows)

/-- The list shows the entries `rows` and no others: by a new iterator of either kind, by
one that was put to the start, by its count, and by position. -/
structure Represents (list : ListV σ V) (rows : List (Nat × V)) : Prop where
  fresh : list.getIterator.shown list.getIterator.fresh = rows
  raw : list.getRawIterator.shown list.getRawIterator.fresh = rows
  first : ∀ s, list.getIterator.shown (list.getIterator.seekToFirst s) = rows
  rawFirst : ∀ s, list.getRawIterator.shown (list.getRawIterator.seekToFirst s) = rows
  count : list.getCount = rows.length
  elems : ∀ i, list.elemAt i = ((rows[i]?).map Prod.snd).getD default

theorem getCount_ofIterator (iter raw : Cursor σ V) :
    (ofIterator iter raw).getCount = (iter.shown iter.fresh).length :=
  iter.countMoves_eq _ _

theorem elemAt_ofIterator (iter raw : Cursor σ V) (pos : Nat) :
    (ofIterator iter raw).elemAt pos = (((iter.shown iter.fresh)[pos]?).map Prod.snd).getD default := by
  rw [← Cursor.current_advance]
  rfl

theorem represents_ofIterator_iff (iter : Cursor σ V) (rows : List (Nat × V)) :
    (ofIterator iter iter).Represents rows ↔
      iter.shown iter.fresh = rows ∧ ∀ s, iter.shown (iter.seekToFirst s) = rows := by
  constructor
  · intro h
    exact ⟨h.fresh, h.first⟩
  · intro ⟨hfresh, hfirst⟩
    exact
      { fresh := hfresh
        raw := hfresh
        first := hfirst
        rawFirst := hfirst
        count := by rw [getCount_ofIterator, hfresh]
        elems := fun i => by rw [elemAt_ofIterator, hfresh] }

end ListV

end HybridSE.Codec
