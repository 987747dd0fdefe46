import HybridSE.Codec.RowRoundTrip
import HybridSE.Vm.SimpleCatalog

/-!
# HybridSE.Vm.IndexSeek

From the bytes of a key row to the rows of the catalog: `RowBuilder` writes the key row,
`KeyGenerator` (`src/vm/runner.cc`) reads it and builds the key string, and the index is
asked for the segment of that string (`src/vm/simple_catalog.cc`).
-/

namespace HybridSE.Vm

open HybridSE.Lib HybridSE.Codec List

/-- A value with one text of its own. -/
structure SeekKey (val : Value) : Prop where
  agreeing : AgreeingKey val
  plain : PlainKey val

variable {keys : List Value}

theorem gen_eq_decodeKeys (h : ∀ val ∈ keys, SeekKey val) : gen (some keys) = decodeKeys keys :=
  congrArg (joinFields keySep)
    (map_congr_left fun val hval => genText_eq_storedText (h val hval).agreeing.integerOrString)

theorem genConst_eq_decodeKeys (hne : keys ≠ []) (h : ∀ val ∈ keys, SeekKey val) :
    genConst keys = decodeKeys keys := by
  unfold genConst
  rw [if_neg hne]
  exact congrArg (joinFields keySep)
    (map_congr_left fun val hval => constText_eq_storedText (h val hval).agreeing)

/-- The segment of a key string has the rows of the key, in the order of insertion. -/
theorem segment_eq_filter {schema} {ix : IndexSt} (hix : ix.Valid schema)
    {rows : List (StoredRow schema)} (hrows : ∀ r ∈ rows, ∀ val ∈ ix.keyOf r.vals, SeekKey val)
    (htyped : Typed ix.keyTypes keys) (hkeys : ∀ val ∈ keys, SeekKey val) :
    ((ix.partition rows).segment (decodeKeys keys)).map Prod.snd =
      rows.filter fun r => ix.keyOf r.vals = keys := by
  rw [segment_added]
  refine filter_congr fun r hr => decide_eq_decide.mpr ⟨fun heq => ?_, fun heq => by rw [heq]⟩
  rw [← gen_eq_decodeKeys (hrows r hr), ← gen_eq_decodeKeys hkeys] at heq
  exact gen_inj (typed_keyOf hix r) htyped (fun val hval => (hrows r hr val hval).plain)
    (fun val hval => (hkeys val hval).plain) heq

/-- **Seeking a written key.** After any run of `AddRow`, a key row that `RowBuilder` wrote for
an index gives one key string, by `Gen` and by `GenConst`, and the segment of that string has
exactly the rows with these key values. -/
theorem seek_writtenKey {t : TableDef} (hcols : t.schema.length < 2 ^ 31)
    (hall : ∀ d ∈ t.indexes, t.Known d) {rows : List (StoredRow t.schema)} {ix}
    (hix : ix ∈ t.indexHint) (hrows : ∀ r ∈ rows, ∀ val ∈ ix.keyOf r.vals, SeekKey val) {calls}
    (hcalls : SuitedCalls ix.keyTypes calls) (hne : ix.keyTypes ≠ [])
    (hkeyCols : ix.keyTypes.length < 2 ^ 31) (hkeys : ∀ call ∈ calls, SeekKey call.value)
    (hno : NoOverflow ix.keyTypes (stringBytes calls)) {buf}
    (hbuf : buf.length = (RowBuilder.new ix.keyTypes).calTotalLength (stringBytes calls)) :
    ∃ handler p b b' key, (SimpleCatalogTableHandler.new t).addRows rows = some handler ∧
      (ix, p) ∈ handler.storage ∧
      (RowBuilder.new ix.keyTypes).setBuffer buf buf.length = some (true, b) ∧
      b.appendAll calls = some b' ∧ genRow ix.keyTypes b'.buf = some key ∧
      genConstRow ix.keyTypes b'.buf = some key ∧
      (p.segment key).map Prod.snd =
        rows.filter fun r => ix.keyOf r.vals = calls.map AppendCall.value := by
  obtain ⟨b, b', hset, hrun, -, h32, henc⟩ := hcalls.encodes hkeyCols hne hno hbuf
  have hvals : ∀ val ∈ calls.map AppendCall.value, SeekKey val := forall_mem_map.mpr hkeys
  have hnil : calls.map AppendCall.value ≠ [] := fun h =>
    hne (length_eq_zero_iff.mp (by rw [← hcalls.typed.length_eq, h, length_nil]))
  refine ⟨_, ix.partition rows, b, b', decodeKeys (calls.map AppendCall.value),
    addRows_new hcols hall rows, List.mem_map.mpr ⟨ix, hix, rfl⟩, hset, hrun, ?_, ?_,
    segment_eq_filter (t.indexHint_valid ix hix) hrows hcalls.typed hvals⟩
  · rw [genRow_eq henc hkeyCols h32, gen_eq_decodeKeys hvals]
  · rw [genConstRow_eq henc hkeyCols h32, genConst_eq_decodeKeys hnil hvals]

/-- Two events, and the key of one of them. -/
theorem seek_writtenKey_event :
    ∃ handler p b b' key, (SimpleCatalogTableHandler.new eventTable).addRows
        [eventRow 7 1, eventRow 8 2] = some handler ∧
      (eventIndex, p) ∈ handler.storage ∧
      (RowBuilder.new [.kInt64]).setBuffer (List.replicate 15 0#8) 15 = some (true, b) ∧
      b.appendAll [.int64 8#64] = some b' ∧ genRow [.kInt64] b'.buf = some key ∧
      genConstRow [.kInt64] b'.buf = some key ∧
      (p.segment key).map Prod.snd = [eventRow 7 1, eventRow 8 2].filter fun r =>
        eventIndex.keyOf r.vals = [.int64 8#64] := by
  have hseek : ∀ v : BitVec 64, SeekKey (.int64 v) := fun _ => ⟨trivial, trivial⟩
  refine seek_writtenKey (by decide) eventTable_known (by rw [eventTable_indexHint]; simp) ?_
    ⟨rfl, ?_⟩ (by decide) (by decide) ?_ (by unfold NoOverflow; decide) rfl
  · simp [eventIndex, IndexSt.keyOf, eventRow, hseek]
  · rintro (_ | i) type call htype hcall <;> cases htype
    cases hcall
    rfl
  · exact forall_mem_singleton.mpr (hseek 8)

/-- **The bytes determine the values**: a row cannot be read as two tuples. -/
theorem storedRow_vals_eq {schema : Schema} (hcols : schema.length < 2 ^ 31)
    {r r' : StoredRow schema} (hbytes : r.bytes = r'.bytes) : r.vals = r'.vals := by
  have h' := r'.encoded
  rw [← hbytes] at h'
  have hlen := r.encoded.typed.length_eq
  refine ext_getElem (hlen.trans h'.typed.length_eq.symm) fun i hi hi' => ?_
  have hval := getElem?_eq_getElem hi
  have htype := getElem?_eq_getElem (hlen ▸ hi : i < schema.length)
  have hread := getByRow_new r.encoded hcols r.size_lt htype hval
  rw [getByRow_new h' hcols r.size_lt htype (getElem?_eq_getElem hi')] at hread
  unfold Value.fetch at hread
  split at hread <;> split at hread <;> simp_all

theorem storedRow_vals_eq_event : (eventRow 7 1).vals = [.int64 7, .timestamp 1] :=
  storedRow_vals_eq (by decide) (rfl : (eventRow 7 1).bytes = (eventRow 7 1).bytes)

end HybridSE.Vm
