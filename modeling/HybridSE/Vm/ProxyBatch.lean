import HybridSE.Vm.BatchRequest

/-!
# HybridSE.Vm.ProxyBatch

When a `ProxyRequestRunner` gives for a batch what it gives for the requests one by one.

`v` and `w` are the outputs of the producer and of the index input for a request. The producer has
to give rows for all requests or tables for all of them, since the type of the first output decides
for the whole batch. A runner that is run once for the batch sends the first row without its index
row, and a producer that is run once for the batch makes the proxy use the first index row for all
requests.
-/

namespace HybridSE.Vm

open HybridSE.Lib List Option

variable {R : Type} (remote : R → R → R) (empty : R)

/-- A row. -/
def IsRow (output : Output R) : Prop := ∃ row, output = some (.row row)

/-- A table that can be read. -/
def IsTable (output : Output R) : Prop := ∃ t rows, output = some (.table t) ∧ t.iterator = some rows

/-- `ProxyRequestRunner::Run`. -/
def proxyOutput (input index : Output R) : Option (Output R) :=
  match input with
  | none => some none
  | some handler => proxyRun remote handler index

/-- The index input for a request; a runner without one has none. -/
def indexAt (w : Option (R → Output R)) (q : R) : Output R := w.bind fun f => f q

/-- The index rows of a batch of rows, next to those of the single requests. -/
def RowIndexFits (common : Bool) (requests : List R) (v w : R → Output R) : Prop :=
  if common || decide (requests.length = 1) then
    (∀ q ∈ requests.head?, IsRow (w q)) ∧
      ∀ q ∈ requests, ∀ q' ∈ requests, proxyOutput remote (v q) (w q) = proxyOutput remote (v q') (w q')
  else ∀ q ∈ requests, ∀ row, v q = some (.row row) → w q = none → remote row empty = remote row row

/-- The batch and the single requests agree. A runner that is run once for the batch must not need
its index input; otherwise all inputs are rows or all are tables, with index inputs that fit. -/
def ProxyFits (common needBatchCache : Bool) (requests : List R) (v : R → Output R)
    (w : Option (R → Output R)) : Prop :=
  if needBatchCache then
    ∀ q ∈ requests.head?, (IsRow (v q) ∨ IsTable (v q)) ∧
      proxyOutput remote (v q) none = proxyOutput remote (v q) (indexAt w q)
  else
    (∀ q ∈ requests, IsRow (v q)) ∧ (∀ f, w = some f → RowIndexFits remote empty common requests v f) ∨
      (∀ q ∈ requests, IsTable (v q)) ∧
        ∀ f, w = some f → ∀ q ∈ requests, ∃ rows, (f q).bind extractRows = some rows

/-! ### Single requests -/

variable {remote empty}

variable {index output : Output R}

theorem isRow_of_proxyOutput {input row}
    (h : proxyOutput remote input index = some (some (.row row))) : IsRow input := by
  cases input with
  | none => cases h
  | some handler =>
    cases handler with
    | row r => exact ⟨r, rfl⟩
    | partition p => cases h
    | table t =>
      simp only [proxyOutput, proxyRun] at h
      split at h
      case h_1 => cases h
      case h_2 rows _ =>
        cases index with
        | none => cases h
        | some handler =>
          injection h with h
          obtain ⟨xs, -, hxs⟩ := map_eq_some_iff.mp h
          cases hxs

theorem isTable_of_proxyOutput {input t}
    (h : proxyOutput remote input index = some (some (.table t))) : IsTable input := by
  cases input with
  | none => cases h
  | some handler =>
    cases handler with
    | row r =>
      cases index with
      | none => cases h
      | some handler => cases handler <;> cases h
    | partition p => cases h
    | table t =>
      obtain ⟨iterator, orderType⟩ := t
      cases iterator with
      | none => cases h
      | some rows => exact ⟨_, rows, rfl, rfl⟩

/-- The index input of a row is null or a row, where there is an output at all. -/
theorem index_of_proxyOutput {row} (h : proxyOutput remote (some (.row row)) index = some output) :
    index = none ∧ output = some (.row (remote row row)) ∨
      ∃ x, index = some (.row x) ∧ output = some (.row (remote row x)) := by
  cases index with
  | none =>
    cases h
    exact Or.inl ⟨rfl, rfl⟩
  | some handler =>
    cases handler with
    | row x =>
      cases h
      exact Or.inr ⟨x, rfl, rfl⟩
    | table t => cases h
    | partition p => cases h

theorem proxyOutput_table {t : TableHandler R} {rows : List (Nat × R)} (h : t.iterator = some rows)
    (index : Output R) : proxyOutput remote (some (.table t)) index =
      some (index.elim (some (remoteTable remote (rows.map Prod.snd) (rows.map Prod.snd)))
        fun handler => (extractRows handler).map (remoteTable remote (rows.map Prod.snd))) := by
  have hrows : extractRows (.table t) = some (rows.map Prod.snd) := by
    rw [extractRows, h]
    rfl
  cases index <;> simp [proxyOutput, proxyRun, hrows]

/-! ### Batches of rows -/

theorem extractBatchRows_map {l : List R} {f : R → Output R} {g}
    (h : ∀ q ∈ l, f q = some (.row (g q)) ∨ f q = none ∧ g q = empty) :
    extractBatchRows empty (l.map f) = some (l.map g) := by
  have hmap : (l.map f).mapM (extractListRows empty) = some (l.map fun q => [g q]) := by
    rw [mapM_eq_some_iff, forall₂_map_left_iff, forall₂_map_right_iff, forall₂_same]
    intro q hq
    rcases h q hq with hrow | ⟨hnull, hempty⟩
    · rw [hrow]
      rfl
    · rw [hnull, hempty]
      rfl
  rw [extractBatchRows, hmap, map_some, ← flatMap_def, ← map_eq_flatMap]

theorem remoteRows_map (l : List R) (f g : R → R) :
    remoteRows remote empty (l.map f) (l.map g) =
      l.map fun q => some (.row (remote (f q) (g q))) := by
  refine ext_getElem (by simp [remoteRows]) fun i h₁ h₂ => ?_
  simp only [length_map] at h₂
  simp [remoteRows, h₂]

theorem isRow_of_mem_remoteRows {rows indexRows}
    (h : output ∈ remoteRows remote empty rows indexRows) : IsRow output := by
  obtain ⟨i, -, rfl⟩ := List.mem_map.mp h
  exact ⟨_, rfl⟩

theorem isRow_of_mem_runBatchRows {input index outputs}
    (h : runBatchRows remote empty input index = some outputs) (hmem : output ∈ outputs) :
    IsRow output := by
  obtain ⟨rows, -, h⟩ := bind_eq_some_iff.mp h
  obtain ⟨indexRows, -, h⟩ := bind_eq_some_iff.mp h
  injection h with h
  subst h
  exact isRow_of_mem_remoteRows hmem

/-- The index row that a batch of rows uses, where a request on its own uses its own row. -/
def batchIndexRow (empty : R) : Output R → R
  | some (.row x) => x
  | _ => empty

section Requests

variable {requests : List R} {v o : R → Output R} {w : Option (R → Output R)}

theorem runBatchRows_eq {r : R → R} (hrows : ∀ q ∈ requests, v q = some (.row (r q)))
    (hsingle : ∀ q ∈ requests, proxyOutput remote (v q) (indexAt w q) = some (o q)) :
    runBatchRows remote empty (requests.map v) (w.map fun f => requests.map f) =
      some (requests.map fun q => some (.row (remote (r q) (w.elim (r q) fun f =>
        batchIndexRow empty (f q))))) := by
  have hv : extractBatchRows empty (requests.map v) = some (requests.map r) :=
    extractBatchRows_map fun q hq => Or.inl (hrows q hq)
  cases w with
  | none => simp [runBatchRows, hv, remoteRows_map]
  | some f =>
    have hf : extractBatchRows empty (requests.map f) =
        some (requests.map fun q => batchIndexRow empty (f q)) := by
      refine extractBatchRows_map fun q hq => ?_
      have hq' := hsingle q hq
      rw [hrows q hq] at hq'
      rcases index_of_proxyOutput hq' with ⟨hnull, -⟩ | ⟨x, hx, -⟩
      · have hnull : f q = none := hnull
        exact Or.inr ⟨hnull, by rw [hnull]; rfl⟩
      · have hx : f q = some (.row x) := hx
        exact Or.inl (by rw [hx]; rfl)
    simp [runBatchRows, hv, hf, remoteRows_map]

/-- A batch of rows that differ. -/
theorem runBatchRows_iff
    (hsingle : ∀ q ∈ requests, proxyOutput remote (v q) (indexAt w q) = some (o q)) :
    runBatchRows remote empty (requests.map v) (w.map fun f => requests.map f) =
        some (requests.map o) ↔
      (∀ q ∈ requests, IsRow (v q)) ∧ ∀ f, w = some f → ∀ q ∈ requests, ∀ row,
        v q = some (.row row) → f q = none → remote row empty = remote row row := by
  constructor
  · intro h
    have hrows : ∀ q ∈ requests, IsRow (v q) := by
      intro q hq
      obtain ⟨row, hrow⟩ := isRow_of_mem_runBatchRows h (List.mem_map_of_mem hq)
      have hq' := hsingle q hq
      rw [hrow] at hq'
      exact isRow_of_proxyOutput hq'
    refine ⟨hrows, fun f hf q hq row hrow hnull => ?_⟩
    have hr : ∀ q ∈ requests, v q = some (.row (batchIndexRow row (v q))) := by
      intro q hq
      obtain ⟨row', hrow'⟩ := hrows q hq
      rw [hrow']
      rfl
    rw [runBatchRows_eq hr hsingle, hf] at h
    injection h with h
    have hout := map_inj_left.mp h q hq
    have hq' := hsingle q hq
    rw [hf, hrow] at hq'
    have hq' : proxyOutput remote (some (.row row)) (f q) = some (o q) := hq'
    rw [hnull] at hq'
    injection hq' with hq'
    rw [← hq', hrow, elim_some, hnull] at hout
    injection hout with hout
    injection hout
  · rintro ⟨hrows, hindex⟩
    cases requests with
    | nil =>
      have hr : ∀ q ∈ ([] : List R), v q = some (.row q) := fun q hq => by cases hq
      rw [runBatchRows_eq hr hsingle]
      rfl
    | cons q₁ rest =>
      have hr : ∀ q ∈ q₁ :: rest, v q = some (.row (batchIndexRow q₁ (v q))) := by
        intro q hq
        obtain ⟨row', hrow'⟩ := hrows q hq
        rw [hrow']
        rfl
      rw [runBatchRows_eq hr hsingle]
      refine congrArg some (map_congr_left fun q hq => ?_)
      have hq' := hsingle q hq
      rw [hr q hq] at hq'
      rcases index_of_proxyOutput hq' with ⟨hnull, ho⟩ | ⟨x, hx, ho⟩
      · rw [ho]
        cases w with
        | none => rfl
        | some f =>
          have hnull : f q = none := hnull
          rw [elim_some, hnull, ← hindex f rfl q hq _ (hr q hq) hnull]
          rfl
      · rw [ho]
        cases w with
        | none => cases hx
        | some f =>
          have hx : f q = some (.row x) := hx
          rw [elim_some, hx]
          rfl

/-! ### Batches of tables -/

theorem remoteTableAt_iff {q} (htable : IsTable (v q))
    (hsingle : proxyOutput remote (v q) (indexAt w q) = some (o q)) :
    remoteTableAt remote (v q) (w.map fun f => f q) = some (o q) ↔
      ∀ f, w = some f → ∃ rows, (f q).bind extractRows = some rows := by
  obtain ⟨t, rows, ht, hrows⟩ := htable
  have hextract : (v q).bind extractRows = some (rows.map Prod.snd) := by
    rw [ht, bind_some, extractRows, hrows]
    rfl
  rw [ht, proxyOutput_table hrows] at hsingle
  cases w with
  | none =>
    simp [remoteTableAt, hextract, ← hsingle, indexAt]
  | some f =>
    have hindex : indexAt (some f) q = f q := rfl
    rw [hindex] at hsingle
    cases hq : f q with
    | none => simp [remoteTableAt, hextract, hq]
    | some handler =>
      cases hx : extractRows handler with
      | none => simp [remoteTableAt, hextract, hq, hx]
      | some indexRows =>
        simp [remoteTableAt, hextract, hq, hx, ← hsingle]

theorem isTable_of_remoteTableAt {input index output}
    (h : remoteTableAt remote input index = some output) : ∃ t, output = some (.table t) := by
  obtain ⟨rows, -, h⟩ := bind_eq_some_iff.mp h
  obtain ⟨indexRows, -, h⟩ := bind_eq_some_iff.mp h
  injection h with h
  exact ⟨_, h.symm⟩

/-- A batch of tables. -/
theorem runBatchTables_iff
    (hsingle : ∀ q ∈ requests, proxyOutput remote (v q) (indexAt w q) = some (o q)) :
    (requests.mapM fun q => remoteTableAt remote (v q) (w.map fun f => f q)) =
        some (requests.map o) ↔
      (∀ q ∈ requests, IsTable (v q)) ∧ ∀ f, w = some f → ∀ q ∈ requests,
        ∃ rows, (f q).bind extractRows = some rows := by
  rw [mapM_eq_some_iff, forall₂_map_right_iff, forall₂_same]
  constructor
  · intro h
    have htable : ∀ q ∈ requests, IsTable (v q) := by
      intro q hq
      obtain ⟨t, ht⟩ := isTable_of_remoteTableAt (h q hq)
      have hq' := hsingle q hq
      rw [ht] at hq'
      exact isTable_of_proxyOutput hq'
    exact ⟨htable, fun f hf q hq =>
      (remoteTableAt_iff (htable q hq) (hsingle q hq)).mp (h q hq) f hf⟩
  · rintro ⟨htable, hindex⟩ q hq
    exact (remoteTableAt_iff (htable q hq) (hsingle q hq)).mpr fun f hf => hindex f hf q hq

/-! ### The runner -/

variable {common : Bool} {q₁ : R} {rest : List R}

/-- A row that is sent once for all requests. -/
theorem runBatchOnce_iff {row} (hv : v q₁ = some (.row row))
    (honce : (common || rest.isEmpty) = true)
    (hsingle : ∀ q ∈ q₁ :: rest, proxyOutput remote (v q) (indexAt w q) = some (o q))
    (hcommon : common = true → ∀ q ∈ q₁ :: rest, v q = v q₁) :
    runBatchInput remote empty common ((q₁ :: rest).map v)
        (w.map fun f => (q₁ :: rest).map f) = some (some ((q₁ :: rest).map o)) ↔
      (∀ q ∈ q₁ :: rest, IsRow (v q)) ∧
        ∀ f, w = some f → RowIndexFits remote empty common (q₁ :: rest) v f := by
  have hsame : ∀ q ∈ q₁ :: rest, v q = some (.row row) := by
    intro q hq
    rcases Bool.or_eq_true_iff.mp honce with hc | hempty
    · rw [hcommon hc q hq, hv]
    · rw [List.isEmpty_iff] at hempty
      subst hempty
      rw [mem_singleton.mp hq, hv]
  have hrows : ∀ q ∈ q₁ :: rest, IsRow (v q) := fun q hq => ⟨row, hsame q hq⟩
  -- all outputs are the one of the first request
  have hreplicate : ∀ output : Output R, List.replicate (q₁ :: rest).length output =
      (q₁ :: rest).map o ↔ ∀ q ∈ q₁ :: rest, o q = output := by
    intro output
    rw [eq_comm, eq_replicate_iff]
    simp
  have hmany : (common || decide ((q₁ :: rest).length = 1)) = true := by
    cases rest with
    | nil => simp
    | cons q₂ rest => simpa using honce
  have hfirst := hsingle q₁ mem_cons_self
  rw [hv] at hfirst
  rw [and_iff_right hrows]
  cases w with
  | none =>
    have hinput : runBatchInput remote empty common ((q₁ :: rest).map v)
        (Option.map (fun f : R → Output R => (q₁ :: rest).map f) none) =
          some (some (List.replicate (q₁ :: rest).length (some (.row (remote row row))))) := by
      simp [runBatchInput, hv, honce]
    rw [hinput, some_inj, some_inj, hreplicate]
    refine iff_of_true ?_ fun f hf => by cases hf
    intro q hq
    have hq' := hsingle q hq
    rw [hsame q hq] at hq'
    injection hq' with hq'
    exact hq'.symm
  | some f =>
    have hone : (∀ f', some f = some f' →
        RowIndexFits remote empty common (q₁ :: rest) v f') ↔
          RowIndexFits remote empty common (q₁ :: rest) v f :=
      ⟨fun h => h f rfl, fun h f' hf => by cases hf; exact h⟩
    have hinput : runBatchInput remote empty common ((q₁ :: rest).map v)
        (Option.map (fun f : R → Output R => (q₁ :: rest).map f) (some f)) =
          (extractRow (f q₁)).map fun indexRow => indexRow.map fun x =>
            List.replicate (q₁ :: rest).length (some (.row (remote row x))) := by
      simp [runBatchInput, hv, honce]
    rw [hone, hinput]
    simp only [RowIndexFits, hmany, head?_cons, mem_some_iff, forall_eq']
    rcases index_of_proxyOutput hfirst with ⟨hnull, -⟩ | ⟨x, hx, hout⟩
    · have hnull : f q₁ = none := hnull
      rw [hnull]
      refine iff_of_false (by simp [extractRow]) ?_
      rintro ⟨⟨x, hx⟩, -⟩
      cases hx
    · have hx : f q₁ = some (.row x) := hx
      have hextract : extractRow (f q₁) = some (some x) := by rw [hx]; rfl
      rw [hextract, map_some, map_some, some_inj, some_inj,
        hreplicate, and_iff_right ⟨x, hx⟩, ← hout]
      have hsingle' : ∀ q ∈ q₁ :: rest, proxyOutput remote (v q) (f q) = some (o q) := hsingle
      constructor
      · intro h q hq q' hq'
        rw [hsingle' q hq, hsingle' q' hq', h q hq, h q' hq']
      · intro h q hq
        have := h q hq q₁ mem_cons_self
        rw [hsingle' q hq, hsingle' q₁ mem_cons_self] at this
        injection this

/-- A batch that the proxy sends request by request. -/
theorem runBatchInput_iff
    (hsingle : ∀ q ∈ q₁ :: rest, proxyOutput remote (v q) (indexAt w q) = some (o q))
    (hcommon : common = true → ∀ q ∈ q₁ :: rest, v q = v q₁) :
    runBatchInput remote empty common ((q₁ :: rest).map v)
        (w.map fun f => (q₁ :: rest).map f) = some (some ((q₁ :: rest).map o)) ↔
      ProxyFits remote empty common false (q₁ :: rest) v w := by
  have hmem : q₁ ∈ q₁ :: rest := mem_cons_self
  simp only [ProxyFits]
  cases hv : v q₁ with
  | none =>
    have hinput : runBatchInput remote empty common ((q₁ :: rest).map v)
        (w.map fun f => (q₁ :: rest).map f) = none := by
      simp [runBatchInput, hv]
    rw [hinput]
    refine iff_of_false (by simp) ?_
    rintro (⟨h, -⟩ | ⟨h, -⟩)
    · obtain ⟨row, hrow⟩ := h q₁ hmem
      rw [hv] at hrow
      cases hrow
    · obtain ⟨t, rows, ht, -⟩ := h q₁ hmem
      rw [hv] at ht
      cases ht
  | some handler =>
    cases handler with
    | partition p =>
      have hinput : runBatchInput remote empty common ((q₁ :: rest).map v)
          (w.map fun f => (q₁ :: rest).map f) = some none := by
        simp [runBatchInput, hv]
      rw [hinput]
      refine iff_of_false (by simp) ?_
      rintro (⟨h, -⟩ | ⟨h, -⟩)
      · obtain ⟨row, hrow⟩ := h q₁ hmem
        rw [hv] at hrow
        cases hrow
      · obtain ⟨t, rows, ht, -⟩ := h q₁ hmem
        rw [hv] at ht
        cases ht
    | table t =>
      have hinput : runBatchInput remote empty common ((q₁ :: rest).map v)
          (w.map fun f => (q₁ :: rest).map f) =
            some ((q₁ :: rest).mapM fun q => remoteTableAt remote (v q) (w.map fun f => f q)) := by
        rw [map_cons, hv, runBatchInput, ← hv, ← map_cons, length_map]
        refine congrArg some (mapM_range_eq fun i q hi => ?_)
        have hget : ∀ f : R → Output R, ((q₁ :: rest).map f).getD i none = f q := by
          intro f
          rw [getD_eq_getElem?_getD, getElem?_map, hi]
          rfl
        rw [hget v]
        cases w with
        | none => rfl
        | some f => rw [map_some, map_some, map_some, hget f]
      rw [hinput, some_inj, runBatchTables_iff hsingle]
      refine (or_iff_right ?_).symm
      rintro ⟨h, -⟩
      obtain ⟨row, hrow⟩ := h q₁ hmem
      rw [hv] at hrow
      cases hrow
    | row row =>
      have hnotable : ¬((∀ q ∈ q₁ :: rest, IsTable (v q)) ∧ ∀ f, w = some f →
          ∀ q ∈ q₁ :: rest, ∃ rows, (f q).bind extractRows = some rows) := by
        rintro ⟨h, -⟩
        obtain ⟨t, rows, ht, -⟩ := h q₁ hmem
        rw [hv] at ht
        cases ht
      rw [or_iff_left hnotable]
      by_cases honce : (common || rest.isEmpty) = true
      · exact runBatchOnce_iff hv honce hsingle hcommon
      · have hinput : runBatchInput remote empty common ((q₁ :: rest).map v)
            (w.map fun f => (q₁ :: rest).map f) =
              some (runBatchRows remote empty ((q₁ :: rest).map v)
                (w.map fun f => (q₁ :: rest).map f)) := by
          simp only [map_cons, hv, runBatchInput, isEmpty_map, honce, Bool.false_eq_true,
            if_false]
        have hmany : (common || decide ((q₁ :: rest).length = 1)) = false := by
          cases rest with
          | nil => simp at honce
          | cons q₂ rest => simpa using honce
        rw [hinput, some_inj, runBatchRows_iff hsingle]
        simp only [RowIndexFits, hmany, if_false, Bool.false_eq_true]

/-- One input without an index input. -/
theorem runBatchInput_singleton (remote : R → R → R) (empty : R) (common : Bool)
    (input : Output R) :
    (∃ output, proxyOutput remote input none = some output ∧
        runBatchInput remote empty common [input] none = some (some [output])) ∧
        (IsRow input ∨ IsTable input) ∨
      (∀ outputs, runBatchInput remote empty common [input] none ≠ some (some outputs)) ∧
        ¬(IsRow input ∨ IsTable input) := by
  cases input with
  | none =>
    refine Or.inr ⟨fun outputs h => (by cases h), ?_⟩
    rintro (⟨row, h⟩ | ⟨t, rows, h, -⟩) <;> cases h
  | some handler =>
    cases handler with
    | row row => exact Or.inl ⟨⟨_, rfl, by simp [runBatchInput]⟩, Or.inl ⟨row, rfl⟩⟩
    | partition p =>
      refine Or.inr ⟨fun outputs h => (by cases h), ?_⟩
      rintro (⟨row, h⟩ | ⟨t, rows, h, -⟩) <;> cases h
    | table t =>
      obtain ⟨iterator, orderType⟩ := t
      cases iterator with
      | none =>
        refine Or.inr ⟨fun outputs h => (by cases h), ?_⟩
        rintro (⟨row, h⟩ | ⟨t, rows, h, hrows⟩)
        · cases h
        · cases h
          cases hrows
      | some rows => exact Or.inl ⟨⟨_, rfl, rfl⟩, Or.inr ⟨_, rows, rfl, rfl⟩⟩

/-- A batch of which only the first request is sent. -/
theorem proxyBatchRun_once_iff
    (hsingle : ∀ q ∈ q₁ :: rest, proxyOutput remote (v q) (indexAt w q) = some (o q))
    (honce : ∀ q ∈ q₁ :: rest, o q = o q₁) :
    proxyBatchRun remote empty common true (some ((q₁ :: rest).map v))
        (w.map fun f => (q₁ :: rest).map f) = some (some ((q₁ :: rest).map o)) ↔
      ProxyFits remote empty common true (q₁ :: rest) v w := by
  have hout : (q₁ :: rest).map o = List.replicate (q₁ :: rest).length (o q₁) := by
    rw [eq_replicate_iff]
    simpa using honce
  have hfirst := hsingle q₁ mem_cons_self
  simp only [ProxyFits, head?_cons, mem_some_iff, forall_eq', hfirst]
  rcases runBatchInput_singleton remote empty common (v q₁) with
    ⟨⟨output, houtput, hbatch⟩, husable⟩ | ⟨hbatch, husable⟩
  · have hrun : proxyBatchRun remote empty common true (some ((q₁ :: rest).map v))
        (w.map fun f => (q₁ :: rest).map f) =
          some (some (List.replicate (q₁ :: rest).length output)) := by
      simp [proxyBatchRun, hbatch]
    rw [hrun, hout, and_iff_right husable, houtput, some_inj, some_inj,
      some_inj]
    constructor
    · intro h
      exact replicate_right_injective (by simp) h
    · intro h
      rw [h]
  · refine iff_of_false ?_ fun h => husable h.1
    intro h
    simp only [proxyBatchRun, map_cons] at h
    cases h

/-- **A proxy agrees with itself request by request** exactly if its inputs fit. -/
theorem proxyBatchRun_iff {needBatchCache} (hne : requests ≠ [])
    (hsingle : ∀ q ∈ requests, proxyOutput remote (v q) (indexAt w q) = some (o q))
    (hcommon : common = true → ∀ q ∈ requests, ∀ q' ∈ requests, v q = v q')
    (honce : needBatchCache = true → ∀ q ∈ requests, ∀ q' ∈ requests, o q = o q') :
    proxyBatchRun remote empty common needBatchCache (some (requests.map v))
        (w.map fun f => requests.map f) = some (some (requests.map o)) ↔
      ProxyFits remote empty common needBatchCache requests v w := by
  obtain ⟨q₁, rest, rfl⟩ := exists_cons_of_ne_nil hne
  have hmem : q₁ ∈ q₁ :: rest := mem_cons_self
  cases needBatchCache with
  | false => exact runBatchInput_iff hsingle fun hc q hq => hcommon hc q hq q₁ hmem
  | true => exact proxyBatchRun_once_iff hsingle fun q hq => honce rfl q hq q₁ hmem

end Requests

end HybridSE.Vm
