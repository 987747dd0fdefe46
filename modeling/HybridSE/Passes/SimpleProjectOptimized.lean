import HybridSE.Lib.Term
import HybridSE.Vm.PlanSchemas

/-!
# HybridSE.Passes.SimpleProjectOptimized

`SimpleProjectOptimized::Transform` of `src/passes/physical/simple_project_optimized.cc`: two
simple projects in a row become one. `BuildColumnMapping` gives every column reference of the
outer expressions the expression of the inner project that it stands for, and an
`ExprReplacer` puts them in.

The outer expressions are copies, hence trees, so the replacement in place is a substitution;
what is put in is not looked at again. But the replacer knows a reference by the text
`relation.column`, which for names with dots does not determine the two
(`transform_isComposition_iff`).
-/

namespace HybridSE.Passes.SimpleProject

open HybridSE.Lib HybridSE.Vm HybridSE.Codec

/-- A `ColumnRefNode`. -/
structure ColumnName where
  relation : String
  column : String
  deriving DecidableEq

/-- `ColumnProjects`: names and expressions over columns, with constants among the operators. -/
abbrev Projects (Op : Type) := List (String × Term ColumnName Op)

/-- Two simple projects in a row. -/
structure Consecutive (Op : Type) where
  inner : Projects Op
  outer : Projects Op
  /-- `ResolveColumnRefIndex` of the schemas context of the inner project. -/
  resolve : ColumnName → Option ColumnPos
  /-- The outer project reads columns of the inner one. -/
  resolved : ∀ item ∈ outer, ∀ x ∈ item.2.vars, ∃ col < inner.length, resolve x = some (0, col)

/-! ### The replacer -/

/-- `column_name_map_`, the last entry first. -/
abbrev Replacer (Op : Type) := List (String × Term ColumnName Op)

/-- The key of a reference. -/
def ColumnName.key (x : ColumnName) : String := x.relation ++ "." ++ x.column

variable {Op : Type}

/-- `ExprReplacer::Replace` on a tree. -/
def Replacer.replace (replacer : Replacer Op) (expr : Term ColumnName Op) : Term ColumnName Op :=
  expr.subst fun x => (replacer.lookup x.key).getD (.var x)

namespace Consecutive

variable (p : Consecutive Op)

mutual

/-- `BuildColumnMapping`; a reference that does not resolve is not among those of an outer
project. -/
def buildColumnMapping : Term ColumnName Op → Replacer Op → Option (Replacer Op)
  | .var x, replacer => (p.resolve x).bind fun pos =>
    if pos.1 = 0 then (p.inner[pos.2]?).map fun repl => (x.key, repl.2) :: replacer else none
  | .op _ args, replacer => buildColumnMappings args replacer

def buildColumnMappings : List (Term ColumnName Op) → Replacer Op → Option (Replacer Op)
  | [], replacer => some replacer
  | expr :: rest, replacer => (buildColumnMapping expr replacer).bind (buildColumnMappings rest)

end

/-- `SimpleProjectOptimized::Transform`; `none` if it returns false. -/
def transform : Option (Projects Op) :=
  (p.buildColumnMappings (p.outer.map Prod.snd) []).map fun replacer =>
    p.outer.map fun item => (item.1, replacer.replace item.2)

/-! ### Composition -/

/-- The row of a project: `ρ` gives the columns of its input. -/
def run {V : Type} (meaning : Op → List V → V) (projects : Projects Op) (ρ : ColumnName → V) :
    List (String × V) :=
  projects.map fun item => (item.1, item.2.eval ρ meaning)

/-- The inner expression of the column that an outer reference means. -/
def innerExpr (x : ColumnName) : Term ColumnName Op :=
  ((p.resolve x).bind fun pos => p.inner[pos.2]?).elim (.var x) Prod.snd

/-- One project does what the two do, whatever the operators mean, with the outer names. -/
def IsComposition (merged : Projects Op) : Prop :=
  ∀ (V : Type) (meaning : Op → List V → V) (ρ : ColumnName → V),
    run meaning merged ρ = run meaning p.outer fun x => (p.innerExpr x).eval ρ meaning

/-- The references of the outer project. -/
def refs : List ColumnName := p.outer.flatMap fun item => item.2.vars

/-- References with one key stand for one expression. -/
def KeysApart : Prop :=
  ∀ x ∈ p.refs, ∀ y ∈ p.refs, x.key = y.key → p.innerExpr x = p.innerExpr y

variable {p}

/-- The entries that some references make. -/
def entries (p : Consecutive Op) (xs : List ColumnName) : Replacer Op :=
  (xs.map fun x => (x.key, p.innerExpr x)).reverse

theorem buildColumnMapping_var {x col} (hcol : col < p.inner.length)
    (hx : p.resolve x = some (0, col)) (replacer : Replacer Op) :
    p.buildColumnMapping (.var x) replacer = some (p.entries [x] ++ replacer) := by
  simp [buildColumnMapping, entries, innerExpr, hx, hcol]

/-- The mapping of an expression has an entry for each of its references. -/
theorem buildColumnMappings_eq (exprs : List (Term ColumnName Op))
    (h : ∀ expr ∈ exprs, ∀ replacer, p.buildColumnMapping expr replacer =
      some (p.entries expr.vars ++ replacer)) (replacer : Replacer Op) :
    p.buildColumnMappings exprs replacer =
      some (p.entries (exprs.flatMap Term.vars) ++ replacer) := by
  induction exprs generalizing replacer with
  | nil => rfl
  | cons expr rest ih =>
    rw [buildColumnMappings, h expr List.mem_cons_self, Option.bind_some,
      ih fun expr hexpr => h expr (List.mem_cons_of_mem _ hexpr)]
    simp [entries]

theorem buildColumnMapping_eq (expr : Term ColumnName Op)
    (h : ∀ x ∈ expr.vars, ∃ col < p.inner.length, p.resolve x = some (0, col))
    (replacer : Replacer Op) :
    p.buildColumnMapping expr replacer = some (p.entries expr.vars ++ replacer) := by
  induction expr using Term.induct generalizing replacer with
  | var x =>
    obtain ⟨col, hcol, hx⟩ := h x (List.mem_singleton.mpr rfl)
    exact buildColumnMapping_var hcol hx replacer
  | op o args ih =>
    rw [Term.vars, Term.varsArgs_eq] at h ⊢
    exact buildColumnMappings_eq args (fun t ht => ih t ht fun x hx =>
      h x (List.mem_flatMap.mpr ⟨t, ht, hx⟩)) replacer

/-- The entry of a reference was made by one with the same key. -/
theorem lookup_entries {xs x} (hx : x ∈ xs) :
    ∃ y ∈ xs, y.key = x.key ∧ (p.entries xs).lookup x.key = some (p.innerExpr y) := by
  induction xs using List.reverseRecOn with
  | nil => cases hx
  | append_singleton xs z ih =>
    have hentries : p.entries (xs ++ [z]) = (z.key, p.innerExpr z) :: p.entries xs := by
      simp [entries]
    rw [hentries, List.lookup_cons]
    by_cases hkey : x.key = z.key
    · exact ⟨z, by simp, hkey.symm, by simp [hkey]⟩
    · have hxs : x ∈ xs := by
        rcases List.mem_append.mp hx with hx | hx
        · exact hx
        · exact absurd (congrArg ColumnName.key (List.mem_singleton.mp hx)) hkey
      obtain ⟨y, hy, hyx, hlookup⟩ := ih hxs
      refine ⟨y, List.mem_append_left _ hy, hyx, ?_⟩
      rw [beq_false_of_ne hkey]
      exact hlookup

theorem transform_eq (p : Consecutive Op) :
    p.transform = some (p.outer.map fun item => (item.1, (p.entries p.refs).replace item.2)) := by
  have hbuild := buildColumnMappings_eq (p := p) (p.outer.map Prod.snd)
    (fun expr hexpr => by
      obtain ⟨item, hitem, rfl⟩ := List.mem_map.mp hexpr
      exact buildColumnMapping_eq item.2 (p.resolved item hitem)) []
  rw [transform, hbuild, List.append_nil, List.flatMap_map]
  rfl

/-- The merged project is the composition if every reference is replaced by its own
expression, and only then. -/
theorem isComposition_replace_iff (p : Consecutive Op) (replacer : Replacer Op) :
    p.IsComposition (p.outer.map fun item => (item.1, replacer.replace item.2)) ↔
      ∀ x ∈ p.refs, (replacer.lookup x.key).getD (.var x) = p.innerExpr x := by
  constructor
  · intro h x hx
    obtain ⟨item, hitem, hx⟩ := List.mem_flatMap.mp hx
    -- under the free meaning the rows are the expressions themselves
    have hrow := h (Term ColumnName Op) .op .var
    have hself : ∀ t : Term ColumnName Op, t.eval .var .op = t := by
      intro t
      induction t using Term.induct with
      | var x => rfl
      | op o args ih => rw [Term.eval, Term.evalArgs_eq, List.map_congr_left ih, List.map_id']
    simp only [run, List.map_map, List.map_inj_left, hself] at hrow
    exact Term.subst_eq_iff.mp (Prod.mk.inj (hrow item hitem)).2 x hx
  · intro h V meaning ρ
    simp only [run, List.map_map]
    refine List.map_congr_left fun item hitem => ?_
    rw [Function.comp_apply, Replacer.replace, Term.eval_subst]
    exact congrArg (item.1, ·) (Term.eval_congr fun x hx => by
      rw [h x (List.mem_flatMap.mpr ⟨item, hitem, hx⟩)])

end Consecutive

/-- The projects are merged, and into their composition exactly if references with the same
text stand for the same expression. -/
theorem transform_isComposition_iff (p : Consecutive Op) :
    ∃ merged, p.transform = some merged ∧ (p.IsComposition merged ↔ p.KeysApart) := by
  refine ⟨_, p.transform_eq, ?_⟩
  rw [Consecutive.isComposition_replace_iff]
  constructor
  · intro h x hx y hy hkey
    obtain ⟨z, -, -, hlookup⟩ := Consecutive.lookup_entries (p := p) hx
    have hxz := h x hx
    have hyz := h y hy
    rw [hlookup, Option.getD_some] at hxz
    rw [← hkey, hlookup, Option.getD_some] at hyz
    rw [← hxz, hyz]
  · intro h x hx
    obtain ⟨z, hz, hkey, hlookup⟩ := Consecutive.lookup_entries (p := p) hx
    rw [hlookup]
    exact h z hz x hx hkey

/-! ### Names with dots -/

/-- Names without dots are determined by the key. -/
theorem ColumnName.key_inj {x y : ColumnName} (hrelation : '.' ∉ x.relation.toList)
    (hcolumn : '.' ∉ x.column.toList) (h : x.key = y.key) : x = y := by
  have hlist := congrArg String.toList h
  simp only [key, String.toList_append, List.append_assoc] at hlist
  obtain ⟨hrelations, -, hcolumns⟩ :=
    (List.append_cons_inj_of_notMem hrelation hcolumn).mp hlist
  exact congrArg₂ ColumnName.mk (String.toList_inj.mp hrelations)
    (String.toList_inj.mp hcolumns)

theorem Consecutive.keysApart_of_noDots {p : Consecutive Op}
    (h : ∀ x ∈ p.refs, '.' ∉ x.relation.toList ∧ '.' ∉ x.column.toList) : p.KeysApart :=
  fun x hx _ _ hkey => congrArg p.innerExpr (x.key_inj (h x hx).1 (h x hx).2 hkey)

/-- A provider of a table with one column. -/
def provider (node : Nat) (table column : String) (id : Nat) : PhysicalOpNode :=
  .mk node (.tableProvider table)
    ⟨table, [[⟨⟨column, .kInt32, id⟩, none, .table table column⟩]]⟩ [] []

/-- The table `a` with the column `b.c`, last join the table `a.b` with the column `c`. -/
def dottedJoin : PhysicalOpNode :=
  let left := provider 0 "a" "b.c" 1
  let right := provider 1 "a.b" "c" 3
  .mk 2 (.join .last (fun _ _ => []) fun _ _ => [])
    ⟨"", PhysicalOpNode.joinColumns 2 5 left right .last⟩ [left, right] []

/-- The columns of the join, as a select of both gives them. -/
def dottedItems : List ColumnName := [⟨"a", "b.c"⟩, ⟨"a.b", "c"⟩]

/-- The schemas context of a project of both columns. -/
def dottedSchemas : Option (NodeSchemas × PhysicalPlanContext) :=
  projectSchema 3 (dottedItems.map fun x => ⟨x.column, .columnRef x.relation x.column⟩)
    dottedJoin.schemas dottedJoin.producers [] .new

/-- A select of both columns over a select of both columns. -/
def dotted : Consecutive Empty where
  inner := dottedItems.map fun x => (x.column, .var x)
  outer := dottedItems.map fun x => (x.column, .var x)
  resolve x := dottedSchemas.bind fun schemas =>
    schemas.1.resolveColumnIndexByName [dottedJoin] x.relation x.column
  resolved := by
    intro item hitem x hx
    simp only [dottedItems, List.map_cons, List.map_nil, List.mem_cons, List.not_mem_nil,
      or_false] at hitem
    rcases hitem with rfl | rfl
    · obtain rfl := List.mem_singleton.mp hx
      exact ⟨0, by decide, by decide⟩
    · obtain rfl := List.mem_singleton.mp hx
      exact ⟨1, by decide, by decide⟩

/-- Both items of the merged project are the column `c` of `a.b`. -/
theorem not_isComposition_dotted :
    dotted.transform = some [("b.c", .var ⟨"a.b", "c"⟩), ("c", .var ⟨"a.b", "c"⟩)] ∧
      ¬dotted.IsComposition [("b.c", .var ⟨"a.b", "c"⟩), ("c", .var ⟨"a.b", "c"⟩)] := by
  refine ⟨?_, fun h => ?_⟩
  · rfl
  · have hrow := h String (fun o => o.elim) ColumnName.column
    exact absurd hrow (by decide)

end HybridSE.Passes.SimpleProject
