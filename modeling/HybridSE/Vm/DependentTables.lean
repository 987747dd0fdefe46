import Mathlib.Data.List.Basic

/-!
# HybridSE.Vm.DependentTables

`Engine::GetDependentTables` of `src/vm/engine.cc`: the names of the tables of a logical plan.

The function follows the children of a plan node. The tables of a `WINDOW ... UNION` clause
are no children: `Planner::CreateWindowPlanNode` puts their plans into the window of a
project list, which hangs on the project node. So they are found only if the query reads
them elsewhere as well (`getDependentTables_exact_iff`).
-/

namespace HybridSE.Vm

/-- `PlanType` of the plan nodes that are not tables. -/
inductive PlanType
  | rename | distinct | join | union | crossProduct | sort | group | query | filter | limit
  | project | create | cmd | insert | explain | funcDef | createIndex | createSp
  deriving DecidableEq

/-- A logical plan. `null` is the missing input of a select without `FROM`. A project node
has, besides its children, the union tables of the windows of its project lists. -/
inductive LogicalPlan
  | null
  | table (name : String)
  | node (type : PlanType) (children unionTables : List LogicalPlan)

namespace LogicalPlan

/-- `GetChildren`. -/
def children : LogicalPlan → List LogicalPlan
  | .node _ children _ => children
  | _ => []

/-- All plans whose rows a node reads. -/
def inputs : LogicalPlan → List LogicalPlan
  | .node _ children unionTables => children ++ unionTables
  | _ => []

/-- A table at the end of a chain of links. -/
inductive Reaches (links : LogicalPlan → List LogicalPlan) : LogicalPlan → String → Prop
  | table (name : String) : Reaches links (.table name) name
  | link {plan next : LogicalPlan} {name : String} :
      next ∈ links plan → Reaches links next name → Reaches links plan name

mutual

/-- `Engine::GetDependentTables`, with the set of tables that it adds to. -/
def getDependentTables : LogicalPlan → List String → List String
  | .null, tables => tables
  | .table name, tables => tables.insert name
  | .node _ children _, tables => getDependentTablesOf children tables

/-- The loop over the children, and over the plans of a script. -/
def getDependentTablesOf : List LogicalPlan → List String → List String
  | [], tables => tables
  | child :: rest, tables => getDependentTablesOf rest (getDependentTables child tables)

end

/-- Exactly the tables that the plan can read are added. -/
def DependentTablesExact (plan : LogicalPlan) : Prop :=
  ∀ tables name, name ∈ plan.getDependentTables tables ↔ name ∈ tables ∨ plan.Reaches inputs name

theorem reaches_node_iff {links type children unionTables name} :
    (node type children unionTables).Reaches links name ↔
      ∃ next ∈ links (node type children unionTables), next.Reaches links name := by
  constructor
  · intro h
    cases h with
    | link hnext h => exact ⟨_, hnext, h⟩
  · rintro ⟨next, hnext, h⟩
    exact .link hnext h

mutual

theorem mem_getDependentTables (plan : LogicalPlan) (tables : List String) (name : String) :
    name ∈ plan.getDependentTables tables ↔ name ∈ tables ∨ plan.Reaches children name := by
  cases plan with
  | null =>
    rw [getDependentTables, or_iff_left]
    intro h
    cases h with
    | link hnext _ => cases hnext
  | table table =>
    rw [getDependentTables, List.mem_insert_iff, or_comm]
    refine or_congr_right ⟨?_, fun h => ?_⟩
    · rintro rfl
      exact .table name
    · cases h with
      | table => rfl
      | link hnext _ => cases hnext
  | node type children unionTables =>
    rw [getDependentTables, mem_getDependentTablesOf, reaches_node_iff]
    rfl

theorem mem_getDependentTablesOf (plans : List LogicalPlan) (tables : List String) (name : String) :
    name ∈ getDependentTablesOf plans tables ↔
      name ∈ tables ∨ ∃ plan ∈ plans, plan.Reaches children name := by
  cases plans with
  | nil => simp [getDependentTablesOf]
  | cons plan rest =>
    rw [getDependentTablesOf, mem_getDependentTablesOf, mem_getDependentTables,
      List.exists_mem_cons_iff, or_assoc]

end

theorem Reaches.inputs {plan : LogicalPlan} {name} (h : plan.Reaches children name) :
    plan.Reaches inputs name := by
  induction h with
  | table name => exact .table name
  | link hnext _ ih =>
    rename_i plan _ _ _
    cases plan with
    | null | table => cases hnext
    | node => exact .link (List.mem_append_left _ hnext) ih

/-- The tables are complete exactly if those of the `WINDOW ... UNION` clauses are read
through children somewhere as well. -/
theorem getDependentTables_exact_iff (plan : LogicalPlan) :
    plan.DependentTablesExact ↔ ∀ name, plan.Reaches inputs name → plan.Reaches children name := by
  constructor
  · intro h name hread
    simpa [mem_getDependentTables] using (h [] name).mpr (.inr hread)
  · intro h tables name
    rw [mem_getDependentTables]
    exact or_congr_right ⟨Reaches.inputs, h name⟩

/-- `SELECT sum(c) OVER w FROM t1 WINDOW w AS (UNION t2 PARTITION BY k ORDER BY ts ...)`. -/
def windowUnion : LogicalPlan :=
  .node .query [.node .project [.table "t1"] [.table "t2"]] []

/-- `t2` is missing. -/
theorem not_getDependentTables_exact :
    windowUnion.getDependentTables [] = ["t1"] ∧ ¬windowUnion.DependentTablesExact := by
  refine ⟨by decide, fun h => ?_⟩
  have hread : windowUnion.Reaches inputs "t2" :=
    .link (List.mem_singleton.mpr rfl) (.link (by simp [inputs]) (.table "t2"))
  exact absurd ((h [] "t2").mpr (.inr hread)) (by decide)

end LogicalPlan

end HybridSE.Vm
