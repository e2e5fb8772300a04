import Mathlib.Data.Prod.Basic
import ServiceMaps.Proofs.Renaming.Parts

/-!
The graph of a renamed blueprint is the renamed graph, and so is all that is read off it. Walks take
the links of a node in the order of the graph, which a renaming keeps, so that their lists are
renamed in place; only neighbours are listed in the order of their identifiers.
-/
namespace ServiceMaps

variable {f : String → String}

namespace Blueprint

theorem taskIds_rename (hf : Function.Injective f) (d : Blueprint) :
    (d.rename f).taskIds = d.taskIds.map f := by
  rw [taskIds, taskIds, ids_tasks_rename, eraseDups_map hf]

theorem actorOf?_rename (hf : Function.Injective f) (d : Blueprint) (lane : String) :
    (d.rename f).actorOf? (f lane) = d.actorOf? lane := by
  have hfind := find?_rename hf (Lane.rename f) (·.id) (fun _ => rfl) lane d.lanes.reverse
  rw [actorOf?, rename, ← List.map_reverse, hfind, Option.map_map]
  rfl

theorem task?_rename (hf : Function.Injective f) (d : Blueprint) (id : String) :
    (d.rename f).task? (f id) = (d.task? id).map (BlueprintTask.rename f) :=
  find?_rename hf (BlueprintTask.rename f) (·.id) (fun _ => rfl) id d.tasks

end Blueprint

namespace TaskFlow

theorem linksOf_rename (hf : Function.Injective f) (ids : List String) (t : BlueprintTask) :
    linksOf (ids.map f) (t.rename f) = (linksOf ids t).map (Prod.map f f) := by
  have hkeep : ((ids.map f).contains ∘ f) = ids.contains := by
    funext id
    exact contains_map hf id ids
  simp [linksOf, BlueprintTask.rename, List.filter_map, hkeep, Function.comp_def]

theorem ofBlueprint_rename (hf : Function.Injective f) (d : Blueprint) :
    ofBlueprint (d.rename f) = (ofBlueprint d).rename f := by
  have hnodes : (ofBlueprint (d.rename f)).nodes = (ofBlueprint d).nodes.map (Node.rename f) := by
    simp only [ofBlueprint]
    rw [d.taskIds_rename hf, List.filterMap_map, List.map_filterMap]
    refine List.filterMap_congr fun id _ => ?_
    have hfind : (d.rename f).tasks.find? (·.id = f id) =
        (d.tasks.find? (·.id = id)).map (BlueprintTask.rename f) := d.task?_rename hf id
    simp only [Function.comp_apply]
    rw [hfind]
    cases d.tasks.find? (·.id = id) with
    | none => rfl
    | some t => simp [Node.rename, BlueprintTask.rename, d.actorOf?_rename hf]
  have hlinks : (ofBlueprint (d.rename f)).links =
      (ofBlueprint d).links.map (Prod.map f f) := by
    simp only [ofBlueprint]
    rw [d.taskIds_rename hf, ← eraseDups_map (hf.prodMap hf)]
    congr 1
    exact flatMap_rename (linksOf_rename hf d.taskIds) d.tasks
  exact congrArg₂ TaskFlow.mk hnodes hlinks

@[simp] theorem ids_rename (g : TaskFlow) : (g.rename f).ids = g.ids.map f := by
  simp [ids, rename, Node.rename, Function.comp_def]

@[simp] theorem size_rename (g : TaskFlow) : (g.rename f).size = g.size := by
  simp [size, rename]

theorem start_rename (f : String → String) : Walk.start.rename f = .start := rfl

theorem enter_rename (w : Walk) (id : String) : (w.rename f).enter (f id) = (w.enter id).rename f :=
  rfl

theorem leave_rename (w : Walk) (id : String) : (w.rename f).leave (f id) = (w.leave id).rename f :=
  rfl

/-- Searches from renamed nodes, one after another, if one search does what its step says. -/
theorem foldlM_rename (search search' : String → Walk → Option Walk)
    (h : ∀ id w, search' (f id) (w.rename f) = (search id w).map (Walk.rename f))
    (ids : List String) (w : Walk) :
    (ids.map f).foldlM (fun w id => search' id w) (w.rename f) =
      (ids.foldlM (fun w id => search id w) w).map (Walk.rename f) := by
  induction ids generalizing w with
  | nil => rfl
  | cons id rest ih =>
    rw [List.map_cons, List.foldlM_cons, List.foldlM_cons, h]
    cases search id w with
    | none => rfl
    | some v => exact ih v

/-- Visits of renamed nodes, one after another, if one visit does what its step says. -/
theorem foldl_rename {visit visit' : String → Walk → Walk}
    (h : ∀ id w, visit' (f id) (w.rename f) = (visit id w).rename f) (ids : List String)
    (w : Walk) :
    (ids.map f).foldl (fun w id => visit' id w) (w.rename f) =
      (ids.foldl (fun w id => visit id w) w).rename f := by
  induction ids generalizing w with
  | nil => rfl
  | cons id rest ih => rw [List.map_cons, List.foldl_cons, List.foldl_cons, h, ih]

section Graph

variable (hf : Function.Injective f) (g : TaskFlow)
include hf

theorem targets_rename (id : String) : (g.rename f).targets (f id) = (g.targets id).map f := by
  simp [targets, rename, List.filter_map, Function.comp_def, hf.eq_iff]

theorem sources_rename (id : String) : (g.rename f).sources (f id) = (g.sources id).map f := by
  simp [sources, rename, List.filter_map, Function.comp_def, hf.eq_iff]

/-- The neighbours of a renamed node are the renamed neighbours, in an order of their own. -/
theorem successors_rename (id : String) :
    ((g.rename f).successors (f id)).Perm ((g.successors id).map f) := by
  rw [successors, sorted, targets_rename hf]
  exact (List.mergeSort_perm _ _).trans ((List.mergeSort_perm _ _).symm.map f)

theorem predecessors_rename (id : String) :
    ((g.rename f).predecessors (f id)).Perm ((g.predecessors id).map f) := by
  rw [predecessors, sorted, sources_rename hf]
  exact (List.mergeSort_perm _ _).trans ((List.mergeSort_perm _ _).symm.map f)

/-! ### Walks level by level -/

theorem nextLevel_rename (seen level : List String) :
    (g.rename f).nextLevel (seen.map f) (level.map f) = (g.nextLevel seen level).map f := by
  have hkeep : ((fun id => !(seen.map f).contains id) ∘ f) = fun id => !seen.contains id := by
    funext id
    exact congrArg (! ·) (contains_map hf id seen)
  have hlevel : (level.map f).flatMap (fun id => ((g.rename f).targets id).reverse) =
      (level.flatMap fun id => (g.targets id).reverse).map f := by
    refine flatMap_rename (fun id => ?_) level
    rw [targets_rename hf, List.map_reverse]
  rw [nextLevel, nextLevel, hlevel, eraseDups_map hf, List.filter_map, hkeep]

theorem beyond_rename (fuel : Nat) (seen level : List String) :
    (g.rename f).beyond fuel (seen.map f) (level.map f) = (g.beyond fuel seen level).map f := by
  induction fuel generalizing seen level with
  | zero => rfl
  | succ fuel ih =>
    simp only [beyond]
    rw [nextLevel_rename hf, List.isEmpty_map, ← List.map_append, ih]
    split
    · rfl
    · rw [List.map_append]

theorem reach_rename (id : String) : (g.rename f).reach (f id) = (g.reach id).map f := by
  rw [reach, reach, size_rename]
  exact beyond_rename hf g g.size [id] [id]

/-! ### Depth-first walks -/

omit g in
theorem follow_rename {w : Walk} {next : String} {search search' : Walk → Option Walk}
    (h : search' (w.rename f) = (search w).map (Walk.rename f)) :
    (w.rename f).follow (f next) search' = (w.follow next search).map (Walk.rename f) := by
  have hmet : (w.rename f).entered.contains (f next) = w.entered.contains next :=
    contains_map hf next w.entered
  have hleft : (w.rename f).left.contains (f next) = w.left.contains next :=
    contains_map hf next w.left
  rw [Walk.follow, Walk.follow, hmet, hleft, h]
  split
  · rfl
  · split <;> rfl

theorem search_rename (fuel : Nat) (id : String) (w : Walk) :
    (g.rename f).search fuel (f id) (w.rename f) = (g.search fuel id w).map (Walk.rename f) := by
  induction fuel generalizing id w with
  | zero => rfl
  | succ fuel ih =>
    have hmet : (w.rename f).entered.contains (f id) = w.entered.contains id :=
      contains_map hf id w.entered
    have hlinks := foldlM_rename (fun next v => v.follow next (g.search fuel next))
      (fun next v => v.follow next ((g.rename f).search fuel next))
      (fun next v => follow_rename hf (ih next v)) (g.targets id).reverse (w.enter id)
    rw [search, search, hmet, targets_rename hf, ← List.map_reverse, enter_rename, hlinks]
    split
    · rfl
    · rw [Option.map_map, Option.map_map]
      rfl

theorem isCyclic_rename : (g.rename f).isCyclic = g.isCyclic := by
  have h := foldlM_rename (g.search g.size) ((g.rename f).search g.size)
    (search_rename hf g g.size) g.ids .start
  rw [start_rename] at h
  rw [isCyclic, isCyclic, ids_rename, size_rename, h, Option.isNone_map]

theorem visit_rename (fuel : Nat) (id : String) (w : Walk) :
    (g.rename f).visit fuel (f id) (w.rename f) = (g.visit fuel id w).rename f := by
  induction fuel generalizing id w with
  | zero => rfl
  | succ fuel ih =>
    have hmet : (w.rename f).entered.contains (f id) = w.entered.contains id :=
      contains_map hf id w.entered
    rw [visit, visit, hmet, targets_rename hf, enter_rename, foldl_rename ih]
    split
    · rfl
    · rw [leave_rename]

theorem walk_rename : (g.rename f).walk = g.walk.rename f := by
  rw [walk, walk, ids_rename, size_rename, ← start_rename f]
  exact foldl_rename (visit_rename hf g g.size) g.ids .start

theorem isOrdered_rename (order : List String) :
    (g.rename f).isOrdered (order.map f) = g.isOrdered order := by
  simp [isOrdered, rename, Function.comp_def, idxOf_map hf]

theorem topologicalOrder?_rename :
    (g.rename f).topologicalOrder? = g.topologicalOrder?.map (List.map f) := by
  have hleft : (g.walk.rename f).left = g.walk.left.map f := rfl
  rw [topologicalOrder?, topologicalOrder?, walk_rename hf, hleft, isOrdered_rename hf]
  split <;> rfl

end Graph

end TaskFlow

end ServiceMaps
