import Mathlib.Data.List.Sort
import Mathlib.Data.String.Basic
import ServiceMaps.Proofs.Lineage
import ServiceMaps.Proofs.TaskFlow.Reach

/-!
Every link of a blueprint is accounted for. A link that names a task is in the graph and is found
from both of its ends; a link that names none is reported by the check inside documents, as often as
it is given. The same holds of the lanes that tasks name. So nothing that a blueprint says of its
tasks is lost between the graph and the check, and nothing is counted twice.
-/
namespace ServiceMaps

open References

/-- Whether a reference leads from a task to a task. -/
def Pointer.isLink (p : Pointer) : Bool := p.source = .task && p.target = .task

/-- The check inside documents reports a reference as missing. -/
def ServiceMap.Reports (s : ServiceMap) (p : Pointer) : Prop :=
  ∃ f ∈ s.checkWithin.faults, f.kindText = "missing_reference" ∧ f.pointer = p

namespace ServiceMap

variable {s : ServiceMap} {d : Blueprint}

theorem reports_iff {p : Pointer} : s.Reports p ↔ p ∈ s.pointersWithin ∧ p.misses s = true := by
  rw [← List.mem_filter, ← map_missingWithin, ← filter_missing_faultsWithin]
  simp [Reports, checkWithin, Verdict.ofFaults, and_assoc]

/-- A link misses exactly if it names no task. -/
theorem misses_link (hd : s.blueprint = some d) (id x : String) :
    Pointer.misses s ⟨.task, id, .task, some x⟩ = decide (x ∉ d.tasks.map (·.id)) := by
  have hget : s.get? Collection.task.kind = some (.blueprint d) := by
    simp [Collection.kind, get?, hd]
  rw [Pointer.misses_of_get? hget, Bool.eq_iff_iff]
  simp [Document.entries]

/-- A link is reported exactly if it names no task. -/
theorem reports_link_iff (hd : s.blueprint = some d) {t : BlueprintTask} (ht : t ∈ d.tasks)
    {x : String} (hx : x ∈ t.links) :
    s.Reports ⟨.task, t.id, .task, some x⟩ ↔ ¬ ∃ u ∈ d.tasks, u.id = x := by
  have hmem : (⟨.task, t.id, .task, some x⟩ : Pointer) ∈ s.pointersWithin :=
    mem_pointersWithin.mpr (.inr (.inl ⟨d, hd, t, ht, .inr ⟨x, hx, rfl⟩⟩))
  rw [reports_iff, misses_link hd]
  simp [hmem]

/-- The lane of a task is reported exactly if it does not exist. -/
theorem reports_lane_iff (hd : s.blueprint = some d) {t : BlueprintTask} (ht : t ∈ d.tasks) :
    s.Reports ⟨.task, t.id, .lane, some t.lane⟩ ↔ ¬ ∃ l ∈ d.lanes, l.id = t.lane := by
  have hget : s.get? Collection.lane.kind = some (.blueprint d) := by
    simp [Collection.kind, get?, hd]
  have hmem : (⟨.task, t.id, .lane, some t.lane⟩ : Pointer) ∈ s.pointersWithin :=
    mem_pointersWithin.mpr (.inr (.inl ⟨d, hd, t, ht, .inl rfl⟩))
  rw [reports_iff, Pointer.misses_of_get? hget]
  simp [hmem, Document.entries]

theorem countP_isLink_eq_zero {pointers : List Pointer} (h : ∀ p ∈ pointers, p.source ≠ .task)
    (q : Pointer → Bool) : pointers.countP (fun p => p.isLink && q p) = 0 := by
  refine List.countP_eq_zero.mpr fun p hp => ?_
  simp [Pointer.isLink, h p hp]

/-- Only blueprints have references from task to task, one for each link that is given. -/
theorem countP_isLink (hd : s.blueprint = some d) (q : Pointer → Bool) :
    s.pointersWithin.countP (fun p => p.isLink && q p) =
      (d.tasks.flatMap fun t => t.links.map fun x => ⟨.task, t.id, .task, some x⟩).countP q := by
  have htask : ∀ t : BlueprintTask, (taskPointersWithin t).countP (fun p => p.isLink && q p) =
      (t.links.map fun x => ⟨.task, t.id, .task, some x⟩).countP q := by
    intro t
    simp [taskPointersWithin, Pointer.isLink, List.countP_map, Function.comp_def]
  have hjourney : ∀ p ∈ s.journey.toList.flatMap journeyPointers, p.source ≠ .task := by
    simp only [List.mem_flatMap, journeyPointers, List.mem_map]
    rintro _ ⟨j, -, a, -, rfl⟩ ⟨⟩
  have houtcome : ∀ p ∈ s.outcome.toList.flatMap outcomePointersWithin, p.source ≠ .task := by
    simp only [List.mem_flatMap, outcomePointersWithin, List.mem_cons, List.not_mem_nil, or_false]
    rintro _ ⟨o, -, rfl | rfl⟩ ⟨⟩
  have henablement : ∀ p ∈ s.enablement.toList.flatMap enablementPointers, p.source ≠ .task := by
    simp only [List.mem_flatMap, enablementPointers, List.mem_append, List.mem_map]
    rintro _ ⟨e, -, (⟨k, -, rfl⟩ | ⟨k, -, rfl⟩) | ⟨k, -, rfl⟩⟩ ⟨⟩
  rw [pointersWithin, List.countP_append, List.countP_append, List.countP_append,
    countP_isLink_eq_zero hjourney, countP_isLink_eq_zero houtcome,
    countP_isLink_eq_zero henablement, hd]
  simp [blueprintPointers, List.countP_flatMap, htask, Function.comp_def]

/-- Every link that names no task is reported once for each time it is given. -/
theorem countP_reported_links (hd : s.blueprint = some d) :
    s.checkWithin.faults.countP
        (fun f => f.pointer.isLink && decide (f.kindText = "missing_reference")) =
      (d.tasks.flatMap (·.links)).countP fun x => decide (x ∉ d.tasks.map (·.id)) := by
  have hfaults : s.checkWithin.faults.countP
      (fun f => f.pointer.isLink && decide (f.kindText = "missing_reference")) =
        (s.missingWithin.map Fault.pointer).countP Pointer.isLink := by
    rw [← filter_missing_faultsWithin, List.countP_map, List.countP_filter]
    rfl
  rw [hfaults, map_missingWithin, List.countP_filter, countP_isLink hd]
  simp [List.countP_flatMap, List.countP_map, Function.comp_def, misses_link hd]

end ServiceMap

namespace TaskFlow

variable {g : TaskFlow}

@[simp] theorem mem_sources {a b : String} : a ∈ g.sources b ↔ g.Link a b := by
  simp [sources, Link]

theorem mem_successors {a b : String} : b ∈ g.successors a ↔ g.Link a b := by
  simp [successors, sorted]

theorem mem_predecessors {a b : String} : a ∈ g.predecessors b ↔ g.Link a b := by
  simp [predecessors, sorted]

/-- Identifiers that are all different stand in strictly ascending order once they are sorted. -/
theorem pairwise_sorted {ids : List String} (h : ids.Nodup) : (sorted ids).Pairwise (· < ·) := by
  have hle : (sorted ids).Pairwise (· ≤ ·) := List.pairwise_mergeSort' (· ≤ ·) ids
  have hne : (sorted ids).Pairwise (· ≠ ·) := (List.mergeSort_perm ids _).nodup_iff.mpr h
  exact hle.imp₂ (fun _ _ h h' => lt_of_le_of_ne h h') hne

theorem nodup_links (d : Blueprint) : (ofBlueprint d).links.Nodup := nodup_eraseDups _

/-- Different links that share one end have different other ends. -/
theorem nodup_ends {links : List (String × String)} (h : links.Nodup)
    (one other : String × String → String)
    (hends : ∀ x y, one x = one y → other x = other y → x = y) (id : String) :
    ((links.filter (one · = id)).map other).Nodup := by
  apply (h.filter _).map_on
  intro x hx y hy hxy
  have hone : one x = one y := by
    simp only [List.mem_filter, decide_eq_true_eq] at hx hy
    exact hx.2.trans hy.2.symm
  exact hends x y hone hxy

theorem nodup_targets (h : g.links.Nodup) (a : String) : (g.targets a).Nodup :=
  nodup_ends h (·.1) (·.2) (fun _ _ => Prod.ext) a

theorem nodup_sources (h : g.links.Nodup) (b : String) : (g.sources b).Nodup :=
  nodup_ends h (·.2) (·.1) (fun _ _ hsource htarget => Prod.ext htarget hsource) b

/-- The node of an identifier is that of the first task with it. -/
theorem node?_ofBlueprint {d : Blueprint} {t : BlueprintTask} {id : String}
    (h : d.task? id = some t) :
    (ofBlueprint d).node? id = some ⟨id, t.name, t.lane, d.actorOf? t.lane⟩ := by
  have hid : t.id = id := by simpa using List.find?_some h
  refine (find?_eq_some_iff_of_nodup (wellFormed_ofBlueprint d).nodup).mpr ⟨?_, rfl⟩
  refine List.mem_filterMap.mpr ⟨id, ?_, ?_⟩
  · exact Blueprint.mem_taskIds.mpr ⟨t, List.mem_of_find?_eq_some h, hid⟩
  · have hfind : d.tasks.find? (fun t => t.id = id) = some t := h
    rw [hfind, Option.map_some, hid]

theorem actorOf?_eq_none_iff {d : Blueprint} {lane : String} :
    d.actorOf? lane = none ↔ ¬ ∃ l ∈ d.lanes, l.id = lane := by
  simp [Blueprint.actorOf?]

/-- A task's link is either in the graph or reported by the check, and never both. -/
theorem link_or_reported {s : ServiceMap} {d : Blueprint} (hd : s.blueprint = some d)
    {t : BlueprintTask} (ht : t ∈ d.tasks) {x : String} (hx : x ∈ t.links) :
    (ofBlueprint d).Link t.id x ↔ ¬ s.Reports ⟨.task, t.id, .task, some x⟩ := by
  rw [ServiceMap.reports_link_iff hd ht hx, not_not, link_ofBlueprint]
  constructor
  · intro h
    exact h.2
  · intro h
    exact ⟨⟨t, ht, rfl, hx⟩, h⟩

/-- A node is not joined to anything that the graph does not know. -/
theorem neighbours_of_unknown (hg : g.WellFormed) {id : String} (h : id ∉ g.ids) :
    g.successors id = [] ∧ g.predecessors id = [] := by
  constructor
  · refine List.eq_nil_iff_forall_not_mem.mpr fun b hb => h ?_
    exact hg.source id b (mem_successors.mp hb)
  · refine List.eq_nil_iff_forall_not_mem.mpr fun a ha => h ?_
    exact hg.target a id (mem_predecessors.mp ha)

/-- The graph of a blueprint and the check inside documents account for all that the blueprint says.
The graph has one node for every identifier of a task, with the name and the lane of the first task
that has it; who acts there is unknown exactly if the check reports that lane. A link that a task
gives is either found from both of its ends or reported as missing, and never both; the reports are
as many as the links that name no task. The graph has no other links and none twice, neighbours are
listed in strictly ascending order, and an unknown identifier has none. -/
theorem links_accounted (s : ServiceMap) (d : Blueprint) (hd : s.blueprint = some d) :
    (ofBlueprint d).ids.Nodup ∧
    (∀ id, id ∈ (ofBlueprint d).ids ↔ ∃ t ∈ d.tasks, t.id = id) ∧
    (∀ id t, d.task? id = some t → ∃ n, (ofBlueprint d).node? id = some n ∧
      n.id = id ∧ n.name = t.name ∧ n.lane = t.lane ∧
      (n.actor = none ↔ s.Reports ⟨.task, id, .lane, some t.lane⟩)) ∧
    (∀ t ∈ d.tasks, ∀ x ∈ t.links,
      (x ∈ (ofBlueprint d).successors t.id ∧ t.id ∈ (ofBlueprint d).predecessors x ∧
        ¬ s.Reports ⟨.task, t.id, .task, some x⟩) ∨
      (x ∉ (ofBlueprint d).successors t.id ∧ t.id ∉ (ofBlueprint d).predecessors x ∧
        s.Reports ⟨.task, t.id, .task, some x⟩)) ∧
    s.checkWithin.faults.countP
        (fun f => f.pointer.isLink && decide (f.kindText = "missing_reference")) =
      (d.tasks.flatMap (·.links)).countP (fun x => decide (x ∉ d.tasks.map (·.id))) ∧
    (ofBlueprint d).links.Nodup ∧
    (∀ a b, (a, b) ∈ (ofBlueprint d).links → ∃ t ∈ d.tasks, t.id = a ∧ b ∈ t.links) ∧
    (∀ a b, (b ∈ (ofBlueprint d).successors a ↔ (a, b) ∈ (ofBlueprint d).links) ∧
      (a ∈ (ofBlueprint d).predecessors b ↔ (a, b) ∈ (ofBlueprint d).links)) ∧
    (∀ id, ((ofBlueprint d).successors id).Pairwise (· < ·) ∧
      ((ofBlueprint d).predecessors id).Pairwise (· < ·)) ∧
    (∀ id, id ∉ (ofBlueprint d).ids →
      (ofBlueprint d).successors id = [] ∧ (ofBlueprint d).predecessors id = []) := by
  have hg := wellFormed_ofBlueprint d
  have hlinks := nodup_links d
  refine ⟨hg.nodup, fun _ => mem_ids_ofBlueprint, fun id t ht => ?_, fun t ht x hx => ?_,
    ServiceMap.countP_reported_links hd, hlinks, fun a b hab => ?_,
    fun _ _ => ⟨mem_successors, mem_predecessors⟩, fun id => ⟨?_, ?_⟩,
    fun _ h => neighbours_of_unknown hg h⟩
  · refine ⟨_, node?_ofBlueprint ht, rfl, rfl, rfl, ?_⟩
    have hid : t.id = id := by simpa using List.find?_some ht
    rw [actorOf?_eq_none_iff, ← hid, ServiceMap.reports_lane_iff hd (List.mem_of_find?_eq_some ht)]
  · rw [mem_successors, mem_predecessors, link_or_reported hd ht hx]
    tauto
  · obtain ⟨⟨t, ht, hid, hb⟩, -⟩ := link_ofBlueprint.mp hab
    exact ⟨t, ht, hid, hb⟩
  · exact pairwise_sorted (nodup_targets hlinks id)
  · exact pairwise_sorted (nodup_sources hlinks id)

/-- Two tasks share the identifier "a". One links to itself, twice to "b" and to the empty text, the
other to a task that does not exist, and the lane of "b" is missing. -/
theorem links_accounted_merged :
    let d : Blueprint := ⟨"1.0", "d", [⟨"l", "L", .team⟩], [⟨"a", "l", "A", none,
      ["b", "a", "b", ""], false⟩, ⟨"b", "m", "B", none, [], false⟩,
      ⟨"a", "l", "", none, ["x"], false⟩], []⟩
    let s : ServiceMap := ⟨none, some d, none, none⟩
    s.blueprint = some d ∧ "a" ∈ (ofBlueprint d).successors "a" ∧
      s.Reports ⟨.task, "a", .task, some ""⟩ ∧ s.Reports ⟨.task, "b", .lane, some "m"⟩ ∧
      s.checkWithin.faults.countP
        (fun f => f.pointer.isLink && decide (f.kindText = "missing_reference")) = 2 := by
  intro d s
  obtain ⟨-, -, hnodes, hgiven, hcount, -, -, hsame, -⟩ := links_accounted s d rfl
  refine ⟨rfl, (hsame "a" "a").1.mpr (by decide +kernel), ?_, ?_, hcount.trans (by decide +kernel)⟩
  · have hno : ("a", "") ∉ (ofBlueprint d).links := by decide +kernel
    obtain ⟨h, -⟩ | ⟨-, -, h⟩ := hgiven d.tasks[0] (by simp [d]) "" (by simp [d])
    · exact absurd ((hsame "a" "").1.mp h) hno
    · exact h
  · obtain ⟨n, hn, -, -, -, hactor⟩ := hnodes "b" d.tasks[1] rfl
    have hb : (ofBlueprint d).node? "b" = some ⟨"b", "B", "m", none⟩ := by decide +kernel
    rw [hb] at hn
    obtain rfl := Option.some.inj hn
    exact hactor.mp rfl

end TaskFlow

end ServiceMaps
