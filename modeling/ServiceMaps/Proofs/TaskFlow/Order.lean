import ServiceMaps.Proofs.TaskFlow.Cycle

/-!
The order of tasks. Without a cycle every node that the depth-first walk leaves has only links to
nodes that were left before, so that the nodes, the last one left first, stand in an order that all
links follow. With a cycle no order follows all links. So there is an order exactly if no task
reaches itself.
-/
namespace ServiceMaps.TaskFlow

open Relation

variable {g : TaskFlow}

/-- The visit of a node that a walk comes to, without a cycle. -/
theorem visits_visit (hg : g.WellFormed) (hac : ∀ a, ¬ TransGen g.Link a a) {fuel : Nat}
    {w : Walk} {id : String} (h : g.Comes fuel w id) : g.Visits w (g.visit fuel id w) [id] := by
  induction fuel generalizing id w with
  | zero => exact .refl h.settled (h.left_of_entered hac h.entered)
  | succ fuel ih =>
    rw [visit]
    by_cases hmet : id ∈ w.entered
    · rw [if_pos (by simpa using hmet)]
      exact .refl h.settled (h.left_of_entered hac hmet)
    · rw [if_neg (by simpa using hmet)]
      have hlinks := visits_foldl (g.visit fuel) (g.targets id) (h.settled.enter h.node)
        fun next hnext v hv hcv => ih (h.next hg hmet (mem_targets.mp hnext) hv hcv)
      exact hlinks.leave h.settled hmet fun b hb => mem_targets.mpr hb

/-- Without a cycle the walk ends after it has left every node. -/
theorem visits_walk (hg : g.WellFormed) (hac : ∀ a, ¬ TransGen g.Link a a) :
    g.Visits .start g.walk g.ids :=
  visits_foldl (g.visit g.size) g.ids (Walk.settled_start g) fun _ hid _ hv hcv =>
    visits_visit hg hac (.root hid hv hcv)

/-- Without a cycle all links follow the order in which the walk leaves the nodes, last one
first. -/
theorem isOrdered_walk (hg : g.WellFormed) (hac : ∀ a, ¬ TransGen g.Link a a) :
    g.isOrdered g.walk.left = true :=
  (visits_walk hg hac).settled.isOrdered hg (visits_walk hg hac).left

theorem topologicalOrder?_eq_none_iff (hg : g.WellFormed) :
    g.topologicalOrder? = none ↔ ∃ a ∈ g.ids, TransGen g.Link a a := by
  unfold topologicalOrder?
  constructor
  · intro h
    by_contra hno
    have hac : ∀ a, ¬ TransGen g.Link a a := fun a ha => by
      obtain ⟨b, hab, -⟩ := TransGen.head'_iff.mp ha
      exact hno ⟨a, hg.source a b hab, ha⟩
    rw [if_pos (isOrdered_walk hg hac)] at h
    simp at h
  · rintro ⟨a, -, ha⟩
    exact if_neg fun h => acyclic_of_isOrdered h a ha

/-- An order that is found lists every node once, and every link leads to a later place. -/
theorem order_of_topologicalOrder? (hg : g.WellFormed) {order : List String}
    (h : g.topologicalOrder? = some order) :
    g.isOrdered order = true ∧ order.Nodup ∧ ∀ a, a ∈ order ↔ a ∈ g.ids := by
  unfold topologicalOrder? at h
  split at h
  case isFalse => simp at h
  case isTrue hord =>
    obtain rfl := Option.some.inj h
    obtain ⟨hs, -, hall⟩ := visits_walk hg (acyclic_of_isOrdered hord)
    exact ⟨hord, hs.nodup, fun a => ⟨fun ha => hs.entered a (hs.left ha), hall a⟩⟩

/-- The order of the tasks of a blueprint and the search for a cycle agree. There is a cycle
exactly if some task reaches itself along links, and there is an order exactly if there is no cycle.
The order lists the identifier of every task once, and a task stands before the tasks that it links
to, and so before all that it reaches. -/
theorem topologicalOrder?_follows_links (d : Blueprint) :
    ((ofBlueprint d).isCyclic = true ↔ ∃ t ∈ d.tasks, TransGen d.LinksTo t.id t.id) ∧
    ((ofBlueprint d).topologicalOrder? = none ↔ (ofBlueprint d).isCyclic = true) ∧
    ∀ order, (ofBlueprint d).topologicalOrder? = some order →
      order.Nodup ∧ (∀ id, id ∈ order ↔ ∃ t ∈ d.tasks, t.id = id) ∧
      (∀ a b, d.LinksTo a b → order.idxOf a < order.idxOf b) ∧
      ∀ a, ∀ b ∈ (ofBlueprint d).reach a, order.idxOf a < order.idxOf b := by
  have hg := wellFormed_ofBlueprint d
  refine ⟨?_, (topologicalOrder?_eq_none_iff hg).trans (isCyclic_iff hg).symm, fun order h => ?_⟩
  · rw [isCyclic_iff hg, link_ofBlueprint_eq]
    constructor
    · rintro ⟨a, ha, hpath⟩
      obtain ⟨t, ht, rfl⟩ := mem_ids_ofBlueprint.mp ha
      exact ⟨t, ht, hpath⟩
    · rintro ⟨t, ht, hpath⟩
      exact ⟨t.id, mem_ids_ofBlueprint.mpr ⟨t, ht, rfl⟩, hpath⟩
  · obtain ⟨hord, hnodup, hmem⟩ := order_of_topologicalOrder? hg h
    refine ⟨hnodup, fun id => (hmem id).trans mem_ids_ofBlueprint, fun a b hab => ?_,
      fun a b hb => ?_⟩
    · exact isOrdered_iff.mp hord a b (link_ofBlueprint.mpr hab)
    · obtain ⟨hne, hab⟩ := (mem_reach hg).mp hb
      rcases reflTransGen_iff_eq_or_transGen.mp hab with heq | hpath
      · exact absurd heq hne
      · exact idxOf_lt_of_path hord hpath

/-- Two tasks share the identifier "b"; their links and the repeated one are merged. -/
theorem topologicalOrder?_follows_links_merged :
    let d : Blueprint := ⟨"1.0", "d", [], [⟨"c", "l", "", none, [], false⟩,
      ⟨"b", "l", "", none, ["c", "c"], false⟩, ⟨"a", "l", "", none, ["b", "x"], false⟩,
      ⟨"b", "l", "", none, ["d"], false⟩, ⟨"d", "l", "", none, ["c"], false⟩], []⟩
    (ofBlueprint d).topologicalOrder? = some ["a", "b", "d", "c"] ∧
      ["a", "b", "d", "c"].idxOf "b" < ["a", "b", "d", "c"].idxOf "d" := by
  intro d
  have h : (ofBlueprint d).topologicalOrder? = some ["a", "b", "d", "c"] := by decide +kernel
  refine ⟨h, ((topologicalOrder?_follows_links d).2.2 _ h).2.2.1 "b" "d" ⟨?_, ?_⟩⟩
  · exact ⟨⟨"b", "l", "", none, ["d"], false⟩, by simp [d], rfl, by simp⟩
  · exact ⟨⟨"d", "l", "", none, ["c"], false⟩, by simp [d], rfl⟩

end ServiceMaps.TaskFlow
