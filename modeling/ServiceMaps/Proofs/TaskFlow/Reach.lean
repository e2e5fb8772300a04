import Mathlib.Logic.Relation
import Mathlib.Data.List.Basic
import Mathlib.Data.List.Count
import ServiceMaps.TaskFlow

/-!
Where links lead. The graph of a blueprint has a link from one task to another exactly if the
first names the second; the walk level by level finds every other task that links lead to, since
every level but the last takes a node that was not met before.
-/
namespace ServiceMaps

open Relation

theorem nodup_eraseDups {α : Type} [BEq α] [LawfulBEq α] : (l : List α) → l.eraseDups.Nodup
  | [] => by simp
  | a :: rest => by
    rw [List.eraseDups_cons, List.nodup_cons]
    exact ⟨by simp [List.mem_eraseDups], nodup_eraseDups _⟩
termination_by l => l.length
decreasing_by exact Nat.lt_succ_of_le (List.length_filter_le _ _)

namespace Blueprint

/-- Some task `a` names `b` as its successor, and there is a task `b`. -/
def LinksTo (d : Blueprint) (a b : String) : Prop :=
  (∃ t ∈ d.tasks, t.id = a ∧ b ∈ t.links) ∧ ∃ t ∈ d.tasks, t.id = b

theorem mem_taskIds {d : Blueprint} {id : String} : id ∈ d.taskIds ↔ ∃ t ∈ d.tasks, t.id = id := by
  simp [taskIds, List.mem_eraseDups]

end Blueprint

namespace TaskFlow

/-- A link of the graph. -/
def Link (g : TaskFlow) (a b : String) : Prop := (a, b) ∈ g.links

/-- No two nodes share an identifier, and links join nodes. -/
structure WellFormed (g : TaskFlow) : Prop where
  nodup : g.ids.Nodup
  source : ∀ a b, g.Link a b → a ∈ g.ids
  target : ∀ a b, g.Link a b → b ∈ g.ids

variable {g : TaskFlow}

@[simp] theorem mem_targets {a b : String} : b ∈ g.targets a ↔ g.Link a b := by
  simp [targets, Link]

theorem ids_ofBlueprint (d : Blueprint) : (ofBlueprint d).ids = d.taskIds := by
  simp only [ids, ofBlueprint, List.map_filterMap, Option.map_map]
  refine (List.filterMap_congr (g := some) fun id hid => ?_).trans List.filterMap_some
  obtain ⟨t, ht, hid⟩ := Blueprint.mem_taskIds.mp hid
  obtain ⟨u, hu⟩ : ∃ u, d.tasks.find? (·.id = id) = some u :=
    Option.isSome_iff_exists.mp (List.find?_isSome.mpr ⟨t, ht, decide_eq_true hid⟩)
  have huid : u.id = id := by simpa using List.find?_some hu
  rw [hu, Option.map_some, Function.comp_apply, huid]

theorem mem_ids_ofBlueprint {d : Blueprint} {id : String} :
    id ∈ (ofBlueprint d).ids ↔ ∃ t ∈ d.tasks, t.id = id := by
  rw [ids_ofBlueprint, Blueprint.mem_taskIds]

theorem link_ofBlueprint {d : Blueprint} {a b : String} :
    (ofBlueprint d).Link a b ↔ d.LinksTo a b := by
  simp only [Link, ofBlueprint, List.mem_eraseDups, List.mem_flatMap, linksOf, List.mem_map,
    List.mem_filter, List.contains_iff_mem, Blueprint.mem_taskIds, Prod.mk.injEq]
  constructor
  · rintro ⟨t, ht, c, ⟨hc, hu⟩, rfl, rfl⟩
    exact ⟨⟨t, ht, rfl, hc⟩, hu⟩
  · rintro ⟨⟨t, ht, rfl, hc⟩, hu⟩
    exact ⟨t, ht, b, ⟨hc, hu⟩, rfl, rfl⟩

theorem link_ofBlueprint_eq (d : Blueprint) : (ofBlueprint d).Link = d.LinksTo := by
  funext a b
  exact propext link_ofBlueprint

theorem wellFormed_ofBlueprint (d : Blueprint) : (ofBlueprint d).WellFormed where
  nodup := by
    rw [ids_ofBlueprint]
    exact nodup_eraseDups _
  source a b h := by
    obtain ⟨⟨t, ht, hid, -⟩, -⟩ := link_ofBlueprint.mp h
    exact mem_ids_ofBlueprint.mpr ⟨t, ht, hid⟩
  target a b h := mem_ids_ofBlueprint.mpr (link_ofBlueprint.mp h).2

/-- How many nodes are not among those that a walk has met. -/
def unmet (g : TaskFlow) (met : List String) : Nat := g.ids.countP (!met.contains ·)

theorem unmet_le_size (g : TaskFlow) (met : List String) : g.unmet met ≤ g.size := by
  rw [size, ← List.length_map (f := (·.id))]
  exact List.countP_le_length

theorem mem_of_unmet_eq_zero {met : List String} (h : g.unmet met = 0) {a : String}
    (ha : a ∈ g.ids) : a ∈ met := by
  simpa using List.countP_eq_zero.mp h a ha

theorem unmet_mono {met more : List String} (h : met ⊆ more) : g.unmet more ≤ g.unmet met := by
  refine List.countP_mono_left fun a _ ha => ?_
  simp only [Bool.not_eq_true', List.contains_eq_mem, decide_eq_false_iff_not] at ha ⊢
  exact fun hm => ha (h hm)

/-- A walk that meets a node for the first time has fewer nodes left to meet. -/
theorem unmet_lt {met more : List String} (h : met ⊆ more) {a : String} (ha : a ∈ g.ids)
    (hmet : a ∉ met) (hmore : a ∈ more) : g.unmet more < g.unmet met := by
  -- What the longer list leaves unmet is a part of what the shorter one leaves unmet.
  have hpart : g.unmet more = (g.ids.filter (!met.contains ·)).countP (!more.contains ·) := by
    rw [List.countP_filter]
    refine List.countP_congr fun c _ => ?_
    simp only [Bool.not_eq_true', List.contains_eq_mem, decide_eq_false_iff_not, Bool.and_eq_true]
    exact ⟨fun hc => ⟨hc, fun hm => hc (h hm)⟩, fun hc => hc.1⟩
  rw [hpart, unmet, List.countP_eq_length_filter (l := g.ids), List.countP_lt_length_iff]
  exact ⟨a, by simp [ha, hmet], by simp [hmore]⟩

theorem mem_nextLevel {seen level : List String} {b : String} :
    b ∈ g.nextLevel seen level ↔ (∃ a ∈ level, g.Link a b) ∧ b ∉ seen := by
  simp [nextLevel, List.mem_eraseDups]

/-- Links lead from a level to every node beyond it, and none of these was seen before. -/
theorem path_of_mem_beyond {fuel : Nat} {seen level : List String} {b : String}
    (h : b ∈ g.beyond fuel seen level) : b ∉ seen ∧ ∃ a ∈ level, TransGen g.Link a b := by
  induction fuel generalizing seen level with
  | zero => simp [beyond] at h
  | succ fuel ih =>
    simp only [beyond] at h
    split at h
    · simp at h
    · rcases List.mem_append.mp h with hnext | hlater
      · obtain ⟨⟨a, ha, hab⟩, hseen⟩ := mem_nextLevel.mp hnext
        exact ⟨hseen, a, ha, .single hab⟩
      · obtain ⟨hseen, c, hc, hcb⟩ := ih hlater
        obtain ⟨⟨a, ha, hac⟩, -⟩ := mem_nextLevel.mp hc
        exact ⟨fun hb => hseen (List.mem_append_left _ hb), a, ha, .head hac hcb⟩

/-- No link leads out of what was seen and what lies beyond a level, if that holds of all that was
seen but the level itself. -/
theorem closed_beyond (hg : g.WellFormed) (fuel : Nat) (seen level : List String)
    (hseen : ∀ a ∈ seen, a ∈ level ∨ ∀ b, g.Link a b → b ∈ seen) (hfuel : g.unmet seen ≤ fuel) :
    ∀ a ∈ seen ++ g.beyond fuel seen level, ∀ b, g.Link a b →
      b ∈ seen ++ g.beyond fuel seen level := by
  induction fuel generalizing seen level with
  | zero =>
    intro a _ b hab
    exact List.mem_append_left _
      (mem_of_unmet_eq_zero (Nat.le_zero.mp hfuel) (hg.target a b hab))
  | succ fuel ih =>
    have hstep : ∀ a ∈ seen, ∀ b, g.Link a b → b ∈ seen ++ g.nextLevel seen level := by
      intro a ha b hab
      rcases hseen a ha with hlevel | hclosed
      · by_cases hb : b ∈ seen
        · exact List.mem_append_left _ hb
        · exact List.mem_append_right _ (mem_nextLevel.mpr ⟨⟨a, hlevel, hab⟩, hb⟩)
      · exact List.mem_append_left _ (hclosed b hab)
    rcases hnext : g.nextLevel seen level with _ | ⟨c, rest⟩
    · simpa [beyond, hnext] using hstep
    · have hc : c ∈ g.nextLevel seen level := hnext ▸ List.mem_cons_self
      obtain ⟨⟨p, -, hpc⟩, hcs⟩ := mem_nextLevel.mp hc
      have hless := unmet_lt (List.subset_append_left seen (g.nextLevel seen level))
        (hg.target p c hpc) hcs (List.mem_append_right _ hc)
      have hlater := ih (seen ++ g.nextLevel seen level) (g.nextLevel seen level) (fun a ha => by
        rcases List.mem_append.mp ha with hs | hn
        · exact .inr (hstep a hs)
        · exact .inl hn) (by omega)
      simpa [beyond, hnext] using hlater

/-- The walk finds exactly the other nodes that links lead to. -/
theorem mem_reach (hg : g.WellFormed) {a b : String} :
    b ∈ g.reach a ↔ b ≠ a ∧ ReflTransGen g.Link a b := by
  constructor
  · intro h
    obtain ⟨hne, c, hc, hcb⟩ := path_of_mem_beyond h
    obtain rfl := List.mem_singleton.mp hc
    exact ⟨fun hba => hne (List.mem_singleton.mpr hba), hcb.to_reflTransGen⟩
  · rintro ⟨hne, hab⟩
    have hclosed := closed_beyond hg g.size [a] [a] (fun _ hc => .inl hc)
      (g.unmet_le_size _)
    have hmem : b ∈ [a] ++ g.reach a := by
      induction hab with
      | refl => exact List.mem_append_left _ List.mem_cons_self
      | @tail c d hac hcd ih =>
        by_cases hca : c = a
        · exact hclosed c (hca ▸ List.mem_append_left _ List.mem_cons_self) d hcd
        · exact hclosed c (ih hca) d hcd
    rcases List.mem_append.mp hmem with hb | hb
    · exact absurd (List.mem_singleton.mp hb) hne
    · exact hb

/-- Whether links lead from a node back to it, as its reach tells. -/
def onCycle (g : TaskFlow) (id : String) : Bool :=
  (id :: g.reach id).any fun other => (g.targets other).contains id

theorem onCycle_iff (hg : g.WellFormed) {a : String} :
    g.onCycle a = true ↔ TransGen g.Link a a := by
  simp only [onCycle, List.any_eq_true, List.mem_cons, List.contains_iff_mem, mem_targets,
    mem_reach hg]
  rw [TransGen.tail'_iff]
  constructor
  · rintro ⟨b, rfl | ⟨-, hab⟩, hba⟩
    · exact ⟨b, .refl, hba⟩
    · exact ⟨b, hab, hba⟩
  · rintro ⟨b, hab, hba⟩
    by_cases h : b = a
    · exact ⟨b, .inl h, hba⟩
    · exact ⟨b, .inr ⟨h, hab⟩, hba⟩

end TaskFlow

end ServiceMaps
