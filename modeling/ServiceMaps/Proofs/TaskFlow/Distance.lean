import Mathlib.Data.Nat.Find
import ServiceMaps.Proofs.TaskFlow.Reach

/-!
How far links lead. The walk level by level meets the nodes in the order of their distance: a level
holds exactly the nodes at one distance from the start, and what was seen is all that is not
further. No level is empty but the last, so that the walk ends on every graph, with cycles or
without.
-/
namespace ServiceMaps.TaskFlow

open Relation

section Paths

variable {link : String → String → Prop} {a b : String}

/-- A path of `n` links leads from `a` to `b`. -/
def IsPath (link : String → String → Prop) : Nat → String → String → Prop
  | 0, a, b => a = b
  | n + 1, a, b => ∃ c, IsPath link n a c ∧ link c b

/-- The shortest path from `a` to `b` has `n` links. -/
def IsDistance (link : String → String → Prop) (a b : String) (n : Nat) : Prop :=
  IsPath link n a b ∧ ∀ m < n, ¬ IsPath link m a b

theorem exists_path_iff : (∃ n, IsPath link n a b) ↔ ReflTransGen link a b := by
  constructor
  · rintro ⟨n, h⟩
    induction n generalizing b with
    | zero => exact h ▸ .refl
    | succ n ih =>
      obtain ⟨c, hac, hcb⟩ := h
      exact (ih hac).tail hcb
  · intro h
    induction h with
    | refl => exact ⟨0, rfl⟩
    | tail _ hcb ih =>
      obtain ⟨n, hac⟩ := ih
      exact ⟨n + 1, _, hac, hcb⟩

theorem exists_distance (h : ReflTransGen link a b) : ∃ n, IsDistance link a b n := by
  classical
  have hpath := exists_path_iff.mpr h
  exact ⟨Nat.find hpath, Nat.find_spec hpath, fun m hm => Nat.find_min hpath hm⟩

theorem IsDistance.le {m n : Nat} (h : IsDistance link a b n) (hm : IsPath link m a b) : n ≤ m :=
  Nat.le_of_not_lt fun hlt => h.2 m hlt hm

/-- The last link of a shortest path starts from a node that is nearer by one. -/
theorem IsDistance.before {n : Nat} (h : IsDistance link a b (n + 1)) :
    ∃ c, IsDistance link a c n ∧ link c b := by
  obtain ⟨⟨c, hac, hcb⟩, hmin⟩ := h
  exact ⟨c, ⟨hac, fun m hm hshort => hmin (m + 1) (Nat.succ_lt_succ hm) ⟨c, hshort, hcb⟩⟩, hcb⟩

end Paths

variable {g : TaskFlow}

/-- The walk from `a` has come to the nodes at distance `n`, and has seen those and all nearer
ones. -/
structure AtDistance (g : TaskFlow) (a : String) (n : Nat) (seen level : List String) : Prop where
  level : ∀ b, b ∈ level ↔ IsDistance g.Link a b n
  seen : ∀ b, b ∈ seen ↔ ∃ m ≤ n, IsPath g.Link m a b

theorem atDistance_start (g : TaskFlow) (a : String) : g.AtDistance a 0 [a] [a] where
  level b := by
    simp only [List.mem_singleton, IsDistance, IsPath]
    exact ⟨fun h => ⟨h.symm, nofun⟩, fun h => h.1.symm⟩
  seen b := by
    simp only [List.mem_singleton, Nat.le_zero, exists_eq_left, IsPath]
    exact eq_comm

/-- One level further: a link from the last level that leads to a new node is the end of a shortest
path. -/
theorem AtDistance.next {a : String} {n : Nat} {seen level : List String}
    (h : g.AtDistance a n seen level) :
    g.AtDistance a (n + 1) (seen ++ g.nextLevel seen level) (g.nextLevel seen level) := by
  have hlevel : ∀ b, b ∈ g.nextLevel seen level ↔ IsDistance g.Link a b (n + 1) := by
    intro b
    rw [mem_nextLevel, h.seen]
    constructor
    · rintro ⟨⟨c, hc, hcb⟩, hnew⟩
      refine ⟨⟨c, ((h.level c).mp hc).1, hcb⟩, fun m hm hab => hnew ⟨m, by omega, hab⟩⟩
    · intro hb
      obtain ⟨c, hc, hcb⟩ := hb.before
      refine ⟨⟨c, (h.level c).mpr hc, hcb⟩, ?_⟩
      rintro ⟨m, hm, hab⟩
      exact hb.2 m (by omega) hab
  refine ⟨hlevel, fun b => ?_⟩
  rw [List.mem_append, h.seen, hlevel]
  constructor
  · rintro (⟨m, hm, hab⟩ | hb)
    · exact ⟨m, by omega, hab⟩
    · exact ⟨n + 1, Nat.le_refl _, hb.1⟩
  · rintro ⟨m, hm, hab⟩
    by_cases hnear : ∃ k ≤ n, IsPath g.Link k a b
    · exact .inl hnear
    · obtain rfl : m = n + 1 := by
        by_contra hne
        exact hnear ⟨m, by omega, hab⟩
      exact .inr ⟨hab, fun k hk hshort => hnear ⟨k, by omega, hshort⟩⟩

/-- What lies beyond a level is further than the level. -/
theorem AtDistance.lt_of_mem_beyond {a : String} {n : Nat} {seen level : List String}
    (h : g.AtDistance a n seen level) {fuel m : Nat} {b : String}
    (hb : b ∈ g.beyond fuel seen level) (hm : IsPath g.Link m a b) : n < m := by
  by_contra hle
  exact (path_of_mem_beyond hb).1 ((h.seen b).mpr ⟨m, Nat.le_of_not_lt hle, hm⟩)

/-- The nodes beyond a level are met in the order of their distance. -/
theorem AtDistance.pairwise_beyond {a : String} {n : Nat} {seen level : List String}
    (h : g.AtDistance a n seen level) (fuel : Nat) :
    (g.beyond fuel seen level).Pairwise fun b c =>
      ∀ k m, IsDistance g.Link a b k → IsDistance g.Link a c m → k ≤ m := by
  induction fuel generalizing n seen level with
  | zero => exact .nil
  | succ fuel ih =>
    simp only [beyond]
    split
    · exact .nil
    · have hhere : ∀ b ∈ g.nextLevel seen level, ∀ k, IsDistance g.Link a b k → k ≤ n + 1 :=
        fun b hb k hk => hk.le ((h.next.level b).mp hb).1
      refine List.pairwise_append.mpr ⟨?_, ih h.next, fun b hb c hc k m hk hm => ?_⟩
      · refine List.pairwise_of_forall_mem_list fun b hb c hc k m hk hm => ?_
        have hck : k ≤ n + 1 := hhere b hb k hk
        have hcm : n + 1 ≤ m := ((h.next.level c).mp hc).le hm.1
        omega
      · have hbk : k ≤ n + 1 := hhere b hb k hk
        have hcm : n + 1 < m := h.next.lt_of_mem_beyond hc hm.1
        omega

theorem nodup_beyond (fuel : Nat) (seen level : List String) :
    (g.beyond fuel seen level).Nodup := by
  induction fuel generalizing seen level with
  | zero => exact .nil
  | succ fuel ih =>
    simp only [beyond]
    split
    · exact .nil
    · refine List.nodup_append.mpr ⟨(nodup_eraseDups _).filter _, ih _ _, fun b hb c hc => ?_⟩
      rintro rfl
      exact (path_of_mem_beyond hc).1 (List.mem_append_right _ hb)

/-- The walk from a level, with no bound on its length, comes to an end and has met `found`. -/
inductive Ends (g : TaskFlow) : (seen level found : List String) → Prop
  | stop {seen level : List String} : g.nextLevel seen level = [] → Ends g seen level []
  | goOn {seen level found : List String} : g.nextLevel seen level ≠ [] →
    Ends g (seen ++ g.nextLevel seen level) (g.nextLevel seen level) found →
    Ends g seen level (g.nextLevel seen level ++ found)

/-- As many levels as there are nodes not seen yet are enough, since each level but the last takes
one of them. -/
theorem ends_beyond (hg : g.WellFormed) {fuel : Nat} {seen : List String} (level : List String)
    (hfuel : g.unmet seen ≤ fuel) : g.Ends seen level (g.beyond fuel seen level) := by
  induction fuel generalizing seen level with
  | zero =>
    refine .stop (List.eq_nil_iff_forall_not_mem.mpr fun b hb => ?_)
    obtain ⟨⟨c, -, hcb⟩, hnew⟩ := mem_nextLevel.mp hb
    exact hnew (mem_of_unmet_eq_zero (Nat.le_zero.mp hfuel) (hg.target c b hcb))
  | succ fuel ih =>
    simp only [beyond, List.isEmpty_iff]
    split
    case isTrue hstop => exact .stop hstop
    case isFalse hnext =>
      obtain ⟨b, hb⟩ := List.exists_mem_of_ne_nil _ hnext
      obtain ⟨⟨c, -, hcb⟩, hnew⟩ := mem_nextLevel.mp hb
      have hless := unmet_lt (List.subset_append_left seen (g.nextLevel seen level))
        (hg.target c b hcb) hnew (List.mem_append_right _ hb)
      exact .goOn hnext (ih _ (by omega))

/-- The tasks reached from a task. They are all other tasks that links lead to, each once, in the
order of their distance; from what is no task nothing is reached. The walk that finds them ends,
whether the links form a cycle or not. -/
theorem reach_by_distance (d : Blueprint) (a : String) :
    (∀ b, b ∈ (ofBlueprint d).reach a ↔ b ≠ a ∧ TransGen d.LinksTo a b) ∧
    ((ofBlueprint d).reach a).Nodup ∧
    (∀ b ∈ (ofBlueprint d).reach a, ∃ n, IsDistance d.LinksTo a b n) ∧
    ((ofBlueprint d).reach a).Pairwise (fun b c =>
      ∀ m n, IsDistance d.LinksTo a b m → IsDistance d.LinksTo a c n → m ≤ n) ∧
    ((∀ t ∈ d.tasks, t.id ≠ a) → (ofBlueprint d).reach a = []) ∧
    (ofBlueprint d).Ends [a] [a] ((ofBlueprint d).reach a) := by
  have hg := wellFormed_ofBlueprint d
  have hmem : ∀ b, b ∈ (ofBlueprint d).reach a ↔ b ≠ a ∧ TransGen d.LinksTo a b := by
    intro b
    rw [mem_reach hg, link_ofBlueprint_eq, reflTransGen_iff_eq_or_transGen]
    tauto
  refine ⟨hmem, nodup_beyond _ _ _, fun b hb => ?_, ?_, fun hno => ?_, ?_⟩
  · exact exists_distance ((hmem b).mp hb).2.to_reflTransGen
  · rw [← link_ofBlueprint_eq]
    exact (atDistance_start _ a).pairwise_beyond _
  · refine List.eq_nil_iff_forall_not_mem.mpr fun b hb => ?_
    obtain ⟨c, ⟨⟨t, ht, hid, -⟩, -⟩, -⟩ := TransGen.head'_iff.mp ((hmem b).mp hb).2
    exact hno t ht hid
  · exact ends_beyond hg [a] (unmet_le_size _ _)

/-- The tasks "a" and "b" form a cycle, "c" names itself, and two tasks share the identifier "b";
"e" is two links away and is met last, though it is named first. -/
theorem reach_by_distance_cycle :
    let d : Blueprint := ⟨"1.0", "d", [], [⟨"e", "l", "", none, [], false⟩,
      ⟨"a", "l", "", none, ["b", "c", "x"], false⟩, ⟨"b", "l", "", none, ["e", "a"], false⟩,
      ⟨"c", "l", "", none, ["c"], false⟩, ⟨"b", "l", "", none, ["a", "c"], false⟩], []⟩
    (ofBlueprint d).reach "a" = ["c", "b", "e"] ∧ (∃ n, IsDistance d.LinksTo "a" "e" n) ∧
      (∀ t ∈ d.tasks, t.id ≠ "x") ∧ (ofBlueprint d).reach "x" = [] := by
  intro d
  have hreach : (ofBlueprint d).reach "a" = ["c", "b", "e"] := by decide +kernel
  have hno : ∀ t ∈ d.tasks, t.id ≠ "x" := by simp [d]
  refine ⟨hreach, ?_, hno, (reach_by_distance d "x").2.2.2.2.1 hno⟩
  exact (reach_by_distance d "a").2.2.1 "e" (by simp [hreach])

end ServiceMaps.TaskFlow
