import ServiceMaps.Proofs.References.Within

/-!
Identifiers that are used more than once. The identifiers of a map are listed collection by
collection. A position of the list is reported if its identifier stands at an earlier position, and
the first such position says where it is already used. So the search that remembers where each
identifier was first seen, and nothing of the later uses, misses none of them.
-/
namespace ServiceMaps

/-- The collections in the order in which their identifiers are listed. -/
def Collection.all : List Collection :=
  [.journey, .phase, .journeyAction, .blueprint, .lane, .task, .outcome, .goal, .factor, .indicator,
    .enablement, .enablementOutcome, .enablementAction, .skill, .knowledge, .tool]

/-- The identifiers that a map gives in one collection. -/
def ServiceMap.idsIn (s : ServiceMap) : Collection → List String
  | .journey => s.journey.toList.map (·.id)
  | .phase => s.journey.toList.flatMap fun j => j.phases.map (·.id)
  | .journeyAction => s.journey.toList.flatMap fun j => j.actions.map (·.id)
  | .blueprint => s.blueprint.toList.map (·.id)
  | .lane => s.blueprint.toList.flatMap fun b => b.lanes.map (·.id)
  | .task => s.blueprint.toList.flatMap fun b => b.tasks.map (·.id)
  | .outcome => s.outcome.toList.map (·.id)
  | .goal => s.outcome.toList.map (·.goal.id)
  | .factor => s.outcome.toList.map (·.factor.id)
  | .indicator => s.outcome.toList.map (·.indicator.id)
  | .enablement => s.enablement.toList.map (·.id)
  | .enablementOutcome => s.enablement.toList.flatMap fun e => e.outcomes.map (·.id)
  | .enablementAction => s.enablement.toList.flatMap fun e => e.actions.map (·.id)
  | .skill => s.enablement.toList.flatMap fun e => e.skills.map (·.id)
  | .knowledge => s.enablement.toList.flatMap fun e => e.knowledge.map (·.id)
  | .tool => s.enablement.toList.flatMap fun e => e.tools.map (·.id)

namespace References

/-- A position of a list of identifiers with the first position of the same identifier, if that is
an earlier one. -/
def repeatAt? (entries : List Entry) (i : Nat) : Option Pointer :=
  entries[i]?.bind fun e =>
    let first := (entries.map (·.2)).idxOf e.2
    if first < i then entries[first]?.map fun f => ⟨e.1, e.2, f.1, some e.2⟩ else none

/-- The place where an identifier is first given stands at its first position. -/
theorem firstPlace?_eq (id : String) (entries : List Entry) :
    firstPlace? id entries = entries[(entries.map (·.2)).idxOf id]?.map (·.1) := by
  have hindex : (entries.map (·.2)).idxOf id = entries.findIdx fun e => e.2 = id := by
    rw [List.idxOf, List.findIdx_map]
    rfl
  rw [firstPlace?, hindex, List.find?_eq_getElem?_findIdx]

/-- Behind the entries seen so far an identifier is repeated if it has a place among them. -/
theorem repeatAt?_next (earlier rest : List Entry) (collection : Collection) (id : String) :
    repeatAt? (earlier ++ (collection, id) :: rest) earlier.length =
      (firstPlace? id earlier).map fun first => ⟨collection, id, first, some id⟩ := by
  have hhere : (earlier ++ (collection, id) :: rest)[earlier.length]? = some (collection, id) := by
    simp
  by_cases hid : id ∈ earlier.map (·.2)
  · have hlt : (earlier.map (·.2)).idxOf id < earlier.length := by
      simpa using List.idxOf_lt_length_of_mem hid
    rw [repeatAt?, hhere, Option.bind_some, List.map_append, List.idxOf_append, if_pos hid,
      if_pos hlt, List.getElem?_append_left hlt, firstPlace?_eq, Option.map_map]
    rfl
  · have hnew : firstPlace? id earlier = none := firstPlace?_eq_none_iff.mpr hid
    rw [repeatAt?, hhere, Option.bind_some, List.map_append, List.idxOf_append, if_neg hid, hnew]
    simp

/-- The search reports the positions that repeat an earlier one. What it has seen is all that stands
before the position, so the first place that it remembers is the first in the whole list. -/
theorem map_duplicatesAfter (earlier entries : List Entry) :
    (duplicatesAfter earlier entries).map Fault.pointer =
      (List.range entries.length).filterMap fun i =>
        repeatAt? (earlier ++ entries) (earlier.length + i) := by
  induction entries generalizing earlier with
  | nil => rfl
  | cons e rest ih =>
    obtain ⟨collection, id⟩ := e
    have hrest : (duplicatesAfter (earlier ++ [(collection, id)]) rest).map Fault.pointer =
        (List.range rest.length).filterMap fun i =>
          repeatAt? (earlier ++ (collection, id) :: rest) (earlier.length + (i + 1)) := by
      rw [ih]
      simp [Nat.add_comm, Nat.add_left_comm]
    rw [duplicatesAfter, List.map_append, hrest, List.length_cons, List.range_succ_eq_map,
      List.filterMap_cons, Nat.add_zero, repeatAt?_next, List.filterMap_map]
    cases firstPlace? id earlier with
    | none => rfl
    | some first => rfl

theorem map_duplicates (entries : List Entry) :
    (duplicates entries).map Fault.pointer =
      (List.range entries.length).filterMap (repeatAt? entries) := by
  have h := map_duplicatesAfter [] entries
  simp only [List.nil_append, List.length_nil, Nat.zero_add] at h
  exact h

end References

namespace ServiceMap

open References

/-- The identifiers of a map are listed collection by collection. -/
theorem entries_eq_collections (s : ServiceMap) :
    s.entries = Collection.all.flatMap fun c => (s.idsIn c).map (c, ·) := by
  have hj : (s.get? .journey).toList.flatMap Document.entries =
      [.journey, .phase, .journeyAction].flatMap fun c => (s.idsIn c).map (c, ·) := by
    cases h : s.journey <;> simp [get?, h, Document.entries, idsIn, Function.comp_def]
  have hb : (s.get? .blueprint).toList.flatMap Document.entries =
      [.blueprint, .lane, .task].flatMap fun c => (s.idsIn c).map (c, ·) := by
    cases h : s.blueprint <;> simp [get?, h, Document.entries, idsIn, Function.comp_def]
  have ho : (s.get? .outcome).toList.flatMap Document.entries =
      [.outcome, .goal, .factor, .indicator].flatMap fun c => (s.idsIn c).map (c, ·) := by
    cases h : s.outcome <;> simp [get?, h, Document.entries, idsIn]
  have he : (s.get? .enablement).toList.flatMap Document.entries =
      [.enablement, .enablementOutcome, .enablementAction, .skill, .knowledge, .tool].flatMap
        fun c => (s.idsIn c).map (c, ·) := by
    cases h : s.enablement <;> simp [get?, h, Document.entries, idsIn, Function.comp_def]
  rw [entries_eq, Kind.all, List.flatMap_cons, List.flatMap_cons, List.flatMap_cons,
    List.flatMap_cons, List.flatMap_nil, List.append_nil, hj, hb, ho, he]
  simp only [← List.flatMap_append]
  rfl

theorem faultsWithin_divided (s : ServiceMap) :
    s.faultsWithin = s.faultsWithin.filter (·.kindText = "missing_reference")
      ++ s.faultsWithin.filter (·.kindText = "duplicate_id") := by
  rw [filter_missing_faultsWithin, filter_duplicate_faultsWithin]
  rfl

/-- The report of identifiers that are used more than once is exact. They are listed collection by
collection, and each position whose identifier stands before is reported once, in the order of the
list, from its own collection to the collection where the identifier stands first. So there are as
many reports as there are identifiers beyond the different ones, and none if all are different. They
come behind all reports of references. -/
theorem checkWithin_repeats_exact (s : ServiceMap) :
    s.entries = Collection.all.flatMap (fun c => (s.idsIn c).map (c, ·)) ∧
    (s.checkWithin.faults.filter (·.kindText = "duplicate_id")).map Fault.pointer =
      (List.range s.entries.length).filterMap (repeatAt? s.entries) ∧
    (s.checkWithin.faults.filter (·.kindText = "duplicate_id")).length + s.ids.dedup.length =
      s.ids.length ∧
    (s.checkWithin.faults.filter (·.kindText = "duplicate_id") = [] ↔ s.ids.Nodup) ∧
    s.checkWithin.faults = s.checkWithin.faults.filter (·.kindText = "missing_reference")
      ++ s.checkWithin.faults.filter (·.kindText = "duplicate_id") := by
  have hduplicates : s.checkWithin.faults.filter (·.kindText = "duplicate_id") =
      duplicates s.entries := filter_duplicate_faultsWithin s
  have hlength : s.ids.length = s.entries.length := List.length_map ..
  refine ⟨entries_eq_collections s, ?_, ?_, ?_, faultsWithin_divided s⟩
  · rw [hduplicates, map_duplicates]
  · rw [hduplicates, hlength]
    exact length_duplicates s.entries
  · rw [hduplicates, duplicates_entries_eq_nil_iff]

end ServiceMap

end ServiceMaps
