import Mathlib.Data.List.Dedup
import ServiceMaps.Proofs.References.Pointers

/-!
The check of what is inside the documents. It reports each reference inside a document that misses,
also one to the empty text, and after these the identifiers that are used twice; there are none of
the latter exactly if all identifiers of a map are different.
-/
namespace ServiceMaps

open scoped List

namespace References

/-- The phases that journey actions point to. -/
def journeyPointers (j : JourneyMap) : List Pointer :=
  j.actions.map fun a => ⟨.journeyAction, a.id, .phase, some a.phase⟩

/-- The lane of a task, and the tasks that it links to. -/
def taskPointersWithin (t : BlueprintTask) : List Pointer :=
  ⟨.task, t.id, .lane, some t.lane⟩ :: t.links.map fun link => ⟨.task, t.id, .task, some link⟩

def blueprintPointers (b : Blueprint) : List Pointer := b.tasks.flatMap taskPointersWithin

/-- The goal of the success factor, and the success factor of the indicator. -/
def outcomePointersWithin (o : Outcome) : List Pointer :=
  [⟨.factor, o.factor.id, .goal, some o.factor.goal⟩,
    ⟨.indicator, o.indicator.id, .factor, some o.indicator.factor⟩]

/-- The enablement actions that skills, knowledge and tools point to. -/
def enablementPointers (e : EnablementMap) : List Pointer :=
  (e.skills.map fun s => ⟨.skill, s.id, .enablementAction, some s.action⟩)
    ++ (e.knowledge.map fun k => ⟨.knowledge, k.id, .enablementAction, some k.action⟩)
    ++ e.tools.map fun t => ⟨.tool, t.id, .enablementAction, some t.action⟩

end References

open References

/-- The references of a map that stay inside one document. -/
def ServiceMap.pointersWithin (s : ServiceMap) : List Pointer :=
  s.journey.toList.flatMap journeyPointers ++ s.blueprint.toList.flatMap blueprintPointers
    ++ s.outcome.toList.flatMap outcomePointersWithin
    ++ s.enablement.toList.flatMap enablementPointers

/-- The identifiers of a document, its own first. -/
def Document.ids (d : Document) : List String := d.entries.map (·.2)

/-- All identifiers of a map, in the order of its documents. -/
def ServiceMap.ids (s : ServiceMap) : List String := s.entries.map (·.2)

namespace References

variable {s : ServiceMap}

/-- A check of one document reports its references that miss if it does so where the document is
present. -/
theorem map_each {α : Type} {check : α → List Fault} {pointers : α → List Pointer}
    {document : Option α} (h : ∀ a, document = some a →
      (check a).map Fault.pointer = (pointers a).filter (Pointer.misses s)) :
    (each check document).map Fault.pointer =
      (document.toList.flatMap pointers).filter (Pointer.misses s) := by
  cases document with
  | none => rfl
  | some a => simpa [each] using h a rfl

theorem map_withinJourney (s : ServiceMap) :
    (each withinJourney s.journey).map Fault.pointer =
      (s.journey.toList.flatMap journeyPointers).filter (Pointer.misses s) := by
  refine map_each fun j hj => map_flatMap_eq_filter_map fun a _ =>
    map_unresolved (r := .actionPhase) (d := .journey j) ?_ fun x => ?_
  · simp [Reference.target, Collection.kind, ServiceMap.get?, hj]
  · simp [Reference.target, Document.entries]

theorem map_withinBlueprint (s : ServiceMap) :
    (each withinBlueprint s.blueprint).map Fault.pointer =
      (s.blueprint.toList.flatMap blueprintPointers).filter (Pointer.misses s) := by
  refine map_each fun b hb => map_flatMap_eq_filter fun t _ => ?_
  have hlane : (unresolved .taskLane t.id t.name t.lane (b.lanes.map (·.id))).map Fault.pointer =
      [⟨.task, t.id, .lane, some t.lane⟩].filter (Pointer.misses s) := by
    refine map_unresolved (r := .taskLane) (d := .blueprint b) ?_ fun x => ?_
    · simp [Reference.target, Collection.kind, ServiceMap.get?, hb]
    · simp [Reference.target, Document.entries]
  have hlinks : (t.links.flatMap fun link =>
        unresolved .taskLink t.id t.name link (b.tasks.map (·.id))).map Fault.pointer =
      (t.links.map fun link => ⟨.task, t.id, .task, some link⟩).filter (Pointer.misses s) := by
    refine map_flatMap_eq_filter_map fun link _ =>
      map_unresolved (r := .taskLink) (d := .blueprint b) ?_ fun x => ?_
    · simp [Reference.target, Collection.kind, ServiceMap.get?, hb]
    · simp [Reference.target, Document.entries]
  rw [withinTask, List.map_append, hlane, hlinks, ← List.filter_append]
  rfl

theorem map_withinOutcome (s : ServiceMap) :
    (each withinOutcome s.outcome).map Fault.pointer =
      (s.outcome.toList.flatMap outcomePointersWithin).filter (Pointer.misses s) := by
  refine map_each fun o ho => ?_
  have hgoal : (unresolved .factorGoal o.factor.id "" o.factor.goal [o.goal.id]).map Fault.pointer =
      [⟨.factor, o.factor.id, .goal, some o.factor.goal⟩].filter (Pointer.misses s) := by
    refine map_unresolved (r := .factorGoal) (d := .outcome o) ?_ fun x => ?_
    · simp [Reference.target, Collection.kind, ServiceMap.get?, ho]
    · simp [Reference.target, Document.entries]
  have hfactor : (unresolved .indicatorFactor o.indicator.id o.indicator.name o.indicator.factor
        [o.factor.id]).map Fault.pointer =
      [⟨.indicator, o.indicator.id, .factor, some o.indicator.factor⟩].filter
        (Pointer.misses s) := by
    refine map_unresolved (r := .indicatorFactor) (d := .outcome o) ?_ fun x => ?_
    · simp [Reference.target, Collection.kind, ServiceMap.get?, ho]
    · simp [Reference.target, Document.entries]
  rw [withinOutcome, List.map_append, hgoal, hfactor, ← List.filter_append]
  rfl

theorem map_withinEnablement (s : ServiceMap) :
    (each withinEnablement s.enablement).map Fault.pointer =
      (s.enablement.toList.flatMap enablementPointers).filter (Pointer.misses s) := by
  refine map_each fun e he => ?_
  -- All three lists point to the enablement actions.
  have hparts : ∀ {r : Reference} {id name target : String}, r.target = .enablementAction →
      (unresolved r id name target (e.actions.map (·.id))).map Fault.pointer =
        [⟨r.source, id, r.target, some target⟩].filter (Pointer.misses s) := by
    intro r id name target hr
    refine map_unresolved (d := .enablement e) ?_ fun x => ?_
    · simp [hr, Collection.kind, ServiceMap.get?, he]
    · simp [hr, Document.entries]
  rw [withinEnablement, List.map_append, List.map_append, enablementPointers, List.filter_append,
    List.filter_append]
  congr 1
  · congr 1
    · exact map_flatMap_eq_filter_map fun k _ => hparts (r := .skillAction) rfl
    · exact map_flatMap_eq_filter_map fun k _ => hparts (r := .knowledgeAction) rfl
  · exact map_flatMap_eq_filter_map fun k _ => hparts (r := .toolAction) rfl

theorem firstPlace?_eq_none_iff {id : String} {entries : List Entry} :
    firstPlace? id entries = none ↔ id ∉ entries.map (·.2) := by
  rw [firstPlace?, Option.map_eq_none_iff, List.find?_eq_none, List.mem_map]
  simp only [decide_eq_true_eq, not_exists, not_and]

theorem duplicatesAfter_eq_nil_iff {earlier entries : List Entry} :
    duplicatesAfter earlier entries = [] ↔
      (entries.map (·.2)).Nodup ∧ ∀ id ∈ entries.map (·.2), id ∉ earlier.map (·.2) := by
  induction entries generalizing earlier with
  | nil => simp [duplicatesAfter]
  | cons e rest ih =>
    obtain ⟨collection, id⟩ := e
    rw [duplicatesAfter, List.append_eq_nil_iff, ih]
    have hfirst : firstPlace? id earlier = none ↔ id ∉ earlier.map (·.2) := firstPlace?_eq_none_iff
    simp only [List.map_append, List.map_cons, List.map_nil, List.mem_append, List.mem_singleton,
      not_or, List.nodup_cons, List.forall_mem_cons, ← hfirst]
    constructor
    · rintro ⟨hhere, hnodup, hrest⟩
      have hnew : firstPlace? id earlier = none := by
        cases hf : firstPlace? id earlier with
        | none => rfl
        | some first => simp [hf] at hhere
      exact ⟨⟨fun hid => (hrest id hid).2 rfl, hnodup⟩, hnew, fun x hx => (hrest x hx).1⟩
    · rintro ⟨⟨hnew, hnodup⟩, hhere, hrest⟩
      exact ⟨by rw [hhere], hnodup, fun x hx => ⟨hrest x hx, fun h => hnew (h ▸ hx)⟩⟩

/-- Every use of an identifier but the first is reported. -/
theorem length_duplicatesAfter (earlier entries : List Entry) :
    (duplicatesAfter earlier entries).length + ((earlier ++ entries).map (·.2)).dedup.length =
      (earlier.map (·.2)).dedup.length + entries.length := by
  induction entries generalizing earlier with
  | nil => simp [duplicatesAfter]
  | cons e rest ih =>
    obtain ⟨collection, id⟩ := e
    have hrest := ih (earlier ++ [(collection, id)])
    have hperm : (earlier ++ [(collection, id)]).map (·.2) ~ id :: earlier.map (·.2) := by
      simp
    rw [List.append_assoc, List.singleton_append, hperm.dedup.length_eq] at hrest
    rw [duplicatesAfter, List.length_append, List.length_cons]
    cases hfirst : firstPlace? id earlier with
    | none =>
      rw [List.dedup_cons_of_notMem (firstPlace?_eq_none_iff.mp hfirst), List.length_cons] at hrest
      simp only [List.length_nil]
      omega
    | some first =>
      have hid : id ∈ earlier.map (·.2) := by
        by_contra hnew
        simp [firstPlace?_eq_none_iff.mpr hnew] at hfirst
      rw [List.dedup_cons_of_mem hid] at hrest
      simp only [List.length_singleton]
      omega

theorem length_duplicates (entries : List Entry) :
    (duplicates entries).length + (entries.map (·.2)).dedup.length = entries.length := by
  simpa [duplicates] using length_duplicatesAfter [] entries

theorem isDuplicate_of_mem_duplicatesAfter {earlier entries : List Entry} {f : Fault}
    (h : f ∈ duplicatesAfter earlier entries) : f.isDuplicate = true := by
  induction entries generalizing earlier with
  | nil => simp [duplicatesAfter] at h
  | cons e rest ih =>
    obtain ⟨collection, id⟩ := e
    rw [duplicatesAfter, List.mem_append] at h
    rcases h with hhere | hrest
    · cases hf : firstPlace? id earlier with
      | none => simp [hf] at hhere
      | some first =>
        have hfault : f = .duplicate collection id first := by simpa [hf] using hhere
        rw [hfault]
        rfl
    · exact ih hrest

end References

namespace ServiceMap

variable {s : ServiceMap} {j : JourneyMap} {b : Blueprint}

theorem mem_pointersWithin {p : Pointer} :
    p ∈ s.pointersWithin ↔
      (∃ j, s.journey = some j ∧
        ∃ a ∈ j.actions, p = ⟨.journeyAction, a.id, .phase, some a.phase⟩) ∨
      (∃ b, s.blueprint = some b ∧ ∃ t ∈ b.tasks, p = ⟨.task, t.id, .lane, some t.lane⟩ ∨
        ∃ link ∈ t.links, p = ⟨.task, t.id, .task, some link⟩) ∨
      (∃ o, s.outcome = some o ∧ (p = ⟨.factor, o.factor.id, .goal, some o.factor.goal⟩ ∨
        p = ⟨.indicator, o.indicator.id, .factor, some o.indicator.factor⟩)) ∨
      ∃ e, s.enablement = some e ∧
        ((∃ k ∈ e.skills, p = ⟨.skill, k.id, .enablementAction, some k.action⟩) ∨
        (∃ k ∈ e.knowledge, p = ⟨.knowledge, k.id, .enablementAction, some k.action⟩) ∨
        ∃ t ∈ e.tools, p = ⟨.tool, t.id, .enablementAction, some t.action⟩) := by
  simp [pointersWithin, journeyPointers, blueprintPointers, taskPointersWithin,
    outcomePointersWithin, enablementPointers, eq_comm]

/-- What the check reports of references are those that miss, in order. -/
theorem map_missingWithin (s : ServiceMap) :
    s.missingWithin.map Fault.pointer = s.pointersWithin.filter (Pointer.misses s) := by
  simp only [missingWithin, pointersWithin, List.map_append, List.filter_append, map_withinJourney,
    map_withinBlueprint, map_withinOutcome, map_withinEnablement]

theorem isDuplicate_of_mem_missingWithin {f : Fault} (h : f ∈ s.missingWithin) :
    f.isDuplicate = false := by
  have heach : ∀ {α : Type} {check : α → List Fault} {document : Option α},
      f ∈ each check document → ∃ a, f ∈ check a := by
    intro α check document hf
    cases document with
    | none => simp [each] at hf
    | some a => exact ⟨a, hf⟩
  simp only [missingWithin, List.mem_append] at h
  obtain ((h | h) | h) | h := h
  · obtain ⟨j, hj⟩ := heach h
    obtain ⟨a, -, ha⟩ := List.mem_flatMap.mp hj
    exact isDuplicate_of_mem_unresolved ha
  · obtain ⟨b, hb⟩ := heach h
    obtain ⟨t, -, ht⟩ := List.mem_flatMap.mp hb
    rcases List.mem_append.mp ht with hlane | hlinks
    · exact isDuplicate_of_mem_unresolved hlane
    · obtain ⟨link, -, hlink⟩ := List.mem_flatMap.mp hlinks
      exact isDuplicate_of_mem_unresolved hlink
  · obtain ⟨o, ho⟩ := heach h
    rcases List.mem_append.mp ho with hgoal | hfactor
    · exact isDuplicate_of_mem_unresolved hgoal
    · exact isDuplicate_of_mem_unresolved hfactor
  · obtain ⟨e, he⟩ := heach h
    simp only [withinEnablement, List.mem_append, List.mem_flatMap] at he
    obtain (⟨k, -, hk⟩ | ⟨k, -, hk⟩) | ⟨k, -, hk⟩ := he
    · exact isDuplicate_of_mem_unresolved hk
    · exact isDuplicate_of_mem_unresolved hk
    · exact isDuplicate_of_mem_unresolved hk

theorem filter_missing_faultsWithin (s : ServiceMap) :
    s.faultsWithin.filter (·.kindText = "missing_reference") = s.missingWithin := by
  have hkeep : s.missingWithin.filter (·.kindText = "missing_reference") = s.missingWithin := by
    refine List.filter_eq_self.mpr fun f hf => ?_
    simp [Fault.kindText, isDuplicate_of_mem_missingWithin hf]
  have hdrop : (duplicates s.entries).filter (·.kindText = "missing_reference") = [] := by
    refine List.filter_eq_nil_iff.mpr fun f hf => ?_
    simp [Fault.kindText, isDuplicate_of_mem_duplicatesAfter hf]
  rw [faultsWithin, List.filter_append, hkeep, hdrop, List.append_nil]

theorem filter_duplicate_faultsWithin (s : ServiceMap) :
    s.faultsWithin.filter (·.kindText = "duplicate_id") = duplicates s.entries := by
  have hdrop : s.missingWithin.filter (·.kindText = "duplicate_id") = [] := by
    refine List.filter_eq_nil_iff.mpr fun f hf => ?_
    simp [Fault.kindText, isDuplicate_of_mem_missingWithin hf]
  have hkeep : (duplicates s.entries).filter (·.kindText = "duplicate_id") =
      duplicates s.entries := by
    refine List.filter_eq_self.mpr fun f hf => ?_
    simp [Fault.kindText, isDuplicate_of_mem_duplicatesAfter hf]
  rw [faultsWithin, List.filter_append, hkeep, hdrop, List.nil_append]

theorem forall_missingWithin {P : Pointer → Prop} :
    (∀ f ∈ s.missingWithin, P f.pointer) ↔ ∀ p ∈ s.pointersWithin, p.misses s = true → P p := by
  rw [← List.forall_mem_map, map_missingWithin]
  simp [List.mem_filter]

theorem duplicates_entries_eq_nil_iff : duplicates s.entries = [] ↔ s.ids.Nodup := by
  simp [duplicates, duplicatesAfter_eq_nil_iff, ids]

/-- No identifier is reported as used twice exactly if all identifiers are different. -/
theorem unique_iff_nodup_ids :
    (∀ f ∈ s.faultsWithin, f.isDuplicate = false) ↔ s.ids.Nodup := by
  rw [← duplicates_entries_eq_nil_iff]
  constructor
  · intro h
    refine List.eq_nil_iff_forall_not_mem.mpr fun f hf => ?_
    have hfalse := h f (List.mem_append_right _ hf)
    simp [isDuplicate_of_mem_duplicatesAfter hf] at hfalse
  · intro h f hf
    rw [faultsWithin, h, List.append_nil] at hf
    exact isDuplicate_of_mem_missingWithin hf

theorem kindText_ne_of_nodup_ids (h : s.ids.Nodup) :
    ∀ f ∈ s.checkWithin.faults, f.kindText ≠ "duplicate_id" := by
  intro f hf
  simp [Fault.kindText, unique_iff_nodup_ids.mpr h f hf]

theorem valid_checkWithin_iff :
    s.checkWithin.valid = true ↔ (∀ q ∈ s.pointersWithin, q.misses s = false) ∧ s.ids.Nodup := by
  have hnil : s.missingWithin = [] ↔ s.pointersWithin.filter (Pointer.misses s) = [] := by
    rw [← map_missingWithin, List.map_eq_nil_iff]
  simp only [checkWithin, Verdict.ofFaults, List.isEmpty_iff, faultsWithin, List.append_eq_nil_iff,
    hnil, duplicates_entries_eq_nil_iff, List.filter_eq_nil_iff, Bool.not_eq_true]

/-- What a map gives identifiers to, by the kinds of its documents. -/
theorem entries_eq (s : ServiceMap) :
    s.entries = Kind.all.flatMap fun k => (s.get? k).toList.flatMap Document.entries := by
  simp only [entries, documents, List.filterMap_eq_flatMap_toList, List.flatMap_assoc]

theorem ids_eq (s : ServiceMap) :
    s.ids = Kind.all.flatMap fun k => (s.get? k).toList.flatMap Document.ids := by
  simp only [ids, entries_eq, List.map_flatMap]
  rfl

/-- The identifiers of a document stand in its map. -/
theorem ids_sublist {k : Kind} {d : Document} (h : s.get? k = some d) :
    d.ids.Sublist s.ids := by
  have hkind : d.kind = k := by
    revert h
    cases k <;> simp only [get?, Option.map_eq_some_iff] <;> rintro ⟨_, -, rfl⟩ <;> rfl
  refine List.Sublist.map _ ?_
  rw [entries, List.flatMap_def]
  exact List.sublist_flatten_of_mem (List.mem_map_of_mem (mem_documents.mpr (hkind ▸ h)))

theorem nodup_part {k : Kind} {d : Document} {l : List String} (hids : s.ids.Nodup)
    (hd : s.get? k = some d) (hl : l.Sublist d.ids) : l.Nodup :=
  (hl.trans (ids_sublist hd)).nodup hids

theorem nodup_phases (hids : s.ids.Nodup) (hj : s.journey = some j) :
    (j.phases.map (·.id)).Nodup := by
  refine nodup_part (k := .journey) (d := .journey j) hids (by simp [get?, hj]) ?_
  simp only [Document.ids, Document.entries, List.map_append, List.map_cons, List.map_map]
  exact .trans (List.sublist_append_left ..) (List.sublist_cons_self ..)

theorem nodup_actions (hids : s.ids.Nodup) (hj : s.journey = some j) :
    (j.actions.map (·.id)).Nodup := by
  refine nodup_part (k := .journey) (d := .journey j) hids (by simp [get?, hj]) ?_
  simp only [Document.ids, Document.entries, List.map_append, List.map_cons, List.map_map]
  exact List.sublist_append_right ..

theorem nodup_enablementActions {e : EnablementMap} (hids : s.ids.Nodup)
    (he : s.enablement = some e) : (e.actions.map (·.id)).Nodup := by
  refine nodup_part (k := .enablement) (d := .enablement e) hids (by simp [get?, he]) ?_
  simp only [Document.ids, Document.entries, List.map_append, List.map_cons, List.map_map]
  -- Skills, knowledge and tools follow the actions.
  exact ((List.sublist_append_right ..).trans (List.sublist_append_left ..)).trans
    ((List.sublist_append_left ..).trans (List.sublist_append_left ..))

theorem nodup_tasks (hids : s.ids.Nodup) (hb : s.blueprint = some b) :
    (b.tasks.map (·.id)).Nodup := by
  refine nodup_part (k := .blueprint) (d := .blueprint b) hids (by simp [get?, hb]) ?_
  simp only [Document.ids, Document.entries, List.map_append, List.map_cons, List.map_map]
  exact List.sublist_append_right ..

end ServiceMap

end ServiceMaps
