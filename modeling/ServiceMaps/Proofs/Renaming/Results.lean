import Mathlib.Logic.Equiv.Basic
import ServiceMaps.Proofs.Renaming.Flow

/-!
Results depend on identifiers only through their equality. If a map is renamed, without two
identifiers becoming one and without the empty text, which points nowhere, becoming an identifier,
both checks report the renamed faults in the same order, lineages are the renamed lineages, and the
graph of tasks is walked in the same way.
-/
namespace ServiceMaps

variable {f : String → String}

/-- A reference points nowhere after a renaming if it did so before. -/
theorem pointsTo?_rename (hf : Function.Injective f) (h : f "" = "") (r : Option String) :
    pointsTo? (r.map f) = (pointsTo? r).map f := by
  cases r with
  | none => rfl
  | some id =>
    have hempty : f id = "" ↔ id = "" := by
      constructor
      · intro hid
        exact hf (hid.trans h.symm)
      · rintro rfl
        exact h
    by_cases hid : id = ""
    · simp [pointsTo?, Option.filter, hid, h]
    · simp [pointsTo?, Option.filter, hempty, hid]

namespace References

theorem unresolved_rename (hf : Function.Injective f) (r : Reference) (id name target : String)
    (ids : List String) :
    unresolved r (f id) name (f target) (ids.map f) =
      (unresolved r id name target ids).map (Fault.rename f) := by
  rw [unresolved, unresolved, contains_map hf]
  split <;> rfl

theorem unresolvedSet_rename (hf : Function.Injective f) (h : f "" = "") (r : Reference)
    (id name : String) (target : Option String) (ids : List String) :
    unresolvedSet r (f id) name (target.map f) (ids.map f) =
      (unresolvedSet r id name target ids).map (Fault.rename f) := by
  rw [unresolvedSet, unresolvedSet, pointsTo?_rename hf h]
  cases pointsTo? target with
  | none => rfl
  | some x => exact unresolved_rename hf r id name x ids

/-! ### References between documents -/

theorem both_rename {α β : Type} {first : α → α} {second : β → β} {check : α → β → List Fault}
    (h : ∀ a b, check (first a) (second b) = (check a b).map (Fault.rename f)) (a : Option α)
    (b : Option β) :
    both check (a.map first) (b.map second) = (both check a b).map (Fault.rename f) := by
  cases a with
  | none => rfl
  | some a =>
    cases b with
    | none => rfl
    | some b => exact h a b

theorem taskSources_rename (hf : Function.Injective f) (h : f "" = "") (b : Blueprint)
    (j : JourneyMap) :
    taskSources (b.rename f) (j.rename f) = (taskSources b j).map (Fault.rename f) := by
  refine flatMap_rename (fun t => ?_) b.tasks
  rw [j.ids_actions_rename]
  exact unresolvedSet_rename hf h .taskSource t.id t.name t.source _

theorem factorSource_rename (hf : Function.Injective f) (h : f "" = "") (o : Outcome)
    (b : Blueprint) :
    factorSource (o.rename f) (b.rename f) = (factorSource o b).map (Fault.rename f) := by
  rw [factorSource, b.ids_tasks_rename]
  exact unresolvedSet_rename hf h .factorSource o.factor.id "" o.factor.source _

theorem actionSources_rename (hf : Function.Injective f) (h : f "" = "") (e : EnablementMap)
    (b : Blueprint) :
    actionSources (e.rename f) (b.rename f) = (actionSources e b).map (Fault.rename f) := by
  refine flatMap_rename (fun a => ?_) e.actions
  rw [b.ids_tasks_rename]
  exact unresolvedSet_rename hf h .actionSource a.id a.name (some a.source) _

theorem outcomeSources_rename (hf : Function.Injective f) (h : f "" = "") (e : EnablementMap)
    (o : Outcome) :
    outcomeSources (e.rename f) (o.rename f) = (outcomeSources e o).map (Fault.rename f) := by
  refine flatMap_rename (fun u => ?_) e.outcomes
  have hsource : some (u.rename f).source = (some u.source).map f := rfl
  have hcurrent : (o.rename f).indicator.id = f o.indicator.id := rfl
  rw [hsource, pointsTo?_rename hf h, hcurrent]
  cases pointsTo? (some u.source) with
  | none => rfl
  | some target =>
    simp only [Option.map_some, hf.eq_iff]
    split <;> rfl

/-! ### References inside documents, and identifiers that are used twice -/

theorem each_rename {α : Type} {rename : α → α} {check : α → List Fault}
    (h : ∀ a, check (rename a) = (check a).map (Fault.rename f)) (a : Option α) :
    each check (a.map rename) = (each check a).map (Fault.rename f) := by
  cases a with
  | none => rfl
  | some a => exact h a

theorem withinJourney_rename (hf : Function.Injective f) (j : JourneyMap) :
    withinJourney (j.rename f) = (withinJourney j).map (Fault.rename f) := by
  refine flatMap_rename (fun a => ?_) j.actions
  rw [j.ids_phases_rename]
  exact unresolved_rename hf .actionPhase a.id a.name a.phase _

theorem withinTask_rename (hf : Function.Injective f) (b : Blueprint) (t : BlueprintTask) :
    withinTask (b.rename f) (t.rename f) = (withinTask b t).map (Fault.rename f) := by
  have hlane := unresolved_rename hf .taskLane t.id t.name t.lane (b.lanes.map (·.id))
  have hlinks : ((t.links.map f).flatMap fun link =>
        unresolved .taskLink (f t.id) t.name link ((b.tasks.map (·.id)).map f)) =
      (t.links.flatMap fun link =>
        unresolved .taskLink t.id t.name link (b.tasks.map (·.id))).map (Fault.rename f) :=
    flatMap_rename (fun link => unresolved_rename hf .taskLink t.id t.name link _) t.links
  rw [withinTask, withinTask, List.map_append, ← hlane, ← hlinks,
    b.ids_lanes_rename, b.ids_tasks_rename]
  rfl

theorem withinBlueprint_rename (hf : Function.Injective f) (b : Blueprint) :
    withinBlueprint (b.rename f) = (withinBlueprint b).map (Fault.rename f) :=
  flatMap_rename (withinTask_rename hf b) b.tasks

theorem withinOutcome_rename (hf : Function.Injective f) (o : Outcome) :
    withinOutcome (o.rename f) = (withinOutcome o).map (Fault.rename f) := by
  have hgoal := unresolved_rename hf .factorGoal o.factor.id "" o.factor.goal [o.goal.id]
  have hfactor := unresolved_rename hf .indicatorFactor o.indicator.id o.indicator.name
    o.indicator.factor [o.factor.id]
  rw [withinOutcome, withinOutcome, List.map_append, ← hgoal, ← hfactor]
  rfl

theorem withinEnablement_rename (hf : Function.Injective f) (e : EnablementMap) :
    withinEnablement (e.rename f) = (withinEnablement e).map (Fault.rename f) := by
  simp only [withinEnablement, e.ids_actions_rename, List.map_append]
  congr 1
  · congr 1
    · exact flatMap_rename (fun k =>
        unresolved_rename hf .skillAction k.id k.name k.action _) e.skills
    · exact flatMap_rename (fun k =>
        unresolved_rename hf .knowledgeAction k.id k.name k.action _) e.knowledge
  · exact flatMap_rename (fun k =>
      unresolved_rename hf .toolAction k.id k.name k.action _) e.tools

theorem firstPlace?_rename (hf : Function.Injective f) (id : String) (entries : List Entry) :
    firstPlace? (f id) (entries.map (Entry.rename f)) = firstPlace? id entries := by
  rw [firstPlace?, firstPlace?, List.find?_map, Option.map_map]
  simp [Entry.rename, Function.comp_def, hf.eq_iff]

theorem duplicatesAfter_rename (hf : Function.Injective f) (earlier entries : List Entry) :
    duplicatesAfter (earlier.map (Entry.rename f)) (entries.map (Entry.rename f)) =
      (duplicatesAfter earlier entries).map (Fault.rename f) := by
  induction entries generalizing earlier with
  | nil => rfl
  | cons e rest ih =>
    obtain ⟨collection, id⟩ := e
    have hearlier : earlier.map (Entry.rename f) ++ [(collection, f id)] =
        (earlier ++ [(collection, id)]).map (Entry.rename f) := by
      rw [List.map_append]
      rfl
    simp only [List.map_cons, Entry.rename, duplicatesAfter, List.map_append]
    rw [firstPlace?_rename hf, hearlier, ih]
    congr 1
    cases firstPlace? id earlier <;> rfl

end References

theorem Document.entries_rename (d : Document) :
    (d.rename f).entries = d.entries.map (Entry.rename f) := by
  cases d <;> simp [rename, entries, Entry.rename, Function.comp_def, JourneyMap.rename,
    Phase.rename, JourneyAction.rename, Blueprint.rename, Lane.rename, BlueprintTask.rename,
    Outcome.rename, Goal.rename, SuccessFactor.rename, Indicator.rename, EnablementMap.rename,
    EnablementOutcome.rename, EnablementAction.rename, Skill.rename, Resource.rename]

namespace ServiceMap

open References TaskFlow

theorem documents_rename (s : ServiceMap) :
    (s.rename f).documents = s.documents.map (Document.rename f) := by
  obtain ⟨j, b, o, e⟩ := s
  cases j <;> cases b <;> cases o <;> cases e <;> rfl

theorem entries_rename (s : ServiceMap) :
    (s.rename f).entries = s.entries.map (Entry.rename f) := by
  rw [entries, documents_rename]
  exact flatMap_rename Document.entries_rename s.documents

theorem faultsAcross_rename (hf : Function.Injective f) (h : f "" = "") (s : ServiceMap) :
    (s.rename f).faultsAcross = s.faultsAcross.map (Fault.rename f) := by
  simp only [faultsAcross, rename, List.map_append, both_rename (taskSources_rename hf h),
    both_rename (factorSource_rename hf h), both_rename (actionSources_rename hf h),
    both_rename (outcomeSources_rename hf h)]

theorem missingWithin_rename (hf : Function.Injective f) (s : ServiceMap) :
    (s.rename f).missingWithin = s.missingWithin.map (Fault.rename f) := by
  simp only [missingWithin, rename, List.map_append, each_rename (withinJourney_rename hf),
    each_rename (withinBlueprint_rename hf), each_rename (withinOutcome_rename hf),
    each_rename (withinEnablement_rename hf)]

theorem faultsWithin_rename (hf : Function.Injective f) (s : ServiceMap) :
    (s.rename f).faultsWithin = s.faultsWithin.map (Fault.rename f) := by
  rw [faultsWithin, faultsWithin, missingWithin_rename hf, entries_rename, List.map_append]
  exact congrArg _ (duplicatesAfter_rename hf [] s.entries)

end ServiceMap

theorem Verdict.ofFaults_rename (faults : List Fault) :
    ofFaults (faults.map (Fault.rename f)) = (ofFaults faults).rename f := by
  rw [ofFaults, List.isEmpty_map]
  rfl

/-! ### Lineages -/

theorem Blueprint.factorTask?_rename (hf : Function.Injective f) (h : f "" = "") (b : Blueprint)
    (o : Outcome) :
    (b.rename f).factorTask? (o.rename f) = (b.factorTask? o).map (BlueprintTask.rename f) := by
  have hsource : (o.rename f).factor.source = o.factor.source.map f := rfl
  rw [factorTask?, factorTask?, hsource, pointsTo?_rename hf h]
  cases pointsTo? o.factor.source with
  | none => rfl
  | some id => exact b.task?_rename hf id

theorem EnablementMap.actionsFor_rename (hf : Function.Injective f) (e : EnablementMap)
    (task : String) :
    (e.rename f).actionsFor (f task) = (e.actionsFor task).map (EnablementAction.rename f) := by
  simp [actionsFor, rename, EnablementAction.rename, List.filter_map, Function.comp_def, hf.eq_iff]

/-- A step that goes on from a renamed part goes on as from the part. -/
theorem bind_rename {α β : Type} {first : α → α} {second : β → β} {next next' : α → Option β}
    (h : ∀ a, next' (first a) = (next a).map second) (a : Option α) :
    (a.map first).bind next' = (a.bind next).map second := by
  cases a with
  | none => rfl
  | some a => exact h a

/-- A lineage is found step by step, and each step finds the renamed part. -/
theorem ServiceMap.lineage?_rename (hf : Function.Injective f) (h : f "" = "") (s : ServiceMap)
    (indicator : String) :
    (s.rename f).lineage? (f indicator) = (s.lineage? indicator).map (Lineage.rename f) := by
  apply bind_rename
  intro j
  apply bind_rename
  intro b
  apply bind_rename
  intro o
  apply bind_rename
  intro e
  have hcurrent : (o.rename f).indicator.id = f indicator ↔ o.indicator.id = indicator := hf.eq_iff
  by_cases hid : o.indicator.id = indicator
  · rw [if_pos (hcurrent.mpr hid), if_pos hid, b.factorTask?_rename hf h]
    apply bind_rename
    intro t
    have hsource : pointsTo? (t.rename f).source = (pointsTo? t.source).map f :=
      pointsTo?_rename hf h t.source
    rw [hsource]
    apply bind_rename
    intro source
    rw [JourneyMap.rename, find?_rename hf (JourneyAction.rename f) (·.id) fun _ => rfl]
    apply bind_rename
    intro a
    have hphase : (a.rename f).phase = f a.phase := rfl
    rw [hphase, find?_rename hf (Phase.rename f) (·.id) fun _ => rfl]
    apply bind_rename
    intro p
    have hmeasures : (e.rename f).actionsFor (t.rename f).id =
        (e.actionsFor t.id).map (EnablementAction.rename f) :=
      e.actionsFor_rename hf t.id
    rw [hmeasures]
    rfl
  · rw [if_neg (mt hcurrent.mp hid), if_neg hid]
    rfl

/-- Results depend on identifiers only through their equality. Under a renaming that keeps
different identifiers different and the empty text empty, both checks report the renamed faults, in
the same order: each of the same kind, from and to the same collections, with source and target
renamed. The lineage of a renamed indicator is the renamed lineage. A renamed blueprint has a cycle
if the blueprint has one, its tasks are ordered and reached in the same order, and the neighbours of
a renamed task are the renamed neighbours. -/
theorem ServiceMap.results_rename (f : String → String) (hf : Function.Injective f)
    (h : f "" = "") (s : ServiceMap) :
    (s.rename f).checkAcross = s.checkAcross.rename f ∧
    (s.rename f).checkWithin = s.checkWithin.rename f ∧
    (∀ v : Fault, (v.rename f).kindText = v.kindText ∧
      (v.rename f).sourceCollection = v.sourceCollection ∧
      (v.rename f).sourceId = f v.sourceId ∧
      (v.rename f).targetCollection = v.targetCollection ∧
      (v.rename f).targetId = f v.targetId) ∧
    (∀ k, (s.rename f).lineage? (f k) = (s.lineage? k).map (Lineage.rename f)) ∧
    ∀ b : Blueprint,
      (TaskFlow.ofBlueprint (b.rename f)).isCyclic = (TaskFlow.ofBlueprint b).isCyclic ∧
      (TaskFlow.ofBlueprint (b.rename f)).topologicalOrder? =
        (TaskFlow.ofBlueprint b).topologicalOrder?.map (List.map f) ∧
      ∀ id, (TaskFlow.ofBlueprint (b.rename f)).reach (f id) =
          ((TaskFlow.ofBlueprint b).reach id).map f ∧
        ((TaskFlow.ofBlueprint (b.rename f)).successors (f id)).Perm
          (((TaskFlow.ofBlueprint b).successors id).map f) ∧
        ((TaskFlow.ofBlueprint (b.rename f)).predecessors (f id)).Perm
          (((TaskFlow.ofBlueprint b).predecessors id).map f) := by
  refine ⟨?_, ?_, ?_, ?_, ?_⟩
  · rw [checkAcross, faultsAcross_rename hf h, Verdict.ofFaults_rename]
    rfl
  · rw [checkWithin, faultsWithin_rename hf, Verdict.ofFaults_rename]
    rfl
  · intro v
    simp
  · exact lineage?_rename hf h s
  · intro b
    rw [TaskFlow.ofBlueprint_rename hf]
    refine ⟨TaskFlow.isCyclic_rename hf _, TaskFlow.topologicalOrder?_rename hf _, fun id => ?_⟩
    exact ⟨TaskFlow.reach_rename hf _ id, TaskFlow.successors_rename hf _ id,
      TaskFlow.predecessors_rename hf _ id⟩

/-- The identifiers "a" and "b" change places, and with them their places in the alphabet; a link
to the empty text is reported before and after. -/
theorem ServiceMap.results_rename_swapped :
    let f : String → String := Equiv.swap "a" "b"
    let b : Blueprint := ⟨"1.0", "d", [⟨"l", "L", .team⟩], [⟨"a", "l", "A", none, ["b", ""], false⟩,
      ⟨"b", "l", "B", none, ["c"], false⟩, ⟨"c", "l", "C", none, [], false⟩], []⟩
    let s : ServiceMap := ⟨none, some b, none, none⟩
    Function.Injective f ∧ f "" = "" ∧
      (s.rename f).checkWithin.faults = [.missing .taskLink "b" "A" ""] ∧
      (TaskFlow.ofBlueprint (b.rename f)).topologicalOrder? = some ["b", "a", "c"] ∧
      (TaskFlow.ofBlueprint (b.rename f)).reach "b" = ["a", "c"] := by
  intro f b s
  have hf : Function.Injective f := (Equiv.swap "a" "b").injective
  have h : f "" = "" := by decide +kernel
  obtain ⟨-, hwithin, -, -, hflow⟩ := ServiceMap.results_rename f hf h s
  obtain ⟨-, horder, hneighbours⟩ := hflow b
  refine ⟨hf, h, ?_, ?_, ?_⟩
  · rw [hwithin]
    decide +kernel
  · rw [horder]
    decide +kernel
  · have hb : f "a" = "b" := by decide +kernel
    rw [← hb, (hneighbours "a").1]
    decide +kernel

end ServiceMaps
