import Mathlib.Data.List.Perm.Basic
import ServiceMaps.Proofs.Lineage
import ServiceMaps.Proofs.TaskFlow.Distance
import ServiceMaps.Proofs.TaskFlow.Order

/-!
Service maps with their parts in another order. Lookups take the first match, and walks through the
graph of tasks go along the lists; still no answer depends on the order, except for the order in
which it lists things. The reason is that the checks only ask what is in a list, that the graph is
told by its links and not by their order, and that a lookup has only one match if no identifier is
used twice.
-/
namespace ServiceMaps

open References
open scoped List

/-- A list in another order, with each element replaced by one that `r` relates it to. -/
def ReorderedBy {α : Type} (r : α → α → Prop) (l l' : List α) : Prop :=
  ∃ m, l ~ m ∧ List.Forall₂ r m l'

namespace ReorderedBy

variable {α β : Type} {r : α → α → Prop} {l l' : List α}

theorem symm (hr : ∀ a b, r a b → r b a) (h : ReorderedBy r l l') : ReorderedBy r l' l := by
  obtain ⟨m, hperm, hrel⟩ := h
  -- The elements may as well be replaced first and put in order then.
  obtain ⟨m', hrel', hperm'⟩ := List.perm_comp_forall₂ hperm hrel
  exact ⟨m', hperm'.symm, hrel'.flip.imp fun a b => hr b a⟩

theorem exists_of_mem (h : ReorderedBy r l l') {a : α} (ha : a ∈ l) : ∃ b ∈ l', r a b := by
  obtain ⟨m, hperm, hrel⟩ := h
  have hm : a ∈ m := hperm.mem_iff.mp ha
  clear hperm ha
  induction hrel with
  | nil => simp at hm
  | @cons x y _ _ hxy _ ih =>
    rcases List.mem_cons.mp hm with rfl | hm
    · exact ⟨y, List.mem_cons_self, hxy⟩
    · obtain ⟨b, hb, hab⟩ := ih hm
      exact ⟨b, List.mem_cons_of_mem _ hb, hab⟩

theorem flatMap_perm (h : ReorderedBy r l l') {f g : α → List β} (hf : ∀ a b, r a b → f a ~ g b) :
    l.flatMap f ~ l'.flatMap g := by
  obtain ⟨m, hperm, hrel⟩ := h
  refine (hperm.flatMap_right f).trans ?_
  clear hperm
  induction hrel with
  | nil => exact .nil
  | cons hxy _ ih =>
    rw [List.flatMap_cons, List.flatMap_cons]
    exact (hf _ _ hxy).append ih

theorem map_perm (h : ReorderedBy r l l') {f g : α → β} (hf : ∀ a b, r a b → f a = g b) :
    l.map f ~ l'.map g := by
  rw [List.map_eq_flatMap, List.map_eq_flatMap]
  exact h.flatMap_perm fun a b hab => by rw [hf a b hab]

end ReorderedBy

/-- The task with its links in another order. -/
structure BlueprintTask.Reordered (t t' : BlueprintTask) : Prop where
  links : t.links ~ t'.links
  others : t' = { t with links := t'.links }

/-- The journey with its phases and actions in another order. -/
structure JourneyMap.Reordered (j j' : JourneyMap) : Prop where
  phases : j.phases ~ j'.phases
  actions : j.actions ~ j'.actions
  others : j' = { j with phases := j'.phases, actions := j'.actions }

/-- The blueprint with its lanes, its tasks and the links of each task in another order. -/
structure Blueprint.Reordered (b b' : Blueprint) : Prop where
  lanes : b.lanes ~ b'.lanes
  tasks : ReorderedBy BlueprintTask.Reordered b.tasks b'.tasks
  others : b' = { b with lanes := b'.lanes, tasks := b'.tasks }

/-- The enablement map with its five lists in another order. -/
structure EnablementMap.Reordered (e e' : EnablementMap) : Prop where
  outcomes : e.outcomes ~ e'.outcomes
  actions : e.actions ~ e'.actions
  skills : e.skills ~ e'.skills
  knowledge : e.knowledge ~ e'.knowledge
  tools : e.tools ~ e'.tools
  others : e' = { e with
    outcomes := e'.outcomes, actions := e'.actions, skills := e'.skills,
    knowledge := e'.knowledge, tools := e'.tools }

/-- The same documents with their parts in another order. -/
structure ServiceMap.Reordered (s s' : ServiceMap) : Prop where
  journey : Option.Rel JourneyMap.Reordered s.journey s'.journey
  blueprint : Option.Rel Blueprint.Reordered s.blueprint s'.blueprint
  outcome : s'.outcome = s.outcome
  enablement : Option.Rel EnablementMap.Reordered s.enablement s'.enablement

/-- The same lineage with its measures and the links of its task in another order. -/
structure Lineage.Reordered (c c' : Lineage) : Prop where
  task : c.task.Reordered c'.task
  measures : c.measures ~ c'.measures
  others : c' = { c with task := c'.task, measures := c'.measures }

namespace BlueprintTask.Reordered

variable {t t' : BlueprintTask}

theorem symm (h : t.Reordered t') : t'.Reordered t := ⟨h.links.symm, by rw [h.others]⟩

theorem id (h : t.Reordered t') : t'.id = t.id := by rw [h.others]

theorem name (h : t.Reordered t') : t'.name = t.name := by rw [h.others]

theorem lane (h : t.Reordered t') : t'.lane = t.lane := by rw [h.others]

theorem source (h : t.Reordered t') : t'.source = t.source := by rw [h.others]

end BlueprintTask.Reordered

section Documents

variable {j j' : JourneyMap} {b b' : Blueprint} {e e' : EnablementMap}

theorem JourneyMap.Reordered.symm (h : j.Reordered j') : j'.Reordered j :=
  ⟨h.phases.symm, h.actions.symm, by rw [h.others]⟩

theorem Blueprint.Reordered.symm (h : b.Reordered b') : b'.Reordered b :=
  ⟨h.lanes.symm, h.tasks.symm fun _ _ ht => ht.symm, by rw [h.others]⟩

theorem EnablementMap.Reordered.symm (h : e.Reordered e') : e'.Reordered e :=
  ⟨h.outcomes.symm, h.actions.symm, h.skills.symm, h.knowledge.symm, h.tools.symm,
    by rw [h.others]⟩

theorem rel_symm {α : Type} {r : α → α → Prop} (hr : ∀ a b, r a b → r b a) {x y : Option α}
    (h : Option.Rel r x y) : Option.Rel r y x := by
  cases h with
  | none => exact .none
  | some hxy => exact .some (hr _ _ hxy)

theorem ServiceMap.Reordered.symm {s s' : ServiceMap} (h : s.Reordered s') : s'.Reordered s :=
  ⟨rel_symm (fun _ _ hj => hj.symm) h.journey, rel_symm (fun _ _ hb => hb.symm) h.blueprint,
    h.outcome.symm, rel_symm (fun _ _ he => he.symm) h.enablement⟩

/-! ### Identifiers -/

theorem JourneyMap.Reordered.ids (h : j.Reordered j') :
    (Document.journey j).ids ~ (Document.journey j').ids := by
  have hid : j'.id = j.id := by rw [h.others]
  simp only [Document.ids, Document.entries, List.map_append, List.map_cons, List.map_map, hid]
  exact ((h.phases.map _).cons _).append (h.actions.map _)

theorem Blueprint.Reordered.taskIds (h : b.Reordered b') :
    b.tasks.map (·.id) ~ b'.tasks.map (·.id) :=
  h.tasks.map_perm fun _ _ ht => ht.id.symm

theorem Blueprint.Reordered.ids (h : b.Reordered b') :
    (Document.blueprint b).ids ~ (Document.blueprint b').ids := by
  have hid : b'.id = b.id := by rw [h.others]
  simp only [Document.ids, Document.entries, List.map_append, List.map_cons, List.map_map, hid]
  exact ((h.lanes.map _).cons _).append h.taskIds

theorem EnablementMap.Reordered.ids (h : e.Reordered e') :
    (Document.enablement e).ids ~ (Document.enablement e').ids := by
  have hid : e'.id = e.id := by rw [h.others]
  simp only [Document.ids, Document.entries, List.map_append, List.map_cons, List.map_map, hid]
  exact (((((h.outcomes.map _).cons _).append (h.actions.map _)).append (h.skills.map _)).append
    (h.knowledge.map _)).append (h.tools.map _)

end Documents

theorem exists_of_rel {α : Type} {r : α → α → Prop} {x y : Option α} (h : Option.Rel r x y) {a : α}
    (hx : x = some a) : ∃ b, y = some b ∧ r a b := by
  cases h with
  | none => cases hx
  | some hab =>
    obtain rfl := Option.some.inj hx
    exact ⟨_, rfl, hab⟩

/-- What is made of a document in another order is in another order. -/
theorem toList_flatMap_perm {α β : Type} {r : α → α → Prop} {f : α → List β} {x y : Option α}
    (h : Option.Rel r x y) (hf : ∀ a b, r a b → f a ~ f b) :
    x.toList.flatMap f ~ y.toList.flatMap f := by
  cases h with
  | none => exact .nil
  | some hxy => simpa using hf _ _ hxy

theorem ServiceMap.Reordered.ids {s s' : ServiceMap} (h : s.Reordered s') : s.ids ~ s'.ids := by
  rw [ServiceMap.ids_eq, ServiceMap.ids_eq]
  refine List.Perm.flatMap_left _ fun k _ => ?_
  cases k <;> simp only [ServiceMap.get?, Option.toList_map, List.flatMap_map]
  case journey => exact toList_flatMap_perm h.journey fun _ _ hj => hj.ids
  case blueprint => exact toList_flatMap_perm h.blueprint fun _ _ hb => hb.ids
  case outcome => rw [h.outcome]
  case enablement => exact toList_flatMap_perm h.enablement fun _ _ he => he.ids

namespace References

variable {j j' : JourneyMap} {b b' : Blueprint} {o : Outcome} {e e' : EnablementMap}

/-! ### The checks ask what is in a list, not where -/

theorem unresolved_perm {ids ids' : List String} (h : ids ~ ids') (r : Reference)
    (id name target : String) :
    unresolved r id name target ids = unresolved r id name target ids' := by
  simp only [unresolved, h.contains_eq]

theorem unresolvedSet_perm {ids ids' : List String} (h : ids ~ ids') (r : Reference)
    (id name : String) (target : Option String) :
    unresolvedSet r id name target ids = unresolvedSet r id name target ids' := by
  simp only [unresolvedSet, unresolved_perm h]

theorem both_perm {α β : Type} {ra : α → α → Prop} {rb : β → β → Prop} {check : α → β → List Fault}
    {x x' : Option α} {y y' : Option β} (hx : Option.Rel ra x x') (hy : Option.Rel rb y y')
    (h : ∀ a a' b b', ra a a' → rb b b' → check a b ~ check a' b') :
    both check x y ~ both check x' y' := by
  cases hx with
  | none => exact .nil
  | some ha =>
    cases hy with
    | none => exact .nil
    | some hb => exact h _ _ _ _ ha hb

theorem taskSources_perm (hb : b.Reordered b') (hj : j.Reordered j') :
    taskSources b j ~ taskSources b' j' := by
  refine hb.tasks.flatMap_perm fun t t' ht => ?_
  rw [unresolvedSet_perm (hj.actions.map _), ht.id, ht.name, ht.source]

theorem factorSource_perm (hb : b.Reordered b') : factorSource o b ~ factorSource o b' := by
  rw [factorSource, factorSource, unresolvedSet_perm hb.taskIds]

theorem actionSources_perm (he : e.Reordered e') (hb : b.Reordered b') :
    actionSources e b ~ actionSources e' b' :=
  he.actions.flatMap fun a _ => by rw [unresolvedSet_perm hb.taskIds]

theorem withinJourney_perm (hj : j.Reordered j') : withinJourney j ~ withinJourney j' :=
  hj.actions.flatMap fun a _ => by rw [unresolved_perm (hj.phases.map _)]

theorem withinTask_perm (hb : b.Reordered b') {t t' : BlueprintTask} (ht : t.Reordered t') :
    withinTask b t ~ withinTask b' t' := by
  simp only [withinTask, unresolved_perm (hb.lanes.map _), unresolved_perm hb.taskIds, ht.id,
    ht.name, ht.lane]
  exact (ht.links.flatMap_right _).append_left _

theorem withinBlueprint_perm (hb : b.Reordered b') : withinBlueprint b ~ withinBlueprint b' :=
  hb.tasks.flatMap_perm fun _ _ ht => withinTask_perm hb ht

theorem withinEnablement_perm (he : e.Reordered e') :
    withinEnablement e ~ withinEnablement e' := by
  simp only [withinEnablement, unresolved_perm (he.actions.map _)]
  exact ((he.skills.flatMap_right _).append (he.knowledge.flatMap_right _)).append
    (he.tools.flatMap_right _)

theorem each_eq_flatMap {α : Type} (check : α → List Fault) (document : Option α) :
    each check document = document.toList.flatMap check := by
  cases document <;> simp [each]

end References

namespace ServiceMap.Reordered

variable {s s' : ServiceMap}

theorem faultsAcross (h : s.Reordered s') : s.faultsAcross ~ s'.faultsAcross := by
  have houtcome : Option.Rel Eq s.outcome s'.outcome := by
    rw [h.outcome]
    cases s.outcome with
    | none => exact .none
    | some o => exact .some rfl
  refine (((both_perm h.blueprint h.journey ?_).append (both_perm houtcome h.blueprint ?_)).append
    (both_perm h.enablement h.blueprint ?_)).append (both_perm h.enablement houtcome ?_)
  · exact fun _ _ _ _ hb hj => taskSources_perm hb hj
  · rintro o _ _ _ rfl hb
    exact factorSource_perm hb
  · exact fun _ _ _ _ he hb => actionSources_perm he hb
  · rintro _ _ o _ he rfl
    exact he.outcomes.flatMap_right _

theorem missingWithin (h : s.Reordered s') : s.missingWithin ~ s'.missingWithin := by
  simp only [ServiceMap.missingWithin, each_eq_flatMap, h.outcome]
  refine (((toList_flatMap_perm h.journey ?_).append (toList_flatMap_perm h.blueprint ?_)).append
    (.refl _)).append (toList_flatMap_perm h.enablement ?_)
  · exact fun _ _ hj => withinJourney_perm hj
  · exact fun _ _ hb => withinBlueprint_perm hb
  · exact fun _ _ he => withinEnablement_perm he

/-- How many identifiers are reported as used twice is told by the identifiers alone. -/
theorem length_duplicates (h : s.Reordered s') :
    (duplicates s.entries).length = (duplicates s'.entries).length := by
  have hcard := References.length_duplicates s.entries
  have hcard' := References.length_duplicates s'.entries
  have hids : s.ids ~ s'.ids := h.ids
  have hsame : (s.entries.map (·.2)).dedup.length = (s'.entries.map (·.2)).dedup.length :=
    hids.dedup.length_eq
  have hlength : s.entries.length = s'.entries.length := by
    simpa [ServiceMap.ids] using hids.length_eq
  omega

end ServiceMap.Reordered

/-! ### The graph of tasks -/

namespace Blueprint.Reordered

open TaskFlow

variable {b b' : Blueprint}

theorem mem_taskIds (h : b.Reordered b') {id : String} :
    (∃ t ∈ b.tasks, t.id = id) ↔ ∃ t ∈ b'.tasks, t.id = id := by
  simpa using h.taskIds.mem_iff (a := id)

theorem linksTo_of_linksTo (h : b.Reordered b') {x y : String} (hxy : b.LinksTo x y) :
    b'.LinksTo x y := by
  obtain ⟨⟨t, ht, rfl, hlink⟩, hy⟩ := hxy
  obtain ⟨t', ht', htt'⟩ := h.tasks.exists_of_mem ht
  exact ⟨⟨t', ht', htt'.id, htt'.links.mem_iff.mp hlink⟩, h.mem_taskIds.mp hy⟩

theorem linksTo_eq (h : b.Reordered b') : b.LinksTo = b'.LinksTo := by
  funext x y
  exact propext ⟨h.linksTo_of_linksTo, h.symm.linksTo_of_linksTo⟩

theorem onCycle_iff (h : b.Reordered b') :
    (∃ a ∈ (ofBlueprint b).ids, Relation.TransGen (ofBlueprint b).Link a a) ↔
      ∃ a ∈ (ofBlueprint b').ids, Relation.TransGen (ofBlueprint b').Link a a := by
  simp only [mem_ids_ofBlueprint, link_ofBlueprint_eq, h.linksTo_eq, h.mem_taskIds]

theorem isCyclic (h : b.Reordered b') :
    (ofBlueprint b).isCyclic = (ofBlueprint b').isCyclic := by
  rw [Bool.eq_iff_iff, isCyclic_iff (wellFormed_ofBlueprint b),
    isCyclic_iff (wellFormed_ofBlueprint b')]
  exact h.onCycle_iff

theorem isSome_topologicalOrder? (h : b.Reordered b') :
    (ofBlueprint b).topologicalOrder?.isSome = (ofBlueprint b').topologicalOrder?.isSome := by
  have hnone : (ofBlueprint b).topologicalOrder? = none ↔
      (ofBlueprint b').topologicalOrder? = none := by
    rw [topologicalOrder?_eq_none_iff (wellFormed_ofBlueprint b),
      topologicalOrder?_eq_none_iff (wellFormed_ofBlueprint b')]
    exact h.onCycle_iff
  rw [Bool.eq_iff_iff, ← not_iff_not, Bool.not_eq_true, Bool.not_eq_true,
    Option.isSome_eq_false_iff, Option.isSome_eq_false_iff, Option.isNone_iff_eq_none,
    Option.isNone_iff_eq_none]
  exact hnone

/-- The same tasks are reached, though those at one distance may be met in another order. -/
theorem reach (h : b.Reordered b') (id : String) :
    (ofBlueprint b).reach id ~ (ofBlueprint b').reach id := by
  refine (List.perm_ext_iff_of_nodup (nodup_beyond _ _ _) (nodup_beyond _ _ _)).mpr fun a => ?_
  have hmem := mem_reach (wellFormed_ofBlueprint b) (a := id) (b := a)
  have hmem' := mem_reach (wellFormed_ofBlueprint b') (a := id) (b := a)
  rw [link_ofBlueprint_eq, h.linksTo_eq] at hmem
  rw [link_ofBlueprint_eq] at hmem'
  exact hmem.trans hmem'.symm

end Blueprint.Reordered

/-! ### Lineages -/

/-- A lineage in one order of the parts goes over into one in the other order. -/
theorem Lineage.Traces.reordered {j j' : JourneyMap} {b b' : Blueprint} {o : Outcome}
    {e e' : EnablementMap} {c : Lineage} (hc : c.Traces j b o e) (hj : j.Reordered j')
    (hb : b.Reordered b') (he : e.Reordered e') :
    ∃ c' : Lineage, c'.Traces j' b' o e' ∧ c.Reordered c' := by
  obtain ⟨t, ht, hct⟩ := hb.tasks.exists_of_mem hc.task_mem
  let c' : Lineage :=
    { c with task := t, measures := e'.actions.filter (·.source = c.task.id) }
  have htraces : c'.Traces j' b' o e' := {
    indicator := hc.indicator
    task_mem := ht
    task := hc.task.trans (congrArg some hct.id.symm)
    action_mem := hj.actions.mem_iff.mp hc.action_mem
    action := (congrArg pointsTo? hct.source).trans hc.action
    phase_mem := hj.phases.mem_iff.mp hc.phase_mem
    phase := hc.phase
    measures := by simp only [c', hct.id] }
  refine ⟨c', htraces, hct, ?_, rfl⟩
  rw [hc.measures]
  exact he.actions.filter _

namespace ServiceMap.Reordered

variable {s s' : ServiceMap}

/-- A lineage that is found in one order of the parts is found in every order. -/
theorem lineage?_of_some (h : s.Reordered s') (hids : s.ids.Nodup) {indicator : String}
    {c : Lineage} (hc : s.lineage? indicator = some c) :
    ∃ c', s'.lineage? indicator = some c' ∧ c.Reordered c' := by
  obtain ⟨j, b, o, e, hj, hb, ho, he⟩ := documents_of_lineage? hc
  obtain ⟨j', hj', hjj⟩ := exists_of_rel h.journey hj
  obtain ⟨b', hb', hbb⟩ := exists_of_rel h.blueprint hb
  obtain ⟨e', he', hee⟩ := exists_of_rel h.enablement he
  have ho' : s'.outcome = some o := h.outcome.trans ho
  obtain ⟨hindicator, htraces⟩ := (lineage?_eq_some_iff hj hb ho he hids).mp hc
  obtain ⟨c', htraces', hcc⟩ := htraces.reordered hjj hbb hee
  have hids' : s'.ids.Nodup := h.ids.nodup_iff.mp hids
  exact ⟨c', (lineage?_eq_some_iff hj' hb' ho' he' hids').mpr ⟨hindicator, htraces'⟩, hcc⟩

theorem lineage? (h : s.Reordered s') (hids : s.ids.Nodup) (indicator : String) :
    Option.Rel Lineage.Reordered (s.lineage? indicator) (s'.lineage? indicator) := by
  cases hc : s.lineage? indicator with
  | some c =>
    obtain ⟨c', hc', hcc⟩ := h.lineage?_of_some hids hc
    rw [hc']
    exact .some hcc
  | none =>
    cases hc' : s'.lineage? indicator with
    | none => exact .none
    | some c' =>
      obtain ⟨c, hsome, -⟩ := h.symm.lineage?_of_some (h.ids.nodup_iff.mp hids) hc'
      rw [hc] at hsome
      cases hsome

end ServiceMap.Reordered

namespace ServiceMap

/-- No answer depends on the order of the parts in their documents, except for the order in which it
lists things. Both checks report the same references, and the check inside documents reports as many
identifiers that are used twice; the graph of tasks has a cycle or an order in both maps or in none,
and the same tasks are reached from a task. If no identifier is used twice, the indicators have the
same lineages, up to the order of their measures and of the links of their task. -/
theorem results_reordered {s s' : ServiceMap} (h : s.Reordered s') :
    s.checkAcross.faults ~ s'.checkAcross.faults ∧
    s.checkWithin.faults.filter (·.kindText = "missing_reference") ~
      s'.checkWithin.faults.filter (·.kindText = "missing_reference") ∧
    (s.checkWithin.faults.filter (·.kindText = "duplicate_id")).length =
      (s'.checkWithin.faults.filter (·.kindText = "duplicate_id")).length ∧
    (s.checkAcross.valid = s'.checkAcross.valid ∧ s.checkWithin.valid = s'.checkWithin.valid) ∧
    (∀ b b', s.blueprint = some b → s'.blueprint = some b' →
      (TaskFlow.ofBlueprint b).isCyclic = (TaskFlow.ofBlueprint b').isCyclic ∧
      (TaskFlow.ofBlueprint b).topologicalOrder?.isSome =
        (TaskFlow.ofBlueprint b').topologicalOrder?.isSome ∧
      ∀ id, (TaskFlow.ofBlueprint b).reach id ~ (TaskFlow.ofBlueprint b').reach id) ∧
    ((∀ f ∈ s.checkWithin.faults, f.kindText ≠ "duplicate_id") → ∀ indicator,
      Option.Rel Lineage.Reordered (s.lineage? indicator) (s'.lineage? indicator)) := by
  have hmissing := h.missingWithin
  have hduplicates := h.length_duplicates
  have hvalid : s.checkWithin.valid = s'.checkWithin.valid := by
    rw [Bool.eq_iff_iff]
    simp only [checkWithin, Verdict.ofFaults, faultsWithin, List.isEmpty_iff_length_eq_zero,
      List.length_append, hmissing.length_eq, hduplicates]
  simp only [checkWithin, Verdict.ofFaults, filter_missing_faultsWithin,
    filter_duplicate_faultsWithin]
  refine ⟨h.faultsAcross, hmissing, hduplicates, ⟨h.faultsAcross.isEmpty_eq, hvalid⟩, ?_, ?_⟩
  · intro b b' hb hb'
    have hrel := h.blueprint
    rw [hb, hb'] at hrel
    cases hrel with
    | some hbb => exact ⟨hbb.isCyclic, hbb.isSome_topologicalOrder?, hbb.reach⟩
  · intro hunique
    refine h.lineage? (unique_iff_nodup_ids.mp fun f hf => ?_)
    simpa [Fault.kindText] using hunique f hf

/-- Tasks on a cycle and the measures for one of them: both orders of the links give a walk of their
own, and the measures are listed as they stand. -/
theorem results_reordered_walks :
    let j : JourneyMap := ⟨"1", "j", none, [⟨"p", "P"⟩], [⟨"a", "A", "p", [], [], 0⟩], []⟩
    let t (links : List String) : BlueprintTask := ⟨"t", "l", "T", some "a", links, false⟩
    let u : BlueprintTask := ⟨"u", "x", "U", none, ["t", "y"], false⟩
    let v : BlueprintTask := ⟨"v", "x", "V", some "z", [], false⟩
    let b (tasks : List BlueprintTask) : Blueprint := ⟨"1", "b", [⟨"l", "L", .team⟩], tasks, []⟩
    let o : Outcome := ⟨"1", "o", ⟨"g", ""⟩, ⟨"f", "g", some "t", ""⟩,
      ⟨"k", "f", "", none, none, .zero false⟩, []⟩
    let e (actions : List EnablementAction) : EnablementMap :=
      ⟨"1", "e", [], actions, [], [], [], []⟩
    let s : ServiceMap :=
      ⟨some j, some (b [t ["u", "v"], u, v]), some o, some (e [⟨"m", "M", "t"⟩, ⟨"n", "N", "t"⟩])⟩
    let s' : ServiceMap :=
      ⟨some j, some (b [v, u, t ["v", "u"]]), some o, some (e [⟨"n", "N", "t"⟩, ⟨"m", "M", "t"⟩])⟩
    s.Reordered s' ∧ s.faultsAcross ≠ [] ∧ s.missingWithin ≠ s'.missingWithin ∧
      s.missingWithin ~ s'.missingWithin ∧
      Option.Rel Lineage.Reordered (s.lineage? "k") (s'.lineage? "k") := by
  intro j t u v b o e s s'
  have h : s.Reordered s' := {
    journey := .some ⟨.refl _, .refl _, rfl⟩
    blueprint := .some {
      lanes := .refl _
      tasks := ⟨[v, u, t ["u", "v"]], by decide +kernel,
        .cons ⟨.refl _, rfl⟩ (.cons ⟨.refl _, rfl⟩ (.cons ⟨.swap _ _ _, rfl⟩ .nil))⟩
      others := rfl }
    outcome := rfl
    enablement := .some
      ⟨.refl _, .swap _ _ _, .refl _, .refl _, .refl _, rfl⟩ }
  have hunique : ∀ f ∈ s.checkWithin.faults, f.kindText ≠ "duplicate_id" := by decide +kernel
  have hresults := results_reordered h
  refine ⟨h, by decide +kernel, by decide +kernel, ?_, hresults.2.2.2.2.2 hunique "k"⟩
  simpa only [checkWithin, Verdict.ofFaults, filter_missing_faultsWithin] using hresults.2.1

/-- A lineage shows its task with the links in the order of the document. -/
theorem lineage?_shows_links :
    let j : JourneyMap := ⟨"1.0", "j", none, [⟨"p", "P"⟩], [⟨"a", "A", "p", [], [], 0⟩], []⟩
    let t (links : List String) : BlueprintTask := ⟨"t", "l", "T", some "a", links, false⟩
    let u : BlueprintTask := ⟨"u", "l", "U", none, [], false⟩
    let b (tasks : List BlueprintTask) : Blueprint := ⟨"1.0", "b", [⟨"l", "L", .team⟩], tasks, []⟩
    let o : Outcome := ⟨"1.0", "o", ⟨"g", "G"⟩, ⟨"f", "g", some "t", "r"⟩,
      ⟨"k", "f", "K", none, none, .ofInt 1⟩, []⟩
    let e : EnablementMap := ⟨"1.0", "e", [], [], [], [], [], []⟩
    let s : ServiceMap := ⟨some j, some (b [t ["u", "t"], u]), some o, some e⟩
    let s' : ServiceMap := ⟨some j, some (b [t ["t", "u"], u]), some o, some e⟩
    s.Reordered s' ∧ s.checkWithin.faults = [] ∧ (s'.lineage? "k").isSome = true ∧
      (s.lineage? "k").map (·.task) ≠ (s'.lineage? "k").map (·.task) := by
  intro j t u b o e s s'
  have h : s.Reordered s' := {
    journey := .some ⟨.refl _, .refl _, rfl⟩
    blueprint := .some {
      lanes := .refl _
      tasks := ⟨[t ["u", "t"], u], .refl _, .cons ⟨.swap _ _ _, rfl⟩ (.cons ⟨.refl _, rfl⟩ .nil)⟩
      others := rfl }
    outcome := rfl
    enablement := .some ⟨.refl _, .refl _, .refl _, .refl _, .refl _, rfl⟩ }
  exact ⟨h, by decide +kernel, by decide +kernel, by decide +kernel⟩

end ServiceMap

end ServiceMaps
