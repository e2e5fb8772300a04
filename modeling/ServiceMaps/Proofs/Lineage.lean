import Mathlib.Data.List.Nodup
import ServiceMaps.Lineage
import ServiceMaps.Proofs.References.Across
import ServiceMaps.Proofs.References.Within

/-!
Lineages and the checks of references agree. If no identifier is used twice, an indicator has a
lineage exactly if each reference on the way is set and neither check reports it; the lineage is
then the only one.
-/
namespace ServiceMaps

open References

/-- The lineage follows the references of four documents. -/
structure Lineage.Traces (j : JourneyMap) (b : Blueprint) (o : Outcome) (e : EnablementMap)
    (c : Lineage) : Prop where
  indicator : c.indicator = o.indicator
  task_mem : c.task ∈ b.tasks
  task : pointsTo? o.factor.source = some c.task.id
  action_mem : c.action ∈ j.actions
  action : pointsTo? c.task.source = some c.action.id
  phase_mem : c.phase ∈ j.phases
  phase : c.phase.id = c.action.phase
  measures : c.measures = e.actions.filter (·.source = c.task.id)

/-- None of the faults has its source in the part `id` of a collection. -/
def References.Clear (faults : List Fault) (c : Collection) (id : String) : Prop :=
  ∀ f ∈ faults, ¬ (f.sourceCollection = c ∧ f.sourceId = id)

/-- Where identifiers are different, the first part with an identifier is the only one. -/
theorem find?_eq_some_iff_of_nodup {α : Type} {f : α → String} {l : List α}
    (h : (l.map f).Nodup) {id : String} {a : α} :
    l.find? (f · = id) = some a ↔ a ∈ l ∧ f a = id := by
  constructor
  · intro ha
    exact ⟨List.mem_of_find?_eq_some ha, by simpa using List.find?_some ha⟩
  · rintro ⟨ha, rfl⟩
    cases hb : l.find? (f · = f a) with
    | none => simpa using List.find?_eq_none.mp hb a ha
    | some b =>
      have hfb : f b = f a := by simpa using List.find?_some hb
      rw [List.inj_on_of_nodup_map h (List.mem_of_find?_eq_some hb) ha hfb]

namespace ServiceMap

variable {s : ServiceMap} {j : JourneyMap} {b : Blueprint} {o : Outcome} {e : EnablementMap}

/-- The check between documents reports nothing of the success factor exactly if its reference is
unset or names a task. -/
theorem clear_factor_iff (hb : s.blueprint = some b) (ho : s.outcome = some o) :
    (∀ f ∈ s.faultsAcross, f.sourceCollection ≠ .factor) ↔
      ∀ id, pointsTo? o.factor.source = some id → ∃ t ∈ b.tasks, t.id = id := by
  have hd : s.get? Collection.task.kind = some (.blueprint b) := by
    simp [Collection.kind, get?, hb]
  refine (forall_faultsAcross (P := fun p => p.source ≠ .factor)).trans ?_
  constructor
  · intro h id hid
    by_contra hno
    refine h ⟨.factor, o.factor.id, .task, o.factor.source⟩ ?_ ?_ rfl
    · exact mem_pointersAcross.mpr (.inr (.inl ⟨o, ho, rfl⟩))
    · exact (dangles_iff hd).mpr ⟨id, hid, by simpa [Document.entries] using hno⟩
  · intro h p hp hdangles hsource
    rcases mem_pointersAcross.mp hp with ⟨_, -, _, -, rfl⟩ | ⟨o', ho', rfl⟩ | ⟨_, -, _, -, rfl⟩ |
      ⟨_, -, _, -, rfl⟩
    · cases hsource
    · obtain rfl : o = o' := Option.some.inj (ho.symm.trans ho')
      obtain ⟨id, hid, hno⟩ := (dangles_iff hd).mp hdangles
      obtain ⟨t, ht, rfl⟩ := h id hid
      exact hno (by simpa [Document.entries] using ⟨t, ht, rfl⟩)
    · cases hsource
    · cases hsource

/-- The check between documents reports nothing of a task exactly if its reference is unset or names
a journey action. -/
theorem clear_task_iff (hj : s.journey = some j) (hb : s.blueprint = some b)
    (htasks : (b.tasks.map (·.id)).Nodup) {t : BlueprintTask} (ht : t ∈ b.tasks) :
    Clear s.faultsAcross .task t.id ↔
      ∀ id, pointsTo? t.source = some id → ∃ a ∈ j.actions, a.id = id := by
  have hd : s.get? Collection.journeyAction.kind = some (.journey j) := by
    simp [Collection.kind, get?, hj]
  refine (forall_faultsAcross (P := fun p => ¬ (p.source = .task ∧ p.id = t.id))).trans ?_
  constructor
  · intro h id hid
    by_contra hno
    refine h ⟨.task, t.id, .journeyAction, t.source⟩ ?_ ?_ ⟨rfl, rfl⟩
    · exact mem_pointersAcross.mpr (.inl ⟨b, hb, t, ht, rfl⟩)
    · exact (dangles_iff hd).mpr ⟨id, hid, by simpa [Document.entries] using hno⟩
  · rintro h p hp hdangles ⟨hsource, hid⟩
    rcases mem_pointersAcross.mp hp with ⟨b', hb', u, hu, rfl⟩ | ⟨_, -, rfl⟩ | ⟨_, -, _, -, rfl⟩ |
      ⟨_, -, _, -, rfl⟩
    · obtain rfl : b = b' := Option.some.inj (hb.symm.trans hb')
      obtain rfl : u = t := List.inj_on_of_nodup_map htasks hu ht hid
      obtain ⟨id, hid, hno⟩ := (dangles_iff hd).mp hdangles
      obtain ⟨a, ha, rfl⟩ := h id hid
      exact hno (by simpa [Document.entries] using ⟨a, ha, rfl⟩)
    · cases hsource
    · cases hsource
    · cases hsource

/-- The check inside documents reports nothing of a journey action exactly if its phase exists. -/
theorem clear_action_iff (hj : s.journey = some j) (hactions : (j.actions.map (·.id)).Nodup)
    {a : JourneyAction} (ha : a ∈ j.actions) :
    Clear s.missingWithin .journeyAction a.id ↔ ∃ p ∈ j.phases, p.id = a.phase := by
  have hd : s.get? Collection.phase.kind = some (.journey j) := by
    simp [Collection.kind, get?, hj]
  refine (forall_missingWithin (P := fun p => ¬ (p.source = .journeyAction ∧ p.id = a.id))).trans ?_
  constructor
  · intro h
    by_contra hno
    refine h ⟨.journeyAction, a.id, .phase, some a.phase⟩ ?_ ?_ ⟨rfl, rfl⟩
    · exact mem_pointersWithin.mpr (.inl ⟨j, hj, a, ha, rfl⟩)
    · rw [Pointer.misses_of_get? hd]
      simpa [Document.entries] using hno
  · rintro ⟨phase, hphase, hname⟩ p hp hmisses ⟨hsource, hid⟩
    rcases mem_pointersWithin.mp hp with ⟨j', hj', u, hu, rfl⟩ | ⟨_, -, _, -, rfl | ⟨_, -, rfl⟩⟩ |
      ⟨_, -, rfl | rfl⟩ | ⟨_, -, ⟨_, -, rfl⟩ | ⟨_, -, rfl⟩ | ⟨_, -, rfl⟩⟩
    · obtain rfl : j = j' := Option.some.inj (hj.symm.trans hj')
      obtain rfl : u = a := List.inj_on_of_nodup_map hactions hu ha hid
      have hno : ¬ ∃ p ∈ j.phases, p.id = u.phase := by
        rw [Pointer.misses_of_get? hd] at hmisses
        simpa [Document.entries] using hmisses
      exact hno ⟨phase, hphase, hname⟩
    all_goals cases hsource

/-- The task that the success factor points to, among tasks with different identifiers. -/
theorem factorTask?_eq_some_iff (h : (b.tasks.map (·.id)).Nodup) {t : BlueprintTask} :
    b.factorTask? o = some t ↔ t ∈ b.tasks ∧ pointsTo? o.factor.source = some t.id := by
  simp only [Blueprint.factorTask?, Blueprint.task?, Option.bind_eq_some_iff,
    find?_eq_some_iff_of_nodup h]
  constructor
  · rintro ⟨id, hid, ht, rfl⟩
    exact ⟨ht, hid⟩
  · rintro ⟨ht, hid⟩
    exact ⟨t.id, hid, ht, rfl⟩

/-- A lineage is found if the first parts with the identifiers on the way are its own. -/
theorem lineage?_eq_some_iff (hj : s.journey = some j) (hb : s.blueprint = some b)
    (ho : s.outcome = some o) (he : s.enablement = some e) (hids : s.ids.Nodup)
    {indicator : String} {c : Lineage} :
    s.lineage? indicator = some c ↔ indicator = o.indicator.id ∧ c.Traces j b o e := by
  have htask := fun t => factorTask?_eq_some_iff (o := o) (t := t) (nodup_tasks hids hb)
  simp only [lineage?, hj, hb, ho, he, Option.bind_eq_bind, Option.bind_some]
  constructor
  · intro h
    split at h
    case isFalse => simp at h
    case isTrue hindicator =>
      simp only [Option.bind_eq_some_iff, htask, find?_eq_some_iff_of_nodup (nodup_actions hids hj),
        find?_eq_some_iff_of_nodup (nodup_phases hids hj), Option.pure_def, Option.some.injEq] at h
      obtain ⟨t, ⟨ht, hsource⟩, id, hid, a, ⟨ha, rfl⟩, p, ⟨hp, hphase⟩, rfl⟩ := h
      exact ⟨hindicator.symm, rfl, ht, hsource, ha, hid, hp, hphase, rfl⟩
  · rintro ⟨rfl, hc⟩
    have hmeasures : c.measures = e.actionsFor c.task.id := hc.measures
    rw [if_pos rfl]
    simp only [Option.bind_eq_some_iff, htask, find?_eq_some_iff_of_nodup (nodup_actions hids hj),
      find?_eq_some_iff_of_nodup (nodup_phases hids hj), Option.pure_def, Option.some.injEq]
    refine ⟨c.task, ⟨hc.task_mem, hc.task⟩, c.action.id, hc.action, c.action, ⟨hc.action_mem, rfl⟩,
      c.phase, ⟨hc.phase_mem, hc.phase⟩, ?_⟩
    rw [← hc.indicator, ← hmeasures]

/-- Without one of its documents a map has no lineages. -/
theorem lineage?_of_absent (h : ∃ k, s.get? k = none) (indicator : String) :
    s.lineage? indicator = none := by
  obtain ⟨k, hk⟩ := h
  obtain ⟨j, b, o, e⟩ := s
  cases k <;> simp only [get?, Option.map_eq_none_iff] at hk <;> subst hk <;>
    simp [lineage?]

/-- Where there is a lineage, all four documents are present. -/
theorem documents_of_lineage? {indicator : String} {c : Lineage}
    (h : s.lineage? indicator = some c) :
    ∃ j b o e, s.journey = some j ∧ s.blueprint = some b ∧ s.outcome = some o ∧
      s.enablement = some e := by
  simp only [lineage?, Option.bind_eq_bind, Option.bind_eq_some_iff] at h
  obtain ⟨j, hj, b, hb, o, ho, e, he, -⟩ := h
  exact ⟨j, b, o, e, hj, hb, ho, he⟩

/-- Four documents have a lineage exactly if its references are set and not reported. -/
theorem exists_traces_iff (hj : s.journey = some j) (hb : s.blueprint = some b)
    (ho : s.outcome = some o) (e : EnablementMap) (hids : s.ids.Nodup) :
    (∃ c : Lineage, c.Traces j b o e) ↔
      (pointsTo? o.factor.source).isSome = true ∧
      (∀ f ∈ s.faultsAcross, f.sourceCollection ≠ .factor) ∧
      ∀ t ∈ b.tasks, pointsTo? o.factor.source = some t.id →
        (pointsTo? t.source).isSome = true ∧ Clear s.faultsAcross .task t.id ∧
        ∀ a ∈ j.actions, pointsTo? t.source = some a.id →
          Clear s.missingWithin .journeyAction a.id := by
  have htasks := nodup_tasks hids hb
  have hactions := nodup_actions hids hj
  rw [clear_factor_iff hb ho]
  constructor
  · rintro ⟨c, hc⟩
    refine ⟨by simp [hc.task], fun id hid => ?_, fun t ht hsource => ?_⟩
    · exact ⟨c.task, hc.task_mem, Option.some.inj (hc.task.symm.trans hid)⟩
    · obtain rfl : t = c.task := List.inj_on_of_nodup_map htasks ht hc.task_mem
        (Option.some.inj (hsource.symm.trans hc.task))
      refine ⟨by simp [hc.action], (clear_task_iff hj hb htasks ht).mpr fun id hid => ?_,
        fun a ha htarget => ?_⟩
      · exact ⟨c.action, hc.action_mem, Option.some.inj (hc.action.symm.trans hid)⟩
      · obtain rfl : a = c.action := List.inj_on_of_nodup_map hactions ha hc.action_mem
          (Option.some.inj (htarget.symm.trans hc.action))
        exact (clear_action_iff hj hactions ha).mpr ⟨c.phase, hc.phase_mem, hc.phase⟩
  · rintro ⟨hset, hfactor, htask⟩
    obtain ⟨id, hid⟩ := Option.isSome_iff_exists.mp hset
    obtain ⟨t, ht, rfl⟩ := hfactor id hid
    obtain ⟨hset, hclear, haction⟩ := htask t ht hid
    obtain ⟨id', hid'⟩ := Option.isSome_iff_exists.mp hset
    obtain ⟨a, ha, rfl⟩ := (clear_task_iff hj hb htasks ht).mp hclear id' hid'
    obtain ⟨p, hp, hphase⟩ := (clear_action_iff hj hactions ha).mp (haction a ha hid')
    exact ⟨⟨o.indicator, t, a, p, e.actions.filter (·.source = t.id)⟩,
      ⟨rfl, ht, hid, ha, hid', hp, hphase, rfl⟩⟩

/-- Lineages and the checks of references agree. In a map with all four documents, in which no
identifier is used twice, an indicator has a lineage exactly if it is the current one, the success
factor points to a task and that task points to a journey action, and no check reports these two
references or the phase of the action; the lineage consists of the parts that the references name
and of the enablement actions for the task, in order. A map that lacks a document has no
lineages. -/
theorem lineage?_agrees_with_checks (s : ServiceMap) (indicator : String) :
    (∀ j b o e, s.journey = some j → s.blueprint = some b → s.outcome = some o →
      s.enablement = some e → (∀ f ∈ s.faultsWithin, f.kindText ≠ "duplicate_id") →
      ((s.lineage? indicator).isSome = true ↔
        indicator = o.indicator.id ∧ (pointsTo? o.factor.source).isSome = true ∧
        (∀ f ∈ s.faultsAcross, f.sourceCollection ≠ .factor) ∧
        ∀ t ∈ b.tasks, pointsTo? o.factor.source = some t.id →
          (pointsTo? t.source).isSome = true ∧ Clear s.faultsAcross .task t.id ∧
          ∀ a ∈ j.actions, pointsTo? t.source = some a.id →
            Clear (s.faultsWithin.filter (·.kindText = "missing_reference")) .journeyAction a.id) ∧
      ∀ c, s.lineage? indicator = some c ↔ indicator = o.indicator.id ∧ c.Traces j b o e) ∧
    ((∃ k, s.get? k = none) → s.lineage? indicator = none) := by
  refine ⟨fun j b o e hj hb ho he hdup => ?_, fun h => lineage?_of_absent h indicator⟩
  have hids : s.ids.Nodup := unique_iff_nodup_ids.mp fun f hf => by
    simpa [Fault.kindText] using hdup f hf
  have hfound : ∀ c, s.lineage? indicator = some c ↔
      indicator = o.indicator.id ∧ c.Traces j b o e :=
    fun c => lineage?_eq_some_iff hj hb ho he hids
  refine ⟨?_, hfound⟩
  rw [filter_missing_faultsWithin, ← exists_traces_iff hj hb ho e hids, Option.isSome_iff_exists]
  simp only [hfound, exists_and_left]

/-- A task with an empty reference and one with a missing one do not touch the lineage. -/
theorem lineage?_agrees_with_checks_aside :
    let j : JourneyMap := ⟨"1", "j", none, [⟨"p", "P"⟩], [⟨"a", "A", "p", [], [], 0⟩], []⟩
    let b : Blueprint := ⟨"1", "b", [], [⟨"u", "", "", some "", [], false⟩,
      ⟨"t", "", "T", some "a", [], false⟩, ⟨"v", "", "", some "x", [], false⟩], []⟩
    let o : Outcome := ⟨"1", "o", ⟨"g", ""⟩, ⟨"f", "g", some "t", ""⟩,
      ⟨"k", "f", "", none, none, .zero false⟩, []⟩
    let e : EnablementMap := ⟨"1", "e", [], [⟨"m", "M", "t"⟩], [], [], [], []⟩
    let s : ServiceMap := ⟨some j, some b, some o, some e⟩
    (s.lineage? "k").isSome = true ∧ Clear s.faultsAcross .task "t" ∧ s.faultsAcross ≠ [] := by
  intro j b o e s
  have hdup : ∀ f ∈ s.faultsWithin, f.kindText ≠ "duplicate_id" := by decide +kernel
  have hsome : (s.lineage? "k").isSome = true := by decide +kernel
  have hmeets := ((lineage?_agrees_with_checks s "k").1 j b o e rfl rfl rfl rfl hdup).1.mp hsome
  refine ⟨hsome, ?_, by decide +kernel⟩
  exact (hmeets.2.2.2 ⟨"t", "", "T", some "a", [], false⟩ (by simp [b]) rfl).2.1

end ServiceMap

end ServiceMaps
