import Mathlib.Data.List.Forall2
import ServiceMaps.Proofs.Lineage

/-!
Unset references. A reference that may point nowhere can be absent or the empty text, and no check,
no lineage and no lookup for a non-empty identifier tells the two apart. Enablement actions and
outcomes whose reference is the empty text count for no check between documents and no lineage. A
lineage lists the measures for its task without a look at the identifier of the task; but the task
was found through a reference that is set, so that its identifier is not empty.
-/
namespace ServiceMaps

namespace References

/-- Both references are the same, or both are unset. -/
def Interchangeable (r r' : Option String) : Prop :=
  r = r' ∨ (r = none ∨ r = some "") ∧ (r' = none ∨ r' = some "")

namespace Interchangeable

variable {r r' : Option String}

theorem pointsTo?_eq (h : Interchangeable r r') : pointsTo? r' = pointsTo? r := by
  rcases h with rfl | ⟨hr, hr'⟩
  · rfl
  · rw [pointsTo?_eq_none_iff.mpr hr, pointsTo?_eq_none_iff.mpr hr']

/-- A reference that is set has no other spelling. -/
theorem eq_of_set (h : Interchangeable r r') {id : String} (hid : pointsTo? r = some id) :
    r' = r := by
  rcases h with rfl | ⟨hr, -⟩
  · rfl
  · rw [pointsTo?_eq_none_iff.mpr hr] at hid
    cases hid

end Interchangeable

end References

open References

/-- The task with its reference left unset in the other way, or as it is. -/
structure BlueprintTask.Respelled (t t' : BlueprintTask) : Prop where
  source : Interchangeable t.source t'.source
  others : t' = { t with source := t'.source }

structure Blueprint.Respelled (b b' : Blueprint) : Prop where
  tasks : List.Forall₂ BlueprintTask.Respelled b.tasks b'.tasks
  others : b' = { b with tasks := b'.tasks }

/-- The outcome document with the reference of its factor left unset in the other way, or as it
is. -/
structure Outcome.Respelled (o o' : Outcome) : Prop where
  source : Interchangeable o.factor.source o'.factor.source
  others : o' = { o with factor := { o.factor with source := o'.factor.source } }

/-- The map with some references of tasks and of the success factor left unset in the other way. -/
structure ServiceMap.Respelled (s s' : ServiceMap) : Prop where
  journey : s'.journey = s.journey
  blueprint : Option.Rel Blueprint.Respelled s.blueprint s'.blueprint
  outcome : Option.Rel Outcome.Respelled s.outcome s'.outcome
  enablement : s'.enablement = s.enablement

namespace EnablementMap

/-- The enablement map without the actions and outcomes whose reference is empty. -/
def withoutUnset (e : EnablementMap) : EnablementMap :=
  { e with
    outcomes := e.outcomes.filter (·.source ≠ "")
    actions := e.actions.filter (·.source ≠ "") }

end EnablementMap

/-- The map without the enablement actions and outcomes whose reference is empty. -/
def ServiceMap.withoutUnset (s : ServiceMap) : ServiceMap :=
  { s with enablement := s.enablement.map EnablementMap.withoutUnset }

section Alike

variable {α β : Type} {r : α → α → Prop} {l l' : List α}

theorem rel_of_eq {x x' : Option α} (h : x' = x) : Option.Rel Eq x x' := by
  rw [h]
  cases x with
  | none => exact .none
  | some a => exact .some rfl

theorem map_eq_of_forall₂ {f : α → β} (h : List.Forall₂ r l l') (hf : ∀ a a', r a a' → f a' = f a) :
    l'.map f = l.map f := by
  induction h with
  | nil => rfl
  | cons ha _ ih => rw [List.map_cons, List.map_cons, hf _ _ ha, ih]

theorem flatMap_eq_of_forall₂ {f : α → List β} (h : List.Forall₂ r l l')
    (hf : ∀ a a', r a a' → f a' = f a) : l'.flatMap f = l.flatMap f := by
  rw [List.flatMap_def, List.flatMap_def, map_eq_of_forall₂ h hf]

/-- What contributes nothing can be left out. -/
theorem flatMap_filter_of_nil {f : α → List β} {p : α → Bool} (h : ∀ a, p a = false → f a = []) :
    (l.filter p).flatMap f = l.flatMap f := by
  induction l with
  | nil => rfl
  | cons a rest ih =>
    cases hp : p a with
    | true => rw [List.filter_cons_of_pos hp, List.flatMap_cons, List.flatMap_cons, ih]
    | false => rw [List.filter_cons_of_neg (by simp [hp]), List.flatMap_cons, h a hp, ih,
        List.nil_append]

end Alike

/-! ### Unset in another way -/

namespace BlueprintTask.Respelled

variable {t t' : BlueprintTask}

theorem id (h : t.Respelled t') : t'.id = t.id := by rw [h.others]

theorem name (h : t.Respelled t') : t'.name = t.name := by rw [h.others]

theorem eq_of_set (h : t.Respelled t') {id : String} (hid : pointsTo? t.source = some id) :
    t' = t := by
  rw [h.others, h.source.eq_of_set hid]

end BlueprintTask.Respelled

section Tasks

variable {tasks tasks' : List BlueprintTask}

theorem find?_respelled (h : List.Forall₂ BlueprintTask.Respelled tasks tasks') (id : String) :
    Option.Rel BlueprintTask.Respelled (tasks.find? (·.id = id)) (tasks'.find? (·.id = id)) := by
  induction h with
  | nil => exact .none
  | @cons t t' rest rest' ht _ ih =>
    by_cases hid : t.id = id
    · have hid' : t'.id = id := ht.id.trans hid
      simpa [hid, hid'] using Option.Rel.some ht
    · have hid' : t'.id ≠ id := fun h => hid (ht.id.symm.trans h)
      simpa [hid, hid'] using ih

/-- A task that is listed under a non-empty identifier has a set reference, and stays as it is. -/
theorem filter_respelled (h : List.Forall₂ BlueprintTask.Respelled tasks tasks') {id : String}
    (hid : id ≠ "") : tasks'.filter (·.source = some id) = tasks.filter (·.source = some id) := by
  induction h with
  | nil => rfl
  | @cons t t' rest rest' ht _ ih =>
    have hsome : pointsTo? (some id) = some id := pointsTo?_some hid
    by_cases hsource : t.source = some id ∨ t'.source = some id
    · have hset : pointsTo? t.source = some id := by
        rcases hsource with hsource | hsource
        · rw [hsource, hsome]
        · rw [← ht.source.pointsTo?_eq, hsource, hsome]
      have hsame : t' = t := ht.eq_of_set hset
      rw [hsame, List.filter_cons, List.filter_cons, ih]
    · obtain ⟨hno, hno'⟩ := not_or.mp hsource
      rw [List.filter_cons_of_neg (by simpa using hno'),
        List.filter_cons_of_neg (by simpa using hno), ih]

end Tasks

namespace Blueprint.Respelled

variable {b b' : Blueprint}

theorem taskIds (h : b.Respelled b') : b'.tasks.map (·.id) = b.tasks.map (·.id) :=
  map_eq_of_forall₂ h.tasks fun _ _ ht => ht.id

theorem lanes (h : b.Respelled b') : b'.lanes = b.lanes := by rw [h.others]

theorem entries (h : b.Respelled b') :
    (Document.blueprint b').entries = (Document.blueprint b).entries := by
  have hid : b'.id = b.id := by rw [h.others]
  have htasks : b'.tasks.map (fun t => (Collection.task, t.id)) =
      b.tasks.map fun t => (Collection.task, t.id) :=
    map_eq_of_forall₂ h.tasks fun _ _ ht => by rw [ht.id]
  simp only [Document.entries, hid, h.lanes, htasks]

theorem task? (h : b.Respelled b') (id : String) :
    Option.Rel BlueprintTask.Respelled (b.task? id) (b'.task? id) :=
  find?_respelled h.tasks id

theorem tasksServing (h : b.Respelled b') {id : String} (hid : id ≠ "") :
    b'.tasksServing id = b.tasksServing id :=
  filter_respelled h.tasks hid

end Blueprint.Respelled

namespace References

variable {b b' : Blueprint} {o o' : Outcome}

theorem unresolvedSet_congr {r r' : Option String} (h : Interchangeable r r')
    (reference : Reference) (id name : String) (ids : List String) :
    unresolvedSet reference id name r' ids = unresolvedSet reference id name r ids := by
  rw [unresolvedSet, unresolvedSet, h.pointsTo?_eq]

theorem taskSources_respelled (h : b.Respelled b') (j : JourneyMap) :
    taskSources b' j = taskSources b j := by
  refine flatMap_eq_of_forall₂ h.tasks fun t t' ht => ?_
  rw [ht.id, ht.name, unresolvedSet_congr ht.source]

theorem factorSource_respelled (ho : o.Respelled o') (hb : b.Respelled b') :
    factorSource o' b' = factorSource o b := by
  have hid : o'.factor.id = o.factor.id := by rw [ho.others]
  rw [factorSource, factorSource, hid, hb.taskIds, unresolvedSet_congr ho.source]

theorem actionSources_respelled (h : b.Respelled b') (e : EnablementMap) :
    actionSources e b' = actionSources e b := by
  rw [actionSources, actionSources, h.taskIds]

theorem outcomeSources_respelled (h : o.Respelled o') (e : EnablementMap) :
    outcomeSources e o' = outcomeSources e o := by
  rw [h.others]
  rfl

theorem withinBlueprint_respelled (h : b.Respelled b') :
    withinBlueprint b' = withinBlueprint b := by
  have hcheck : withinTask b' = withinTask b := by
    funext t
    rw [withinTask, withinTask, h.lanes, h.taskIds]
  rw [withinBlueprint, withinBlueprint, hcheck]
  refine flatMap_eq_of_forall₂ h.tasks fun t t' ht => ?_
  rw [ht.others]
  rfl

theorem withinOutcome_respelled (h : o.Respelled o') : withinOutcome o' = withinOutcome o := by
  rw [h.others]
  rfl

/-- A check of two documents that finds the same in each of them finds the same. -/
theorem both_congr {α β : Type} {p : α → α → Prop} {q : β → β → Prop} {check : α → β → List Fault}
    {x x' : Option α} {y y' : Option β} (hx : Option.Rel p x x') (hy : Option.Rel q y y')
    (h : ∀ a a' b b', p a a' → q b b' → check a' b' = check a b) :
    both check x' y' = both check x y := by
  cases hx with
  | none => rfl
  | some ha =>
    cases hy with
    | none => rfl
    | some hb => exact h _ _ _ _ ha hb

theorem each_congr {α : Type} {p : α → α → Prop} {check : α → List Fault} {x x' : Option α}
    (hx : Option.Rel p x x') (h : ∀ a a', p a a' → check a' = check a) :
    each check x' = each check x := by
  cases hx with
  | none => rfl
  | some ha => exact h _ _ ha

end References

namespace ServiceMap.Respelled

variable {s s' : ServiceMap}

theorem faultsAcross (h : s.Respelled s') : s'.faultsAcross = s.faultsAcross := by
  have htasks : both taskSources s'.blueprint s'.journey = both taskSources s.blueprint s.journey :=
    both_congr h.blueprint (rel_of_eq h.journey) fun _ _ j _ hb hj => hj ▸ taskSources_respelled hb j
  have hfactor : both factorSource s'.outcome s'.blueprint =
      both factorSource s.outcome s.blueprint :=
    both_congr h.outcome h.blueprint fun _ _ _ _ ho hb => factorSource_respelled ho hb
  have hactions : both actionSources s'.enablement s'.blueprint =
      both actionSources s.enablement s.blueprint :=
    both_congr (rel_of_eq h.enablement) h.blueprint fun e _ _ _ he hb =>
      he ▸ actionSources_respelled hb e
  have houtcomes : both outcomeSources s'.enablement s'.outcome =
      both outcomeSources s.enablement s.outcome :=
    both_congr (rel_of_eq h.enablement) h.outcome fun e _ _ _ he ho =>
      he ▸ outcomeSources_respelled ho e
  rw [ServiceMap.faultsAcross, ServiceMap.faultsAcross, htasks, hfactor, hactions, houtcomes]

theorem missingWithin (h : s.Respelled s') : s'.missingWithin = s.missingWithin := by
  have hblueprint : each withinBlueprint s'.blueprint = each withinBlueprint s.blueprint :=
    each_congr h.blueprint fun _ _ hb => withinBlueprint_respelled hb
  have houtcome : each withinOutcome s'.outcome = each withinOutcome s.outcome :=
    each_congr h.outcome fun _ _ ho => withinOutcome_respelled ho
  rw [ServiceMap.missingWithin, ServiceMap.missingWithin, h.journey, hblueprint, houtcome,
    h.enablement]

theorem entries (h : s.Respelled s') : s'.entries = s.entries := by
  obtain ⟨j, b, o, e⟩ := s
  obtain ⟨j', b', o', e'⟩ := s'
  obtain ⟨rfl, hb, ho, rfl⟩ := h
  rw [entries_eq, entries_eq]
  refine List.flatMap_congr fun k _ => ?_
  cases k with
  | journey => rfl
  | enablement => rfl
  | blueprint =>
    cases hb with
    | none => rfl
    | some hb => simpa [get?] using hb.entries
  | outcome =>
    cases ho with
    | none => rfl
    | some ho =>
      rw [ho.others]
      rfl

/-- A lineage goes through references that are set, and these are the same. -/
theorem lineage? (h : s.Respelled s') (indicator : String) :
    s'.lineage? indicator = s.lineage? indicator := by
  obtain ⟨j, b, o, e⟩ := s
  obtain ⟨j', b', o', e'⟩ := s'
  obtain ⟨rfl, hb, ho, rfl⟩ := h
  cases hb with
  | none => cases j' <;> rfl
  | @some b b' hb =>
    cases ho with
    | none => cases j' <;> rfl
    | @some o o' ho =>
      have hindicator : o'.indicator = o.indicator := by rw [ho.others]
      have htask : Option.Rel BlueprintTask.Respelled (b.factorTask? o) (b'.factorTask? o') := by
        rw [Blueprint.factorTask?, Blueprint.factorTask?, ho.source.pointsTo?_eq]
        cases pointsTo? o.factor.source with
        | none => exact .none
        | some id => exact hb.task? id
      simp only [ServiceMap.lineage?, Option.bind_eq_bind, Option.bind_some, hindicator]
      generalize b.factorTask? o = task, b'.factorTask? o' = task' at htask
      cases htask with
      | none => rfl
      | @some t t' ht =>
        cases hsource : pointsTo? t.source with
        | none => simp [ht.source.pointsTo?_eq, hsource]
        | some id => rw [ht.eq_of_set hsource]

end ServiceMap.Respelled

/-! ### Without what is unset -/

namespace EnablementMap

theorem actionSources_withoutUnset (e : EnablementMap) (b : Blueprint) :
    actionSources e.withoutUnset b = actionSources e b := by
  refine flatMap_filter_of_nil fun a ha => ?_
  have hsource : a.source = "" := by simpa using ha
  rw [hsource]
  rfl

theorem outcomeSources_withoutUnset (e : EnablementMap) (o : Outcome) :
    outcomeSources e.withoutUnset o = outcomeSources e o := by
  refine flatMap_filter_of_nil fun u hu => ?_
  have hsource : u.source = "" := by simpa using hu
  rw [hsource]
  rfl

theorem actionsFor_withoutUnset (e : EnablementMap) {task : String} (h : task ≠ "") :
    e.withoutUnset.actionsFor task = e.actionsFor task := by
  rw [actionsFor, actionsFor, withoutUnset, List.filter_filter]
  refine List.filter_congr fun a _ => ?_
  by_cases ha : a.source = task <;> simp [ha, h]

end EnablementMap

theorem Blueprint.id_ne_of_factorTask? {b : Blueprint} {o : Outcome} {t : BlueprintTask}
    (h : b.factorTask? o = some t) : t.id ≠ "" := by
  obtain ⟨id, hid, hfind⟩ := Option.bind_eq_some_iff.mp h
  have heq : t.id = id := by simpa using List.find?_some hfind
  rw [heq]
  exact (pointsTo?_eq_some_iff.mp hid).2

namespace ServiceMap

theorem faultsAcross_withoutUnset (s : ServiceMap) :
    s.withoutUnset.faultsAcross = s.faultsAcross := by
  obtain ⟨j, b, o, e⟩ := s
  cases e with
  | none => rfl
  | some e =>
    have hactions : both actionSources (some e.withoutUnset) b = both actionSources (some e) b := by
      cases b with
      | none => rfl
      | some b => exact e.actionSources_withoutUnset b
    have houtcomes : both outcomeSources (some e.withoutUnset) o =
        both outcomeSources (some e) o := by
      cases o with
      | none => rfl
      | some o => exact e.outcomeSources_withoutUnset o
    simp only [faultsAcross, withoutUnset, Option.map_some, hactions, houtcomes]

theorem lineage?_withoutUnset (s : ServiceMap) (indicator : String) :
    s.withoutUnset.lineage? indicator = s.lineage? indicator := by
  obtain ⟨j, b, o, e⟩ := s
  cases j with
  | none => rfl
  | some j =>
  cases b with
  | none => rfl
  | some b =>
  cases o with
  | none => rfl
  | some o =>
  cases e with
  | none => rfl
  | some e =>
    simp only [lineage?, withoutUnset, Option.map_some, Option.bind_eq_bind, Option.bind_some]
    cases htask : b.factorTask? o with
    | none => rfl
    | some t =>
      simp only [Option.bind_some, e.actionsFor_withoutUnset (Blueprint.id_ne_of_factorTask? htask)]

/-- Unset references are interchangeable and inert. To leave references of tasks and of the success
factor unset in the other way, any of them, absent in place of empty or empty in place of absent,
changes no report of a check, no lineage and no lookup for a non-empty identifier. To take out all
enablement actions and outcomes whose reference is empty changes no report of the check between
documents and no lineage, whatever has the empty identifier. -/
theorem unset_references_inert (s : ServiceMap) :
    (∀ s', s.Respelled s' →
      s'.checkAcross = s.checkAcross ∧ s'.checkWithin = s.checkWithin ∧
      (∀ indicator, s'.lineage? indicator = s.lineage? indicator) ∧
      ∀ b b', s.blueprint = some b → s'.blueprint = some b' → ∀ id, id ≠ "" →
        b'.tasksServing id = b.tasksServing id) ∧
    s.withoutUnset.checkAcross = s.checkAcross ∧
    ∀ indicator, s.withoutUnset.lineage? indicator = s.lineage? indicator := by
  refine ⟨fun s' h => ⟨?_, ?_, h.lineage?, ?_⟩, ?_, lineage?_withoutUnset s⟩
  · rw [checkAcross, checkAcross, h.faultsAcross]
  · rw [checkWithin, checkWithin, faultsWithin, faultsWithin, h.missingWithin, h.entries]
  · intro b b' hb hb' id hid
    have hrel := h.blueprint
    rw [hb, hb'] at hrel
    cases hrel with
    | some hbb => exact hbb.tasksServing hid
  · rw [checkAcross, checkAcross, faultsAcross_withoutUnset]

/-- Three tasks, of which two are unset and one of these has the empty identifier, with a measure
that seems to be for it. -/
theorem unset_references_inert_empty :
    let j : JourneyMap := ⟨"1.0", "j", none, [⟨"p", "P"⟩],
      [⟨"a", "A", "p", [], [], 0⟩, ⟨"", "B", "p", [], [], 0⟩], []⟩
    let tasks (first second : Option String) : List BlueprintTask :=
      [⟨"u", "l", "U", first, [], false⟩, ⟨"", "l", "V", second, [], false⟩,
        ⟨"t", "l", "T", some "a", [], false⟩]
    let b (first second : Option String) : Blueprint :=
      ⟨"1.0", "b", [⟨"l", "L", .team⟩], tasks first second, []⟩
    let o : Outcome := ⟨"1.0", "o", ⟨"g", "G"⟩, ⟨"f", "g", some "t", ""⟩,
      ⟨"k", "f", "K", none, none, .zero false⟩, []⟩
    let e : EnablementMap :=
      ⟨"1.0", "e", [⟨"w", ""⟩], [⟨"m", "M", ""⟩, ⟨"n", "N", "t"⟩, ⟨"x", "X", "z"⟩], [], [], [], []⟩
    let s : ServiceMap := ⟨some j, some (b (some "") none), some o, some e⟩
    let s' : ServiceMap := ⟨some j, some (b none (some "")), some o, some e⟩
    s.Respelled s' ∧ s'.checkAcross = s.checkAcross ∧ s.faultsAcross ≠ [] ∧
      s'.lineage? "k" = s.lineage? "k" ∧ (s.lineage? "k").isSome = true ∧
      (b none (some "")).tasksServing "a" = (b (some "") none).tasksServing "a" ∧
      s.withoutUnset.lineage? "k" = s.lineage? "k" ∧ s.withoutUnset ≠ s := by
  intro j tasks b o e s s'
  have h : s.Respelled s' := {
    journey := rfl
    blueprint := .some {
      tasks := .cons ⟨.inr ⟨.inr rfl, .inl rfl⟩, rfl⟩ (.cons ⟨.inr ⟨.inl rfl, .inr rfl⟩, rfl⟩
        (.cons ⟨.inl rfl, rfl⟩ .nil))
      others := rfl }
    outcome := .some ⟨.inl rfl, rfl⟩
    enablement := rfl }
  obtain ⟨hrespelled, -, hwithout⟩ := unset_references_inert s
  obtain ⟨hacross, -, hlineage, hserving⟩ := hrespelled s' h
  exact ⟨h, hacross, by decide +kernel, hlineage "k", by decide +kernel,
    hserving _ _ rfl rfl "a" (by decide), hwithout "k", by decide +kernel⟩

end ServiceMap

end ServiceMaps
