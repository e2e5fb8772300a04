import Mathlib.Data.List.Basic
import ServiceMaps.Lineage
import ServiceMaps.References.Within
import ServiceMaps.TaskFlow

/-!
Renaming. A renaming gives another text to every identifier of a map, wherever the identifier is
given and wherever a reference names it; names, descriptions and all other texts stay. Here are the
renamed parts, documents and results, and what an injective renaming does to searches in lists.
-/
namespace ServiceMaps

/-! ### Searches in lists -/

section Lists

variable {α β : Type} [BEq α] [LawfulBEq α] [BEq β] [LawfulBEq β] {f : α → β}

theorem contains_map (hf : Function.Injective f) (a : α) (l : List α) :
    (l.map f).contains (f a) = l.contains a := by
  rw [Bool.eq_iff_iff, List.contains_iff_mem, List.contains_iff_mem]
  exact List.mem_map_of_injective hf

theorem idxOf_map (hf : Function.Injective f) (a : α) (l : List α) :
    (l.map f).idxOf (f a) = l.idxOf a := by
  induction l with
  | nil => rfl
  | cons b rest ih =>
    have hbeq : (f b == f a) = (b == a) := by
      rw [Bool.eq_iff_iff, beq_iff_eq, beq_iff_eq]
      exact hf.eq_iff
    rw [List.map_cons, List.idxOf_cons, List.idxOf_cons, hbeq, ih]

/-- The first occurrences of renamed elements are those of the elements. -/
theorem eraseDups_map (hf : Function.Injective f) : (l : List α) →
    (l.map f).eraseDups = l.eraseDups.map f
  | [] => rfl
  | a :: rest => by
    have hkeep : ((fun b => !b == f a) ∘ f) = fun b => !b == a := by
      funext b
      simp [hf.eq_iff]
    rw [List.map_cons, List.eraseDups_cons, List.eraseDups_cons, List.map_cons, List.filter_map,
      hkeep, eraseDups_map hf]
termination_by l => l.length
decreasing_by exact Nat.lt_succ_of_le (List.length_filter_le _ _)

end Lists

/-- Lists that are gathered from renamed parts are the renamed lists. -/
theorem flatMap_rename {α β : Type} {rename : α → α} {renameResult : β → β} {gather : α → List β}
    {gather' : α → List β} (h : ∀ a, gather' (rename a) = (gather a).map renameResult)
    (l : List α) : (l.map rename).flatMap gather' = (l.flatMap gather).map renameResult := by
  rw [List.flatMap_map, List.map_flatMap]
  exact List.flatMap_congr fun a _ => h a

/-- The first of renamed parts with a renamed identifier is the renamed first part. -/
theorem find?_rename {f : String → String} (hf : Function.Injective f) {α : Type} (rename : α → α)
    (id : α → String) (h : ∀ a, id (rename a) = f (id a)) (x : String) (l : List α) :
    (l.map rename).find? (id · = f x) = (l.find? (id · = x)).map rename := by
  have hsame : (fun a => decide (id a = f x)) ∘ rename = fun a => decide (id a = x) := by
    funext a
    simp [h, hf.eq_iff]
  rw [List.find?_map, hsame]

/-! ### Documents and their parts -/

section Parts

variable (f : String → String)

def Phase.rename (p : Phase) : Phase := { p with id := f p.id }

def JourneyAction.rename (a : JourneyAction) : JourneyAction :=
  { a with id := f a.id, phase := f a.phase }

def JourneyMap.rename (d : JourneyMap) : JourneyMap :=
  { d with
    id := f d.id
    phases := d.phases.map (Phase.rename f)
    actions := d.actions.map (JourneyAction.rename f) }

def Lane.rename (l : Lane) : Lane := { l with id := f l.id }

def BlueprintTask.rename (t : BlueprintTask) : BlueprintTask :=
  { t with id := f t.id, lane := f t.lane, source := t.source.map f, links := t.links.map f }

def Blueprint.rename (d : Blueprint) : Blueprint :=
  { d with
    id := f d.id
    lanes := d.lanes.map (Lane.rename f)
    tasks := d.tasks.map (BlueprintTask.rename f) }

def Goal.rename (g : Goal) : Goal := { g with id := f g.id }

def SuccessFactor.rename (c : SuccessFactor) : SuccessFactor :=
  { c with id := f c.id, goal := f c.goal, source := c.source.map f }

def Indicator.rename (i : Indicator) : Indicator := { i with id := f i.id, factor := f i.factor }

def Outcome.rename (d : Outcome) : Outcome :=
  { d with
    id := f d.id
    goal := d.goal.rename f
    factor := d.factor.rename f
    indicator := d.indicator.rename f }

def EnablementOutcome.rename (o : EnablementOutcome) : EnablementOutcome :=
  ⟨f o.id, f o.source⟩

def EnablementAction.rename (a : EnablementAction) : EnablementAction :=
  { a with id := f a.id, source := f a.source }

def Skill.rename (s : Skill) : Skill := { s with id := f s.id, action := f s.action }

def Resource.rename (r : Resource) : Resource := { r with id := f r.id, action := f r.action }

def EnablementMap.rename (d : EnablementMap) : EnablementMap :=
  { d with
    id := f d.id
    outcomes := d.outcomes.map (EnablementOutcome.rename f)
    actions := d.actions.map (EnablementAction.rename f)
    skills := d.skills.map (Skill.rename f)
    knowledge := d.knowledge.map (Resource.rename f)
    tools := d.tools.map (Resource.rename f) }

def Document.rename : Document → Document
  | .journey d => .journey (d.rename f)
  | .blueprint d => .blueprint (d.rename f)
  | .outcome d => .outcome (d.rename f)
  | .enablement d => .enablement (d.rename f)

def ServiceMap.rename (s : ServiceMap) : ServiceMap where
  journey := s.journey.map (JourneyMap.rename f)
  blueprint := s.blueprint.map (Blueprint.rename f)
  outcome := s.outcome.map (Outcome.rename f)
  enablement := s.enablement.map (EnablementMap.rename f)

/-! ### Results -/

def Lineage.rename (c : Lineage) : Lineage where
  indicator := c.indicator.rename f
  task := c.task.rename f
  action := c.action.rename f
  phase := c.phase.rename f
  measures := c.measures.map (EnablementAction.rename f)

def Entry.rename (e : Entry) : Entry := (e.1, f e.2)

def Fault.rename : Fault → Fault
  | .missing r id name target => .missing r (f id) name (f target)
  | .otherIndicator id target current => .otherIndicator (f id) (f target) (f current)
  | .duplicate collection id first => .duplicate collection (f id) first

def Verdict.rename (v : Verdict) : Verdict := { v with faults := v.faults.map (Fault.rename f) }

def TaskFlow.Node.rename (n : TaskFlow.Node) : TaskFlow.Node :=
  { n with id := f n.id, lane := f n.lane }

def TaskFlow.rename (g : TaskFlow) : TaskFlow where
  nodes := g.nodes.map (TaskFlow.Node.rename f)
  links := g.links.map (Prod.map f f)

def TaskFlow.Walk.rename (w : TaskFlow.Walk) : TaskFlow.Walk where
  entered := w.entered.map f
  left := w.left.map f

end Parts

/-! ### The identifiers of renamed parts -/

section Identifiers

variable {f : String → String}

theorem JourneyMap.ids_phases_rename (d : JourneyMap) :
    (d.rename f).phases.map (·.id) = (d.phases.map (·.id)).map f := by
  simp [rename, Phase.rename]

theorem JourneyMap.ids_actions_rename (d : JourneyMap) :
    (d.rename f).actions.map (·.id) = (d.actions.map (·.id)).map f := by
  simp [rename, JourneyAction.rename]

theorem Blueprint.ids_lanes_rename (d : Blueprint) :
    (d.rename f).lanes.map (·.id) = (d.lanes.map (·.id)).map f := by
  simp [rename, Lane.rename]

theorem Blueprint.ids_tasks_rename (d : Blueprint) :
    (d.rename f).tasks.map (·.id) = (d.tasks.map (·.id)).map f := by
  simp [rename, BlueprintTask.rename]

theorem EnablementMap.ids_actions_rename (d : EnablementMap) :
    (d.rename f).actions.map (·.id) = (d.actions.map (·.id)).map f := by
  simp [rename, EnablementAction.rename]

end Identifiers

/-! ### What a renaming keeps of a fault -/

namespace Fault

variable {f : String → String}

@[simp] theorem kindText_rename (v : Fault) : (v.rename f).kindText = v.kindText := by
  cases v <;> rfl

@[simp] theorem sourceCollection_rename (v : Fault) :
    (v.rename f).sourceCollection = v.sourceCollection := by
  cases v <;> rfl

@[simp] theorem sourceId_rename (v : Fault) : (v.rename f).sourceId = f v.sourceId := by
  cases v <;> rfl

@[simp] theorem targetCollection_rename (v : Fault) :
    (v.rename f).targetCollection = v.targetCollection := by
  cases v <;> rfl

@[simp] theorem targetId_rename (v : Fault) : (v.rename f).targetId = f v.targetId := by
  cases v <;> rfl

end Fault

end ServiceMaps
