import Mathlib.Data.List.Perm.Basic
import ServiceMaps.Proofs.Lineage
import ServiceMaps.Proofs.RoundTrip

/-!
What lookups find in a map that passes a check. If the check inside documents finds nothing, the
lookups of one kind divide their list: each part has one owner, so that it is found under one
identifier and no other. If the check between documents finds nothing, what is found refers to
something, but for references of the empty text: the check takes them as unset, and lookups list
them under the empty identifier.
-/
namespace ServiceMaps

open References
open scoped List

/-- Where every part has one of different owners, the lists of the owners make up the whole. -/
theorem flatMap_filter_perm {α β : Type} {key : α → String} {id : β → String} {l : List α}
    {owners : List β} (hids : (owners.map id).Nodup) (hkey : ∀ a ∈ l, key a ∈ owners.map id) :
    (owners.flatMap fun p => l.filter (key · = id p)) ~ l := by
  induction owners generalizing l with
  | nil =>
    rw [List.eq_nil_iff_forall_not_mem.mpr fun a ha => List.not_mem_nil (hkey a ha)]
    rfl
  | cons p rest ih =>
    obtain ⟨hp, hrest⟩ := List.nodup_cons.mp hids
    -- The other owners only list what the first does not.
    let others := l.filter fun a => !decide (key a = id p)
    have hothers : (rest.flatMap fun q => l.filter (key · = id q)) =
        rest.flatMap fun q => others.filter (key · = id q) := by
      refine List.flatMap_congr fun q hq => ?_
      rw [List.filter_filter]
      refine List.filter_congr fun a _ => ?_
      have hne : id q ≠ id p := fun h => hp (h ▸ List.mem_map_of_mem hq)
      by_cases ha : key a = id q <;> simp [ha, hne]
    have hkeys : ∀ a ∈ others, key a ∈ rest.map id := by
      intro a ha
      obtain ⟨hal, hne⟩ := List.mem_filter.mp ha
      exact (List.mem_cons.mp (hkey a hal)).resolve_left (by simpa using hne)
    rw [List.flatMap_cons, hothers]
    exact ((ih hrest hkeys).append_left _).trans (List.filter_append_perm _ l)

/-! ### Moods -/

namespace PhaseMood

@[simp] theorem total_nil : total [] = 0 := rfl

@[simp] theorem total_cons (a : JourneyAction) (rest : List JourneyAction) :
    total (a :: rest) = a.emotionScore + total rest := rfl

theorem total_bounds {actions : List JourneyAction}
    (h : ∀ a ∈ actions, -2 ≤ a.emotionScore ∧ a.emotionScore ≤ 2) :
    -2 * (actions.length : Int) ≤ total actions ∧ total actions ≤ 2 * actions.length := by
  induction actions with
  | nil => simp
  | cons a rest ih =>
    obtain ⟨ha, hrest⟩ := List.forall_mem_cons.mp h
    have hbounds := ih hrest
    rw [total_cons, List.length_cons]
    omega

theorem mean?_eq_none_iff {actions : List JourneyAction} : mean? actions = none ↔ actions = [] := by
  simp [mean?]

end PhaseMood

namespace JourneyMap

variable (j : JourneyMap) {m : PhaseMood}

theorem mem_moods :
    m ∈ j.moods ↔ ∃ p ∈ j.phases, m = ⟨p.id, p.name, (j.actionsIn p.id).length,
      PhaseMood.mean? (j.actionsIn p.id)⟩ := by
  simp [moods, eq_comm]

theorem phases_moods :
    j.moods.map (fun m => (m.phase, m.name)) = j.phases.map fun p => (p.id, p.name) := by
  rw [moods, List.map_map]
  rfl

theorem sum_count_moods :
    (j.moods.map (·.count)).sum = (j.phases.flatMap fun p => j.actionsIn p.id).length := by
  rw [List.length_flatMap, moods, List.map_map]
  rfl

theorem mean_eq_none_iff (h : m ∈ j.moods) :
    m.mean = none ↔ ∀ a ∈ j.actions, a.phase ≠ m.phase := by
  obtain ⟨p, -, rfl⟩ := (mem_moods j).mp h
  rw [PhaseMood.mean?_eq_none_iff, actionsIn, List.filter_eq_nil_iff]
  simp

theorem total_bounds (hscores : ∀ a ∈ j.actions, -2 ≤ a.emotionScore ∧ a.emotionScore ≤ 2)
    (h : m ∈ j.moods) :
    -2 * (m.count : Int) ≤ PhaseMood.total (j.actionsIn m.phase) ∧
      PhaseMood.total (j.actionsIn m.phase) ≤ 2 * m.count := by
  obtain ⟨p, -, rfl⟩ := (mem_moods j).mp h
  exact PhaseMood.total_bounds fun a ha => hscores a (List.mem_filter.mp ha).1

end JourneyMap

namespace ServiceMap

variable {s : ServiceMap} {j : JourneyMap} {e : EnablementMap}

/-! ### Lookups inside documents -/

/-- Where no reference inside documents misses, each names something in its collection. -/
theorem mem_entries_of_within (h : ∀ q ∈ s.pointersWithin, q.misses s = false) {p : Pointer}
    (hp : p ∈ s.pointersWithin) {d : Document} (hd : s.get? p.target.kind = some d) {name : String}
    (hname : p.names = some name) : (p.target, name) ∈ d.entries := by
  have hmem := Pointer.misses_eq_false_iff.mp (h p hp) name hname (by simp [contains, hd])
  exact (mem_entries_of_get? hd).mp hmem

theorem phase_mem_of_within (h : ∀ q ∈ s.pointersWithin, q.misses s = false)
    (hj : s.journey = some j) : ∀ a ∈ j.actions, a.phase ∈ j.phases.map (·.id) := by
  intro a ha
  have hmem := mem_entries_of_within h (p := ⟨.journeyAction, a.id, .phase, some a.phase⟩)
    (mem_pointersWithin.mpr (.inl ⟨j, hj, a, ha, rfl⟩)) (d := .journey j)
    (by simp [Collection.kind, get?, hj]) rfl
  simpa [Document.entries] using hmem

theorem action_mem_of_within (h : ∀ q ∈ s.pointersWithin, q.misses s = false)
    (he : s.enablement = some e) :
    (∀ k ∈ e.skills, k.action ∈ e.actions.map (·.id)) ∧
    (∀ r ∈ e.knowledge, r.action ∈ e.actions.map (·.id)) ∧
    ∀ r ∈ e.tools, r.action ∈ e.actions.map (·.id) := by
  -- All three lists point to the enablement actions.
  have hone : ∀ (source : Collection) (id : String) {name : String},
      ⟨source, id, .enablementAction, some name⟩ ∈ enablementPointers e →
      name ∈ e.actions.map (·.id) := by
    intro source id name hp
    have hmem := mem_entries_of_within h (p := ⟨source, id, .enablementAction, some name⟩)
      (List.mem_append_right _ (by simpa [he] using hp)) (d := .enablement e)
      (by simp [Collection.kind, get?, he]) rfl
    simpa [Document.entries] using hmem
  refine ⟨fun k hk => hone .skill k.id ?_, fun r hr => hone .knowledge r.id ?_,
    fun r hr => hone .tool r.id ?_⟩
  · exact List.mem_append_left _ (List.mem_append_left _ (List.mem_map_of_mem hk))
  · exact List.mem_append_left _ (List.mem_append_right _ (List.mem_map_of_mem hr))
  · exact List.mem_append_right _ (List.mem_map_of_mem hr)

/-- Lookups divide the lists of a map if the check inside documents finds nothing. The actions of
the phases, phase by phase, are the actions of the journey in another order, with those of one phase
in the order of the document. There is one mood for each phase in the order of the phases; their
counts add up to the number of actions, and the phases without actions are those without a mean. The
skills, the knowledge and the tools of the enablement actions are those of the enablement map. With
scores from -2 to 2, as in every journey that is read from a text, the total of a phase lies between
-2 and 2 times its count. -/
theorem lookups_divide (h : s.checkWithin.valid = true) :
    (∀ j, s.journey = some j →
      (j.phases.flatMap fun p => j.actionsIn p.id) ~ j.actions ∧
      (∀ p ∈ j.phases, j.actionsIn p.id <+ j.actions ∧ ∀ a ∈ j.actionsIn p.id, a.phase = p.id) ∧
      (j.moods.map (·.count)).sum = j.actions.length ∧
      j.moods.map (fun m => (m.phase, m.name)) = j.phases.map (fun p => (p.id, p.name)) ∧
      (∀ m ∈ j.moods, m.mean = none ↔ ∀ a ∈ j.actions, a.phase ≠ m.phase) ∧
      ((∀ a ∈ j.actions, -2 ≤ a.emotionScore ∧ a.emotionScore ≤ 2) → ∀ m ∈ j.moods,
        -2 * (m.count : Int) ≤ PhaseMood.total (j.actionsIn m.phase) ∧
          PhaseMood.total (j.actionsIn m.phase) ≤ 2 * m.count)) ∧
    (∀ e, s.enablement = some e →
      (e.actions.flatMap fun a => e.skillsFor a.id) ~ e.skills ∧
      (e.actions.flatMap fun a => e.knowledgeFor a.id) ~ e.knowledge ∧
      (e.actions.flatMap fun a => e.toolsFor a.id) ~ e.tools) ∧
    ∀ settings text j, ofText settings text = .ok s → s.journey = some j →
      ∀ a ∈ j.actions, -2 ≤ a.emotionScore ∧ a.emotionScore ≤ 2 := by
  obtain ⟨hwithin, hids⟩ := valid_checkWithin_iff.mp h
  refine ⟨fun j hj => ?_, fun e he => ?_, fun settings text j htext hj => ?_⟩
  · have hperm : (j.phases.flatMap fun p => j.actionsIn p.id) ~ j.actions :=
      flatMap_filter_perm (nodup_phases hids hj) (phase_mem_of_within hwithin hj)
    refine ⟨hperm, fun p _ => ⟨List.filter_sublist, fun a ha => ?_⟩, ?_, j.phases_moods,
      fun m hm => j.mean_eq_none_iff hm, fun hscores m hm => j.total_bounds hscores hm⟩
    · simpa using (List.mem_filter.mp ha).2
    · rw [j.sum_count_moods, hperm.length_eq]
  · have hactions := nodup_enablementActions hids he
    obtain ⟨hskills, hknowledge, htools⟩ := action_mem_of_within hwithin he
    exact ⟨flatMap_filter_perm hactions hskills, flatMap_filter_perm hactions hknowledge,
      flatMap_filter_perm hactions htools⟩
  · have hd : .journey j ∈ s.documents := mem_documents.mpr (by simp [Document.kind, get?, hj])
    obtain ⟨v, hv, hload⟩ := exists_load_of_ofText htext hd
    exact (Document.loadable_of_load hv hload).scores j rfl

/-- Actions and skills that alternate between their owners, and a phase without actions. -/
theorem lookups_divide_alternating :
    let j : JourneyMap := ⟨"1.0", "j", none, [⟨"p", "P"⟩, ⟨"q", "Q"⟩, ⟨"r", "R"⟩],
      [⟨"a", "A", "q", [], [], 2⟩, ⟨"b", "B", "p", [], [], -1⟩, ⟨"c", "C", "q", [], [], 2⟩], []⟩
    let e : EnablementMap := ⟨"1.0", "e", [], [⟨"m", "M", ""⟩, ⟨"n", "N", "t"⟩],
      [⟨"x", "X", "n", []⟩, ⟨"y", "Y", "m", []⟩, ⟨"z", "Z", "n", []⟩], [], [], []⟩
    let s : ServiceMap := ⟨some j, none, none, some e⟩
    let text := "kind: cjm\nversion: v\nid: j\nphases:\n- id: p\n  name: P\nactions:\n" ++
      "- id: a\n  name: A\n  phase: p\n  emotion_score: 2.0\n"
    let k : JourneyMap := ⟨"v", "j", none, [⟨"p", "P"⟩], [⟨"a", "A", "p", [], [], 2⟩], []⟩
    s.checkWithin.valid = true ∧
      (j.phases.flatMap fun p => j.actionsIn p.id) ~ j.actions ∧
      (j.moods.map (·.count)).sum = 3 ∧
      (∀ m ∈ j.moods, PhaseMood.total (j.actionsIn m.phase) ≤ 2 * m.count) ∧
      (e.actions.flatMap fun a => e.skillsFor a.id) ~ e.skills ∧
      ofText .standard text = .ok ⟨some k, none, none, none⟩ ∧
      ∀ a ∈ k.actions, -2 ≤ a.emotionScore ∧ a.emotionScore ≤ 2 := by
  intro j e s text k
  have hvalid : s.checkWithin.valid = true := by decide +kernel
  have hscores : ∀ a ∈ j.actions, -2 ≤ a.emotionScore ∧ a.emotionScore ≤ 2 := by decide
  have htext : ofText .standard text = .ok ⟨some k, none, none, none⟩ := by decide +kernel
  obtain ⟨hjourney, henablement, -⟩ := lookups_divide hvalid
  obtain ⟨hperm, -, hsum, -, -, hbounds⟩ := hjourney j rfl
  refine ⟨hvalid, hperm, hsum, fun m hm => (hbounds hscores m hm).2, (henablement e rfl).1, htext,
    ?_⟩
  exact (lookups_divide (s := ⟨some k, none, none, none⟩) (by decide +kernel)).2.2 _ _ _ htext rfl

end ServiceMap

/-! ### Lookups between documents -/

/-- What lookups find under an identifier refers to something: there is a journey action, a task or
the indicator with that identifier. -/
structure LookupsAnswered (j : JourneyMap) (b : Blueprint) (o : Outcome) (e : EnablementMap)
    (id : String) : Prop where
  tasks : b.tasksServing id ≠ [] → ∃ a ∈ j.actions, a.id = id
  measures : e.actionsFor id ≠ [] → ∃ t ∈ b.tasks, t.id = id
  outcomes : e.outcomesFor id ≠ [] → id = o.indicator.id

theorem Blueprint.tasksServing_ne_nil {b : Blueprint} {id : String} :
    b.tasksServing id ≠ [] ↔ ∃ t ∈ b.tasks, t.source = some id := by
  simp [tasksServing, List.filter_eq_nil_iff]

theorem EnablementMap.actionsFor_ne_nil {e : EnablementMap} {id : String} :
    e.actionsFor id ≠ [] ↔ ∃ a ∈ e.actions, a.source = id := by
  simp [actionsFor, List.filter_eq_nil_iff]

theorem EnablementMap.outcomesFor_ne_nil {e : EnablementMap} {id : String} :
    e.outcomesFor id ≠ [] ↔ ∃ u ∈ e.outcomes, u.source = id := by
  simp [outcomesFor, List.filter_eq_nil_iff]

/-- The owners of unset references in a list of owners stand under the empty identifier. -/
theorem exists_unset_listed_iff {α : Type} {l : List α} {r : α → Option String} {id : String} :
    (∃ a ∈ l.filter (r · = some id), pointsTo? (r a) = none) ↔
      id = "" ∧ ∃ a ∈ l, r a = some "" := by
  constructor
  · rintro ⟨a, ha, hunset⟩
    obtain ⟨hal, hr⟩ : a ∈ l ∧ r a = some id := by simpa using ha
    have hid : id = "" := by simpa [hr, pointsTo?_eq_none_iff] using hunset
    exact ⟨hid, a, hal, hid ▸ hr⟩
  · rintro ⟨rfl, a, hal, hr⟩
    exact ⟨a, by simpa using ⟨hal, hr⟩, pointsTo?_eq_none_iff.mpr (.inr hr)⟩

theorem Blueprint.exists_unset_tasksServing {b : Blueprint} {id : String} :
    (∃ t ∈ b.tasksServing id, pointsTo? t.source = none) ↔
      id = "" ∧ ∃ t ∈ b.tasks, t.source = some "" :=
  exists_unset_listed_iff

theorem EnablementMap.exists_unset_actionsFor {e : EnablementMap} {id : String} :
    (∃ a ∈ e.actionsFor id, pointsTo? (some a.source) = none) ↔
      id = "" ∧ ∃ a ∈ e.actions, a.source = "" := by
  simpa [actionsFor] using
    exists_unset_listed_iff (l := e.actions) (r := fun a => some a.source)

theorem EnablementMap.exists_unset_outcomesFor {e : EnablementMap} {id : String} :
    (∃ u ∈ e.outcomesFor id, pointsTo? (some u.source) = none) ↔
      id = "" ∧ ∃ u ∈ e.outcomes, u.source = "" := by
  simpa [outcomesFor] using
    exists_unset_listed_iff (l := e.outcomes) (r := fun u => some u.source)

theorem lookupsAnswered_iff {j : JourneyMap} {b : Blueprint} {o : Outcome} {e : EnablementMap}
    {id : String} :
    LookupsAnswered j b o e id ↔
      ((∃ t ∈ b.tasks, t.source = some id) → ∃ a ∈ j.actions, a.id = id) ∧
      ((∃ a ∈ e.actions, a.source = id) → ∃ t ∈ b.tasks, t.id = id) ∧
      ((∃ u ∈ e.outcomes, u.source = id) → id = o.indicator.id) := by
  rw [← Blueprint.tasksServing_ne_nil, ← EnablementMap.actionsFor_ne_nil,
    ← EnablementMap.outcomesFor_ne_nil]
  exact ⟨fun h => ⟨h.tasks, h.measures, h.outcomes⟩, fun ⟨ht, hm, ho⟩ => ⟨ht, hm, ho⟩⟩

theorem Blueprint.isSome_factorTask?_iff {b : Blueprint} {o : Outcome} :
    ((pointsTo? o.factor.source).isSome = true → (b.factorTask? o).isSome = true) ↔
      ∀ id, pointsTo? o.factor.source = some id → ∃ t ∈ b.tasks, t.id = id := by
  cases h : pointsTo? o.factor.source <;> simp [factorTask?, task?, h, List.find?_isSome]

/-- Set references are answered if those of each identifier but the empty one are. -/
theorem forall_pointsTo?_iff {α : Type} {l : List α} {r : α → Option String} {P : String → Prop} :
    (∀ a ∈ l, ∀ id, pointsTo? (r a) = some id → P id) ↔
      ∀ id, id ≠ "" → (∃ a ∈ l, r a = some id) → P id := by
  simp only [pointsTo?_eq_some_iff]
  constructor
  · rintro h id hid ⟨a, ha, hr⟩
    exact h a ha id ⟨hr, hid⟩
  · rintro h a ha id ⟨hr, hid⟩
    exact h id hid ⟨a, ha, hr⟩

namespace ServiceMap

variable {s : ServiceMap}

theorem dangles_eq_false_iff_of_get? {p : Pointer} {d : Document}
    (hd : s.get? p.target.kind = some d) :
    p.dangles s = false ↔ ∀ id, pointsTo? p.names = some id → (p.target, id) ∈ d.entries := by
  simp [dangles_eq_false_iff, contains, hd, mem_entries_of_get? hd]

/-- The check between four documents finds nothing if every set reference is answered. -/
theorem valid_checkAcross_iff_answered (j : JourneyMap) (b : Blueprint) (o : Outcome)
    (e : EnablementMap) :
    (checkAcross ⟨some j, some b, some o, some e⟩).valid = true ↔
      (∀ t ∈ b.tasks, ∀ id, pointsTo? t.source = some id → ∃ a ∈ j.actions, a.id = id) ∧
      (∀ id, pointsTo? o.factor.source = some id → ∃ t ∈ b.tasks, t.id = id) ∧
      (∀ a ∈ e.actions, ∀ id, pointsTo? (some a.source) = some id → ∃ t ∈ b.tasks, t.id = id) ∧
      ∀ u ∈ e.outcomes, ∀ id, pointsTo? (some u.source) = some id → id = o.indicator.id := by
  let s : ServiceMap := ⟨some j, some b, some o, some e⟩
  have hjourney : s.get? Collection.journeyAction.kind = some (.journey j) := rfl
  have hblueprint : s.get? Collection.task.kind = some (.blueprint b) := rfl
  have houtcome : s.get? Collection.indicator.kind = some (.outcome o) := rfl
  have hpointers : s.pointersAcross =
      taskPointers b ++ factorPointers o ++ actionPointers e ++ outcomePointers e := by
    simp [pointersAcross, s]
  rw [valid_checkAcross_iff, hpointers]
  simp only [List.forall_mem_append, taskPointers, factorPointers, actionPointers, outcomePointers,
    List.forall_mem_map, List.forall_mem_singleton, and_assoc]
  refine and_congr ?_ (and_congr ?_ (and_congr ?_ ?_))
  · refine forall₂_congr fun t _ => (dangles_eq_false_iff_of_get? hjourney).trans ?_
    simp [Document.entries]
  · refine (dangles_eq_false_iff_of_get? hblueprint).trans ?_
    simp [Document.entries]
  · refine forall₂_congr fun a _ => (dangles_eq_false_iff_of_get? hblueprint).trans ?_
    simp [Document.entries]
  · refine forall₂_congr fun u _ => (dangles_eq_false_iff_of_get? houtcome).trans ?_
    simp [Document.entries]

/-- Lookups agree with the check between documents on every identifier but the empty one. In a map
with all four documents the check finds nothing exactly if whatever the lookups find under a
non-empty identifier refers to something, and the task of the success factor is there if it is set.
Under the empty identifier they find what holds the empty text in place of a reference: to the check
it is unset and points nowhere, so that a map without faults can have owners of such references, but
nothing with the empty identifier. In no other case do the lookups find what refers to nothing, and
under no other identifier do they find the owner of an unset reference. -/
theorem lookups_agree_with_check (j : JourneyMap) (b : Blueprint) (o : Outcome)
    (e : EnablementMap) :
    ((checkAcross ⟨some j, some b, some o, some e⟩).valid = true ↔
      (∀ id, id ≠ "" → LookupsAnswered j b o e id) ∧
      ((pointsTo? o.factor.source).isSome = true → (b.factorTask? o).isSome = true)) ∧
    ((checkAcross ⟨some j, some b, some o, some e⟩).valid = true → ∀ id,
      (¬ LookupsAnswered j b o e id ↔ id = "" ∧
        ((∃ t ∈ b.tasks, t.source = some "") ∧ (∀ a ∈ j.actions, a.id ≠ "") ∨
          (∃ a ∈ e.actions, a.source = "") ∧ (∀ t ∈ b.tasks, t.id ≠ "") ∨
          (∃ u ∈ e.outcomes, u.source = "") ∧ o.indicator.id ≠ ""))) ∧
    ∀ id, ((∃ t ∈ b.tasksServing id, pointsTo? t.source = none) ∨
      (∃ a ∈ e.actionsFor id, pointsTo? (some a.source) = none) ∨
      ∃ u ∈ e.outcomesFor id, pointsTo? (some u.source) = none) ↔ id = "" ∧
        ((∃ t ∈ b.tasks, t.source = some "") ∨ (∃ a ∈ e.actions, a.source = "") ∨
          ∃ u ∈ e.outcomes, u.source = "") := by
  have hvalid : (checkAcross ⟨some j, some b, some o, some e⟩).valid = true ↔
      (∀ id, id ≠ "" → LookupsAnswered j b o e id) ∧
      ((pointsTo? o.factor.source).isSome = true → (b.factorTask? o).isSome = true) := by
    rw [valid_checkAcross_iff_answered, Blueprint.isSome_factorTask?_iff, forall_pointsTo?_iff,
      forall_pointsTo?_iff (r := fun a : EnablementAction => some a.source),
      forall_pointsTo?_iff (r := fun u : EnablementOutcome => some u.source)]
    simp only [Option.some.injEq, ← Blueprint.tasksServing_ne_nil,
      ← EnablementMap.actionsFor_ne_nil, ← EnablementMap.outcomesFor_ne_nil]
    constructor
    · rintro ⟨htasks, hfactor, hmeasures, houtcomes⟩
      exact ⟨fun id hid => ⟨htasks id hid, hmeasures id hid, houtcomes id hid⟩, hfactor⟩
    · rintro ⟨hanswered, hfactor⟩
      exact ⟨fun id hid => (hanswered id hid).tasks, hfactor,
        fun id hid => (hanswered id hid).measures, fun id hid => (hanswered id hid).outcomes⟩
  refine ⟨hvalid, fun h id => ?_, fun id => ?_⟩
  · by_cases hid : id = ""
    · subst hid
      rw [lookupsAnswered_iff, not_and_or, not_and_or, Classical.not_imp, Classical.not_imp,
        Classical.not_imp]
      simp only [not_exists, not_and, true_and, ne_eq, eq_comm (b := o.indicator.id)]
    · simp [hid, (hvalid.mp h).1 id hid]
  · rw [Blueprint.exists_unset_tasksServing, EnablementMap.exists_unset_actionsFor,
      EnablementMap.exists_unset_outcomesFor, ← and_or_left, ← and_or_left]

/-- A task, a measure and an enablement outcome whose references are the empty text, beside others
that are answered. -/
theorem lookups_agree_with_check_unset :
    let j : JourneyMap := ⟨"1.0", "j", none, [⟨"p", "P"⟩], [⟨"a", "A", "p", [], [], 0⟩], []⟩
    let b : Blueprint := ⟨"1.0", "b", [⟨"l", "L", .team⟩], [⟨"t", "l", "T", some "a", [], false⟩,
      ⟨"u", "l", "U", some "", [], false⟩], []⟩
    let o : Outcome := ⟨"1.0", "o", ⟨"g", "G"⟩, ⟨"f", "g", some "t", ""⟩,
      ⟨"k", "f", "K", none, none, .zero false⟩, []⟩
    let e : EnablementMap :=
      ⟨"1.0", "e", [⟨"v", ""⟩, ⟨"w", "k"⟩], [⟨"m", "M", ""⟩, ⟨"n", "N", "t"⟩], [], [], [], []⟩
    LookupsAnswered j b o e "a" ∧ LookupsAnswered j b o e "k" ∧ ¬ LookupsAnswered j b o e "" := by
  intro j b o e
  have hvalid : (checkAcross ⟨some j, some b, some o, some e⟩).valid = true := by decide +kernel
  obtain ⟨hagree, hempty, -⟩ := lookups_agree_with_check j b o e
  have hanswered := (hagree.mp hvalid).1
  refine ⟨hanswered "a" (by decide), hanswered "k" (by decide), (hempty hvalid "").mpr ⟨rfl, ?_⟩⟩
  exact .inl (by decide)

/-- A map in which the check between documents finds nothing, though all three lookups find
something under the empty identifier that nothing has. -/
theorem lookups_find_unset :
    let j : JourneyMap := ⟨"1.0", "j", none, [], [], []⟩
    let b : Blueprint :=
      ⟨"1.0", "b", [⟨"l", "L", .team⟩], [⟨"t", "l", "T", some "", [], false⟩], []⟩
    let o : Outcome := ⟨"1.0", "o", ⟨"g", "G"⟩, ⟨"f", "g", none, "r"⟩,
      ⟨"k", "f", "K", none, none, .ofInt 1⟩, []⟩
    let e : EnablementMap := ⟨"1.0", "e", [⟨"v", ""⟩], [⟨"m", "M", ""⟩], [], [], [], []⟩
    (checkAcross ⟨some j, some b, some o, some e⟩).valid = true ∧
      (b.tasksServing "" ≠ [] ∧ ¬ ∃ a ∈ j.actions, a.id = "") ∧
      (e.actionsFor "" ≠ [] ∧ ¬ ∃ t ∈ b.tasks, t.id = "") ∧
      (e.outcomesFor "" ≠ [] ∧ "" ≠ o.indicator.id) := by
  decide +kernel

end ServiceMap

end ServiceMaps
