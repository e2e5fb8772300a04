import ServiceMaps.Proofs.Editing
import ServiceMaps.Proofs.Lineage

/-!
Adding parts to a consistent map. A part whose own references point to what is there, and whose
identifier is new, leaves both checks without reports, since what it adds can only answer
references and not break them. No lineage changes but by a measure for its own task: a lookup that
has found its part in a list finds the same in a longer one, and without reports every lookup that
has something to look for succeeds.
-/
namespace ServiceMaps

open References
open scoped List

namespace Part

/-- The references of a part that stay inside its document. -/
def pointersWithin : Part → List Pointer
  | .phase _ | .lane _ | .enablementAction _ => []
  | .journeyAction a => [⟨.journeyAction, a.id, .phase, some a.phase⟩]
  | .task t => taskPointersWithin t
  | .skill k => [⟨.skill, k.id, .enablementAction, some k.action⟩]
  | .knowledge r => [⟨.knowledge, r.id, .enablementAction, some r.action⟩]
  | .tool r => [⟨.tool, r.id, .enablementAction, some r.action⟩]

/-- The references of a part to other documents. -/
def pointersAcross : Part → List Pointer
  | .task t => [⟨.task, t.id, .journeyAction, t.source⟩]
  | .enablementAction a => [⟨.enablementAction, a.id, .task, some a.source⟩]
  | _ => []

/-- The measures that a part adds. -/
def measures : Part → List EnablementAction
  | .enablementAction a => [a]
  | _ => []

end Part

/-- The lineage with the measures that parts add for its task at the end. -/
def Lineage.joined (parts : List Part) (c : Lineage) : Lineage :=
  { c with
    measures := c.measures ++ (parts.flatMap Part.measures).filter (·.source = c.task.id) }

namespace ServiceMap

/-- The references of a part point to what the map gives: those inside its document must do so, and
links of a task may also point to the task itself; those to another document may be unset, or point
anywhere as long as that document is absent. -/
def Answers (s : ServiceMap) : Part → Prop
  | .phase _ | .lane _ => True
  | .journeyAction a => (.phase, a.phase) ∈ s.entries
  | .task t =>
    (.lane, t.lane) ∈ s.entries ∧ (∀ link ∈ t.links, link = t.id ∨ (.task, link) ∈ s.entries) ∧
    ∀ id ∈ pointsTo? t.source, s.contains .journey = true → (.journeyAction, id) ∈ s.entries
  | .enablementAction a =>
    ∀ id ∈ pointsTo? (some a.source), s.contains .blueprint = true → (.task, id) ∈ s.entries
  | .skill k => (.enablementAction, k.action) ∈ s.entries
  | .knowledge r | .tool r => (.enablementAction, r.action) ∈ s.entries

instance (s : ServiceMap) : DecidablePred s.Answers
  | .phase _ | .lane _ => inferInstanceAs (Decidable True)
  | .journeyAction _ | .skill _ | .knowledge _ | .tool _ => inferInstanceAs (Decidable (_ ∈ _))
  | .task t => inferInstanceAs (Decidable ((.lane, t.lane) ∈ s.entries ∧
      (∀ link ∈ t.links, link = t.id ∨ (.task, link) ∈ s.entries) ∧
      ∀ id ∈ pointsTo? t.source, s.contains .journey = true → (.journeyAction, id) ∈ s.entries))
  | .enablementAction a => inferInstanceAs (Decidable (∀ id ∈ pointsTo? (some a.source),
      s.contains .blueprint = true → (.task, id) ∈ s.entries))

/-- A part that fits into a map: its document is present, its identifier is new, and its references
are answered. -/
structure Admits (s : ServiceMap) (p : Part) : Prop where
  present : s.contains p.kind = true
  fresh : p.id ∉ s.ids
  answers : s.Answers p

instance (s : ServiceMap) (p : Part) : Decidable (s.Admits p) :=
  decidable_of_iff (s.contains p.kind = true ∧ p.id ∉ s.ids ∧ s.Answers p)
    ⟨fun ⟨hp, hf, ha⟩ => ⟨hp, hf, ha⟩, fun h => ⟨h.present, h.fresh, h.answers⟩⟩

/-- Adds parts one after another. -/
def appendAll (s : ServiceMap) (parts : List Part) : ServiceMap :=
  parts.foldl (fun s p => s.append p) s

/-- Each of the parts fits into the map as the parts before it leave it. -/
def AdmitsAll (s : ServiceMap) : List Part → Prop
  | [] => True
  | p :: rest => s.Admits p ∧ (s.append p).AdmitsAll rest

instance decidableAdmitsAll (s : ServiceMap) : (parts : List Part) → Decidable (s.AdmitsAll parts)
  | [] => inferInstanceAs (Decidable True)
  | p :: rest =>
    have := decidableAdmitsAll (s.append p) rest
    inferInstanceAs (Decidable (_ ∧ _))

/-- Neither check reports anything. -/
structure Consistent (s : ServiceMap) : Prop where
  across : ∀ q ∈ s.pointersAcross, q.dangles s = false
  within : ∀ q ∈ s.pointersWithin, q.misses s = false
  ids : s.ids.Nodup

variable {s : ServiceMap} {p : Part}

theorem consistent_iff :
    s.Consistent ↔ s.checkAcross.valid = true ∧ s.checkWithin.valid = true := by
  rw [valid_checkAcross_iff, valid_checkWithin_iff]
  exact ⟨fun h => ⟨h.across, h.within, h.ids⟩, fun ⟨ha, hw, hi⟩ => ⟨ha, hw, hi⟩⟩

theorem Consistent.faultsAcross (h : s.Consistent) : s.faultsAcross = [] := by
  simpa [checkAcross, Verdict.ofFaults] using (consistent_iff.mp h).1

theorem Consistent.missingWithin (h : s.Consistent) : s.missingWithin = [] := by
  have hnone : s.faultsWithin = [] := by
    simpa [checkWithin, Verdict.ofFaults] using (consistent_iff.mp h).2
  exact (List.append_eq_nil_iff.mp hnone).1

/-! ### What a part adds -/

@[simp] theorem contains_append (s : ServiceMap) (p : Part) (k : Kind) :
    (s.append p).contains k = s.contains k := by
  cases p <;> cases k <;> simp [append, contains, get?]

theorem pointersAcross_append (h : s.contains p.kind = true) :
    (s.append p).pointersAcross ~ p.pointersAcross ++ s.pointersAcross := by
  obtain ⟨j, b, o, e⟩ := s
  refine List.perm_iff_count.mpr fun q => ?_
  cases p
  all_goals
    obtain ⟨d, rfl⟩ := exists_of_isSome_map h
    simp only [ServiceMap.pointersAcross, append, taskPointers, actionPointers, outcomePointers,
      Part.pointersAcross, Option.map_some, Option.toList_some, List.flatMap_cons,
      List.flatMap_nil, List.map_append, List.map_cons, List.map_nil, List.count_append,
      List.count_cons, List.count_nil]
    omega

theorem pointersWithin_append (h : s.contains p.kind = true) :
    (s.append p).pointersWithin ~ p.pointersWithin ++ s.pointersWithin := by
  obtain ⟨j, b, o, e⟩ := s
  refine List.perm_iff_count.mpr fun q => ?_
  cases p
  all_goals
    obtain ⟨d, rfl⟩ := exists_of_isSome_map h
    simp only [ServiceMap.pointersWithin, append, journeyPointers, blueprintPointers,
      enablementPointers, Part.pointersWithin, Option.map_some, Option.toList_some,
      List.flatMap_append, List.flatMap_cons, List.flatMap_nil, List.map_append, List.map_cons,
      List.map_nil, List.count_append, List.count_cons, List.count_nil]
    omega

/-- What is there stays there. -/
theorem mem_entries_append (h : s.contains p.kind = true) {entry : Entry} :
    entry ∈ (s.append p).entries ↔ entry = (p.collection, p.id) ∨ entry ∈ s.entries := by
  rw [(entries_append h).mem_iff, List.mem_cons]

/-- A reference that is answered stays answered. -/
theorem misses_append (h : s.contains p.kind = true) {q : Pointer} (hq : q.misses s = false) :
    q.misses (s.append p) = false := by
  simp only [Pointer.misses_eq_false_iff, contains_append, mem_entries_append h] at hq ⊢
  exact fun id hid hpresent => .inr (hq id hid hpresent)

theorem dangles_append (h : s.contains p.kind = true) {q : Pointer} (hq : q.dangles s = false) :
    q.dangles (s.append p) = false := by
  simp only [dangles_eq_false_iff, contains_append, mem_entries_append h] at hq ⊢
  exact fun id hid hpresent => .inr (hq id hid hpresent)

/-! ### One part -/

/-- The references of a part inside its document are answered once it is added. -/
theorem Admits.misses (h : s.Admits p) : ∀ q ∈ p.pointersWithin, q.misses (s.append p) = false := by
  have hone : ∀ {source target : Collection} {id name : String},
      (target, name) = (p.collection, p.id) ∨ (target, name) ∈ s.entries →
      Pointer.misses (s.append p) ⟨source, id, target, some name⟩ = false := by
    intro source target id name hname
    rw [Pointer.misses_eq_false_iff]
    intro _ hid _
    obtain rfl := Option.some.inj hid
    exact (mem_entries_append h.present).mpr hname
  have hanswers := h.answers
  cases p <;> simp only [Part.pointersWithin, List.not_mem_nil, List.forall_mem_singleton,
    false_imp_iff, implies_true]
  case task t =>
    obtain ⟨hlane, hlinks, -⟩ := hanswers
    simp only [taskPointersWithin, List.forall_mem_cons, List.forall_mem_map]
    refine ⟨hone (.inr hlane), fun link hlink => hone ?_⟩
    rcases hlinks link hlink with rfl | hother
    · exact .inl rfl
    · exact .inr hother
  all_goals exact hone (.inr hanswers)

/-- The references of a part to other documents are answered once it is added. -/
theorem Admits.dangles (h : s.Admits p) :
    ∀ q ∈ p.pointersAcross, q.dangles (s.append p) = false := by
  have hanswers := h.answers
  have hpresent := h.present
  cases p <;> simp only [Part.pointersAcross, List.not_mem_nil, List.forall_mem_singleton,
    false_imp_iff, implies_true]
  case task t => exact dangles_append hpresent (dangles_eq_false_iff.mpr hanswers.2.2)
  case enablementAction a => exact dangles_append hpresent (dangles_eq_false_iff.mpr hanswers)

/-- A part that fits leaves a consistent map consistent. -/
theorem Consistent.append (hs : s.Consistent) (h : s.Admits p) : (s.append p).Consistent where
  across q hq := by
    rcases List.mem_append.mp ((pointersAcross_append h.present).mem_iff.mp hq) with hnew | hold
    · exact h.dangles q hnew
    · exact dangles_append h.present (hs.across q hold)
  within q hq := by
    rcases List.mem_append.mp ((pointersWithin_append h.present).mem_iff.mp hq) with hnew | hold
    · exact h.misses q hnew
    · exact misses_append h.present (hs.within q hold)
  ids := (ids_append h.present).nodup_iff.mpr (List.nodup_cons.mpr ⟨h.fresh, hs.ids⟩)

/-! ### Lineages -/

theorem find?_longer {α : Type} {f : α → String} {l l' : List α} (h : l <+: l') {id : String}
    (hid : ∃ a ∈ l, f a = id) : l'.find? (f · = id) = l.find? (f · = id) := by
  obtain ⟨rest, rfl⟩ := h
  obtain ⟨a, ha⟩ : ∃ a, l.find? (f · = id) = some a :=
    Option.isSome_iff_exists.mp (by simpa [List.find?_isSome] using hid)
  rw [List.find?_append, ha, Option.some_or]

theorem documents_append (p : Part) (j : JourneyMap) (b : Blueprint) (o : Outcome)
    (e : EnablementMap) :
    ∃ j' b' e', (mk (some j) (some b) (some o) (some e)).append p =
        ⟨some j', some b', some o, some e'⟩ ∧
      j.phases <+: j'.phases ∧ j.actions <+: j'.actions ∧ b.tasks <+: b'.tasks ∧
      e'.actions = e.actions ++ p.measures := by
  cases p <;> exact ⟨_, _, _, rfl, by simp [Part.measures]⟩

section Lookups

/-! In a consistent map the references that lineages follow name what is there. -/

variable {j : JourneyMap} {b : Blueprint} {o : Outcome}

theorem Consistent.exists_task (h : s.Consistent) (hb : s.blueprint = some b)
    (ho : s.outcome = some o) {id : String} (hid : pointsTo? o.factor.source = some id) :
    ∃ t ∈ b.tasks, t.id = id :=
  (clear_factor_iff hb ho).mp (by simp [h.faultsAcross]) id hid

theorem Consistent.exists_action (h : s.Consistent) (hj : s.journey = some j)
    (hb : s.blueprint = some b) {t : BlueprintTask} (ht : t ∈ b.tasks) {id : String}
    (hid : pointsTo? t.source = some id) : ∃ a ∈ j.actions, a.id = id :=
  (clear_task_iff hj hb (nodup_tasks h.ids hb) ht).mp (by simp [Clear, h.faultsAcross]) id hid

theorem Consistent.exists_phase (h : s.Consistent) (hj : s.journey = some j)
    {a : JourneyAction} (ha : a ∈ j.actions) : ∃ p ∈ j.phases, p.id = a.phase :=
  (clear_action_iff hj (nodup_actions h.ids hj) ha).mp (by simp [Clear, h.missingWithin])

theorem Consistent.factorTask?_longer (h : s.Consistent) (hb : s.blueprint = some b)
    (ho : s.outcome = some o) {b' : Blueprint} (htasks : b.tasks <+: b'.tasks) :
    b'.factorTask? o = b.factorTask? o :=
  Option.bind_congr fun _ hid => find?_longer htasks (h.exists_task hb ho hid)

end Lookups

theorem lineage?_append_of_absent {k : Kind} (hk : s.get? k = none) (p : Part)
    (indicator : String) :
    (s.append p).lineage? indicator = (s.lineage? indicator).map (Lineage.joined [p]) := by
  have hk' : (s.append p).get? k = none := by
    simpa [contains, hk] using contains_append s p k
  rw [lineage?_of_absent ⟨k, hk⟩, lineage?_of_absent ⟨k, hk'⟩, Option.map_none]

/-- Adding a part changes no lineage of a consistent map but by a measure for its task. -/
theorem Consistent.lineage?_append (hs : s.Consistent) (p : Part) (indicator : String) :
    (s.append p).lineage? indicator = (s.lineage? indicator).map (Lineage.joined [p]) := by
  obtain ⟨j, b, o, e⟩ := s
  rcases j with _ | j
  · exact lineage?_append_of_absent (k := .journey) rfl p indicator
  rcases b with _ | b
  · exact lineage?_append_of_absent (k := .blueprint) rfl p indicator
  rcases o with _ | o
  · exact lineage?_append_of_absent (k := .outcome) rfl p indicator
  rcases e with _ | e
  · exact lineage?_append_of_absent (k := .enablement) rfl p indicator
  obtain ⟨j', b', e', happend, hphases, hactions, htasks, hmeasures⟩ := documents_append p j b o e
  rw [happend]
  simp only [lineage?, Option.bind_eq_bind, Option.bind_some]
  split
  case isFalse => rfl
  case isTrue =>
    rw [hs.factorTask?_longer rfl rfl htasks, Option.map_bind]
    refine Option.bind_congr fun t ht => ?_
    have htask : t ∈ b.tasks := by
      obtain ⟨id, -, hfind⟩ := Option.bind_eq_some_iff.mp ht
      exact List.mem_of_find?_eq_some hfind
    rw [Function.comp_apply, Option.map_bind]
    refine Option.bind_congr fun id hid => ?_
    rw [Function.comp_apply, Option.map_bind,
      find?_longer hactions (hs.exists_action rfl rfl htask hid)]
    refine Option.bind_congr fun a ha => ?_
    have haction : a ∈ j.actions := List.mem_of_find?_eq_some ha
    rw [Function.comp_apply, Option.map_bind,
      find?_longer hphases (hs.exists_phase rfl haction)]
    refine Option.bind_congr fun phase _ => ?_
    simp [Lineage.joined, EnablementMap.actionsFor, hmeasures]

/-! ### Several parts -/

theorem appendAll_append (s : ServiceMap) (before after : List Part) :
    s.appendAll (before ++ after) = (s.appendAll before).appendAll after :=
  List.foldl_append

theorem admitsAll_append {before after : List Part} :
    s.AdmitsAll (before ++ after) ↔ s.AdmitsAll before ∧ (s.appendAll before).AdmitsAll after := by
  induction before generalizing s with
  | nil => simp [AdmitsAll, appendAll]
  | cons p rest ih =>
    simp only [List.cons_append, AdmitsAll, ih, and_assoc]
    rfl

@[simp] theorem joined_nil : Lineage.joined [] = id := by
  funext c
  simp [Lineage.joined]

theorem joined_cons (p : Part) (rest : List Part) :
    Lineage.joined rest ∘ Lineage.joined [p] = Lineage.joined (p :: rest) := by
  funext c
  simp [Lineage.joined]

/-- Parts that fit, each when its turn comes, leave a consistent map consistent, and its lineages as
they were but for the measures added for their tasks. -/
theorem Consistent.appendAll {parts : List Part} (hs : s.Consistent) (h : s.AdmitsAll parts) :
    (s.appendAll parts).Consistent ∧
      ∀ indicator, (s.appendAll parts).lineage? indicator =
        (s.lineage? indicator).map (Lineage.joined parts) := by
  induction parts generalizing s with
  | nil => exact ⟨hs, fun indicator => by simp [ServiceMap.appendAll]⟩
  | cons p rest ih =>
    obtain ⟨hp, hrest⟩ := h
    obtain ⟨hvalid, hlineage⟩ := ih (hs.append hp) hrest
    refine ⟨hvalid, fun indicator => ?_⟩
    rw [← joined_cons, ← Option.map_map, ← hs.lineage?_append p]
    exact hlineage indicator

/-- Well-referenced additions keep a map consistent. If both checks pass, and each of any number of
parts that are added one after another is new and refers only to what is there when its turn comes,
then both checks pass after each of them. The lineages stay as they are, except that each gets the
measures that are added for its task, at its end and in their order. -/
theorem appendAll_stays_valid {parts : List Part} (hacross : s.checkAcross.valid = true)
    (hwithin : s.checkWithin.valid = true) (h : s.AdmitsAll parts) :
    ∀ before after, before ++ after <+: parts →
      ((s.appendAll (before ++ after)).checkAcross.valid = true ∧
        (s.appendAll (before ++ after)).checkWithin.valid = true) ∧
      ∀ indicator, (s.appendAll (before ++ after)).lineage? indicator =
        ((s.appendAll before).lineage? indicator).map (Lineage.joined after) := by
  rintro before after ⟨rest, rfl⟩
  obtain ⟨hfirst, -⟩ := admitsAll_append.mp h
  obtain ⟨hbefore, hafter⟩ := admitsAll_append.mp hfirst
  obtain ⟨hmiddle, -⟩ := (consistent_iff.mpr ⟨hacross, hwithin⟩).appendAll hbefore
  obtain ⟨hend, hlineage⟩ := hmiddle.appendAll hafter
  rw [appendAll_append]
  exact ⟨consistent_iff.mp hend, hlineage⟩

/-- A new branch of the journey with a task for it that links to itself; of three new measures one
is for the task of the lineage, one for the new task and one for none. -/
theorem appendAll_stays_valid_branch :
    let s : ServiceMap := ⟨
      some ⟨"1.0", "j", none, [⟨"p", "P"⟩], [⟨"a", "A", "p", [], [], 0⟩], []⟩,
      some ⟨"1.0", "b", [⟨"l", "L", .team⟩], [⟨"t", "l", "T", some "a", [], false⟩], []⟩,
      some ⟨"1.0", "o", ⟨"g", "G"⟩, ⟨"f", "g", some "t", ""⟩,
        ⟨"k", "f", "K", none, none, .zero false⟩, []⟩,
      some ⟨"1.0", "e", [⟨"w", "k"⟩], [⟨"m", "M", "t"⟩], [], [], [], []⟩⟩
    let parts : List Part := [
      .phase ⟨"q", "Q"⟩, .journeyAction ⟨"c", "C", "q", [], [], 1⟩,
      .task ⟨"u", "l", "U", some "c", ["u", "t"], true⟩,
      .enablementAction ⟨"x", "X", "u"⟩, .enablementAction ⟨"y", "Y", "t"⟩,
      .enablementAction ⟨"z", "Z", ""⟩, .skill ⟨"h", "H", "z", []⟩]
    s.AdmitsAll parts ∧ (s.appendAll parts).checkWithin.valid = true ∧
      ((s.appendAll parts).lineage? "k").map (·.measures) =
        some [⟨"m", "M", "t"⟩, ⟨"y", "Y", "t"⟩] := by
  intro s parts
  have hacross : s.checkAcross.valid = true := by decide +kernel
  have hwithin : s.checkWithin.valid = true := by decide +kernel
  have hadmits : s.AdmitsAll parts := by decide +kernel
  obtain ⟨⟨-, hvalid⟩, hlineage⟩ :=
    appendAll_stays_valid hacross hwithin hadmits [] parts (List.prefix_refl _)
  have hkept := hlineage "k"
  refine ⟨hadmits, hvalid, ?_⟩
  rw [List.nil_append] at hkept
  rw [hkept]
  decide +kernel

end ServiceMap

end ServiceMaps
