import ServiceMaps.Proofs.References.Pointers

/-!
The check of references between documents is exact. It reports each reference that is set and
misses, once and in the place where it stands, and nothing else. A document that is taken out can
only take reports with it.
-/
namespace ServiceMaps

/-- Whether a reference between documents is at fault: it misses and is not the empty text, which
points nowhere. -/
def Pointer.dangles (s : ServiceMap) (p : Pointer) : Bool := p.names ≠ some "" && p.misses s

namespace References

/-- What tasks point to in the journey. -/
def taskPointers (b : Blueprint) : List Pointer :=
  b.tasks.map fun t => ⟨.task, t.id, .journeyAction, t.source⟩

/-- What the success factor points to among the tasks. -/
def factorPointers (o : Outcome) : List Pointer :=
  [⟨.factor, o.factor.id, .task, o.factor.source⟩]

/-- What enablement actions point to among the tasks. -/
def actionPointers (e : EnablementMap) : List Pointer :=
  e.actions.map fun a => ⟨.enablementAction, a.id, .task, some a.source⟩

/-- The indicators that enablement outcomes point to. -/
def outcomePointers (e : EnablementMap) : List Pointer :=
  e.outcomes.map fun u => ⟨.enablementOutcome, u.id, .indicator, some u.source⟩

end References

open References

/-- The references of a map from one document to another, set or not. -/
def ServiceMap.pointersAcross (s : ServiceMap) : List Pointer :=
  s.blueprint.toList.flatMap taskPointers ++ s.outcome.toList.flatMap factorPointers
    ++ s.enablement.toList.flatMap actionPointers ++ s.enablement.toList.flatMap outcomePointers

namespace References

variable {s : ServiceMap} {d : Document}

theorem pointsTo?_eq_some_iff {r : Option String} {target : String} :
    pointsTo? r = some target ↔ r = some target ∧ target ≠ "" := by
  simp [pointsTo?, Option.filter_eq_some_iff]

theorem pointsTo?_eq_none_iff {r : Option String} :
    pointsTo? r = none ↔ r = none ∨ r = some "" := by
  cases r <;> simp [pointsTo?, Option.filter_eq_none_iff]

theorem pointsTo?_some {target : String} (h : target ≠ "") :
    pointsTo? (some target) = some target := pointsTo?_eq_some_iff.mpr ⟨rfl, h⟩

theorem dangles_unset {source target : Collection} {id : String} {r : Option String}
    (h : pointsTo? r = none) : Pointer.dangles s ⟨source, id, target, r⟩ = false := by
  cases r with
  | none => simp [Pointer.dangles, Pointer.misses]
  | some name =>
    have hname : name = "" := by simpa [pointsTo?, Option.filter] using h
    simp [Pointer.dangles, hname]

theorem dangles_set {source target : Collection} {id name : String} (h : name ≠ "") :
    Pointer.dangles s ⟨source, id, target, some name⟩ =
      Pointer.misses s ⟨source, id, target, some name⟩ := by
  simp [Pointer.dangles, h]

theorem dangles_iff {p : Pointer} (hd : s.get? p.target.kind = some d) :
    p.dangles s = true ↔ ∃ name, pointsTo? p.names = some name ∧ (p.target, name) ∉ d.entries := by
  obtain ⟨source, id, target, names⟩ := p
  simp only [Pointer.dangles, Pointer.misses_of_get? hd, Bool.and_eq_true, decide_eq_true_eq,
    Option.any_eq_true, Bool.not_eq_true', List.contains_eq_mem, decide_eq_false_iff_not,
    pointsTo?_eq_some_iff]
  constructor
  · rintro ⟨hne, name, hname, hmem⟩
    exact ⟨name, ⟨hname, fun h => hne (h ▸ hname)⟩, hmem⟩
  · rintro ⟨name, ⟨hname, hne⟩, hmem⟩
    exact ⟨fun h => hne (Option.some.inj (hname.symm.trans h)), name, hname, hmem⟩

theorem dangles_eq_false_iff {p : Pointer} :
    p.dangles s = false ↔
      ∀ id ∈ pointsTo? p.names, s.contains p.target.kind = true → (p.target, id) ∈ s.entries := by
  obtain ⟨source, id, target, names⟩ := p
  by_cases hunset : pointsTo? names = none
  · simp [dangles_unset hunset, hunset]
  · obtain ⟨name, hname⟩ := Option.ne_none_iff_exists'.mp hunset
    obtain ⟨rfl, hne⟩ := pointsTo?_eq_some_iff.mp hname
    simp [dangles_set hne, Pointer.misses_eq_false_iff, hname]

/-- A reference that may point nowhere is reported if it dangles. -/
theorem map_unresolvedSet {r : Reference} {id name : String} {target : Option String}
    {ids : List String} (hd : s.get? r.target.kind = some d)
    (hids : ∀ x, x ∈ ids ↔ (r.target, x) ∈ d.entries) :
    (unresolvedSet r id name target ids).map Fault.pointer =
      [⟨r.source, id, r.target, target⟩].filter (Pointer.dangles s) := by
  cases h : pointsTo? target with
  | none => simp [unresolvedSet, h, dangles_unset h]
  | some x =>
    obtain ⟨rfl, hx⟩ := pointsTo?_eq_some_iff.mp h
    simp only [unresolvedSet, h]
    rw [map_unresolved hd hids, List.filter_singleton, List.filter_singleton, dangles_set hx]

/-- An enablement outcome is reported if its reference to the indicator dangles. -/
theorem map_outcomeSource {o : Outcome} (ho : s.outcome = some o) (u : EnablementOutcome) :
    (match pointsTo? (some u.source) with
      | none => []
      | some target =>
        if target = o.indicator.id then []
        else [Fault.otherIndicator u.id target o.indicator.id]).map Fault.pointer =
      [⟨.enablementOutcome, u.id, .indicator, some u.source⟩].filter (Pointer.dangles s) := by
  cases h : pointsTo? (some u.source) with
  | none => simp [dangles_unset h]
  | some x =>
    obtain ⟨hx, hne⟩ := pointsTo?_eq_some_iff.mp h
    obtain rfl := Option.some.inj hx
    have hd : s.get? Collection.indicator.kind = some (.outcome o) := by
      simp [Collection.kind, ServiceMap.get?, ho]
    have hmiss := Pointer.misses_of_get?
      (p := ⟨.enablementOutcome, u.id, .indicator, some u.source⟩) hd
    rw [List.filter_singleton, dangles_set hne, hmiss]
    by_cases heq : u.source = o.indicator.id
    · simp [heq, Document.entries]
    · simp [heq, Document.entries, Fault.pointer, Fault.sourceCollection, Fault.sourceId,
        Fault.targetCollection, Fault.targetId]

/-- A check of two documents reports the references of the first that dangle, if it does so where
both are present, and if they dangle only where the second is present. -/
theorem map_both {α β : Type} {check : α → β → List Fault} {pointers : α → List Pointer}
    {first : Option α} {second : Option β}
    (habsent : second = none → ∀ a, ∀ p ∈ pointers a, p.misses s = false)
    (hpresent : ∀ a b, first = some a → second = some b →
      (check a b).map Fault.pointer = (pointers a).filter (Pointer.dangles s)) :
    (both check first second).map Fault.pointer =
      (first.toList.flatMap pointers).filter (Pointer.dangles s) := by
  cases first with
  | none => rfl
  | some a =>
    simp only [Option.toList_some, List.flatMap_singleton]
    cases second with
    | some b => exact hpresent a b rfl rfl
    | none =>
      symm
      rw [both, List.map_nil, List.filter_eq_nil_iff]
      · intro p hp
        simp [Pointer.dangles, habsent rfl a p hp]
      · simp

theorem map_taskSources (s : ServiceMap) :
    (both taskSources s.blueprint s.journey).map Fault.pointer =
      (s.blueprint.toList.flatMap taskPointers).filter (Pointer.dangles s) := by
  refine map_both (fun h b p hp => ?_) fun b j _ hj => ?_
  · obtain ⟨t, -, rfl⟩ := List.mem_map.mp hp
    exact Pointer.misses_of_absent (by simp [Collection.kind, ServiceMap.get?, h])
  · refine map_flatMap_eq_filter_map fun t _ => map_unresolvedSet (r := .taskSource)
      (d := .journey j) ?_ fun x => ?_
    · simp [Reference.target, Collection.kind, ServiceMap.get?, hj]
    · simp [Reference.target, Document.entries]

theorem map_factorSource (s : ServiceMap) :
    (both factorSource s.outcome s.blueprint).map Fault.pointer =
      (s.outcome.toList.flatMap factorPointers).filter (Pointer.dangles s) := by
  refine map_both (fun h o p hp => ?_) fun o b _ hb => ?_
  · obtain rfl := List.mem_singleton.mp hp
    exact Pointer.misses_of_absent (by simp [Collection.kind, ServiceMap.get?, h])
  · refine map_unresolvedSet (r := .factorSource) (d := .blueprint b) ?_ fun x => ?_
    · simp [Reference.target, Collection.kind, ServiceMap.get?, hb]
    · simp [Reference.target, Document.entries]

theorem map_actionSources (s : ServiceMap) :
    (both actionSources s.enablement s.blueprint).map Fault.pointer =
      (s.enablement.toList.flatMap actionPointers).filter (Pointer.dangles s) := by
  refine map_both (fun h e p hp => ?_) fun e b _ hb => ?_
  · obtain ⟨a, -, rfl⟩ := List.mem_map.mp hp
    exact Pointer.misses_of_absent (by simp [Collection.kind, ServiceMap.get?, h])
  · refine map_flatMap_eq_filter_map fun a _ => map_unresolvedSet (r := .actionSource)
      (d := .blueprint b) ?_ fun x => ?_
    · simp [Reference.target, Collection.kind, ServiceMap.get?, hb]
    · simp [Reference.target, Document.entries]

theorem map_outcomeSources (s : ServiceMap) :
    (both outcomeSources s.enablement s.outcome).map Fault.pointer =
      (s.enablement.toList.flatMap outcomePointers).filter (Pointer.dangles s) := by
  refine map_both (fun h e p hp => ?_) fun e o _ ho => ?_
  · obtain ⟨u, -, rfl⟩ := List.mem_map.mp hp
    exact Pointer.misses_of_absent (by simp [Collection.kind, ServiceMap.get?, h])
  · exact map_flatMap_eq_filter_map fun u _ => map_outcomeSource ho u

theorem mem_both {α β : Type} {check : α → β → List Fault} {first : Option α} {second : Option β}
    {f : Fault} :
    f ∈ both check first second ↔ ∃ a b, first = some a ∧ second = some b ∧ f ∈ check a b := by
  cases first <;> cases second <;> simp [both]

/-- Without one of its documents a check reports nothing. -/
theorem both_sublist {α β : Type} {check : α → β → List Fault} {first less : Option α}
    {second few : Option β} (hfirst : less = none ∨ less = first)
    (hsecond : few = none ∨ few = second) :
    (both check less few).Sublist (both check first second) := by
  rcases hfirst with rfl | rfl
  · exact List.nil_sublist _
  · rcases hsecond with rfl | rfl
    · cases less <;> exact List.nil_sublist _
    · exact List.Sublist.refl _

theorem isDuplicate_of_mem_unresolvedSet {r : Reference} {id name : String}
    {target : Option String} {ids : List String} {f : Fault}
    (h : f ∈ unresolvedSet r id name target ids) : f.isDuplicate = false := by
  unfold unresolvedSet at h
  split at h
  · simp at h
  · exact isDuplicate_of_mem_unresolved h

theorem isDuplicate_of_mem_outcomeSources {e : EnablementMap} {o : Outcome} {f : Fault}
    (h : f ∈ outcomeSources e o) : f.isDuplicate = false := by
  obtain ⟨u, -, hu⟩ := List.mem_flatMap.mp h
  split at hu
  · simp at hu
  · split at hu
    · simp at hu
    · rw [List.mem_singleton.mp hu]
      rfl

end References

namespace ServiceMap

variable {s : ServiceMap}

theorem mem_pointersAcross {p : Pointer} :
    p ∈ s.pointersAcross ↔
      (∃ b, s.blueprint = some b ∧ ∃ t ∈ b.tasks, p = ⟨.task, t.id, .journeyAction, t.source⟩) ∨
      (∃ o, s.outcome = some o ∧ p = ⟨.factor, o.factor.id, .task, o.factor.source⟩) ∨
      (∃ e, s.enablement = some e ∧
        ∃ a ∈ e.actions, p = ⟨.enablementAction, a.id, .task, some a.source⟩) ∨
      ∃ e, s.enablement = some e ∧
        ∃ u ∈ e.outcomes, p = ⟨.enablementOutcome, u.id, .indicator, some u.source⟩ := by
  simp [pointersAcross, taskPointers, factorPointers, actionPointers, outcomePointers, eq_comm]

/-- What the check reports are the references that dangle, in order. -/
theorem map_faultsAcross (s : ServiceMap) :
    s.faultsAcross.map Fault.pointer = s.pointersAcross.filter (Pointer.dangles s) := by
  simp only [faultsAcross, pointersAcross, List.map_append, List.filter_append, map_taskSources,
    map_factorSource, map_actionSources, map_outcomeSources]

theorem forall_faultsAcross {P : Pointer → Prop} :
    (∀ f ∈ s.faultsAcross, P f.pointer) ↔ ∀ p ∈ s.pointersAcross, p.dangles s = true → P p := by
  rw [← List.forall_mem_map, map_faultsAcross]
  simp [List.mem_filter]

theorem valid_checkAcross_iff :
    s.checkAcross.valid = true ↔ ∀ q ∈ s.pointersAcross, q.dangles s = false := by
  have hnil : s.faultsAcross = [] ↔ s.pointersAcross.filter (Pointer.dangles s) = [] := by
    rw [← map_faultsAcross, List.map_eq_nil_iff]
  simp only [checkAcross, Verdict.ofFaults, List.isEmpty_iff, hnil, List.filter_eq_nil_iff,
    Bool.not_eq_true]

theorem isDuplicate_of_mem_faultsAcross {f : Fault} (h : f ∈ s.faultsAcross) :
    f.isDuplicate = false := by
  simp only [faultsAcross, List.mem_append, mem_both] at h
  obtain ((⟨b, j, -, -, h⟩ | ⟨o, b, -, -, h⟩) | ⟨e, b, -, -, h⟩) | ⟨e, o, -, -, h⟩ := h
  · obtain ⟨t, -, ht⟩ := List.mem_flatMap.mp h
    exact isDuplicate_of_mem_unresolvedSet ht
  · exact isDuplicate_of_mem_unresolvedSet h
  · obtain ⟨a, -, ha⟩ := List.mem_flatMap.mp h
    exact isDuplicate_of_mem_unresolvedSet ha
  · exact isDuplicate_of_mem_outcomeSources h

theorem faultsAcross_erase_sublist (s : ServiceMap) (k : Kind) :
    (s.erase k).faultsAcross.Sublist s.faultsAcross := by
  have hj : (s.erase k).journey = none ∨ (s.erase k).journey = s.journey := by
    cases k <;> simp [erase]
  have hb : (s.erase k).blueprint = none ∨ (s.erase k).blueprint = s.blueprint := by
    cases k <;> simp [erase]
  have ho : (s.erase k).outcome = none ∨ (s.erase k).outcome = s.outcome := by
    cases k <;> simp [erase]
  have he : (s.erase k).enablement = none ∨ (s.erase k).enablement = s.enablement := by
    cases k <;> simp [erase]
  exact (((both_sublist hb hj).append (both_sublist ho hb)).append (both_sublist he hb)).append
    (both_sublist he ho)

/-- The check of references between documents is exact. It reports the references that are set and
name nothing in a collection whose document is present: one missing reference for each, in the order
of the four groups and of the parts in their documents, and nothing else. It is passed if nothing is
reported, and a map without one of its documents has some of the same reports. -/
theorem checkAcross_exact (s : ServiceMap) :
    s.checkAcross.faults.map Fault.pointer = s.pointersAcross.filter (Pointer.dangles s) ∧
    (∀ f ∈ s.checkAcross.faults, f.kindText = "missing_reference") ∧
    (s.checkAcross.valid = true ↔ s.checkAcross.faults = []) ∧
    ∀ k, (s.erase k).checkAcross.faults.Sublist s.checkAcross.faults := by
  refine ⟨map_faultsAcross s, fun f hf => ?_, List.isEmpty_iff, faultsAcross_erase_sublist s⟩
  simp [Fault.kindText, isDuplicate_of_mem_faultsAcross hf]

end ServiceMap

end ServiceMaps
