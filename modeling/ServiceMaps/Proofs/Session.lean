import ServiceMaps.Session
import ServiceMaps.Proofs.Editing

/-!
Editing sessions. A command that changes the map with identifiers from the session's sequence is an
edit, so that a run of such commands is a run of edits. The other commands give no identifiers to the
map, except for those that read documents from a text; so the identifiers of a map stay unique in any
session that reads none.
-/
namespace ServiceMaps

open scoped List

namespace Command

/-- The edit that a command comes to. The part that it adds has no identifier yet. -/
def edit? (settings : Settings) : Command → Option Edit
  | .create kind => some (.create settings kind)
  | .ensureOutcome => some (.ensureOutcome settings)
  | .remove kind => some (.remove kind)
  | .addPhase name => some (.add "cjm" "phase" (.phase ⟨"", name⟩))
  | .addAction name phase touchpoints thoughtsFeelings score =>
    some (.add "cjm" "action"
      (.journeyAction ⟨"", name, phase, touchpoints, thoughtsFeelings, score⟩))
  | .addTask name lane source links readonly =>
    some (.add "sbp" "task" (.task ⟨"", lane, name, source, links, readonly⟩))
  | .addMeasure name source => some (.add "em" "action" (.enablementAction ⟨"", name, source⟩))
  | _ => none

/-- Whether a command reads documents from a text. -/
def reads : Command → Bool
  | .load _ | .insert _ _ | .replaceText _ _ | .reload => true
  | _ => false

end Command

namespace ServiceMap

theorem ids_link (source target : String) (m : ServiceMap) : (m.link source target).ids = m.ids := by
  have hid : ∀ t : BlueprintTask,
      (if t.id = source then { t with links := t.links ++ [target] } else t).id = t.id := by
    intro t
    split <;> rfl
  obtain ⟨j, b, o, e⟩ := m
  cases b <;> simp [ids_eq, Kind.all, get?, link, Document.ids, Document.entries, hid]

theorem ids_setFactorSource (source : Option String) (m : ServiceMap) :
    (m.setFactorSource source).ids = m.ids := by
  obtain ⟨j, b, o, e⟩ := m
  cases o <;> simp [ids_eq, Kind.all, get?, setFactorSource, Document.ids, Document.entries]

theorem ids_setTarget (target : Binary64) (m : ServiceMap) : (m.setTarget target).ids = m.ids := by
  obtain ⟨j, b, o, e⟩ := m
  cases o <;> simp [ids_eq, Kind.all, get?, setTarget, Document.ids, Document.entries]

end ServiceMap

namespace Session

variable {s : Session} {c : Command} {label : String} {drawn : List String}

/-- What becomes of a session by a result: a command that fails changes nothing. -/
def settle (s : Session) : Except CommandError (Reply × Session) → Session
  | .ok (_, next) => next
  | .error _ => s

/-- The session after a command. -/
def after (s : Session) (c : Command) : Session := s.settle (s.run c)

/-- The session after commands, one after another. -/
def afterAll (s : Session) : List Command → Session
  | [] => s
  | c :: rest => (s.after c).afterAll rest

/-- The session after an edit. -/
def edited (s : Session) (e : Edit) : Session :=
  { s with
    current := (e.run IdSequence.source s.current s.ids).1
    ids := (e.run IdSequence.source s.current s.ids).2 }

/-- A command that adds a part fails where the edit does nothing. -/
theorem settle_addPart (s : Session) (kind entity : String) (p : Part) :
    s.settle (s.addPart kind entity p.withId) = s.edited (.add kind entity p) := by
  simp only [addPart, edited, Edit.run, Part.kind_withId]
  split <;> rfl

/-- An editing command is an edit. -/
theorem after_eq_edited {e : Edit} (h : c.edit? s.settings = some e) : s.after c = s.edited e := by
  cases c <;> simp only [Command.edit?, Option.some.injEq, reduceCtorEq] at h <;> subst h
  case create | ensureOutcome | remove => rfl
  case addPhase name => exact settle_addPart s "cjm" "phase" (.phase ⟨"", name⟩)
  case addAction name phase touchpoints thoughtsFeelings score =>
    exact settle_addPart s "cjm" "action"
      (.journeyAction ⟨"", name, phase, touchpoints, thoughtsFeelings, score⟩)
  case addTask name lane source links readonly =>
    exact settle_addPart s "sbp" "task" (.task ⟨"", lane, name, source, links, readonly⟩)
  case addMeasure name source =>
    exact settle_addPart s "em" "action" (.enablementAction ⟨"", name, source⟩)

/-- A run of editing commands is a run of edits. -/
theorem afterAll_eq_runAll {commands : List Command} {edits : List Edit}
    (h : List.Forall₂ (fun c e => c.edit? s.settings = some e) commands edits) :
    s.afterAll commands =
      { s with
        current := (Edit.runAll IdSequence.source s.current s.ids edits).1
        ids := (Edit.runAll IdSequence.source s.current s.ids edits).2 } := by
  generalize hs : s.settings = settings at h
  induction h generalizing s with
  | nil =>
    subst hs
    rfl
  | cons hc _ ih =>
    rw [← hs] at hc
    rw [afterAll, after_eq_edited hc]
    exact ih hs

/-- What holds of a session together with the identifiers that were drawn in it, the latest first:
the sequence has counted them, and the map contains no others. -/
structure Accounts (label : String) (s : Session) (drawn : List String) : Prop where
  tallies : IdSequence.Tallies label (s.ids, drawn)
  ids : s.current.ids <+~ drawn

theorem accounts_start (settings : Settings) (label : String) :
    (start settings label).Accounts label [] :=
  ⟨IdSequence.tallies_start label, .refl _⟩

theorem Accounts.edited (h : s.Accounts label drawn) (e : Edit) :
    ∃ new, (s.edited e).Accounts label (new ++ drawn) ∧ new.length ≤ 4 := by
  obtain ⟨new, hrun, hids⟩ := Edit.run_recorded IdSequence.source s.current s.ids drawn e
  have htallies : IdSequence.Tallies label
      (e.run IdSequence.source.recorded s.current (s.ids, drawn)).2 :=
    Edit.run_keeps (fun kind entity _ hs => hs.draw kind entity) e h.tallies
  have hlength := Edit.length_run_recorded_le IdSequence.source s.current s.ids drawn e
  rw [hrun] at htallies hlength
  refine ⟨new, ⟨htallies, hids.trans ((List.subperm_append_left new).mpr h.ids)⟩, ?_⟩
  simpa [Nat.add_comm] using hlength

/-- A session that goes on with the same sequence and the same identifiers in its map. -/
theorem Accounts.of_ids {s' : Session} (h : s.Accounts label drawn) (hseq : s'.ids = s.ids)
    (hids : s'.current.ids = s.current.ids) :
    ∃ new, s'.Accounts label (new ++ drawn) ∧ new.length ≤ 4 :=
  ⟨[], ⟨hseq ▸ h.tallies, hids ▸ h.ids⟩, by simp⟩

/-- A command that reads nothing draws all identifiers that it puts into the map, four at most. -/
theorem Accounts.after (h : s.Accounts label drawn) (hc : c.reads = false) :
    ∃ new, (s.after c).Accounts label (new ++ drawn) ∧ new.length ≤ 4 := by
  cases hedit : c.edit? s.settings with
  | some e =>
    rw [after_eq_edited hedit]
    exact h.edited e
  | none =>
    cases c with
    | create | ensureOutcome | remove | addPhase | addAction | addTask | addMeasure =>
      simp [Command.edit?] at hedit
    | load | insert | replaceText | reload => simp [Command.reads] at hc
    | configure toml =>
      simp only [Session.after, run]
      cases Settings.ofToml? toml with
      | none => exact h.of_ids rfl rfl
      | some settings => exact h.of_ids rfl rfl
    | reset => exact ⟨[], ⟨h.tallies, List.nil_subperm⟩, by simp⟩
    | drawId kind entity =>
      exact ⟨[_], ⟨h.tallies.draw kind entity, h.ids.trans (List.subperm_cons_self)⟩, by simp⟩
    | link source target =>
      simp only [Session.after, run]
      cases s.current.blueprint with
      | none => exact h.of_ids rfl rfl
      | some d => exact h.of_ids rfl (ServiceMap.ids_link source target s.current)
    | setFactorSource source =>
      simp only [Session.after, run]
      cases s.current.outcome with
      | none => exact h.of_ids rfl rfl
      | some d => exact h.of_ids rfl (ServiceMap.ids_setFactorSource source s.current)
    | setTarget target =>
      simp only [Session.after, run]
      split
      · exact h.of_ids rfl rfl
      · exact h.of_ids rfl (ServiceMap.ids_setTarget target s.current)

/-- A run of commands that read nothing draws four identifiers at most for each of them. -/
theorem Accounts.afterAll (h : s.Accounts label drawn) {commands : List Command}
    (hc : ∀ c ∈ commands, c.reads = false) :
    ∃ new, (s.afterAll commands).Accounts label (new ++ drawn) ∧
      new.length ≤ 4 * commands.length := by
  induction commands generalizing s drawn with
  | nil => exact ⟨[], h, by simp⟩
  | cons c rest ih =>
    obtain ⟨hfirst, hrest⟩ := List.forall_mem_cons.mp hc
    obtain ⟨here, hhere, hfew⟩ := h.after hfirst
    obtain ⟨later, hlater, hmore⟩ := ih hhere hrest
    refine ⟨later ++ here, by rwa [List.append_assoc], ?_⟩
    rw [List.length_append, List.length_cons]
    omega

/-- Identifiers stay unique in a session that starts with an empty map and reads no documents,
whatever else it does, as long as its sequence cannot overflow: the check reports none that is used
twice. -/
theorem afterAll_unique (settings : Settings) (label : String) {commands : List Command}
    (hc : ∀ c ∈ commands, c.reads = false) (hlength : 4 * commands.length < 2 ^ 64) :
    ∀ f ∈ ((start settings label).afterAll commands).current.checkWithin.faults,
      f.kindText ≠ "duplicate_id" := by
  obtain ⟨drawn, haccounts, hfew⟩ := (accounts_start settings label).afterAll hc
  rw [List.append_nil] at haccounts
  have hnodup : drawn.Nodup := (haccounts.tallies (Nat.lt_of_le_of_lt hfew hlength)).nodup
  obtain ⟨l, hperm, hsub⟩ := haccounts.ids
  exact ServiceMap.kindText_ne_of_nodup_ids (hperm.nodup_iff.mp (hsub.nodup hnodup))

end Session

end ServiceMaps
