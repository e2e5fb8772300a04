import Mathlib.Data.List.Count
import Mathlib.Data.List.Perm.Subperm
import ServiceMaps.Editing
import ServiceMaps.ServiceMap.Fresh
import ServiceMaps.Proofs.Identifiers
import ServiceMaps.Proofs.References.Within

/-!
Editing with identifiers from one supply. Each edit puts only identifiers into the map that it
draws, and each of them once; so the identifiers of a map are among those drawn, and as different
from each other as the supply makes them.
-/
namespace ServiceMaps

open scoped List

variable {σ : Type}

namespace Part

def id : Part → String
  | .phase p => p.id
  | .journeyAction a => a.id
  | .lane l => l.id
  | .task t => t.id
  | .enablementAction a => a.id
  | .skill s => s.id
  | .knowledge r => r.id
  | .tool r => r.id

/-- The list of its document that the part is added to. -/
def collection : Part → Collection
  | .phase _ => .phase
  | .journeyAction _ => .journeyAction
  | .lane _ => .lane
  | .task _ => .task
  | .enablementAction _ => .enablementAction
  | .skill _ => .skill
  | .knowledge _ => .knowledge
  | .tool _ => .tool

/-- The part with another identifier. -/
def withId (id : String) : Part → Part
  | .phase p => .phase { p with id := id }
  | .journeyAction a => .journeyAction { a with id := id }
  | .lane l => .lane { l with id := id }
  | .task t => .task { t with id := id }
  | .enablementAction a => .enablementAction { a with id := id }
  | .skill s => .skill { s with id := id }
  | .knowledge r => .knowledge { r with id := id }
  | .tool r => .tool { r with id := id }

@[simp] theorem id_withId (id : String) (p : Part) : (p.withId id).id = id := by cases p <;> rfl

@[simp] theorem kind_withId (id : String) (p : Part) : (p.withId id).kind = p.kind := by
  cases p <;> rfl

end Part

/-- An edit of a map that takes the identifiers of what it adds from a supply. -/
inductive Edit where
  /-- Puts a new document into the map. -/
  | create (settings : Settings) (kind : Kind)
  /-- Adds a new outcome document to a blueprint without one. -/
  | ensureOutcome (settings : Settings)
  /-- Takes a document out. -/
  | remove (kind : Kind)
  /-- Draws an identifier, whatever kind and type it names, for a part, and adds the part at the
  end of its list; nothing happens if its document is absent. -/
  | add (kind entity : String) (part : Part)

namespace Edit

/-- Carries out an edit. -/
def run (ids : IdSource σ) (m : ServiceMap) (s : σ) : Edit → ServiceMap × σ
  | .create settings kind =>
    let (d, s) := Document.fresh ids settings kind s
    (m.insert d, s)
  | .ensureOutcome settings => m.ensureOutcome ids settings s
  | .remove kind => (m.erase kind, s)
  | .add kind entity part =>
    if m.contains part.kind then
      let (id, s) := ids.draw kind entity s
      (m.append (part.withId id), s)
    else (m, s)

/-- Carries out edits one after another. -/
def runAll (ids : IdSource σ) (m : ServiceMap) (s : σ) : List Edit → ServiceMap × σ
  | [] => (m, s)
  | e :: rest =>
    let (m, s) := e.run ids m s
    runAll ids m s rest

/-- The identifiers that edits draw, the latest first. -/
def drawn (ids : IdSource σ) (m : ServiceMap) (s : σ) (edits : List Edit) : List String :=
  (runAll ids.recorded m (s, []) edits).2.2

end Edit

namespace ServiceMap

variable {m : ServiceMap}

/-- The identifiers of a map with a document put into it: those of the document, and those of the
other documents. -/
theorem ids_insert (d : Document) (m : ServiceMap) :
    (m.insert d).ids ~ d.ids ++ (m.erase d.kind).ids := by
  refine List.perm_iff_count.mpr fun id => ?_
  simp only [ids_eq, Kind.all, get?_insert, get?_erase]
  cases hd : d.kind <;> simp [List.count_append] <;> omega

theorem ids_erase_subperm (k : Kind) (m : ServiceMap) : (m.erase k).ids <+~ m.ids := by
  refine List.subperm_iff_count.mpr fun id => ?_
  simp only [ids_eq, Kind.all, get?_erase]
  cases k <;> simp [List.count_append]

theorem exists_of_isSome_map {α β : Type} {f : α → β} {d : Option α}
    (h : (d.map f).isSome = true) : ∃ a, d = some a :=
  Option.isSome_iff_exists.mp (by simpa using h)

/-- A part that is added gives its own identifier to the map, and nothing else changes. -/
theorem entries_append {p : Part} (h : m.contains p.kind = true) :
    (m.append p).entries ~ (p.collection, p.id) :: m.entries := by
  obtain ⟨j, b, o, e⟩ := m
  refine List.perm_iff_count.mpr fun entry => ?_
  cases p
  all_goals
    obtain ⟨d, rfl⟩ := exists_of_isSome_map h
    simp only [entries_eq, Kind.all, get?, append, Document.entries, Part.id, Part.collection,
      Option.map_some, Option.toList_some, List.flatMap_cons, List.flatMap_nil, List.map_append,
      List.map_cons, List.map_nil, List.count_append, List.count_cons, List.count_nil]
    omega

theorem ids_append {p : Part} (h : m.contains p.kind = true) :
    (m.append p).ids ~ p.id :: m.ids := (entries_append h).map _

end ServiceMap

/-- A sequence with its record, as long as its word has not overflowed. -/
def IdSequence.Tallies (label : String) (s : IdSequence × List String) : Prop :=
  s.2.length < 2 ^ 64 → Counts label s.1 s.2

theorem IdSequence.tallies_start (label : String) : Tallies label (start label, []) :=
  fun _ => counts_start label

theorem IdSequence.Tallies.draw {label : String} {s : IdSequence × List String}
    (h : Tallies label s) (kind entity : String) :
    Tallies label (source.recorded.draw kind entity s).2 :=
  fun hlt => (h (Nat.lt_of_succ_lt hlt)).draw hlt kind entity

/-- The identifiers of a new document are those that it draws. -/
theorem Document.fresh_recorded (ids : IdSource σ) (settings : Settings) (kind : Kind) (s : σ)
    (past : List String) :
    ∃ new, Document.fresh ids.recorded settings kind (s, past) =
        ((Document.fresh ids settings kind s).1, (Document.fresh ids settings kind s).2,
          new ++ past) ∧
      (Document.fresh ids settings kind s).1.ids ~ new := by
  cases kind with
  | journey => exact ⟨[_], rfl, .refl _⟩
  | blueprint => exact ⟨[_], rfl, .refl _⟩
  | enablement => exact ⟨[_], rfl, .refl _⟩
  | outcome =>
    -- The document gives its own identifier first, and draws it third.
    have hperm : ∀ goal factor own indicator : String,
        [own, goal, factor, indicator] ~ [indicator, own, factor, goal] := by
      intro goal factor own indicator
      refine List.perm_iff_count.mpr fun id => ?_
      simp only [List.count_cons, List.count_nil]
      omega
    exact ⟨[_, _, _, _], rfl, hperm _ _ _ _⟩

namespace Edit

variable {ids : IdSource σ} {m : ServiceMap} {s : σ}

/-- What an edit draws and what it puts into the map: the record of the supply changes neither the
map nor the supply, and the identifiers of the map are some of those that were drawn or stood in the
map before. -/
theorem run_recorded (ids : IdSource σ) (m : ServiceMap) (s : σ) (past : List String) (e : Edit) :
    ∃ new, e.run ids.recorded m (s, past) =
        ((e.run ids m s).1, (e.run ids m s).2, new ++ past) ∧
      (e.run ids m s).1.ids <+~ new ++ m.ids := by
  -- A new document gives its identifiers to the map and takes those of the one in its place.
  have hinsert : ∀ (settings : Settings) (kind : Kind) (new : List String),
      (Document.fresh ids settings kind s).1.ids ~ new →
      (m.insert (Document.fresh ids settings kind s).1).ids <+~ new ++ m.ids := by
    intro settings kind new hnew
    refine (ServiceMap.ids_insert _ m).subperm.trans ?_
    exact (hnew.append_right _).subperm.trans
      ((List.subperm_append_left new).mpr (ServiceMap.ids_erase_subperm _ m))
  cases e with
  | create settings kind =>
    obtain ⟨new, hrun, hnew⟩ := Document.fresh_recorded ids settings kind s past
    exact ⟨new, by simp only [run, hrun], hinsert settings kind new hnew⟩
  | ensureOutcome settings =>
    simp only [run, ServiceMap.ensureOutcome]
    split
    case isTrue => exact ⟨[], rfl, .refl _⟩
    case isFalse =>
      obtain ⟨new, hrun, hnew⟩ := Document.fresh_recorded ids settings .outcome s past
      exact ⟨new, by rw [hrun], hinsert settings .outcome new hnew⟩
  | remove kind => exact ⟨[], rfl, ServiceMap.ids_erase_subperm kind m⟩
  | add kind entity part =>
    simp only [run]
    split
    case isTrue h =>
      refine ⟨[(ids.draw kind entity s).1], rfl, ?_⟩
      simpa using (ServiceMap.ids_append (p := part.withId (ids.draw kind entity s).1)
        (by simpa using h)).subperm
    case isFalse => exact ⟨[], rfl, .refl _⟩

/-- An edit draws four identifiers at most. -/
theorem length_run_recorded_le (ids : IdSource σ) (m : ServiceMap) (s : σ) (past : List String)
    (e : Edit) : (e.run ids.recorded m (s, past)).2.2.length ≤ past.length + 4 := by
  cases e with
  | create settings kind =>
    cases kind <;>
      simp [run, Document.fresh, Outcome.fresh, IdSource.recorded]
  | ensureOutcome settings =>
    simp only [run, ServiceMap.ensureOutcome]
    split <;> simp [Document.fresh, Outcome.fresh, IdSource.recorded]
  | remove kind => simp [run]
  | add kind entity part =>
    simp only [run]
    split <;> simp [IdSource.recorded]

/-- After any number of edits the identifiers of the map are some of those that were drawn or stood
in the map before. -/
theorem runAll_recorded (ids : IdSource σ) (m : ServiceMap) (s : σ) (past : List String)
    (edits : List Edit) :
    ∃ new, runAll ids.recorded m (s, past) edits =
        ((runAll ids m s edits).1, (runAll ids m s edits).2, new ++ past) ∧
      (runAll ids m s edits).1.ids <+~ new ++ m.ids := by
  induction edits generalizing m s past with
  | nil => exact ⟨[], rfl, .refl _⟩
  | cons e rest ih =>
    obtain ⟨here, hrun, hhere⟩ := run_recorded ids m s past e
    obtain ⟨later, hrest, hlater⟩ := ih (e.run ids m s).1 (e.run ids m s).2 (here ++ past)
    refine ⟨later ++ here, ?_, ?_⟩
    · simp only [runAll, hrun, hrest, List.append_assoc]
    · rw [List.append_assoc]
      exact hlater.trans ((List.subperm_append_left later).mpr hhere)

theorem runAll_append (before after : List Edit) :
    runAll ids m s (before ++ after) =
      runAll ids (runAll ids m s before).1 (runAll ids m s before).2 after := by
  induction before generalizing m s with
  | nil => rfl
  | cons e rest ih => exact ih

/-- What a map that started empty contains was drawn, and nothing is in it twice that was not drawn
twice. -/
theorem ids_runAll_subperm (ids : IdSource σ) (s : σ) (edits : List Edit) :
    (runAll ids .empty s edits).1.ids <+~ drawn ids .empty s edits := by
  obtain ⟨new, hrun, hids⟩ := runAll_recorded ids .empty s [] edits
  rw [drawn, hrun]
  exact hids

/-- Further edits only draw further identifiers. -/
theorem length_drawn_le {before edits : List Edit} (h : before <+: edits) :
    (drawn ids m s before).length ≤ (drawn ids m s edits).length := by
  obtain ⟨after, rfl⟩ := h
  rw [drawn, drawn, runAll_append]
  obtain ⟨m', s', past⟩ := runAll ids.recorded m (s, []) before
  obtain ⟨new, hrun, -⟩ := runAll_recorded ids m' s' past after
  simp [hrun]

section Kept

/-! What each draw keeps of a supply, editing keeps. -/

variable {P : σ → Prop}

theorem fresh_keeps (hdraw : ∀ kind entity s, P s → P (ids.draw kind entity s).2)
    (settings : Settings) (kind : Kind) (hs : P s) : P (Document.fresh ids settings kind s).2 := by
  cases kind with
  | journey => exact hdraw _ _ _ hs
  | blueprint => exact hdraw _ _ _ hs
  | outcome => exact hdraw _ _ _ (hdraw _ _ _ (hdraw _ _ _ (hdraw _ _ _ hs)))
  | enablement => exact hdraw _ _ _ hs

theorem run_keeps (hdraw : ∀ kind entity s, P s → P (ids.draw kind entity s).2) (e : Edit)
    (hs : P s) : P (e.run ids m s).2 := by
  cases e with
  | create settings kind => exact fresh_keeps hdraw settings kind hs
  | ensureOutcome settings =>
    simp only [run, ServiceMap.ensureOutcome]
    split
    case isTrue => exact hs
    case isFalse => exact fresh_keeps hdraw settings .outcome hs
  | remove kind => exact hs
  | add kind entity part =>
    simp only [run]
    split
    case isTrue => exact hdraw _ _ _ hs
    case isFalse => exact hs

theorem runAll_keeps (hdraw : ∀ kind entity s, P s → P (ids.draw kind entity s).2)
    (edits : List Edit) (hs : P s) : P (runAll ids m s edits).2 := by
  induction edits generalizing m s with
  | nil => exact hs
  | cons e rest ih => exact ih (run_keeps hdraw e hs)

end Kept

/-- As long as fewer than 2^64 identifiers are drawn from a sequence, they are different. -/
theorem nodup_drawn {label : String} {edits : List Edit}
    (h : (drawn IdSequence.source m (.start label) edits).length < 2 ^ 64) :
    (drawn IdSequence.source m (.start label) edits).Nodup := by
  have hcounts : IdSequence.Tallies label
      (runAll IdSequence.source.recorded m (.start label, []) edits).2 :=
    runAll_keeps (fun kind entity _ hs => hs.draw kind entity) edits
      (IdSequence.tallies_start label)
  exact (hcounts h).nodup

/-- Identifiers stay unique: in no state that edits of an empty map go through does the check report
one that is used twice, if all identifiers come from one sequence, whatever its label, and fewer
than 2^64 of them are drawn. -/
theorem runAll_unique (label : String) (edits : List Edit)
    (h : (drawn IdSequence.source .empty (.start label) edits).length < 2 ^ 64) :
    ∀ before, before <+: edits →
      ∀ f ∈ (runAll IdSequence.source .empty (.start label) before).1.checkWithin.faults,
        f.kindText ≠ "duplicate_id" := by
  intro before hbefore f hf
  have hnodup : (drawn IdSequence.source .empty (.start label) before).Nodup :=
    nodup_drawn (Nat.lt_of_le_of_lt (length_drawn_le hbefore) h)
  obtain ⟨l, hperm, hsub⟩ := ids_runAll_subperm IdSequence.source (.start label) before
  have hids := hperm.nodup_iff.mp (hsub.nodup hnodup)
  exact ServiceMap.kindText_ne_of_nodup_ids hids f hf

/-- A document that is replaced, and one that is taken out again, with a label that looks like the
rest of an identifier. -/
theorem runAll_unique_replaced :
    let edits : List Edit := [
      .create ⟨[], "1.0"⟩ .blueprint,
      .ensureOutcome ⟨["2.0"], "2.0"⟩,
      .add "sbp" "task" (.task ⟨"", "", "Pay", some "nowhere", ["", ""], true⟩),
      .create ⟨[], "1.0"⟩ .journey,
      .add "cjm" "phase" (.phase ⟨"", "Search"⟩),
      .create ⟨[], ""⟩ .blueprint,
      .add "sbp" "task" (.task ⟨"", "", "Pay", none, [], false⟩),
      .remove .journey,
      .add "cjm" "phase" (.phase ⟨"", "Search"⟩)]
    let m := (runAll IdSequence.source .empty (.start "a:b-1-0") edits).1
    m.size = 2 ∧ m.checkWithin.faults ≠ [] ∧
      ∀ f ∈ m.checkWithin.faults, f.kindText ≠ "duplicate_id" := by
  intro edits m
  have hdrawn : (drawn IdSequence.source .empty (.start "a:b-1-0") edits).length < 2 ^ 64 := by
    decide +kernel
  refine ⟨by decide +kernel, by decide +kernel, ?_⟩
  exact runAll_unique "a:b-1-0" edits hdrawn edits (List.prefix_refl _)

end Edit

end ServiceMaps
