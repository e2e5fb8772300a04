import ServiceMaps.Proofs.TaskFlow.Reach

/-!
Depth-first walks and cycles. Links lead to the node that a walk enters from every node that it has
entered and not left. So a link back to one of these closes a cycle; and where no such link is met,
a node is left after all nodes that its links lead to, so that there is no cycle among the nodes
that were left.
-/
namespace ServiceMaps.TaskFlow

open Relation

variable {g : TaskFlow}

/-- A walk has entered a node and not left it. -/
def Walk.Underway (w : Walk) (a : String) : Prop := a ∈ w.entered ∧ a ∉ w.left

/-- Links lead from every node of a list only to nodes behind it. -/
def Descends (g : TaskFlow) : List String → Prop
  | [] => True
  | a :: rest => (∀ b, g.Link a b → b ∈ rest) ∧ g.Descends rest

theorem Descends.closed {l : List String} (h : g.Descends l) {a b : String} (ha : a ∈ l)
    (hab : g.Link a b) : b ∈ l := by
  induction l with
  | nil => simp at ha
  | cons c rest ih =>
    rcases List.mem_cons.mp ha with rfl | ha
    · exact List.mem_cons_of_mem _ (h.1 b hab)
    · exact List.mem_cons_of_mem _ (ih h.2 ha)

theorem Descends.idxOf_lt {l : List String} (h : g.Descends l) (hl : l.Nodup) {a b : String}
    (ha : a ∈ l) (hab : g.Link a b) : l.idxOf a < l.idxOf b := by
  induction l with
  | nil => simp at ha
  | cons c rest ih =>
    obtain ⟨hc, hrest⟩ := List.nodup_cons.mp hl
    -- In either case the link leads to a node of the rest, which is not the first one.
    have hstep : b ∈ rest → (c :: rest).idxOf b = rest.idxOf b + 1 := fun hb =>
      List.idxOf_cons_ne _ fun h => hc (h ▸ hb)
    rcases List.mem_cons.mp ha with rfl | ha
    · rw [List.idxOf_cons_self, hstep (h.1 b hab)]
      exact Nat.succ_pos _
    · have hne : c ≠ a := fun h => hc (h ▸ ha)
      rw [List.idxOf_cons_ne _ hne, hstep (h.2.closed ha hab)]
      exact Nat.succ_lt_succ (ih h.2 hrest ha)

/-- What holds of a walk as long as no link leads back: it leaves only nodes that it has entered,
none twice, and none before the nodes that its links lead to. -/
structure Walk.Settled (g : TaskFlow) (w : Walk) : Prop where
  entered : ∀ a ∈ w.entered, a ∈ g.ids
  left : w.left ⊆ w.entered
  nodup : w.left.Nodup
  descends : g.Descends w.left

/-- A walk goes on from `w` to `w'`, and is underway at the same nodes as before. -/
structure Walk.Continues (w w' : Walk) : Prop where
  entered : w.entered ⊆ w'.entered
  left : w.left ⊆ w'.left
  underway : ∀ a, w'.Underway a ↔ w.Underway a

namespace Walk

variable {u v w : Walk} {id : String}

theorem Continues.refl (w : Walk) : w.Continues w :=
  ⟨List.Subset.refl _, List.Subset.refl _, fun _ => .rfl⟩

theorem Continues.trans (h : u.Continues v) (h' : v.Continues w) : u.Continues w :=
  ⟨List.Subset.trans h.entered h'.entered, List.Subset.trans h.left h'.left,
    fun a => (h'.underway a).trans (h.underway a)⟩

theorem settled_start (g : TaskFlow) : start.Settled g :=
  ⟨nofun, List.nil_subset _, .nil, trivial⟩

theorem not_underway_start (a : String) : ¬ start.Underway a := fun h => nomatch h.1

theorem Continues.left_of_entered (h : start.Continues w) (hid : id ∈ w.entered) :
    id ∈ w.left := by
  by_contra hleft
  exact not_underway_start id ((h.underway id).mp ⟨hid, hleft⟩)

theorem underway_enter (h : id ∉ w.left) (a : String) :
    (w.enter id).Underway a ↔ a = id ∨ w.Underway a := by
  simp only [Underway, enter, List.mem_cons]
  constructor
  · rintro ⟨rfl | ha, hl⟩
    · exact .inl rfl
    · exact .inr ⟨ha, hl⟩
  · rintro (rfl | ⟨ha, hl⟩)
    · exact ⟨.inl rfl, h⟩
    · exact ⟨.inr ha, hl⟩

theorem underway_leave (a : String) : (w.leave id).Underway a ↔ w.Underway a ∧ a ≠ id := by
  simp only [Underway, leave, List.mem_cons, not_or]
  tauto

theorem Settled.enter (h : w.Settled g) (hid : id ∈ g.ids) : (w.enter id).Settled g where
  entered a ha := by
    rcases List.mem_cons.mp ha with rfl | ha
    · exact hid
    · exact h.entered a ha
  left := List.subset_cons_of_subset _ h.left
  nodup := h.nodup
  descends := h.descends

/-- A node may be left once all nodes that its links lead to were left. -/
theorem Settled.leave (h : w.Settled g) (hid : w.Underway id)
    (hlinks : ∀ b, g.Link id b → b ∈ w.left) : (w.leave id).Settled g where
  entered := h.entered
  left := List.cons_subset.mpr ⟨hid.1, h.left⟩
  nodup := List.nodup_cons.mpr ⟨hid.2, h.nodup⟩
  descends := ⟨hlinks, h.descends⟩

/-- A walk that goes on from a node that it enters, and then leaves, goes on as a whole. -/
theorem Continues.leave (h : (w.enter id).Continues v) (hmet : id ∉ w.entered)
    (hleft : id ∉ w.left) : w.Continues (v.leave id) where
  entered a ha := h.entered (List.mem_cons_of_mem _ ha)
  left a ha := List.mem_cons_of_mem _ (h.left ha)
  underway a := by
    rw [underway_leave, h.underway, underway_enter hleft]
    constructor
    · rintro ⟨rfl | ha, hne⟩
      · exact absurd rfl hne
      · exact ha
    · exact fun ha => ⟨.inr ha, fun h => hmet (h ▸ ha.1)⟩

end Walk

/-- What the visit of nodes comes to: the walk goes on and has left them all. -/
structure Visits (g : TaskFlow) (w w' : Walk) (ids : List String) : Prop where
  settled : w'.Settled g
  continues : w.Continues w'
  left : ∀ id ∈ ids, id ∈ w'.left

theorem Visits.refl {w : Walk} (hw : w.Settled g) {id : String} (hid : id ∈ w.left) :
    g.Visits w w [id] := ⟨hw, .refl w, by simpa using hid⟩

/-- A node is visited when it is entered, the nodes that its links lead to are visited, and it is
left. -/
theorem Visits.leave {w v : Walk} {id : String} {ids : List String} (hw : w.Settled g)
    (hmet : id ∉ w.entered) (h : g.Visits (w.enter id) v ids)
    (hids : ∀ b, g.Link id b → b ∈ ids) : g.Visits w (v.leave id) [id] := by
  have hleft : id ∉ w.left := fun h => hmet (hw.left h)
  have hunder : v.Underway id :=
    (h.continues.underway id).mpr ((Walk.underway_enter hleft id).mpr (.inl rfl))
  exact ⟨h.settled.leave hunder fun b hb => h.left b (hids b hb), h.continues.leave hmet hleft,
    List.forall_mem_singleton.mpr List.mem_cons_self⟩

/-- What a search from nodes comes to: a visit of them, or nothing where there is a cycle. -/
inductive Searches (g : TaskFlow) (w : Walk) (ids : List String) : Option Walk → Prop
  | visits {w' : Walk} : g.Visits w w' ids → Searches g w ids (some w')
  | cycle {a : String} : TransGen g.Link a a → Searches g w ids none

theorem Searches.leave {w : Walk} {r : Option Walk} {id : String} {ids : List String}
    (hw : w.Settled g) (hmet : id ∉ w.entered) (h : g.Searches (w.enter id) ids r)
    (hids : ∀ b, g.Link id b → b ∈ ids) : g.Searches w [id] (r.map (·.leave id)) := by
  cases h with
  | visits hv => exact .visits (hv.leave hw hmet hids)
  | cycle ha => exact .cycle ha

/-- Searches from several nodes, one after another. -/
theorem searches_foldlM (step : String → Walk → Option Walk) (ids : List String) {w : Walk}
    (hw : w.Settled g)
    (hstep : ∀ id ∈ ids, ∀ v, v.Settled g → w.Continues v → g.Searches v [id] (step id v)) :
    g.Searches w ids (ids.foldlM (fun v id => step id v) w) := by
  induction ids generalizing w with
  | nil => exact .visits ⟨hw, .refl w, nofun⟩
  | cons id rest ih =>
    have hfirst := hstep id List.mem_cons_self w hw (.refl w)
    rw [List.foldlM_cons]
    generalize step id w = r at hfirst ⊢
    cases hfirst with
    | cycle ha => exact .cycle ha
    | @visits v hv =>
      have hrest := ih hv.settled fun other ho v' hv' hcv =>
        hstep other (List.mem_cons_of_mem _ ho) v' hv' (hv.continues.trans hcv)
      rw [Option.bind_eq_bind, Option.bind_some]
      generalize rest.foldlM (fun v id => step id v) v = r at hrest ⊢
      cases hrest with
      | cycle ha => exact .cycle ha
      | visits hv' =>
        refine .visits ⟨hv'.settled, hv.continues.trans hv'.continues, fun other ho => ?_⟩
        rcases List.mem_cons.mp ho with rfl | ho
        · exact hv'.continues.left (hv.left _ List.mem_cons_self)
        · exact hv'.left other ho

/-- Visits of several nodes, one after another. -/
theorem visits_foldl (step : String → Walk → Walk) (ids : List String) {w : Walk}
    (hw : w.Settled g)
    (hstep : ∀ id ∈ ids, ∀ v, v.Settled g → w.Continues v → g.Visits v (step id v) [id]) :
    g.Visits w (ids.foldl (fun v id => step id v) w) ids := by
  have h := searches_foldlM (fun id v => some (step id v)) ids hw fun id hid v hv hcv =>
    .visits (hstep id hid v hv hcv)
  have hpure : ids.foldlM (fun v id => some (step id v)) w =
      some (ids.foldl (fun v id => step id v) w) := List.foldlM_pure
  rw [hpure] at h
  cases h with
  | visits hv => exact hv

/-- A walk that comes to a node: links lead to it from all nodes that the walk is underway at, and
the fuel lasts, since every node that is entered is one less to meet. -/
structure Comes (g : TaskFlow) (fuel : Nat) (w : Walk) (id : String) : Prop where
  settled : w.Settled g
  node : id ∈ g.ids
  fuel : g.unmet w.entered ≤ fuel
  path : ∀ a, w.Underway a → TransGen g.Link a id

namespace Comes

variable {fuel : Nat} {w v : Walk} {id b : String}

theorem entered (h : g.Comes 0 w id) : id ∈ w.entered :=
  mem_of_unmet_eq_zero (Nat.le_zero.mp h.fuel) h.node

/-- From a node that it enters, a walk comes to each node that a link leads to. -/
theorem next (hg : g.WellFormed) (h : g.Comes (fuel + 1) w id) (hmet : id ∉ w.entered)
    (hlink : g.Link id b) (hv : v.Settled g) (hcv : (w.enter id).Continues v) :
    g.Comes fuel v b where
  settled := hv
  node := hg.target id b hlink
  fuel := by
    have hless : g.unmet (w.enter id).entered < g.unmet w.entered :=
      unmet_lt (List.subset_cons_self ..) h.node hmet List.mem_cons_self
    have hmore : g.unmet v.entered ≤ g.unmet (w.enter id).entered := unmet_mono hcv.entered
    have := h.fuel
    omega
  path a ha := by
    have hleft : id ∉ w.left := fun hl => hmet (h.settled.left hl)
    rcases (Walk.underway_enter hleft a).mp ((hcv.underway a).mp ha) with rfl | ha
    · exact .single hlink
    · exact (h.path a ha).tail hlink

/-- Without a cycle a walk does not come back to a node that it is underway at. -/
theorem left_of_entered (h : g.Comes fuel w id) (hac : ∀ a, ¬ TransGen g.Link a a)
    (hid : id ∈ w.entered) : id ∈ w.left := by
  by_contra hleft
  exact hac id (h.path id ⟨hid, hleft⟩)

/-- From where nothing is underway, a walk comes to any node. -/
theorem root (hid : id ∈ g.ids) (hw : w.Settled g) (hcw : Walk.start.Continues w) :
    g.Comes g.size w id :=
  ⟨hw, hid, g.unmet_le_size _, fun a ha =>
    absurd ((hcw.underway a).mp ha) (Walk.not_underway_start a)⟩

end Comes

/-- A search along a link. A node that the walk is underway at reaches itself by the link. -/
theorem searches_follow {fuel : Nat} {w : Walk} {next : String}
    {search : Walk → Option Walk} (h : g.Comes fuel w next)
    (hsearch : (next ∈ w.entered → next ∈ w.left) → g.Searches w [next] (search w)) :
    g.Searches w [next] (w.follow next search) := by
  rw [Walk.follow]
  by_cases hmet : next ∈ w.entered
  · rw [if_neg (by simpa using hmet)]
    by_cases hleft : next ∈ w.left
    · rw [if_pos (by simpa using hleft)]
      exact .visits (.refl h.settled hleft)
    · rw [if_neg (by simpa using hleft)]
      exact .cycle (h.path next ⟨hmet, hleft⟩)
  · rw [if_pos (by simpa using hmet)]
    exact hsearch fun h => absurd h hmet

/-- A search from a node that the walk is not underway at. -/
theorem searches_search (hg : g.WellFormed) {fuel : Nat} {w : Walk} {id : String}
    (h : g.Comes fuel w id) (hid : id ∈ w.entered → id ∈ w.left) :
    g.Searches w [id] (g.search fuel id w) := by
  induction fuel generalizing id w with
  | zero => exact .visits (.refl h.settled (hid h.entered))
  | succ fuel ih =>
    rw [search]
    by_cases hmet : id ∈ w.entered
    · rw [if_pos (by simpa using hmet)]
      exact .visits (.refl h.settled (hid hmet))
    · rw [if_neg (by simpa using hmet)]
      have hlinks : g.Searches (w.enter id) (g.targets id).reverse
          ((g.targets id).reverse.foldlM
            (fun (v : Walk) next => v.follow next (g.search fuel next)) (w.enter id)) :=
        searches_foldlM (fun next v => v.follow next (g.search fuel next)) _
          (h.settled.enter h.node) fun next hnext v hv hcv => by
            have hlink : g.Link id next := mem_targets.mp (List.mem_reverse.mp hnext)
            have hcomes : g.Comes fuel v next := h.next hg hmet hlink hv hcv
            exact searches_follow hcomes (ih hcomes)
      exact hlinks.leave h.settled hmet fun b hb =>
        List.mem_reverse.mpr (mem_targets.mpr hb)

theorem isOrdered_iff {order : List String} :
    g.isOrdered order = true ↔ ∀ a b, g.Link a b → order.idxOf a < order.idxOf b := by
  simp [isOrdered, Link]

/-- All links follow the order in which a walk has left all nodes, last one first. -/
theorem Walk.Settled.isOrdered (hg : g.WellFormed) {w : Walk} (h : w.Settled g)
    (hall : ∀ id ∈ g.ids, id ∈ w.left) : g.isOrdered w.left = true :=
  isOrdered_iff.mpr fun a b hab =>
    h.descends.idxOf_lt h.nodup (hall a (hg.source a b hab)) hab

theorem idxOf_lt_of_path {order : List String} (h : g.isOrdered order = true) {a b : String}
    (hab : TransGen g.Link a b) : order.idxOf a < order.idxOf b := by
  induction hab with
  | single hlink => exact isOrdered_iff.mp h _ _ hlink
  | tail _ hlink ih => exact Nat.lt_trans ih (isOrdered_iff.mp h _ _ hlink)

/-- An order that all links follow shows that there is no cycle. -/
theorem acyclic_of_isOrdered {order : List String} (h : g.isOrdered order = true) (a : String) :
    ¬ TransGen g.Link a a := fun ha => Nat.lt_irrefl _ (idxOf_lt_of_path h ha)

/-- The search finds a link back exactly if some node reaches itself. -/
theorem isCyclic_eq_any_onCycle (hg : g.WellFormed) : g.isCyclic = g.ids.any g.onCycle := by
  have h : g.Searches .start g.ids (g.ids.foldlM (fun w id => g.search g.size id w) .start) :=
    searches_foldlM (g.search g.size) g.ids (Walk.settled_start g) fun id hid v hv hcv =>
      searches_search hg (.root hid hv hcv) hcv.left_of_entered
  rw [Bool.eq_iff_iff, isCyclic, List.any_eq_true]
  generalize g.ids.foldlM (fun w id => g.search g.size id w) Walk.start = r at h ⊢
  cases h with
  | @cycle a ha =>
    obtain ⟨b, hab, -⟩ := TransGen.head'_iff.mp ha
    exact ⟨fun _ => ⟨a, hg.source a b hab, (onCycle_iff hg).mpr ha⟩, fun _ => rfl⟩
  | visits hv =>
    refine ⟨nofun, fun ⟨a, _, ha⟩ => ?_⟩
    exact absurd ((onCycle_iff hg).mp ha)
      (acyclic_of_isOrdered (hv.settled.isOrdered hg hv.left) a)

theorem isCyclic_iff (hg : g.WellFormed) :
    g.isCyclic = true ↔ ∃ a ∈ g.ids, TransGen g.Link a a := by
  simp only [isCyclic_eq_any_onCycle hg, List.any_eq_true, onCycle_iff hg]

end ServiceMaps.TaskFlow
