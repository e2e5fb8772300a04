import Mathlib.Logic.Relation
import ServiceMaps.Proofs.Creation
import ServiceMaps.Proofs.NormalForm
import ServiceMaps.Proofs.Reports

/-!
Changes of a value that a form does not see: a null field that may be left out comes or goes, and a
part of a document gets, changes or loses a field that is not in its table. They leave the report of
an inspection and the loaded document as they are, however many there are and however deep they lie.
A field of the document itself that no table lists is not seen either, but it is kept.
-/
namespace ServiceMaps

namespace Form

/-- One change of a value that a form does not see. Fields that a table does not list count only
where the value is nested in another one. -/
inductive Unseen : Bool → Form → Value → Value → Prop where
  | item {nested : Bool} {item : Form} {v w : Value} (before after : List Value) :
      Unseen true item v w →
      Unseen nested (.list item) (.arr (before ++ v :: after)) (.arr (before ++ w :: after))
  | field {nested : Bool} {members : List (Member Form)} {fields : Fields} {m : Member Form}
      {v w : Value} : m ∈ members → fields.get? m.name = some v → Unseen true m.form v w →
      Unseen nested (.record members) (.obj fields) (.obj (fields.put m.name w))
  | addNull {nested : Bool} {members : List (Member Form)} {fields : Fields} {m : Member Form} :
      m ∈ members → m.required = false → fields.get? m.name = none →
      Unseen nested (.record members) (.obj fields) (.obj (fields.put m.name .null))
  | dropNull {nested : Bool} {members : List (Member Form)} {fields : Fields} {m : Member Form} :
      m ∈ members → m.required = false → fields.get? m.name = some .null →
      Unseen nested (.record members) (.obj fields) (.obj (fields.excluding [m.name]))
  | put {members : List (Member Form)} {fields : Fields} {name : String} (v : Value) :
      name ∉ members.map (·.name) →
      Unseen true (.record members) (.obj fields) (.obj (fields.put name v))
  | drop {members : List (Member Form)} {fields : Fields} {name : String} :
      name ∉ members.map (·.name) →
      Unseen true (.record members) (.obj fields) (.obj (fields.excluding [name]))

/-- What stands under a name of a table before and after a change that is not seen. -/
inductive Alike (m : Member Form) : Option Value → Option Value → Prop where
  | same (o : Option Value) : Alike m o o
  | blank {o p : Option Value} : m.required = false → o = none ∨ o = some .null →
      p = none ∨ p = some .null → Alike m o p
  | changed {v w : Value} : Unseen true m.form v w → Alike m (some v) (some w)

variable {nested : Bool} {form : Form} {members : List (Member Form)} {v w : Value}

theorem Unseen.ne_null (h : Unseen nested form v w) : v ≠ .null ∧ w ≠ .null := by
  cases h <;> exact ⟨Value.noConfusion, Value.noConfusion⟩

/-- A change under one name of a table leaves the others alone. -/
theorem alike_of_ne (hnames : (members.map (·.name)).Nodup) {fields others : Fields}
    {m : Member Form} (hm : m ∈ members)
    (hone : Alike m (fields.get? m.name) (others.get? m.name))
    (hrest : ∀ name, name ≠ m.name → others.get? name = fields.get? name) :
    ∀ n ∈ members, Alike n (fields.get? n.name) (others.get? n.name) := by
  intro n hn
  by_cases he : n.name = m.name
  · rw [List.inj_on_of_nodup_map hnames hn hm he]
    exact hone
  · rw [hrest n.name he]
    exact .same _

/-- All that a change does to the fields of an object. -/
theorem Unseen.record_cases (hnames : (members.map (·.name)).Nodup)
    (h : Unseen nested (.record members) v w) : ∃ fields others, v = .obj fields ∧
      w = .obj others ∧
      (∀ m ∈ members, Alike m (Fields.get? m.name fields) (Fields.get? m.name others)) ∧
      (nested = false → Fields.excluding (members.map (·.name)) others =
        Fields.excluding (members.map (·.name)) fields) := by
  cases h with
  | @field _ _ fields m u u' hm hv hu =>
    refine ⟨fields, _, rfl, rfl, alike_of_ne hnames hm ?_ fun name hne => ?_,
      fun _ => Fields.excluding_put_of_mem (List.mem_map_of_mem hm) u' fields⟩
    · rw [hv, Fields.get?_put, if_pos rfl]
      exact .changed hu
    · rw [Fields.get?_put, if_neg hne.symm]
  | @addNull _ _ fields m hm hr hv =>
    refine ⟨fields, _, rfl, rfl, alike_of_ne hnames hm ?_ fun other hne => ?_,
      fun _ => Fields.excluding_put_of_mem (List.mem_map_of_mem hm) .null fields⟩
    · exact .blank hr (.inl hv) (.inr (by rw [Fields.get?_put, if_pos rfl]))
    · rw [Fields.get?_put, if_neg hne.symm]
  | @dropNull _ _ fields m hm hr hv =>
    refine ⟨fields, _, rfl, rfl, alike_of_ne hnames hm ?_ fun other hne => ?_,
      fun _ => Fields.excluding_excluding ?_ fields⟩
    · refine .blank hr (.inr hv) (.inl ?_)
      rw [Fields.get?_excluding, if_pos (List.mem_singleton.mpr rfl)]
    · rw [Fields.get?_excluding, if_neg (mt List.mem_singleton.mp hne)]
    · rintro _ hmem
      rw [List.mem_singleton.mp hmem]
      exact List.mem_map_of_mem hm
  -- unknown fields change in nested objects only, so nothing is said of what is kept
  | @put _ fields name u hname =>
    refine ⟨fields, _, rfl, rfl, fun m hm => ?_, nofun⟩
    have hne : name ≠ m.name := fun he => hname (he ▸ List.mem_map_of_mem hm)
    rw [Fields.get?_put, if_neg hne]
    exact .same _
  | @drop _ fields name hname =>
    refine ⟨fields, _, rfl, rfl, fun m hm => ?_, nofun⟩
    have hne : m.name ≠ name := fun he => hname (he ▸ List.mem_map_of_mem hm)
    rw [Fields.get?_excluding, if_neg (mt List.mem_singleton.mp hne)]
    exact .same _

/-! ### The report -/

variable {fields others : Fields} {m : Member Form} {rest : List (Member Form)}

theorem memberFlaws_blank (base : Path) (h : Blank m.name fields) :
    memberFlaws base (m :: rest) fields =
      (if m.required then [⟨base ++ [.field m.name], .missing⟩] else []) ++
        memberFlaws base rest fields := by
  rw [memberFlaws]
  rcases h with h | h <;> rw [h]

theorem memberFlaws_value (base : Path) (h : fields.get? m.name = some v) (hne : v ≠ .null) :
    memberFlaws base (m :: rest) fields =
      flaws (base ++ [.field m.name]) m.form v ++ memberFlaws base rest fields := by
  rw [memberFlaws, h]
  cases v <;> first | rfl | exact absurd rfl hne

theorem memberFlaws_alike (base : Path)
    (hforms : ∀ m ∈ members, ∀ v w, Unseen true m.form v w →
      flaws (base ++ [.field m.name]) m.form v = flaws (base ++ [.field m.name]) m.form w)
    (h : ∀ m ∈ members, Alike m (fields.get? m.name) (others.get? m.name)) :
    memberFlaws base members fields = memberFlaws base members others := by
  induction members with
  | nil => rfl
  | cons m rest ih =>
    obtain ⟨hm, hrest⟩ := List.forall_mem_cons.mp h
    obtain ⟨hform, hforms⟩ := List.forall_mem_cons.mp hforms
    have ih := ih hforms hrest
    generalize ho : fields.get? m.name = o at hm
    generalize hp : others.get? m.name = p at hm
    cases hm with
    | same => rw [memberFlaws, memberFlaws, ho, hp, ih]
    | blank hr hblank hblank' =>
      subst ho hp
      rw [memberFlaws_blank base hblank, memberFlaws_blank base hblank', ih]
    | changed hu =>
      rw [memberFlaws_value base ho hu.ne_null.1, memberFlaws_value base hp hu.ne_null.2,
        hform _ _ hu, ih]

/-- A change that is not seen leaves all flaws as they are. -/
theorem Unseen.flaws_eq (hreg : form.Regular) (h : Unseen nested form v w) (base : Path) :
    flaws base form v = flaws base form w := by
  induction hreg generalizing nested v w base with
  | list _ ih =>
    cases h with
    | item before after hu =>
      simp only [flaws, List.zipIdx_append, List.zipIdx_cons, List.flatMap_append,
        List.flatMap_cons, ih hu]
  | record hnames _ _ ih =>
    obtain ⟨fields, others, rfl, rfl, halike, -⟩ := h.record_cases hnames
    exact memberFlaws_alike base (fun m hm v w hu => ih m hm hu _) halike
  | _ => cases h

/-! ### The normal form -/

theorem normal_null (form : Form) : normal form .null = .null := by
  cases form <;> simp [normal, integer?]

theorem normalMembers_blank (hr : m.required = false) (h : Blank m.name fields) :
    normalMembers (m :: rest) fields = normalMembers rest fields := by
  rw [normalMembers]
  rcases h with h | h
  · rw [h, List.nil_append]
  · simp [h, hr, normal_null, isDefault]

theorem normalMembers_alike
    (hforms : ∀ m ∈ members, ∀ v w, Unseen true m.form v w → normal m.form v = normal m.form w)
    (h : ∀ m ∈ members, Alike m (fields.get? m.name) (others.get? m.name)) :
    normalMembers members fields = normalMembers members others := by
  induction members with
  | nil => rfl
  | cons m rest ih =>
    obtain ⟨hm, hrest⟩ := List.forall_mem_cons.mp h
    obtain ⟨hform, hforms⟩ := List.forall_mem_cons.mp hforms
    have ih := ih hforms hrest
    generalize ho : fields.get? m.name = o at hm
    generalize hp : others.get? m.name = p at hm
    cases hm with
    | same => rw [normalMembers, normalMembers, ho, hp, ih]
    | blank hr hblank hblank' =>
      subst ho hp
      rw [normalMembers_blank hr hblank, normalMembers_blank hr hblank', ih]
    | changed hu => simp only [normalMembers, ho, hp, hform _ _ hu, ih]

/-- A change that is not seen leaves the normal form as it is. -/
theorem Unseen.normal_eq (hreg : form.Regular) (h : Unseen nested form v w) :
    normal form v = normal form w := by
  induction hreg generalizing nested v w with
  | list _ ih =>
    cases h with
    | item before after hu => simp only [normal, List.map_append, List.map_cons, ih hu]
  | record hnames _ _ ih =>
    obtain ⟨fields, others, rfl, rfl, halike, -⟩ := h.record_cases hnames
    rw [normal, normal, normalMembers_alike (fun m hm v w hu => ih m hm hu) halike]
  | _ => cases h

/-- A field that must be there and has no parts stays the same. -/
theorem Unseen.get?_eq (hnames : (members.map (·.name)).Nodup)
    (h : Unseen nested (.record members) v w) (hm : m ∈ members) (hr : m.required = true)
    (hleaf : m.form.IsLeaf) : v.get? m.name = w.get? m.name := by
  obtain ⟨fields, others, rfl, rfl, halike, -⟩ := h.record_cases hnames
  have hm := halike m hm
  simp only [Value.get?]
  generalize Fields.get? m.name fields = o at hm ⊢
  generalize Fields.get? m.name others = p at hm ⊢
  cases hm with
  | same => rfl
  | blank hr' _ _ => exact absurd hr (by simp [hr'])
  | changed hu =>
    generalize m.form = form at hleaf hu
    cases hu <;> exact hleaf.elim

/-! ### Documents -/

variable {settings : Settings} {k : Kind}

theorem Unseen.kind_eq (h : Unseen nested (.record (document k)) v w) :
    v.get? "kind" = w.get? "kind" :=
  h.get?_eq (m := required "kind" (.constant k.text)) (names_nodup k) (kind_mem_document k) rfl
    trivial

theorem Unseen.version_eq (h : Unseen nested (.record (document k)) v w) :
    v.get? "version" = w.get? "version" :=
  h.get?_eq (m := required "version" .string) (names_nodup k) (version_mem_document k) rfl trivial

/-- A change that is not seen leaves the report as it is. -/
theorem Unseen.inspect_eq (h : Unseen nested (.record (document k)) v w) :
    inspect settings k v = inspect settings k w := by
  rw [inspect, inspect, h.flaws_eq (regular_document k), versionFlaws, versionFlaws, h.version_eq]

end Form

namespace Document

open Form

variable {settings : Settings} {k : Kind} {v w : Value}

/-- A change of a document that its form does not see leaves the normal form of the document as it
is. -/
theorem normal_unseen (h : Unseen false (.record (document k)) v w)
    (hk : v.get? "kind" = some (.str k.text)) : normal v = normal w := by
  have hv : namedKind v = .ok k := (namedKind_eq_ok_iff v k).mpr hk
  have hw : namedKind w = .ok k := (namedKind_eq_ok_iff w k).mpr (h.kind_eq ▸ hk)
  obtain ⟨hnames, -, hforms⟩ := regular_record_iff.mp (regular_document k)
  obtain ⟨fields, others, rfl, rfl, halike, hkept⟩ := h.record_cases hnames
  simp only [normal, hv, hw]
  rw [hkept rfl, normalMembers_alike (fun m hm v w hu => hu.normal_eq (hforms m hm)) halike]

/-- Values with one report and one normal form are loaded alike: a document that was loaded is
loaded again from the normal form. -/
theorem load_eq_of_normal (hv : v.Proper) (hw : w.Proper) (hkv : namedKind v = .ok k)
    (hkw : namedKind w = .ok k) (hreport : inspect settings k v = inspect settings k w)
    (hnormal : normal v = normal w) : load settings v = load settings w := by
  rcases hvalid : (inspect settings k v).valid with _ | _
  · rw [load_of_invalid settings hkv hvalid, load_of_invalid settings hkw (hreport ▸ hvalid),
      hreport]
  · obtain ⟨d, -, -, hd⟩ := load_of_valid settings hvalid
    obtain ⟨e, -, -, he⟩ := load_of_valid settings (hreport ▸ hvalid)
    have hsame : d.toValue = e.toValue := by
      rw [toValue_of_load hv hd, toValue_of_load hw he, hnormal]
    calc load settings v = .ok d := hd
      _ = load settings d.toValue := (load_toValue_of_load hv hd).symm
      _ = load settings e.toValue := by rw [hsame]
      _ = .ok e := load_toValue_of_load hw he
      _ = load settings w := he.symm

/-- What holds of one change that is not seen holds of any number of them. -/
theorem unseen_all (settings : Settings)
    (h : Relation.ReflTransGen (Unseen false (.record (document k))) v w) :
    inspect settings k v = inspect settings k w ∧ v.get? "kind" = w.get? "kind" ∧
      (v.get? "kind" = some (.str k.text) → normal v = normal w) := by
  induction h with
  | refl => exact ⟨rfl, rfl, fun _ => rfl⟩
  | tail _ hstep ih =>
    obtain ⟨hreport, hkind, hnormal⟩ := ih
    exact ⟨hreport.trans hstep.inspect_eq, hkind.trans hstep.kind_eq,
      fun hk => (hnormal hk).trans (normal_unseen hstep (hkind ▸ hk))⟩

end Document

/-! ### Fields that a document keeps -/

namespace Reading

variable {α : Type} {name : String} {read : Value → Read α} {fields others : Fields}

theorem required_congr (h : others.get? name = fields.get? name) :
    required name read others = required name read fields := by
  rw [required, required, h]

theorem optional_congr (h : others.get? name = fields.get? name) :
    optional name read others = optional name read fields := by
  rw [optional, optional, present, present, h]

theorem withDefault_congr {fallback : α} (h : others.get? name = fields.get? name) :
    withDefault fallback name read others = withDefault fallback name read fields := by
  rw [withDefault, withDefault, optional_congr h]

theorem journeyMap_congr (h : ∀ name ∈ known .journey, others.get? name = fields.get? name) :
    journeyMap others =
      (fun d => { d with extra := extra .journey others }) <$> journeyMap fields := by
  simp only [known, List.forall_mem_cons] at h
  obtain ⟨hversion, hid, hpersona, hphases, hactions, -⟩ := h
  rw [journeyMap, journeyMap, required_congr hactions, required_congr hversion, required_congr hid,
    optional_congr hpersona, required_congr hphases]
  simp only [map_bind, map_pure]

theorem blueprint_congr (h : ∀ name ∈ known .blueprint, others.get? name = fields.get? name) :
    blueprint others =
      (fun d => { d with extra := extra .blueprint others }) <$> blueprint fields := by
  simp only [known, List.forall_mem_cons] at h
  obtain ⟨hversion, hid, hlanes, htasks, -⟩ := h
  rw [blueprint, blueprint, required_congr hversion, required_congr hid, required_congr hlanes,
    required_congr htasks]
  simp only [map_bind, map_pure]

theorem outcome_congr (h : ∀ name ∈ known .outcome, others.get? name = fields.get? name) :
    outcome others =
      (fun d => { d with extra := extra .outcome others }) <$> outcome fields := by
  simp only [known, List.forall_mem_cons] at h
  obtain ⟨hversion, hid, hgoal, hfactor, hindicator, -⟩ := h
  rw [outcome, outcome, required_congr hversion, required_congr hid, required_congr hgoal,
    required_congr hfactor, required_congr hindicator]
  simp only [map_bind, map_pure]

theorem enablementMap_congr
    (h : ∀ name ∈ known .enablement, others.get? name = fields.get? name) :
    enablementMap others =
      (fun d => { d with extra := extra .enablement others }) <$> enablementMap fields := by
  simp only [known, List.forall_mem_cons] at h
  obtain ⟨hversion, hid, houtcomes, hactions, hskills, hknowledge, htools, -⟩ := h
  rw [enablementMap, enablementMap, required_congr hversion, required_congr hid,
    required_congr houtcomes, required_congr hactions, withDefault_congr hskills,
    withDefault_congr hknowledge, withDefault_congr htools]
  simp only [map_bind, map_pure]

end Reading

namespace Document

open Form

variable {settings : Settings} {k : Kind}

/-- The document with other fields that it does not know. -/
def withExtra (extra : Fields) : Document → Document
  | .journey d => .journey { d with extra }
  | .blueprint d => .blueprint { d with extra }
  | .outcome d => .outcome { d with extra }
  | .enablement d => .enablement { d with extra }

/-- Objects that agree in the fields that a kind knows are read alike, but for what is kept. -/
theorem ofValue_congr {fields others : Fields} (hk : fields.get? "kind" = some (.str k.text))
    (h : ∀ name ∈ "kind" :: Reading.known k, others.get? name = fields.get? name) :
    ofValue (.obj others) = withExtra (Reading.extra k others) <$> ofValue (.obj fields) := by
  obtain ⟨hkind, h⟩ := List.forall_mem_cons.mp h
  simp only [ofValue, hkind, hk, Kind.ofText?_text]
  cases k with
  | journey => simp only [Reading.journeyMap_congr h, Functor.map_map, withExtra]
  | blueprint => simp only [Reading.blueprint_congr h, Functor.map_map, withExtra]
  | outcome => simp only [Reading.outcome_congr h, Functor.map_map, withExtra]
  | enablement => simp only [Reading.enablementMap_congr h, Functor.map_map, withExtra]

/-- A field that no table lists changes nothing of a loaded document but what is kept. -/
theorem load_put {fields : Fields} (hf : Fields.Ascending fields)
    (hk : fields.get? "kind" = some (.str k.text)) {name : String}
    (hname : name ∉ (document k).map (·.name)) (u : Value) :
    load settings (.obj (fields.put name u)) =
      (load settings (.obj fields)).map fun d => d.withExtra (d.extra.put name u) := by
  have hunseen : Unseen true (.record (document k)) (.obj fields) (.obj (fields.put name u)) :=
    .put u hname
  have hreport : inspect settings k (.obj fields) = inspect settings k (.obj (fields.put name u)) :=
    hunseen.inspect_eq
  have hkv : namedKind (.obj fields) = .ok k := (namedKind_eq_ok_iff _ k).mpr hk
  have hkw : namedKind (.obj (fields.put name u)) = .ok k :=
    (namedKind_eq_ok_iff _ k).mpr (hunseen.kind_eq ▸ hk)
  rcases hvalid : (inspect settings k (.obj fields)).valid with _ | _
  · rw [load_of_invalid settings hkv hvalid, load_of_invalid settings hkw (hreport ▸ hvalid),
      hreport]
    rfl
  · obtain ⟨d, -, hd, hload⟩ := load_of_valid settings hvalid
    obtain ⟨e, -, he, hload'⟩ := load_of_valid settings (hreport ▸ hvalid)
    obtain ⟨⟨_, hfields, hm⟩, -⟩ := (inspect_valid_iff _ _ _).mp hvalid
    cases hfields
    obtain ⟨d', hd', -, hextra, -⟩ := ofValue_of_conforms hm
    obtain rfl : d = d' := Except.ok.inj (hd.symm.trans hd')
    have hothers : ∀ other ∈ "kind" :: Reading.known k,
        Fields.get? other (fields.put name u) = fields.get? other := by
      intro other hmem
      have hne : name ≠ other := fun he => hname (names_document k ▸ he ▸ hmem)
      rw [Fields.get?_put, if_neg hne]
    have hkept : Reading.extra k (fields.put name u) = d.extra.put name u := by
      rw [hextra, Reading.extra, Reading.extra, hf.excluding_put (names_document k ▸ hname)]
    rw [ofValue_congr hk hothers, hd, hkept] at he
    obtain rfl : d.withExtra (d.extra.put name u) = e := Except.ok.inj he
    rw [hload, hload']
    rfl

/-- Null fields that may be left out and unknown fields of parts of a document are not seen, however
many come and go and whatever else is wrong: the report stays, and so does what is loaded, or the
error. A field of the document itself that no table lists leaves the report as it is too; what is
loaded keeps it, and is the same but for that. -/
theorem load_unseen (settings : Settings) (k : Kind) :
    (∀ v w, Relation.ReflTransGen (Unseen false (.record (document k))) v w →
      inspect settings k v = inspect settings k w ∧
      (v.get? "kind" = some (.str k.text) → v.Proper → w.Proper →
        load settings v = load settings w)) ∧
    ∀ (fields : Fields) (name : String) (u : Value), name ∉ (document k).map (·.name) →
      inspect settings k (.obj (fields.put name u)) = inspect settings k (.obj fields) ∧
      (fields.get? "kind" = some (.str k.text) → (Value.obj fields).Proper →
        load settings (.obj (fields.put name u)) =
          (load settings (.obj fields)).map fun d => d.withExtra (d.extra.put name u)) := by
  refine ⟨fun v w h => ?_, fun fields name u hname => ⟨?_, fun hk hp => ?_⟩⟩
  · obtain ⟨hreport, hkind, hnormal⟩ := unseen_all settings h
    refine ⟨hreport, fun hk hv hw => ?_⟩
    have hkv : namedKind v = .ok k := (namedKind_eq_ok_iff v k).mpr hk
    have hkw : namedKind w = .ok k := (namedKind_eq_ok_iff w k).mpr (hkind ▸ hk)
    exact load_eq_of_normal hv hw hkv hkw hreport (hnormal hk)
  · have hunseen : Unseen true (.record (document k)) (.obj fields) (.obj (fields.put name u)) :=
      .put u hname
    exact hunseen.inspect_eq.symm
  · cases hp with
    | obj hf _ => exact load_put hf hk hname u

/-- A journey map, and one without actions, lose a persona that is null and get a colour for a
phase. The one is loaded as before, the other is refused as before; an owner is kept. -/
theorem load_unseen_persona :
    let v : Value → Fields := fun actions => [("actions", actions), ("id", .str "j"),
      ("kind", .str "cjm"), ("persona", .null),
      ("phases", .arr [.obj [("id", .str "p"), ("name", .str "P")]]), ("version", .str "1.0")]
    let w : Value → Fields := fun actions => [("actions", actions), ("id", .str "j"),
      ("kind", .str "cjm"), ("phases", .arr [.obj [("colour", .str "red"), ("id", .str "p"),
        ("name", .str "P")]]), ("version", .str "1.0")]
    let owned := (w (.arr [])).put "owner" (.str "o")
    let d : Fields → Document := fun extra => .journey ⟨"1.0", "j", none, [⟨"p", "P"⟩], [], extra⟩
    load .standard (.obj (v (.arr []))) = .ok (d []) ∧
      load .standard (.obj (w (.arr []))) = .ok (d []) ∧
      load .standard (.obj owned) = .ok (d [("owner", .str "o")]) ∧
      (inspect .standard .journey (.obj (v .null))).flaws = [⟨[.field "actions"], .missing⟩] ∧
      inspect .standard .journey (.obj (w .null)) = inspect .standard .journey (.obj (v .null)) ∧
      load .standard (.obj (w .null)) = load .standard (.obj (v .null)) := by
  intro v w owned d
  have hchain : ∀ actions, Relation.ReflTransGen (Unseen false (.record (document .journey)))
      (.obj (v actions)) (.obj (w actions)) := by
    intro actions
    have hphase : Unseen true (.record (texts ["id", "name"]))
        (.obj [("id", .str "p"), ("name", .str "P")])
        (.obj [("colour", .str "red"), ("id", .str "p"), ("name", .str "P")]) :=
      @Unseen.put _ _ "colour" (.str "red") (by decide)
    have hphases : Unseen false (.record (document .journey)) (.obj (v actions))
        (.obj ((v actions).put "phases" (.arr [.obj [("colour", .str "red"), ("id", .str "p"),
          ("name", .str "P")]]))) :=
      .field (m := required "phases" (.list (.record (texts ["id", "name"]))))
        (by simp [document, body]) rfl (.item [] [] hphase)
    have hpersona : Unseen false (.record (document .journey))
        (.obj ((v actions).put "phases" (.arr [.obj [("colour", .str "red"), ("id", .str "p"),
          ("name", .str "P")]]))) (.obj (w actions)) :=
      .dropNull (m := optional "persona" (.record (texts ["name"])))
        (by simp [document, body]) rfl rfl
    exact .head hphases (.single hpersona)
  have hproper : ∀ actions, actions.Proper →
      (Value.obj (v actions)).Proper ∧ (Value.obj (w actions)).Proper := by
    intro actions ha
    have hphase : (Value.obj [("id", .str "p"), ("name", .str "P")]).Proper :=
      .obj (by decide) (by simp [Value.Sound.str])
    have hred : (Value.obj [("colour", .str "red"), ("id", .str "p"), ("name", .str "P")]).Proper :=
      .obj (by decide) (by simp [Value.Sound.str])
    constructor
    · have hnames :
          ["actions", "id", "kind", "persona", "phases", "version"].Pairwise (· < ·) := by
        decide
      refine .obj hnames ?_
      simp only [v, List.forall_mem_cons, Value.Sound.str, Value.Sound.null, ha, true_and]
      exact ⟨.arr (List.forall_mem_singleton.mpr hphase), List.forall_mem_nil _⟩
    · have hnames : ["actions", "id", "kind", "phases", "version"].Pairwise (· < ·) := by
        decide
      refine .obj hnames ?_
      simp only [w, List.forall_mem_cons, Value.Sound.str, ha, true_and]
      exact ⟨.arr (List.forall_mem_singleton.mpr hred), List.forall_mem_nil _⟩
  have hload : load .standard (.obj (v (.arr []))) = .ok (d []) := by decide +kernel
  obtain ⟨hunseen, hkept⟩ := load_unseen .standard .journey
  have hsame := hunseen _ _ (hchain (.arr []))
  have hwrong := hunseen _ _ (hchain .null)
  have hv := hproper (.arr []) (.arr (List.forall_mem_nil _))
  have hbad := hproper .null .null
  have hloadw : load .standard (.obj (w (.arr []))) = .ok (d []) := by
    rw [← hload, hsame.2 rfl hv.1 hv.2]
  refine ⟨hload, hloadw, ?_, by decide +kernel, hwrong.1.symm, (hwrong.2 rfl hbad.1 hbad.2).symm⟩
  rw [(hkept (w (.arr [])) "owner" (.str "o") (by decide)).2 rfl hv.2, hloadw]
  rfl

end Document

end ServiceMaps
