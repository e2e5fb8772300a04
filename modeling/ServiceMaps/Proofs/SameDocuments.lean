import ServiceMaps.Proofs.NormalForm
import ServiceMaps.Proofs.RoundTrip

/-!
When two values are loaded as the same document. Documents are compared with floating numbers as
numbers, so that zero and its negative are the same; apart from the signs of zeros the comparison is
equality, of values as of documents. A document is known by its normal form, and taking the signs of
zeros away makes no difference to that, so that two values are loaded as the same document exactly
if their normal forms are the same.
-/
namespace ServiceMaps

namespace Binary64

/-- The number without the sign of a zero. -/
def unsigned (x : Binary64) : Binary64 := if x.isZero then zero false else x

theorem isFinite_unsigned {x : Binary64} (h : x.isFinite = true) : x.unsigned.isFinite = true := by
  unfold unsigned
  split
  · rfl
  · exact h

theorem canonical_unsigned {x : Binary64} (h : x.Canonical) : x.unsigned.Canonical := by
  unfold unsigned
  split
  · exact canonical_zero false
  · exact h

/-- Finite numbers are the same if they are equal but for the sign of a zero. -/
theorem same_iff_unsigned {x y : Binary64} (hx : x.isFinite = true) (hy : y.isFinite = true) :
    x.same y = true ↔ x.unsigned = y.unsigned := by
  have hsame : x.same y = ((x.isZero && y.isZero) || x == y) := by
    cases x with
    | finite => cases y <;> first | rfl | simp [isFinite] at hy
    | infinite | nan => simp [isFinite] at hx
  have hzero : (zero false).isZero = true := rfl
  rw [hsame]
  unfold unsigned
  cases hzx : x.isZero <;> cases hzy : y.isZero
  · simp
  · have hne : x ≠ zero false := fun h => by simp [h, hzero] at hzx
    have hne' : x ≠ y := fun h => by simp [h, hzy] at hzx
    simp [hne, hne']
  · have hne : zero false ≠ y := fun h => by simp [← h, hzero] at hzy
    have hne' : x ≠ y := fun h => by simp [← h, hzx] at hzy
    simp [hne, hne']
  · simp

end Binary64

namespace Value

mutual

/-- The value without the signs of its zeros. -/
def unsigned : Value → Value
  | .null => .null
  | .bool b => .bool b
  | .int n => .int n
  | .float x => .float x.unsigned
  | .str s => .str s
  | .arr items => .arr (unsignedItems items)
  | .obj fields => .obj (unsignedFields fields)

def unsignedItems : List Value → List Value
  | [] => []
  | v :: rest => unsigned v :: unsignedItems rest

def unsignedFields : List (String × Value) → List (String × Value)
  | [] => []
  | (name, v) :: rest => (name, unsigned v) :: unsignedFields rest

end

theorem unsignedItems_eq_map (items : List Value) : unsignedItems items = items.map unsigned := by
  induction items with
  | nil => rfl
  | cons v rest ih => simp [unsignedItems, ih]

theorem unsignedFields_eq_map (fields : Fields) :
    unsignedFields fields = fields.map fun field => (field.1, unsigned field.2) := by
  induction fields with
  | nil => rfl
  | cons field rest ih => simp [unsignedFields, ih]

@[simp] theorem unsignedFields_append (fields more : Fields) :
    unsignedFields (fields ++ more) = unsignedFields fields ++ unsignedFields more := by
  simp [unsignedFields_eq_map]

@[simp] theorem names_unsignedFields (fields : Fields) :
    Fields.names (unsignedFields fields) = fields.names := by
  simp [unsignedFields_eq_map, Fields.names]

theorem Sound.unsigned {r : String → String → Prop} {v : Value} (h : Sound r v) :
    Sound r v.unsigned := by
  induction h with
  | null => exact .null
  | bool b => exact .bool b
  | int hl hg => exact .int hl hg
  | float hf hc => exact .float (Binary64.isFinite_unsigned hf) (Binary64.canonical_unsigned hc)
  | str s => exact .str s
  | arr _ ih =>
    rw [Value.unsigned, unsignedItems_eq_map]
    exact .arr (List.forall_mem_map.mpr ih)
  | obj hn _ ih =>
    rw [Value.unsigned, unsignedFields_eq_map]
    refine .obj ?_ (List.forall_mem_map.mpr ih)
    rw [List.map_map]
    exact hn

mutual

/-- Values with finite numbers are the same if they are equal but for the signs of zeros. -/
theorem same_iff_unsigned {r : String → String → Prop} : ∀ {v w : Value}, Sound r v → Sound r w →
    (agree Binary64.same v w = true ↔ v.unsigned = w.unsigned)
  | .null, w, _, _ => by cases w <;> simp [agree, unsigned]
  | .bool _, w, _, _ => by cases w <;> simp [agree, unsigned]
  | .int _, w, _, _ => by cases w <;> simp [agree, unsigned]
  | .str _, w, _, _ => by cases w <;> simp [agree, unsigned]
  | .float x, w, hv, hw => by
    cases w with
    | float y =>
      cases hv with
      | float hx _ =>
        cases hw with
        | float hy _ => simpa [agree, unsigned] using Binary64.same_iff_unsigned hx hy
    | _ => simp [agree, unsigned]
  | .arr xs, w, hv, hw => by
    cases w with
    | arr ys =>
      cases hv with
      | arr hxs =>
        cases hw with
        | arr hys => simpa [agree, unsigned] using sameItems_iff_unsigned hxs hys
    | _ => simp [agree, unsigned]
  | .obj xs, w, hv, hw => by
    cases w with
    | obj ys =>
      cases hv with
      | obj _ hxs =>
        cases hw with
        | obj _ hys => simpa [agree, unsigned] using sameFields_iff_unsigned hxs hys
    | _ => simp [agree, unsigned]

theorem sameItems_iff_unsigned {r : String → String → Prop} : ∀ {xs ys : List Value},
    (∀ v ∈ xs, Sound r v) → (∀ w ∈ ys, Sound r w) →
      (agreeItems Binary64.same xs ys = true ↔ unsignedItems xs = unsignedItems ys)
  | [], ys, _, _ => by cases ys <;> simp [agreeItems, unsignedItems]
  | v :: xs, ys, hxs, hys => by
    cases ys with
    | nil => simp [agreeItems, unsignedItems]
    | cons w ys =>
      obtain ⟨hv, hxs⟩ := List.forall_mem_cons.mp hxs
      obtain ⟨hw, hys⟩ := List.forall_mem_cons.mp hys
      simp [agreeItems, unsignedItems, same_iff_unsigned hv hw, sameItems_iff_unsigned hxs hys]

theorem sameFields_iff_unsigned {r : String → String → Prop} : ∀ {xs ys : Fields},
    (∀ field ∈ xs, Sound r field.2) → (∀ field ∈ ys, Sound r field.2) →
      (agreeFields Binary64.same xs ys = true ↔ unsignedFields xs = unsignedFields ys)
  | [], ys, _, _ => by cases ys <;> simp [agreeFields, unsignedFields]
  | (a, v) :: xs, ys, hxs, hys => by
    cases ys with
    | nil => simp [agreeFields, unsignedFields]
    | cons field ys =>
      obtain ⟨b, w⟩ := field
      obtain ⟨hv, hxs⟩ := List.forall_mem_cons.mp hxs
      obtain ⟨hw, hys⟩ := List.forall_mem_cons.mp hys
      simp [agreeFields, unsignedFields, same_iff_unsigned hv hw, sameFields_iff_unsigned hxs hys]

end

theorem put_unsigned (name : String) (v : Value) (fields : Fields) :
    Fields.put name v.unsigned (unsignedFields fields) =
      unsignedFields (Fields.put name v fields) := by
  induction fields with
  | nil => rfl
  | cons field rest ih =>
    obtain ⟨key, w⟩ := field
    simp only [unsignedFields, Fields.put, ih]
    split
    · rfl
    · split <;> rfl

theorem ofEntries_unsigned (entries : Fields) :
    Fields.ofEntries (unsignedFields entries) = unsignedFields (Fields.ofEntries entries) := by
  induction entries using List.reverseRecOn with
  | nil => rfl
  | append_singleton entries entry ih =>
    rw [unsignedFields_append, Fields.ofEntries_concat, ← put_unsigned, ← ih]
    exact Fields.ofEntries_concat _ _

mutual

/-- Signs of zeros make no difference to the places of fields. -/
theorem arranged_unsigned : ∀ v : Value, v.unsigned.arranged = v.arranged.unsigned
  | .null | .bool _ | .int _ | .float _ | .str _ => rfl
  | .arr items => by rw [unsigned, arranged, arranged, unsigned, arrangedItems_unsigned items]
  | .obj fields => by
    rw [unsigned, arranged, arranged, unsigned, arrangedFields_unsigned fields, ofEntries_unsigned]

theorem arrangedItems_unsigned : ∀ items : List Value,
    arrangedItems (unsignedItems items) = unsignedItems (arrangedItems items)
  | [] => rfl
  | v :: rest => by
    rw [unsignedItems, arrangedItems, arrangedItems, unsignedItems, arranged_unsigned v,
      arrangedItems_unsigned rest]

theorem arrangedFields_unsigned : ∀ fields : Fields,
    arrangedFields (unsignedFields fields) = unsignedFields (arrangedFields fields)
  | [] => rfl
  | (name, v) :: rest => by
    rw [unsignedFields, arrangedFields, arrangedFields, unsignedFields, arranged_unsigned v,
      arrangedFields_unsigned rest]

end

end Value

namespace Writing

open Value

variable {α : Type}

/-! ### Parts have no zeros with signs -/

@[simp] theorem unsigned_text (name s : String) :
    unsignedFields (text name s) = text name s := rfl

@[simp] theorem unsigned_field (name : String) (v : Value) :
    unsignedFields (field name v) = field name v.unsigned := rfl

@[simp] theorem unsigned_optionalText (name : String) (o : Option String) :
    unsignedFields (optionalText name o) = optionalText name o := by
  cases o <;> rfl

theorem unsigned_list {write : α → Value} (h : ∀ x, (write x).unsigned = write x)
    (items : List α) : (list write items).unsigned = list write items := by
  rw [list, unsigned, unsignedItems_eq_map, List.map_map]
  congr 1
  exact List.map_congr_left fun x _ => h x

theorem unsigned_optionalList {write : α → Value} (h : ∀ x, (write x).unsigned = write x)
    (name : String) (items : List α) :
    unsignedFields (optionalList name write items) = optionalList name write items := by
  unfold optionalList
  split
  · rfl
  · rw [unsigned_field, unsigned_list h]

@[simp] theorem unsigned_strings (name : String) (items : List String) :
    unsignedFields (strings name items) = strings name items :=
  unsigned_optionalList (fun _ => rfl) name items

@[simp] theorem unsigned_obj (fields : Fields) :
    (Value.obj fields).unsigned = .obj (unsignedFields fields) := rfl

theorem unsigned_phase (p : Phase) : (phase p).unsigned = phase p := rfl

theorem unsigned_journeyAction (a : JourneyAction) :
    (journeyAction a).unsigned = journeyAction a := by
  simp [journeyAction, unsigned]

theorem unsigned_lane (l : Lane) : (lane l).unsigned = lane l := rfl

theorem unsigned_task (t : BlueprintTask) : (task t).unsigned = task t := by
  have hmark : unsignedFields (if t.readonly then field "readonly" (.bool true) else []) =
      if t.readonly then field "readonly" (.bool true) else [] := by
    split <;> rfl
  simp [task, hmark]

theorem unsigned_goal (g : Goal) : (goal g).unsigned = goal g := rfl

theorem unsigned_factor (f : SuccessFactor) : (factor f).unsigned = factor f := by
  simp [factor]

theorem unsigned_indicator (i : Indicator) :
    (indicator .float i).unsigned =
      indicator .float { i with target := i.target.unsigned } := by
  simp [indicator, unsigned]

theorem unsigned_enablementOutcome (o : EnablementOutcome) :
    (enablementOutcome o).unsigned = enablementOutcome o := rfl

theorem unsigned_enablementAction (a : EnablementAction) :
    (enablementAction a).unsigned = enablementAction a := rfl

theorem unsigned_learning (l : Learning) : (learning l).unsigned = learning l := rfl

theorem unsigned_skill (s : Skill) : (skill s).unsigned = skill s := by
  simp [skill, unsigned_optionalList unsigned_learning]

theorem unsigned_resource (r : Resource) : (resource r).unsigned = resource r := rfl

end Writing

namespace Document

open Value Writing

variable {settings : Settings} {d e : Document} {v w : Value}

/-- The document without the signs of its zeros. -/
def unsigned : Document → Document
  | .journey d => .journey { d with extra := unsignedFields d.extra }
  | .blueprint d => .blueprint { d with extra := unsignedFields d.extra }
  | .outcome d => .outcome
    { d with
      indicator := { d.indicator with target := d.indicator.target.unsigned }
      extra := unsignedFields d.extra }
  | .enablement d => .enablement { d with extra := unsignedFields d.extra }

@[simp] theorem kind_unsigned (d : Document) : d.unsigned.kind = d.kind := by
  cases d <;> rfl

@[simp] theorem extra_unsigned (d : Document) : d.unsigned.extra = unsignedFields d.extra := by
  cases d <;> rfl

theorem knownFields_unsigned (d : Document) :
    knownFields .float d.unsigned = unsignedFields (knownFields .float d) := by
  cases d with
  | journey d =>
    have hpersona : unsignedFields (d.persona.map fun p => ("persona", persona p)).toList =
        (d.persona.map fun p => ("persona", persona p)).toList := by
      cases d.persona <;> rfl
    simp [unsigned, knownFields, hpersona, unsigned_list unsigned_phase,
      unsigned_list unsigned_journeyAction]
  | blueprint d =>
    simp [unsigned, knownFields, unsigned_list unsigned_lane, unsigned_list unsigned_task]
  | outcome d =>
    simp [unsigned, knownFields, unsigned_goal, unsigned_factor, unsigned_indicator]
  | enablement d =>
    simp [unsigned, knownFields, unsigned_list unsigned_enablementOutcome,
      unsigned_list unsigned_enablementAction, unsigned_optionalList unsigned_skill,
      unsigned_optionalList unsigned_resource]

theorem outline_unsigned (d : Document) : d.unsigned.outline = unsignedFields d.outline := by
  rw [outline, outline, knownFields_unsigned, kind_unsigned, extra_unsigned,
    unsignedFields_append, unsignedFields_append, unsigned_text]

/-- A document stays one that can be loaded. -/
theorem Loadable.unsigned (h : d.Loadable settings) : d.unsigned.Loadable settings where
  scores j hj := by
    cases d with
    | journey d =>
      obtain rfl := Document.journey.inj hj
      exact h.scores d rfl
    | _ => cases hj
  target o ho := by
    cases d with
    | outcome d =>
      obtain rfl := Document.outcome.inj ho
      exact Binary64.isFinite_unsigned (h.target d rfl)
    | _ => cases ho
  version := by
    have hversion : d.unsigned.version = d.version := by
      cases d <;> rfl
    rw [hversion]
    exact h.version
  extra := by
    rw [extra_unsigned, names_unsignedFields, kind_unsigned]
    exact h.extra

/-- Documents are the same if they are equal but for the signs of zeros. -/
theorem same_iff_unsigned (hd : (Value.obj d.extra).Proper) (he : (Value.obj e.extra).Proper)
    (hrd : Reading.InRange d) (hre : Reading.InRange e) :
    d.same e = true ↔ d.unsigned = e.unsigned := by
  have hextra : agreeFields Binary64.same d.extra e.extra = true ↔
      unsignedFields d.extra = unsignedFields e.extra := by
    cases hd with
    | obj _ hd =>
      cases he with
      | obj _ he => exact sameFields_iff_unsigned hd he
  cases d with
  | journey a =>
    cases e with
    | journey b =>
      simp only [Document.extra] at hextra
      simp [same, JourneyMap.same, unsigned, hextra, and_assoc]
    | _ => simp [same, unsigned]
  | blueprint a =>
    cases e with
    | blueprint b =>
      simp only [Document.extra] at hextra
      simp [same, Blueprint.same, unsigned, hextra, and_assoc]
    | _ => simp [same, unsigned]
  | outcome a =>
    cases e with
    | outcome b =>
      simp only [Document.extra] at hextra
      simp [same, Outcome.same, unsigned, hextra, Binary64.same_iff_unsigned hrd.1 hre.1, and_assoc]
    | _ => simp [same, unsigned]
  | enablement a =>
    cases e with
    | enablement b =>
      simp only [Document.extra] at hextra
      simp [same, EnablementMap.same, unsigned, hextra, and_assoc]
    | _ => simp [same, unsigned]

/-- A document that can be loaded is known by its value. -/
theorem eq_of_outline (hd : (Value.obj d.extra).Proper) (he : (Value.obj e.extra).Proper)
    (hld : d.Loadable settings) (hle : e.Loadable settings)
    (h : (Value.obj d.outline).arranged = (Value.obj e.outline).arranged) : d = e := by
  have hload := load_outline hd hld
  rw [h, load_outline he hle] at hload
  exact (Except.ok.inj hload).symm

/-- Two values are loaded as the same document exactly if their normal forms are the same. -/
theorem same_iff_normal (hv : v.Proper) (hw : w.Proper) (hd : load settings v = .ok d)
    (he : load settings w = .ok e) : d.same e = true ↔ (normal v).same (normal w) = true := by
  have hpd := proper_extra_of_load hv hd
  have hpe := proper_extra_of_load hw he
  have hrd := inRange_of_load hv hd
  have hre := inRange_of_load hw he
  have hld := loadable_of_load hv hd
  have hle := loadable_of_load hw he
  have houtline : ∀ x : Document, (Value.obj x.unsigned.outline).arranged =
      (Value.obj x.outline).arranged.unsigned := by
    intro x
    rw [outline_unsigned, ← unsigned_obj, arranged_unsigned]
  have hextra : ∀ x : Document, (Value.obj x.extra).Proper →
      (Value.obj x.unsigned.extra).Proper := by
    intro x hx
    rw [extra_unsigned, ← unsigned_obj]
    exact Sound.unsigned hx
  rw [← toValue_of_load hv hd, ← toValue_of_load hw he, toValue_eq_outline hld.target,
    toValue_eq_outline hle.target, same_iff_unsigned hpd hpe hrd hre, Value.same,
    Value.same_iff_unsigned (sound_outline hpd hrd hld).proper_arranged
      (sound_outline hpe hre hle).proper_arranged, ← houtline, ← houtline]
  constructor
  · intro h
    rw [h]
  · intro h
    exact eq_of_outline (hextra d hpd) (hextra e hpe) hld.unsigned hle.unsigned h

/-- Loading loses nothing of a value but what its normal form leaves out. The value of the document
is the normal form of the value that it was loaded from; a field that the kind does not know is in
it with the value that it had, whatever that is; and two values are loaded as the same document
exactly if their normal forms are the same, with floating numbers compared as numbers. The values
are those that a text can say. -/
theorem load_keeps_normal (settings : Settings) (v : Value) (d : Document) (hv : v.Proper)
    (hd : load settings v = .ok d) :
    d.toValue = normal v ∧
    (∀ name, name ∉ (Form.document d.kind).map (·.name) → d.toValue.get? name = v.get? name) ∧
    ∀ w e, w.Proper → load settings w = .ok e →
      (d.same e = true ↔ (normal v).same (normal w) = true) := by
  have hvalue := toValue_of_load hv hd
  obtain ⟨hvalid, -⟩ := valid_of_load settings hd
  have hk := namedKind_of_conforms ((inspect_valid_iff _ _ _).mp hvalid).1
  refine ⟨hvalue, fun name hn => ?_, fun w e hw he => same_iff_normal hv hw hd he⟩
  rw [hvalue]
  exact get?_normal_of_unknown hv hk hn

/-- A zero and its negative are the same. The task has an unknown colour, and is neither read-only
nor for a journey action; all that is dropped, but the note that the document does not know stays,
null as it is. -/
theorem load_keeps_normal_zeros :
    let v : Bool → Value := fun negative => .obj [("id", .str "b"), ("kind", .str "sbp"),
      ("lanes", .arr []), ("note", .null), ("tasks", .arr [.obj [("colour", .str "red"),
        ("id", .str "t"), ("lane", .str "l"), ("name", .str "T"), ("readonly", .bool false),
        ("source_id", .null)]]), ("version", .str "1.0"), ("weight", .float (.zero negative))]
    ∃ d e, (v true).Proper ∧ (v false).Proper ∧ load .standard (v true) = .ok d ∧
      load .standard (v false) = .ok e ∧ d.same e = true ∧ d ≠ e ∧
      d.toValue = .obj [("id", .str "b"), ("kind", .str "sbp"), ("lanes", .arr []),
        ("note", .null), ("tasks", .arr [.obj [("id", .str "t"), ("lane", .str "l"),
          ("name", .str "T")]]), ("version", .str "1.0"), ("weight", .float (.zero true))] := by
  intro v
  have hproper : ∀ negative, (v negative).Proper := by
    intro negative
    have hzero : (Value.float (.zero negative)).Proper :=
      .float rfl (Binary64.canonical_zero negative)
    have htask : (Value.obj [("colour", .str "red"), ("id", .str "t"), ("lane", .str "l"),
        ("name", .str "T"), ("readonly", .bool false), ("source_id", .null)]).Proper := by
      refine .obj (by decide) ?_
      simp [Sound.str, Sound.bool, Sound.null]
    have hnames :
        ["id", "kind", "lanes", "note", "tasks", "version", "weight"].Pairwise (· < ·) := by
      decide
    refine .obj hnames ?_
    simp only [List.forall_mem_cons, Sound.str, Sound.null, hzero, true_and]
    exact ⟨.arr nofun, .arr (List.forall_mem_singleton.mpr htask), nofun⟩
  have hload : ∀ negative, ∃ d, load .standard (v negative) = .ok d ∧
      d.extra = [("note", .null), ("weight", .float (.zero negative))] := by
    intro negative
    refine ⟨.blueprint ⟨"1.0", "b", [], [⟨"t", "l", "T", none, [], false⟩],
      [("note", .null), ("weight", .float (.zero negative))]⟩, ?_, rfl⟩
    cases negative <;> decide +kernel
  obtain ⟨d, hd, hde⟩ := hload true
  obtain ⟨e, he, hee⟩ := hload false
  obtain ⟨hvalue, -, hsame⟩ := load_keeps_normal .standard (v true) d (hproper true) hd
  refine ⟨d, e, hproper true, hproper false, hd, he, ?_, ?_, ?_⟩
  · exact (hsame (v false) e (hproper false) he).mpr (by decide +kernel)
  · intro h
    rw [h, hee] at hde
    simp [Binary64.zero] at hde
  · rw [hvalue]
    decide +kernel

end Document

end ServiceMaps
