import ServiceMaps.Proofs.Restoring

/-!
What the outline of a document is like. Its fields have different names and sound values. Where it
is read with one text more than it has, the document that comes back is another one: equal documents
have equal texts in their outlines, and a document is never read with texts that are not there.
-/
namespace ServiceMaps

namespace Writing

variable {α : Type}

/-- Fields with some of the given names, in order, and with sound values. -/
structure Tidy (names : List String) (fields : Fields) : Prop where
  names : fields.names.Sublist names
  values : ∀ field ∈ fields, field.2.Sound (· ≠ ·)

theorem tidy_field (name : String) {v : Value} (h : v.Sound (· ≠ ·)) : Tidy [name] (field name v) :=
  ⟨.refl _, by simpa [field] using h⟩

theorem tidy_text (name s : String) : Tidy [name] (text name s) := tidy_field name (.str s)

theorem tidy_nil (names : List String) : Tidy names [] := ⟨List.nil_sublist names, by simp⟩

theorem tidy_optionalText (name : String) (o : Option String) :
    Tidy [name] (optionalText name o) := by
  cases o with
  | none => exact tidy_nil [name]
  | some s => exact tidy_text name s

theorem sound_list {write : α → Value} {items : List α}
    (h : ∀ x ∈ items, (write x).Sound (· ≠ ·)) : (list write items).Sound (· ≠ ·) :=
  .arr (List.forall_mem_map.mpr h)

theorem tidy_optionalList (name : String) {write : α → Value} {items : List α}
    (h : ∀ x ∈ items, (write x).Sound (· ≠ ·)) : Tidy [name] (optionalList name write items) := by
  unfold optionalList
  split
  · exact tidy_nil [name]
  · exact tidy_field name (sound_list h)

theorem tidy_strings (name : String) (items : List String) : Tidy [name] (strings name items) :=
  tidy_optionalList name fun s _ => .str s

theorem Tidy.append {names more : List String} {fields others : Fields} (h : Tidy names fields)
    (h' : Tidy more others) : Tidy (names ++ more) (fields ++ others) where
  names := by
    rw [Fields.names, List.map_append]
    exact h.names.append h'.names
  values field hf := (List.mem_append.mp hf).elim (h.values field) (h'.values field)

theorem Tidy.obj {names : List String} {fields : Fields} (h : Tidy names fields)
    (hn : names.Pairwise (· ≠ ·)) : (Value.obj fields).Sound (· ≠ ·) :=
  .obj (hn.sublist h.names) h.values

theorem sound_persona (p : Persona) : (persona p).Sound (· ≠ ·) :=
  (tidy_text "name" p.name).obj (by decide)

theorem sound_phase (p : Phase) : (phase p).Sound (· ≠ ·) :=
  ((tidy_text "id" p.id).append (tidy_text "name" p.name)).obj (by decide)

theorem sound_journeyAction {a : JourneyAction} (hl : -2 ≤ a.emotionScore)
    (hg : a.emotionScore ≤ 2) : (journeyAction a).Sound (· ≠ ·) := by
  have hscore : (Value.int a.emotionScore).Sound (· ≠ ·) := .int (by omega) (by omega)
  exact ((((((tidy_text "id" a.id).append (tidy_text "name" a.name)).append
    (tidy_text "phase" a.phase)).append (tidy_strings "touchpoints" a.touchpoints)).append
    (tidy_strings "thoughts_feelings" a.thoughtsFeelings)).append
    (tidy_field "emotion_score" hscore)).obj (by decide)

theorem sound_lane (l : Lane) : (lane l).Sound (· ≠ ·) :=
  (((tidy_text "id" l.id).append (tidy_text "name" l.name)).append
    (tidy_text "kind" l.actor.text)).obj (by decide)

theorem sound_task (t : BlueprintTask) : (task t).Sound (· ≠ ·) := by
  have hmark : Tidy ["readonly"] (if t.readonly then field "readonly" (.bool true) else []) := by
    split
    · exact tidy_field "readonly" (.bool true)
    · exact tidy_nil ["readonly"]
  exact ((((((tidy_text "id" t.id).append (tidy_text "lane" t.lane)).append
    (tidy_text "name" t.name)).append (tidy_optionalText "source_id" t.source)).append
    (tidy_strings "link_to" t.links)).append hmark).obj (by decide)

theorem sound_goal (g : Goal) : (goal g).Sound (· ≠ ·) :=
  ((tidy_text "id" g.id).append (tidy_text "name" g.name)).obj (by decide)

theorem sound_factor (f : SuccessFactor) : (factor f).Sound (· ≠ ·) :=
  ((((tidy_text "id" f.id).append (tidy_text "kgi_id" f.goal)).append
    (tidy_optionalText "source_id" f.source)).append
    (tidy_text "rationale" f.rationale)).obj (by decide)

theorem sound_indicator {i : Indicator} (hf : i.target.isFinite = true) (hc : i.target.Canonical) :
    (indicator .float i).Sound (· ≠ ·) :=
  ((((((tidy_text "id" i.id).append (tidy_text "csf_id" i.factor)).append
    (tidy_text "name" i.name)).append (tidy_optionalText "definition" i.definition)).append
    (tidy_optionalText "unit" i.unit)).append (tidy_field "target" (.float hf hc))).obj (by decide)

theorem sound_enablementOutcome (o : EnablementOutcome) : (enablementOutcome o).Sound (· ≠ ·) :=
  ((tidy_text "id" o.id).append (tidy_text "source_id" o.source)).obj (by decide)

theorem sound_enablementAction (a : EnablementAction) : (enablementAction a).Sound (· ≠ ·) :=
  (((tidy_text "id" a.id).append (tidy_text "name" a.name)).append
    (tidy_text "source_id" a.source)).obj (by decide)

theorem sound_learning (l : Learning) : (learning l).Sound (· ≠ ·) :=
  ((tidy_text "title" l.title).append (tidy_text "url" l.url)).obj (by decide)

theorem sound_skill (s : Skill) : (skill s).Sound (· ≠ ·) :=
  ((((tidy_text "id" s.id).append (tidy_text "name" s.name)).append
    (tidy_text "action_id" s.action)).append
    (tidy_optionalList "learnings" fun l _ => sound_learning l)).obj (by decide)

theorem sound_resource (r : Resource) : (resource r).Sound (· ≠ ·) :=
  ((((tidy_text "id" r.id).append (tidy_text "name" r.name)).append
    (tidy_text "action_id" r.action)).append (tidy_text "url" r.url)).obj (by decide)

/-- The known fields of a document with its numbers in range. -/
theorem tidy_knownFields {d : Document} (h : Reading.InRange d) :
    Tidy (Reading.known d.kind) (knownFields .float d) := by
  cases d with
  | journey d =>
    have hpersona : Tidy ["persona"] (d.persona.map fun p => ("persona", persona p)).toList := by
      cases d.persona with
      | none => exact tidy_nil ["persona"]
      | some p => exact tidy_field "persona" (sound_persona p)
    exact ((((tidy_text "version" d.version).append (tidy_text "id" d.id)).append hpersona).append
      (tidy_field "phases" (sound_list fun p _ => sound_phase p))).append
      (tidy_field "actions" (sound_list fun a ha => sound_journeyAction (h a ha).1 (h a ha).2))
  | blueprint d =>
    exact (((tidy_text "version" d.version).append (tidy_text "id" d.id)).append
      (tidy_field "lanes" (sound_list fun l _ => sound_lane l))).append
      (tidy_field "tasks" (sound_list fun t _ => sound_task t))
  | outcome d =>
    exact ((((tidy_text "version" d.version).append (tidy_text "id" d.id)).append
      (tidy_field "kgi" (sound_goal d.goal))).append
      (tidy_field "primary_csf" (sound_factor d.factor))).append
      (tidy_field "primary_kpi" (sound_indicator h.1 h.2))
  | enablement d =>
    exact ((((((tidy_text "version" d.version).append (tidy_text "id" d.id)).append
      (tidy_field "outcomes" (sound_list fun o _ => sound_enablementOutcome o))).append
      (tidy_field "actions" (sound_list fun a _ => sound_enablementAction a))).append
      (tidy_optionalList "skills" fun s _ => sound_skill s)).append
      (tidy_optionalList "knowledge" fun r _ => sound_resource r)).append
      (tidy_optionalList "tools" fun r _ => sound_resource r)

end Writing

namespace Value

variable {floats : Binary64 → Binary64 → Bool}

mutual

/-- A comparison may be replaced by one that holds of more. -/
theorem agree_mono {more : Binary64 → Binary64 → Bool} (hm : ∀ x y, floats x y → more x y) :
    ∀ {a b : Value}, agree floats a b = true → agree more a b = true
  | .null, .null, _ => rfl
  | .bool _, .bool _, h | .int _, .int _, h | .str _, .str _, h => h
  | .float x, .float y, h => hm x y h
  | .arr _, .arr _, h => agreeItems_mono hm h
  | .obj _, .obj _, h => agreeFields_mono hm h

theorem agreeItems_mono {more : Binary64 → Binary64 → Bool} (hm : ∀ x y, floats x y → more x y) :
    ∀ {xs ys : List Value}, agreeItems floats xs ys = true → agreeItems more xs ys = true
  | [], [], _ => rfl
  | x :: xs, y :: ys, h => by
    simp only [agreeItems, Bool.and_eq_true] at h ⊢
    exact ⟨agree_mono hm h.1, agreeItems_mono hm h.2⟩

theorem agreeFields_mono {more : Binary64 → Binary64 → Bool} (hm : ∀ x y, floats x y → more x y) :
    ∀ {xs ys : Fields}, agreeFields floats xs ys = true → agreeFields more xs ys = true
  | [], [], _ => rfl
  | (a, x) :: xs, (b, y) :: ys, h => by
    simp only [agreeFields, Bool.and_eq_true] at h ⊢
    exact ⟨⟨h.1.1, agree_mono hm h.1.2⟩, agreeFields_mono hm h.2⟩

end

theorem agreeFields_append {fields more others rest : Fields}
    (h : agreeFields floats fields others = true) (h' : agreeFields floats more rest = true) :
    agreeFields floats (fields ++ more) (others ++ rest) = true := by
  induction fields generalizing others with
  | nil =>
    cases others with
    | nil => exact h'
    | cons entry others => simp [agreeFields] at h
  | cons entry fields ih =>
    cases others with
    | nil => simp [agreeFields] at h
    | cons entry' others =>
      simp only [agreeFields, List.cons_append, Bool.and_eq_true] at h ⊢
      exact ⟨h.1, ih h.2⟩

mutual

/-- Values that agree have the same texts. -/
theorem Keeps.of_agree : ∀ {a b v : Value}, agree floats a b = true → b.Keeps v → a.Keeps v
  | .null, .null, _, _, _ | .bool _, .bool _, _, _, _ | .int _, .int _, _, _, _
  | .float _, .float _, _, _, _ => trivial
  | .str s, .str t, v, h, hk => by
    obtain rfl : s = t := by simpa [agree] using h
    exact hk
  | .arr xs, .arr ys, v, h, ⟨found, hv, hk⟩ => ⟨found, hv, KeepsItems.of_agree h hk⟩
  | .obj xs, .obj ys, v, h, ⟨found, hv, hk⟩ => ⟨found, hv, KeepsFields.of_agree h hk⟩

theorem KeepsItems.of_agree : ∀ {xs ys found : List Value}, agreeItems floats xs ys = true →
    KeepsItems ys found → KeepsItems xs found
  | [], [], _, _, hk => hk
  | x :: xs, y :: ys, found, h, ⟨w, more, hf, hw, hmore⟩ => by
    simp only [agreeItems, Bool.and_eq_true] at h
    exact ⟨w, more, hf, Keeps.of_agree h.1 hw, KeepsItems.of_agree h.2 hmore⟩

theorem KeepsFields.of_agree : ∀ {xs ys found : Fields}, agreeFields floats xs ys = true →
    KeepsFields ys found → KeepsFields xs found
  | [], [], _, _, _ => trivial
  | (a, x) :: xs, (b, y) :: ys, found, h, ⟨⟨w, hw, hk⟩, hmore⟩ => by
    simp only [agreeFields, Bool.and_eq_true, beq_iff_eq] at h
    obtain ⟨⟨rfl, hxy⟩, hrest⟩ := h
    exact ⟨⟨w, hw, Keeps.of_agree hxy hk⟩, KeepsFields.of_agree hrest hmore⟩

end

/-- Fields that are found under their names keep their own texts. -/
theorem keepsFields_of_get? {fields found : Fields}
    (h : ∀ field ∈ fields, found.get? field.1 = some field.2 ∧ field.2.Keeps field.2) :
    KeepsFields fields found := by
  induction fields with
  | nil => trivial
  | cons field rest ih =>
    obtain ⟨⟨hfound, hkeeps⟩, hrest⟩ := List.forall_mem_cons.mp h
    exact ⟨⟨field.2, hfound, hkeeps⟩, ih hrest⟩

theorem keepsItems_self {items : List Value} (h : ∀ v ∈ items, v.Keeps v) :
    KeepsItems items items := by
  induction items with
  | nil => rfl
  | cons v rest ih =>
    obtain ⟨hv, hrest⟩ := List.forall_mem_cons.mp h
    exact ⟨v, rest, rfl, hv, ih hrest⟩

/-- A proper value keeps its own texts. -/
theorem Proper.keeps_self {v : Value} (h : v.Proper) : v.Keeps v := by
  induction h with
  | null | bool | int | float => trivial
  | str => rfl
  | arr _ ih => exact ⟨_, rfl, keepsItems_self ih⟩
  | obj hn _ ih =>
    have hasc : Fields.Ascending _ := hn
    exact ⟨_, rfl, keepsFields_of_get? fun field hf => ⟨hasc.get?_of_mem hf, ih field hf⟩⟩

theorem same_of_isFinite {x : Binary64} (h : x.isFinite = true) : x.same x = true := by
  cases x with
  | finite => simp [Binary64.same]
  | infinite | nan => simp [Binary64.isFinite] at h

/-- A value with finite numbers equals itself. -/
theorem Sound.same_self {r : String → String → Prop} {v : Value} (h : Sound r v) :
    same v v = true := by
  have hitems : ∀ {items : List Value}, (∀ v ∈ items, same v v = true) →
      agreeItems Binary64.same items items = true := by
    intro items
    induction items with
    | nil => exact fun _ => rfl
    | cons v rest ih =>
      intro h
      obtain ⟨hv, hrest⟩ := List.forall_mem_cons.mp h
      exact Bool.and_eq_true_iff.mpr ⟨hv, ih hrest⟩
  have hfields : ∀ {fields : Fields}, (∀ field ∈ fields, same field.2 field.2 = true) →
      agreeFields Binary64.same fields fields = true := by
    intro fields
    induction fields with
    | nil => exact fun _ => rfl
    | cons field rest ih =>
      intro h
      obtain ⟨hv, hrest⟩ := List.forall_mem_cons.mp h
      have hv' : agree Binary64.same field.2 field.2 = true := hv
      simp [agreeFields, hv', ih hrest]
  induction h with
  | null => rfl
  | bool b => simp [same, agree]
  | int => simp [same, agree]
  | float hf _ => exact same_of_isFinite hf
  | str s => simp [same, agree]
  | arr _ ih => exact hitems ih
  | obj _ _ ih => exact hfields ih

end Value

namespace Document

variable {settings : Settings} {d d' : Document}

/-- Equality of documents, with floating numbers compared as numbers. -/
def same : Document → Document → Bool
  | .journey a, .journey b => a.same b
  | .blueprint a, .blueprint b => a.same b
  | .outcome a, .outcome b => a.same b
  | .enablement a, .enablement b => a.same b
  | _, _ => false

/-- A document with finite numbers equals itself. -/
theorem same_self (hp : (Value.obj d.extra).Proper) (hr : Reading.InRange d) :
    d.same d = true := by
  have hextra : Value.agreeFields Binary64.same d.extra d.extra = true := Value.Sound.same_self hp
  cases d with
  | journey d => exact Bool.and_eq_true_iff.mpr ⟨beq_self_eq_true _, hextra⟩
  | blueprint d => exact Bool.and_eq_true_iff.mpr ⟨beq_self_eq_true _, hextra⟩
  | outcome d =>
    have htarget := Value.same_of_isFinite hr.1
    exact Bool.and_eq_true_iff.mpr
      ⟨Bool.and_eq_true_iff.mpr ⟨beq_self_eq_true _, htarget⟩, hextra⟩
  | enablement d => exact Bool.and_eq_true_iff.mpr ⟨beq_self_eq_true _, hextra⟩

/-- The outline of a document that is loaded has different names and sound values. -/
theorem sound_outline (hp : (Value.obj d.extra).Proper) (hr : Reading.InRange d)
    (h : d.Loadable settings) : (Value.obj d.outline).Sound (· ≠ ·) := by
  obtain ⟨hasc, hvalues⟩ : Fields.Ascending d.extra ∧ ∀ entry ∈ d.extra, entry.2.Proper := by
    cases hp with
    | obj hn hv => exact ⟨hn, hv⟩
  have hne : ∀ a b : String, a < b → a ≠ b := fun _ _ => ne_of_lt
  have hknown : Writing.Tidy ("kind" :: Reading.known d.kind)
      (Writing.text "kind" d.kind.text ++ Writing.knownFields .float d) :=
    (Writing.tidy_text "kind" d.kind.text).append (Writing.tidy_knownFields hr)
  have hnames : ∀ k : Kind, ("kind" :: Reading.known k).Pairwise (· ≠ ·) := by
    intro k
    cases k <;> decide
  refine .obj ?_ fun field hf => ?_
  · rw [outline, List.map_append, List.pairwise_append]
    refine ⟨(hnames d.kind).sublist hknown.names, hasc.imp (hne _ _), fun a ha b hb => ?_⟩
    rintro rfl
    obtain ⟨hkind, hnot⟩ := h.extra a hb
    rcases List.mem_cons.mp (hknown.names.subset ha) with rfl | hk
    · exact hkind rfl
    · exact hnot hk
  · rcases List.mem_append.mp hf with hf | hf
    · exact hknown.values field hf
    · exact (hvalues field hf).mono hne

theorem outline_ne_nil (d : Document) : d.outline ≠ [] := by
  simp [outline, Writing.text, Writing.field]

/-- Indicators that differ in their targets have the same texts. -/
theorem agree_indicator {i j : Indicator}
    (h : { i with target := Binary64.nan } = { j with target := Binary64.nan }) :
    Value.agree (fun _ _ => true) (Writing.indicator .float i) (Writing.indicator .float j) =
      true := by
  obtain ⟨id, factor, name, definition, unit, x⟩ := i
  obtain ⟨id', factor', name', definition', unit', y⟩ := j
  simp only [Indicator.mk.injEq, and_true] at h
  obtain ⟨rfl, rfl, rfl, rfl, rfl⟩ := h
  exact Value.agreeFields_append (Value.agreeFields_refl (fun _ => rfl) _) rfl

/-- Equal documents are of one kind, their known fields have the same texts, and the rest is
equal. -/
theorem parts_of_same (h : same d d' = true) : d.kind = d'.kind ∧
    Value.agreeFields (fun _ _ => true) (Writing.knownFields .float d)
      (Writing.knownFields .float d') = true ∧
    Value.agreeFields Binary64.same d.extra d'.extra = true := by
  have hrefl : ∀ {fields others : Fields}, fields = others →
      Value.agreeFields (fun _ _ => true) fields others = true := by
    rintro fields _ rfl
    exact Value.agreeFields_refl (fun _ => rfl) fields
  cases d <;> cases d' <;> simp only [same, Bool.false_eq_true] at h
  case journey.journey a b =>
    simp only [JourneyMap.same, Bool.and_eq_true, beq_iff_eq] at h
    have hknown := congrArg (fun j => Writing.knownFields Value.float (.journey j)) h.1
    exact ⟨rfl, hrefl hknown, h.2⟩
  case blueprint.blueprint a b =>
    simp only [Blueprint.same, Bool.and_eq_true, beq_iff_eq] at h
    have hknown := congrArg (fun j => Writing.knownFields Value.float (.blueprint j)) h.1
    exact ⟨rfl, hrefl hknown, h.2⟩
  case outcome.outcome a b =>
    simp only [Outcome.same, Bool.and_eq_true, beq_iff_eq] at h
    obtain ⟨⟨hparts, -⟩, hextra⟩ := h
    simp only [Outcome.mk.injEq, and_true] at hparts
    obtain ⟨hversion, hid, hgoal, hfactor, hindicator⟩ := hparts
    refine ⟨rfl, ?_, hextra⟩
    simp only [Writing.knownFields, hversion, hid, hgoal, hfactor]
    refine Value.agreeFields_append (hrefl rfl) ?_
    simp [Writing.field, Value.agreeFields, agree_indicator hindicator]
  case enablement.enablement a b =>
    simp only [EnablementMap.same, Bool.and_eq_true, beq_iff_eq] at h
    have hknown := congrArg (fun j => Writing.knownFields Value.float (.enablement j)) h.1
    exact ⟨rfl, hrefl hknown, h.2⟩

/-- Equal documents have the same texts in their outlines. -/
theorem agree_outline_of_same (h : same d d' = true) :
    Value.agreeFields (fun _ _ => true) d.outline d'.outline = true := by
  obtain ⟨hkind, hknown, hextra⟩ := parts_of_same h
  have hmore : ∀ x y, Binary64.same x y = true → true = true := fun _ _ _ => rfl
  rw [outline, outline, hkind]
  exact Value.agreeFields_append
    (Value.agreeFields_append (Value.agreeFields_refl (fun _ => rfl) _) hknown)
    (Value.agreeFields_mono hmore hextra)

end Document

end ServiceMaps
