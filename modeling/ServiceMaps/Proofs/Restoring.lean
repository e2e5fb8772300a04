import ServiceMaps.Proofs.Loading

/-!
What was written is restored. The value of a part, with its fields put in their places, has the
form of that part and is read as the part again. The fields of a part are looked up from the end,
where the entry that stays is the first to be found.
-/
namespace ServiceMaps

namespace Fields

/-- The value that a name has once the fields are put in their places. -/
def last? (name : String) (fields : Fields) : Option Value := get? name fields.reverse

/-- The fields of an object put in their places. -/
def placed (fields : Fields) : Fields := ofEntries (Value.arrangedFields fields)

theorem get?_placed (name : String) (fields : Fields) :
    get? name (placed fields) = (last? name fields).map Value.arranged :=
  Value.get?_arranged_obj name fields

@[simp] theorem last?_nil (name : String) : last? name [] = none := rfl

@[simp] theorem last?_append (name : String) (fields more : Fields) :
    last? name (fields ++ more) = (last? name more).or (last? name fields) := by
  rw [last?, List.reverse_append, get?_append, last?, last?]

@[simp] theorem last?_field (name key : String) (v : Value) :
    last? name (Writing.field key v) = if key = name then some v else none := by
  simp [last?, Writing.field, get?_cons]

@[simp] theorem last?_text (name key s : String) :
    last? name (Writing.text key s) = if key = name then some (.str s) else none :=
  last?_field name key _

@[simp] theorem last?_optionalText (name key : String) (o : Option String) :
    last? name (Writing.optionalText key o) = if key = name then o.map .str else none := by
  cases o <;> simp [Writing.optionalText]

@[simp] theorem last?_optionalList {α : Type} (name key : String) (write : α → Value)
    (items : List α) : last? name (Writing.optionalList key write items) =
      if key = name ∧ items ≠ [] then some (Writing.list write items) else none := by
  cases items <;> simp [Writing.optionalList]

@[simp] theorem last?_strings (name key : String) (items : List String) :
    last? name (Writing.strings key items) =
      if key = name ∧ items ≠ [] then some (Writing.list .str items) else none :=
  last?_optionalList name key _ items

@[simp] theorem last?_ite (name : String) (b : Bool) (fields : Fields) :
    last? name (if b then fields else []) = if b then last? name fields else none := by
  cases b <;> rfl

@[simp] theorem last?_toList {α : Type} (name key : String) (write : α → Value) (o : Option α) :
    last? name (o.map fun x => (key, write x)).toList =
      if key = name then o.map write else none := by
  cases o <;> simp [last?, get?_cons]

theorem last?_eq_none_iff {name : String} {fields : Fields} :
    last? name fields = none ↔ name ∉ fields.names := by
  rw [last?, get?_eq_none_iff, names, List.map_reverse, List.mem_reverse, names]

end Fields

namespace Reading

open Value Fields

variable {α : Type} {form : Form} {read : Value → Read α} {write : α → Value}

/-- What was written as a part in a field is of its form, and is read as the part again. -/
def Restores (form : Form) (read : Value → Read α) (write : α → Value) (x : α) : Prop :=
  form.Conforms (write x).arranged ∧ read (write x).arranged = .ok x

theorem restores_string (s : String) : Restores .string string .str s := ⟨⟨s, rfl⟩, rfl⟩

theorem restores_list {xs : List α} (h : ∀ x ∈ xs, Restores form read write x) :
    Restores (.list form) (list read) (Writing.list write) xs := by
  constructor
  · refine ⟨_, arranged_arr _, fun v hv => ?_⟩
    obtain ⟨w, hw, rfl⟩ := List.mem_map.mp hv
    obtain ⟨x, hx, rfl⟩ := List.mem_map.mp hw
    exact (h x hx).1
  · rw [Writing.list, arranged_arr, list]
    induction xs with
    | nil => rfl
    | cons x rest ih =>
      have hr := ih fun y hy => h y (List.mem_cons_of_mem _ hy)
      simp only [List.map_cons, List.mapM_cons, (h x (by simp)).2, hr, bind, Except.bind, pure,
        Except.pure]

theorem required_restores {x : α} (h : Restores form read write x) {name : String} {fields : Fields}
    (hf : fields.get? name = some (write x).arranged) :
    (∃ v, fields.get? name = some v ∧ form.Conforms v) ∧ required name read fields = .ok x :=
  ⟨⟨_, hf, h.1⟩, by simp only [required, hf, h.2]⟩

theorem text_restores {s name : String} {fields : Fields} (hf : fields.get? name = some (.str s)) :
    (∃ v, fields.get? name = some v ∧ Form.string.Conforms v) ∧
      required name string fields = .ok s :=
  required_restores (restores_string s) hf

/-- A field that is left out or written is read as absent or as what was written. -/
theorem optional_restores {o : Option α} (h : ∀ x ∈ o, Restores form read write x) {name : String}
    {fields : Fields} (hf : fields.get? name = o.map fun x => (write x).arranged) :
    (fields.get? name = none ∨ fields.get? name = some .null ∨
        ∃ v, fields.get? name = some v ∧ form.Conforms v) ∧
      optional name read fields = .ok o := by
  cases o with
  | none => exact ⟨.inl hf, by simp [optional, present, hf, bind, Except.bind, pure, Except.pure]⟩
  | some x =>
    obtain ⟨hc, hr⟩ := h x rfl
    have hnull : nullable read (write x).arranged = .ok (some x) := by
      cases hw : (write x).arranged with
      | null => exact absurd (hw ▸ hc) (Form.not_conforms_null form)
      | _ => simp [nullable, ← hw, hr, Functor.map, Except.map]
    refine ⟨.inr (.inr ⟨_, hf, hc⟩), ?_⟩
    simp [optional, present, hf, hnull, Functor.map, Except.map, bind, Except.bind, pure,
      Except.pure]

theorem optionalText_restores {o : Option String} {name : String} {fields : Fields}
    (hf : fields.get? name = o.map .str) :
    (fields.get? name = none ∨ fields.get? name = some .null ∨
        ∃ v, fields.get? name = some v ∧ Form.string.Conforms v) ∧
      optional name string fields = .ok o :=
  optional_restores (fun s _ => restores_string s) hf

/-- A list that is left out when nothing is in it is read as the same list. -/
theorem optionalList_restores {xs : List α} (h : ∀ x ∈ xs, Restores form read write x)
    {name : String} {fields : Fields}
    (hf : fields.get? name =
      (if xs = [] then none else some (Writing.list write xs)).map arranged) :
    (fields.get? name = none ∨ fields.get? name = some .null ∨
        ∃ v, fields.get? name = some v ∧ (Form.list form).Conforms v) ∧
      withDefault [] name (list read) fields = .ok xs := by
  by_cases hx : xs = []
  · subst hx
    exact ⟨.inl hf, by simp [withDefault, optional, present, hf, bind, Except.bind, pure,
      Except.pure]⟩
  · have hs : fields.get? name = (some xs).map fun ys => (Writing.list write ys).arranged := by
      simpa [hx] using hf
    obtain ⟨hc, hr⟩ := optional_restores (fun ys hy => Option.some.inj hy ▸ restores_list h) hs
    exact ⟨hc, by simp only [withDefault, hr, bind, Except.bind, pure, Except.pure,
      Option.getD_some]⟩

/-- A part is restored if its fields are, wherever they have been put. -/
theorem restores_record {members : List (Member Form)} {names : List String}
    {read : Fields → Read α} {entries : Fields} {x : α} (hw : write x = .obj entries)
    (h : ∀ fields : Fields, (∀ name, fields.get? name = (last? name entries).map arranged) →
      Form.MembersConform members fields ∧ read fields = .ok x) :
    Restores (.record members) (part names read) write x := by
  obtain ⟨hm, hr⟩ := h (placed entries) fun name => get?_placed name entries
  unfold Restores
  rw [hw]
  exact ⟨⟨_, rfl, hm⟩, hr⟩

theorem restores_persona (p : Persona) :
    Restores (.record (Form.texts ["name"])) persona Writing.persona p := by
  refine restores_record rfl fun fields hf => ?_
  have hname : fields.get? "name" = some (.str p.name) := by simp [hf, arranged]
  obtain ⟨cname, hname⟩ := text_restores hname
  constructor
  · simp only [Form.texts, List.map, Form.membersConform_required]
    exact ⟨cname, trivial⟩
  · simp only [hname, bind, Except.bind, pure, Except.pure]

theorem restores_phase (p : Phase) :
    Restores (.record (Form.texts ["id", "name"])) phase Writing.phase p := by
  refine restores_record rfl fun fields hf => ?_
  have hid : fields.get? "id" = some (.str p.id) := by simp [hf, arranged]
  obtain ⟨cid, hid⟩ := text_restores hid
  have hname : fields.get? "name" = some (.str p.name) := by simp [hf, arranged]
  obtain ⟨cname, hname⟩ := text_restores hname
  constructor
  · simp only [Form.texts, List.map, Form.membersConform_required]
    exact ⟨cid, cname, trivial⟩
  · simp only [hid, hname, bind, Except.bind, pure, Except.pure]

theorem restores_goal (g : Goal) :
    Restores (.record (Form.texts ["id", "name"])) goal Writing.goal g := by
  refine restores_record rfl fun fields hf => ?_
  have hid : fields.get? "id" = some (.str g.id) := by simp [hf, arranged]
  obtain ⟨cid, hid⟩ := text_restores hid
  have hname : fields.get? "name" = some (.str g.name) := by simp [hf, arranged]
  obtain ⟨cname, hname⟩ := text_restores hname
  constructor
  · simp only [Form.texts, List.map, Form.membersConform_required]
    exact ⟨cid, cname, trivial⟩
  · simp only [hid, hname, bind, Except.bind, pure, Except.pure]

theorem restores_enablementOutcome (o : EnablementOutcome) :
    Restores (.record (Form.texts ["id", "source_id"])) enablementOutcome Writing.enablementOutcome
      o := by
  refine restores_record rfl fun fields hf => ?_
  have hid : fields.get? "id" = some (.str o.id) := by simp [hf, arranged]
  obtain ⟨cid, hid⟩ := text_restores hid
  have hsource : fields.get? "source_id" = some (.str o.source) := by simp [hf, arranged]
  obtain ⟨csource, hsource⟩ := text_restores hsource
  constructor
  · simp only [Form.texts, List.map, Form.membersConform_required]
    exact ⟨cid, csource, trivial⟩
  · simp only [hid, hsource, bind, Except.bind, pure, Except.pure]

theorem restores_enablementAction (a : EnablementAction) :
    Restores (.record (Form.texts ["id", "name", "source_id"])) enablementAction
      Writing.enablementAction a := by
  refine restores_record rfl fun fields hf => ?_
  have hid : fields.get? "id" = some (.str a.id) := by simp [hf, arranged]
  obtain ⟨cid, hid⟩ := text_restores hid
  have hname : fields.get? "name" = some (.str a.name) := by simp [hf, arranged]
  obtain ⟨cname, hname⟩ := text_restores hname
  have hsource : fields.get? "source_id" = some (.str a.source) := by simp [hf, arranged]
  obtain ⟨csource, hsource⟩ := text_restores hsource
  constructor
  · simp only [Form.texts, List.map, Form.membersConform_required]
    exact ⟨cid, cname, csource, trivial⟩
  · simp only [hid, hname, hsource, bind, Except.bind, pure, Except.pure]

theorem restores_learning (l : Learning) :
    Restores (.record (Form.texts ["title", "url"])) learning Writing.learning l := by
  refine restores_record rfl fun fields hf => ?_
  have htitle : fields.get? "title" = some (.str l.title) := by simp [hf, arranged]
  obtain ⟨ctitle, htitle⟩ := text_restores htitle
  have hurl : fields.get? "url" = some (.str l.url) := by simp [hf, arranged]
  obtain ⟨curl, hurl⟩ := text_restores hurl
  constructor
  · simp only [Form.texts, List.map, Form.membersConform_required]
    exact ⟨ctitle, curl, trivial⟩
  · simp only [htitle, hurl, bind, Except.bind, pure, Except.pure]

theorem restores_resource (r : Resource) :
    Restores (.record (Form.texts ["id", "name", "action_id", "url"])) resource Writing.resource
      r := by
  refine restores_record rfl fun fields hf => ?_
  have hid : fields.get? "id" = some (.str r.id) := by simp [hf, arranged]
  obtain ⟨cid, hid⟩ := text_restores hid
  have hname : fields.get? "name" = some (.str r.name) := by simp [hf, arranged]
  obtain ⟨cname, hname⟩ := text_restores hname
  have haction : fields.get? "action_id" = some (.str r.action) := by simp [hf, arranged]
  obtain ⟨caction, haction⟩ := text_restores haction
  have hurl : fields.get? "url" = some (.str r.url) := by simp [hf, arranged]
  obtain ⟨curl, hurl⟩ := text_restores hurl
  constructor
  · simp only [Form.texts, List.map, Form.membersConform_required]
    exact ⟨cid, cname, caction, curl, trivial⟩
  · simp only [hid, hname, haction, hurl, bind, Except.bind, pure, Except.pure]

theorem restores_actor (a : Actor) :
    Restores (.choice (Actor.all.map Actor.text)) actor (fun a => .str a.text) a := by
  refine ⟨⟨a.text, List.mem_map_of_mem ?_, rfl⟩, ?_⟩
  · cases a <;> decide
  · simp only [arranged, actor, actor.ofName, Actor.ofText?_text]

theorem restores_lane (l : Lane) : Restores (.record Form.lane) lane Writing.lane l := by
  refine restores_record rfl fun fields hf => ?_
  have hid : fields.get? "id" = some (.str l.id) := by simp [hf, arranged]
  obtain ⟨cid, hid⟩ := text_restores hid
  have hname : fields.get? "name" = some (.str l.name) := by simp [hf, arranged]
  obtain ⟨cname, hname⟩ := text_restores hname
  have hactor : fields.get? "kind" = some (Value.arranged (.str l.actor.text)) := by simp [hf]
  obtain ⟨cactor, hactor⟩ := required_restores (restores_actor l.actor) hactor
  constructor
  · simp only [Form.lane, Form.membersConform_required]
    exact ⟨cid, cname, cactor, trivial⟩
  · simp only [hid, hname, hactor, bind, Except.bind, pure, Except.pure]

/-- A mark that is not set is not written. -/
theorem restores_mark {b : Bool} {name : String} {fields : Fields}
    (hf : fields.get? name = if b then some (.bool true) else none) :
    (fields.get? name = none ∨ fields.get? name = some .null ∨
        ∃ v, fields.get? name = some v ∧ Form.boolean.Conforms v) ∧
      withDefault false name boolean fields = .ok b := by
  have h : ∀ o : Option Bool, fields.get? name = o.map .bool →
      (fields.get? name = none ∨ fields.get? name = some .null ∨
        ∃ v, fields.get? name = some v ∧ Form.boolean.Conforms v) ∧
      withDefault false name boolean fields = .ok (o.getD false) := by
    intro o ho
    have hwritten : ∀ c ∈ o, Restores .boolean boolean .bool c := fun c _ => ⟨⟨c, rfl⟩, rfl⟩
    obtain ⟨hc, hr⟩ := optional_restores hwritten ho
    exact ⟨hc, by simp only [withDefault, hr, bind, Except.bind, pure, Except.pure]⟩
  cases b with
  | false => exact h none hf
  | true => exact h (some true) hf

theorem restores_task (t : BlueprintTask) : Restores (.record Form.task) task Writing.task t := by
  refine restores_record rfl fun fields hf => ?_
  have hid : fields.get? "id" = some (.str t.id) := by simp [hf, arranged]
  obtain ⟨cid, hid⟩ := text_restores hid
  have hlane : fields.get? "lane" = some (.str t.lane) := by simp [hf, arranged]
  obtain ⟨clane, hlane⟩ := text_restores hlane
  have hname : fields.get? "name" = some (.str t.name) := by simp [hf, arranged]
  obtain ⟨cname, hname⟩ := text_restores hname
  have hsource : fields.get? "source_id" = t.source.map .str := by
    simp [hf, Function.comp_def, arranged]
  obtain ⟨csource, hsource⟩ := optionalText_restores hsource
  have hlinks : fields.get? "link_to" =
      (if t.links = [] then none else some (Writing.list .str t.links)).map arranged := by
    simp [hf, Writing.strings]
  obtain ⟨clinks, hlinks⟩ := optionalList_restores (fun s _ => restores_string s) hlinks
  have hreadonly : fields.get? "readonly" = if t.readonly then some (.bool true) else none := by
    cases hr : t.readonly <;> simp [hf, Writing.strings, hr, arranged]
  obtain ⟨creadonly, hreadonly⟩ := restores_mark hreadonly
  constructor
  · simp only [Form.task, Form.membersConform_required, Form.membersConform_optional]
    exact ⟨cid, clane, cname, csource, clinks, creadonly, trivial⟩
  · simp only [hid, hlane, hname, hsource, hlinks, hreadonly, bind, Except.bind, pure, Except.pure]

/-- A success factor is written with its rationale, even an empty one. -/
theorem restores_factor (f : SuccessFactor) :
    Restores (.record Form.factor) factor Writing.factor f := by
  refine restores_record rfl fun fields hf => ?_
  have hid : fields.get? "id" = some (.str f.id) := by simp [hf, arranged]
  obtain ⟨cid, hid⟩ := text_restores hid
  have hgoal : fields.get? "kgi_id" = some (.str f.goal) := by simp [hf, arranged]
  obtain ⟨cgoal, hgoal⟩ := text_restores hgoal
  have hsource : fields.get? "source_id" = f.source.map .str := by
    simp [hf, Function.comp_def, arranged]
  obtain ⟨csource, hsource⟩ := optionalText_restores hsource
  have hrationale : fields.get? "rationale" = some (.str f.rationale) := by simp [hf, arranged]
  constructor
  · simp only [Form.factor, Form.membersConform_required, Form.membersConform_optional]
    exact ⟨cid, cgoal, csource, ⟨_, hrationale, _, rfl⟩, trivial⟩
  · simp only [hid, hgoal, hsource, present, hrationale, string, Functor.map, Except.map, bind,
      Except.bind, pure, Except.pure, Option.getD_some]

/-- A target is written as the floating number that it is. -/
theorem restores_indicator (i : Indicator) :
    Restores (.record Form.indicator) indicator (Writing.indicator .float) i := by
  refine restores_record rfl fun fields hf => ?_
  have hid : fields.get? "id" = some (.str i.id) := by simp [hf, arranged]
  obtain ⟨cid, hid⟩ := text_restores hid
  have hfactor : fields.get? "csf_id" = some (.str i.factor) := by simp [hf, arranged]
  obtain ⟨cfactor, hfactor⟩ := text_restores hfactor
  have hname : fields.get? "name" = some (.str i.name) := by simp [hf, arranged]
  obtain ⟨cname, hname⟩ := text_restores hname
  have hdefinition : fields.get? "definition" = i.definition.map .str := by
    simp [hf, Function.comp_def, arranged]
  obtain ⟨cdefinition, hdefinition⟩ := optionalText_restores hdefinition
  have hunit : fields.get? "unit" = i.unit.map .str := by
    simp [hf, Function.comp_def, arranged]
  obtain ⟨cunit, hunit⟩ := optionalText_restores hunit
  have htarget : fields.get? "target" = some (Value.arranged (.float i.target)) := by simp [hf]
  have hnumber : Restores .number number .float i.target := ⟨rfl, rfl⟩
  obtain ⟨ctarget, htarget⟩ := required_restores hnumber htarget
  constructor
  · simp only [Form.indicator, Form.membersConform_required, Form.membersConform_optional]
    exact ⟨cid, cfactor, cname, cdefinition, cunit, ctarget, trivial⟩
  · simp only [hid, hfactor, hname, hdefinition, hunit, htarget, bind, Except.bind, pure,
      Except.pure]

theorem restores_skill (s : Skill) : Restores (.record Form.skill) skill Writing.skill s := by
  refine restores_record rfl fun fields hf => ?_
  have hid : fields.get? "id" = some (.str s.id) := by simp [hf, arranged]
  obtain ⟨cid, hid⟩ := text_restores hid
  have hname : fields.get? "name" = some (.str s.name) := by simp [hf, arranged]
  obtain ⟨cname, hname⟩ := text_restores hname
  have haction : fields.get? "action_id" = some (.str s.action) := by simp [hf, arranged]
  obtain ⟨caction, haction⟩ := text_restores haction
  have hlearnings : fields.get? "learnings" =
      (if s.learnings = [] then none
        else some (Writing.list Writing.learning s.learnings)).map arranged := by
    simp [hf]
  obtain ⟨clearnings, hlearnings⟩ :=
    optionalList_restores (fun l _ => restores_learning l) hlearnings
  constructor
  · simp only [Form.skill, Form.membersConform_required, Form.membersConform_optional]
    exact ⟨cid, cname, caction, clearnings, trivial⟩
  · simp only [hid, hname, haction, hlearnings, bind, Except.bind, pure, Except.pure]

theorem restores_score {n : Int} (hl : -2 ≤ n) (hg : n ≤ 2) :
    Restores (.integer (-2) 2) whole .int n :=
  ⟨⟨n, rfl, hl, hg⟩, whole_of_integer? rfl hl hg⟩

/-- A journey action is restored if its score is in range. -/
theorem restores_journeyAction {a : JourneyAction} (hl : -2 ≤ a.emotionScore)
    (hg : a.emotionScore ≤ 2) :
    Restores (.record Form.journeyAction) journeyAction Writing.journeyAction a := by
  have hrecord : Restores (.record Form.journeyAction)
      (part [] fun fields => journeyAction (.obj fields)) Writing.journeyAction a := by
    refine restores_record rfl fun fields hf => ?_
    have hid : fields.get? "id" = some (.str a.id) := by simp [hf, arranged]
    obtain ⟨cid, hid⟩ := text_restores hid
    have hname : fields.get? "name" = some (.str a.name) := by simp [hf, arranged]
    obtain ⟨cname, hname⟩ := text_restores hname
    have hphase : fields.get? "phase" = some (.str a.phase) := by simp [hf, arranged]
    obtain ⟨cphase, hphase⟩ := text_restores hphase
    have htouch : fields.get? "touchpoints" = (if a.touchpoints = [] then none
        else some (Writing.list .str a.touchpoints)).map arranged := by
      simp [hf]
    obtain ⟨ctouch, htouch⟩ := optionalList_restores (fun s _ => restores_string s) htouch
    have hthoughts : fields.get? "thoughts_feelings" = (if a.thoughtsFeelings = [] then none
        else some (Writing.list .str a.thoughtsFeelings)).map arranged := by
      simp [hf]
    obtain ⟨cthoughts, hthoughts⟩ := optionalList_restores (fun s _ => restores_string s) hthoughts
    have hscore : fields.get? "emotion_score" = some (.int a.emotionScore) := by simp [hf, arranged]
    obtain ⟨cscore, rscore⟩ := restores_score hl hg
    constructor
    · simp only [Form.journeyAction, Form.membersConform_required, Form.membersConform_optional]
      exact ⟨cid, cname, cphase, ctouch, cthoughts, ⟨_, hscore, cscore⟩, trivial⟩
    · simp only [arranged] at rscore
      simp only [journeyAction, unscored, present, hscore, rscore, hid, hname, hphase, htouch,
        hthoughts, Functor.map, Except.map, bind, Except.bind, pure, Except.pure]
  exact hrecord

/-- An object holds what a document's kind and known fields say under their names, and nothing
else under them. -/
def Holds (fields : Fields) (d : Document) : Prop :=
  ∀ name ∈ "kind" :: known d.kind, fields.get? name =
    (last? name (Writing.text "kind" d.kind.text ++ Writing.knownFields .float d)).map arranged

/-- The fields of one kind of document are of its form, and are read as the document again. -/
def RestoresDocument (read : Fields → Read Document) (d : Document) : Prop :=
  ∀ fields, Holds fields d → extra d.kind fields = d.extra →
    Form.MembersConform (Form.document d.kind) fields ∧ read fields = .ok d

/-- The fields that documents of every kind have. -/
theorem envelope_restores {fields : Fields} {d : Document} (hf : Holds fields d) :
    Form.MembersConform (Form.envelope d.kind) fields ∧
      required "version" string fields = .ok d.version ∧
      required "id" string fields = .ok d.id := by
  obtain ⟨hkind, hversion, hid⟩ : fields.get? "kind" = some (.str d.kind.text) ∧
      fields.get? "version" = some (.str d.version) ∧ fields.get? "id" = some (.str d.id) := by
    cases d <;> simp only [Holds, Document.kind, known, List.forall_mem_cons] at hf <;>
      simp [hf, Writing.knownFields, arranged, Document.kind, Document.version, Document.id]
  obtain ⟨cversion, hversion⟩ := text_restores hversion
  obtain ⟨cid, hid⟩ := text_restores hid
  refine ⟨?_, hversion, hid⟩
  simp only [Form.envelope, Form.membersConform_required]
  exact ⟨⟨_, hkind, rfl⟩, cversion, cid, trivial⟩

theorem restores_journeyMap {d : JourneyMap}
    (hs : ∀ a ∈ d.actions, -2 ≤ a.emotionScore ∧ a.emotionScore ≤ 2) :
    RestoresDocument (fun fields => .journey <$> journeyMap fields) (.journey d) := by
  intro fields hf he
  obtain ⟨cenvelope, hversion, hid⟩ := envelope_restores hf
  simp only [Holds, Document.kind, known, List.forall_mem_cons] at hf
  have hpersona : fields.get? "persona" = d.persona.map fun p => (Writing.persona p).arranged := by
    simp [hf, Writing.knownFields, Function.comp_def]
  obtain ⟨cpersona, hpersona⟩ := optional_restores (fun p _ => restores_persona p) hpersona
  have hphases : fields.get? "phases" = some (Writing.list Writing.phase d.phases).arranged := by
    simp [hf, Writing.knownFields]
  obtain ⟨cphases, hphases⟩ := required_restores (restores_list fun p _ => restores_phase p) hphases
  have hscored : ∀ a ∈ d.actions,
      Restores (.record Form.journeyAction) journeyAction Writing.journeyAction a :=
    fun a ha => restores_journeyAction (hs a ha).1 (hs a ha).2
  have hactions : fields.get? "actions" =
      some (Writing.list Writing.journeyAction d.actions).arranged := by
    simp [hf, Writing.knownFields]
  obtain ⟨cactions, hactions⟩ := required_restores (restores_list hscored) hactions
  refine ⟨Form.membersConform_append.mpr ⟨cenvelope, ?_⟩, ?_⟩
  · simp only [Document.kind, Form.body, Form.membersConform_required,
      Form.membersConform_optional]
    exact ⟨cpersona, cphases, cactions, trivial⟩
  · simp only [Document.kind, Document.version, Document.id, Document.extra] at hversion hid he
    simp only [journeyMap, hversion, hid, hpersona, hphases, hactions, he, Functor.map, Except.map,
      bind, Except.bind, pure, Except.pure]

theorem restores_blueprint (d : Blueprint) :
    RestoresDocument (fun fields => .blueprint <$> blueprint fields) (.blueprint d) := by
  intro fields hf he
  obtain ⟨cenvelope, hversion, hid⟩ := envelope_restores hf
  simp only [Holds, Document.kind, known, List.forall_mem_cons] at hf
  have hlanes : fields.get? "lanes" = some (Writing.list Writing.lane d.lanes).arranged := by
    simp [hf, Writing.knownFields]
  obtain ⟨clanes, hlanes⟩ := required_restores (restores_list fun l _ => restores_lane l) hlanes
  have htasks : fields.get? "tasks" = some (Writing.list Writing.task d.tasks).arranged := by
    simp [hf, Writing.knownFields]
  obtain ⟨ctasks, htasks⟩ := required_restores (restores_list fun t _ => restores_task t) htasks
  refine ⟨Form.membersConform_append.mpr ⟨cenvelope, ?_⟩, ?_⟩
  · simp only [Document.kind, Form.body, Form.membersConform_required]
    exact ⟨clanes, ctasks, trivial⟩
  · simp only [Document.kind, Document.version, Document.id, Document.extra] at hversion hid he
    simp only [blueprint, hversion, hid, hlanes, htasks, he, Functor.map, Except.map,
      bind, Except.bind, pure, Except.pure]

theorem restores_outcome (d : Outcome) :
    RestoresDocument (fun fields => .outcome <$> outcome fields) (.outcome d) := by
  intro fields hf he
  obtain ⟨cenvelope, hversion, hid⟩ := envelope_restores hf
  simp only [Holds, Document.kind, known, List.forall_mem_cons] at hf
  have hgoal : fields.get? "kgi" = some (Writing.goal d.goal).arranged := by
    simp [hf, Writing.knownFields]
  obtain ⟨cgoal, hgoal⟩ := required_restores (restores_goal d.goal) hgoal
  have hfactor : fields.get? "primary_csf" = some (Writing.factor d.factor).arranged := by
    simp [hf, Writing.knownFields]
  obtain ⟨cfactor, hfactor⟩ := required_restores (restores_factor d.factor) hfactor
  have hindicator : fields.get? "primary_kpi" =
      some (Writing.indicator .float d.indicator).arranged := by
    simp [hf, Writing.knownFields]
  obtain ⟨cindicator, hindicator⟩ := required_restores (restores_indicator d.indicator) hindicator
  refine ⟨Form.membersConform_append.mpr ⟨cenvelope, ?_⟩, ?_⟩
  · simp only [Document.kind, Form.body, Form.membersConform_required]
    exact ⟨cgoal, cfactor, cindicator, trivial⟩
  · simp only [Document.kind, Document.version, Document.id, Document.extra] at hversion hid he
    simp only [outcome, hversion, hid, hgoal, hfactor, hindicator, he, Functor.map, Except.map,
      bind, Except.bind, pure, Except.pure]

theorem restores_enablementMap (d : EnablementMap) :
    RestoresDocument (fun fields => .enablement <$> enablementMap fields) (.enablement d) := by
  intro fields hf he
  obtain ⟨cenvelope, hversion, hid⟩ := envelope_restores hf
  simp only [Holds, Document.kind, known, List.forall_mem_cons] at hf
  have houtcomes : fields.get? "outcomes" =
      some (Writing.list Writing.enablementOutcome d.outcomes).arranged := by
    simp [hf, Writing.knownFields]
  obtain ⟨coutcomes, houtcomes⟩ := required_restores
      (restores_list fun o _ => restores_enablementOutcome o) houtcomes
  have hactions : fields.get? "actions" =
      some (Writing.list Writing.enablementAction d.actions).arranged := by
    simp [hf, Writing.knownFields]
  obtain ⟨cactions, hactions⟩ := required_restores
      (restores_list fun a _ => restores_enablementAction a) hactions
  have hskills : fields.get? "skills" =
      (if d.skills = [] then none else some (Writing.list Writing.skill d.skills)).map
        arranged := by
    simp [hf, Writing.knownFields]
  obtain ⟨cskills, hskills⟩ := optionalList_restores (fun s _ => restores_skill s) hskills
  have hknowledge : fields.get? "knowledge" =
      (if d.knowledge = [] then none else some (Writing.list Writing.resource d.knowledge)).map
        arranged := by
    simp [hf, Writing.knownFields]
  obtain ⟨cknowledge, hknowledge⟩ := optionalList_restores (fun r _ => restores_resource r)
      hknowledge
  have htools : fields.get? "tools" =
      (if d.tools = [] then none else some (Writing.list Writing.resource d.tools)).map
        arranged := by
    simp [hf, Writing.knownFields]
  obtain ⟨ctools, htools⟩ := optionalList_restores (fun r _ => restores_resource r) htools
  refine ⟨Form.membersConform_append.mpr ⟨cenvelope, ?_⟩, ?_⟩
  · simp only [Document.kind, Form.body, Form.membersConform_required,
      Form.membersConform_optional]
    exact ⟨coutcomes, cactions, cskills, cknowledge, ctools,
      trivial⟩
  · simp only [Document.kind, Document.version, Document.id, Document.extra] at hversion hid he
    simp only [enablementMap, hversion, hid, houtcomes, hactions, hskills, hknowledge, htools, he,
      Functor.map, Except.map, bind, Except.bind, pure, Except.pure]

end Reading

namespace Document

open Fields

variable {settings : Settings}

/-- What a document must satisfy to be loaded from its value: its numbers are in range, its
version is allowed, and no field that it keeps has the name of one that it knows. -/
structure Loadable (settings : Settings) (d : Document) : Prop where
  scores : ∀ j, d = .journey j → ∀ a ∈ j.actions, -2 ≤ a.emotionScore ∧ a.emotionScore ≤ 2
  target : ∀ o, d = .outcome o → o.indicator.target.isFinite = true
  version : settings.allows d.version = true
  extra : ∀ name ∈ d.extra.names, name ≠ "kind" ∧ name ∉ Reading.known d.kind

/-- A name that a document does not know has no known field. -/
theorem last?_knownFields {number : Binary64 → Value} {d : Document} {name : String}
    (h : name ∉ Reading.known d.kind) : last? name (Writing.knownFields number d) = none := by
  cases d with
  | journey d =>
    simp only [Document.kind, Reading.known, List.mem_cons, not_or] at h
    simp [Writing.knownFields, Ne.symm, h]
  | blueprint d =>
    simp only [Document.kind, Reading.known, List.mem_cons, not_or] at h
    simp [Writing.knownFields, Ne.symm, h]
  | outcome d =>
    simp only [Document.kind, Reading.known, List.mem_cons, not_or] at h
    simp [Writing.knownFields, Ne.symm, h]
  | enablement d =>
    simp only [Document.kind, Reading.known, List.mem_cons, not_or] at h
    simp [Writing.knownFields, Ne.symm, h]

/-- Fields under other names do not hide the known fields of a document. -/
theorem last?_known {d : Document} (hx : ∀ name ∈ d.extra.names,
    name ≠ "kind" ∧ name ∉ Reading.known d.kind) {fields : Fields} {name : String}
    (h : name ∈ "kind" :: Reading.known d.kind) :
    last? name (fields ++ d.extra) = last? name fields := by
  have hnone : last? name d.extra = none := last?_eq_none_iff.mpr fun hn => by
    rcases List.mem_cons.mp h with rfl | hk
    · exact (hx _ hn).1 rfl
    · exact (hx _ hn).2 hk
  rw [last?_append, hnone, Option.none_or]

/-- The fields that a document keeps are found again beside the known ones. -/
theorem extra_placed {number : Binary64 → Value} {d : Document}
    (hp : (Value.obj d.extra).Proper)
    (hx : ∀ name ∈ d.extra.names, name ≠ "kind" ∧ name ∉ Reading.known d.kind) :
    Reading.extra d.kind (placed (Writing.text "kind" d.kind.text
      ++ Writing.knownFields number d ++ d.extra)) = d.extra := by
  obtain ⟨hasc, hvalues⟩ : Ascending d.extra ∧ ∀ entry ∈ d.extra, entry.2.Proper := by
    cases hp with
    | obj hn hv => exact ⟨hn, hv⟩
  refine ((ascending_ofEntries _).excluding _).ext hasc fun name => ?_
  rw [get?_excluding]
  split_ifs with hn
  · refine (get?_eq_none_iff.mpr fun h => ?_).symm
    rcases List.mem_cons.mp hn with rfl | hk
    · exact (hx _ h).1 rfl
    · exact (hx _ h).2 hk
  · obtain ⟨hkind, hknown⟩ := not_or.mp (mt List.mem_cons.mpr hn)
    change get? name (placed _) = _
    rw [get?_placed, last?_append, last?_append, last?_knownFields hknown, last?_text,
      if_neg (Ne.symm hkind), Option.or_none, Option.or_none, last?, hasc.get?_reverse]
    rcases hg : get? name d.extra with _ | v
    · rfl
    · exact congrArg some (hvalues _ (mem_of_get? hg)).arranged_eq

theorem last?_kind (number : Binary64 → Value) (d : Document) :
    last? "kind" (Writing.text "kind" d.kind.text ++ Writing.knownFields number d) =
      some (.str d.kind.text) := by
  have hkind : ∀ k, "kind" ∉ Reading.known k := fun k => by cases k <;> decide
  rw [last?_append, last?_knownFields (hkind _), Option.none_or, last?_text, if_pos rfl]

theorem last?_version (number : Binary64 → Value) (d : Document) :
    last? "version" (Writing.text "kind" d.kind.text ++ Writing.knownFields number d) =
      some (.str d.version) := by
  cases d <;> simp [Writing.knownFields, version]

/-- The value that the text of a document spells is loaded as the document. -/
theorem load_outline {d : Document} (hp : (Value.obj d.extra).Proper) (h : d.Loadable settings) :
    load settings (Value.obj d.outline).arranged = .ok d := by
  have hholds : Reading.Holds (placed d.outline) d := fun name hn => by
    rw [get?_placed, outline, last?_known h.extra hn]
  have hextra : Reading.extra d.kind (placed d.outline) = d.extra := extra_placed hp h.extra
  have hkind : (placed d.outline).get? "kind" = some (.str d.kind.text) := by
    rw [hholds "kind" (by simp), last?_kind]
    rfl
  have hversion : (placed d.outline).get? "version" = some (.str d.version) := by
    have hmem : ∀ k, "version" ∈ "kind" :: Reading.known k := fun k => by cases k <;> decide
    rw [hholds "version" (hmem _), last?_version]
    rfl
  obtain ⟨hm, hr⟩ : Form.MembersConform (Form.document d.kind) (placed d.outline) ∧
      ofValue (.obj (placed d.outline)) = .ok d := by
    simp only [ofValue, hkind, Kind.ofText?_text]
    cases d with
    | journey j => exact Reading.restores_journeyMap (h.scores j rfl) _ hholds hextra
    | blueprint b => exact Reading.restores_blueprint b _ hholds hextra
    | outcome o => exact Reading.restores_outcome o _ hholds hextra
    | enablement e => exact Reading.restores_enablementMap e _ hholds hextra
  have hvalid : (inspect settings d.kind (.obj (placed d.outline))).valid = true := by
    refine (inspect_valid_iff _ _ _).mpr ⟨⟨_, rfl, hm⟩, fun version hv => ?_⟩
    obtain rfl : d.version = version := by simpa [Value.get?, hversion] using hv
    exact h.version
  obtain ⟨e, -, he, hl⟩ := load_of_valid settings hvalid
  obtain rfl : d = e := Except.ok.inj (hr.symm.trans he)
  exact hl

/-- With a finite target the value of a document is the value that its text spells. -/
theorem toValue_eq_outline {d : Document}
    (h : ∀ o, d = .outcome o → o.indicator.target.isFinite = true) :
    d.toValue = (Value.obj d.outline).arranged := by
  have hknown : Writing.knownFields Writing.finite d = Writing.knownFields .float d := by
    cases d with
    | outcome o =>
      simp only [Writing.knownFields, Writing.indicator, Writing.finite, h o rfl, if_true]
    | _ => rfl
  rw [toValue, fields, hknown, outline, List.append_assoc]

theorem keeps_version {number : Binary64 → Value} {d : Document} {found : Fields}
    (h : Value.KeepsFields (Writing.knownFields number d) found) :
    found.get? "version" = some (.str d.version) := by
  have hv : Value.KeepsFields (Writing.text "version" d.version) found := by
    cases d <;> simp only [Writing.knownFields, Value.keepsFields_append] at h <;>
      simp only [version, h]
  obtain ⟨w, hw, rfl⟩ := (Value.keepsFields_field _ _ _).mp hv
  exact hw

/-- What a document that is loaded was read from. -/
theorem read_of_load {v : Value} {d : Document} (h : load settings v = .ok d) :
    ∃ found, v = .obj found ∧ Form.MembersConform (Form.document d.kind) found ∧
      ofValue v = .ok d ∧ d.extra = Reading.extra d.kind found ∧
      Value.KeepsFields (Writing.knownFields .float d) found ∧
      (v.Proper → Reading.InRange d) := by
  obtain ⟨hvalid, hd⟩ := valid_of_load settings h
  obtain ⟨⟨found, rfl, hm⟩, -⟩ := (inspect_valid_iff _ _ _).mp hvalid
  obtain ⟨e, he, -, hread⟩ := ofValue_of_conforms hm
  obtain rfl : e = d := Except.ok.inj (he.symm.trans hd)
  exact ⟨found, rfl, hm, hd, hread⟩

/-- A document has the version of the value it is loaded from. -/
theorem get?_version_of_load {v : Value} {d : Document} (h : load settings v = .ok d) :
    v.get? "version" = some (.str d.version) := by
  obtain ⟨found, rfl, -, -, -, hkeeps, -⟩ := read_of_load h
  exact keeps_version hkeeps

theorem version_of_load {v : Value} {d : Document} (h : load settings v = .ok d) :
    settings.allows d.version = true := by
  obtain ⟨hvalid, -⟩ := valid_of_load settings h
  obtain ⟨-, hversion⟩ := (inspect_valid_iff _ _ _).mp hvalid
  exact hversion _ (get?_version_of_load h)

/-- A value that the standard settings load, which allow every version, is refused for its version
alone. -/
theorem load_of_version {v : Value} {d : Document} (h : load .standard v = .ok d)
    (hv : settings.allows d.version = false) :
    load settings v = .error (.invalid d.kind
      [⟨[.field "version"], .otherVersion d.version settings.allowedVersions⟩]) := by
  obtain ⟨hvalid, -⟩ := valid_of_load _ h
  obtain ⟨hform, -⟩ := (inspect_valid_iff _ _ _).mp hvalid
  have hflaws : (inspect settings d.kind v).flaws =
      [⟨[.field "version"], .otherVersion d.version settings.allowedVersions⟩] := by
    simp [inspect, (Form.flaws_eq_nil_iff _ _ _).mpr hform, versionFlaws,
      get?_version_of_load h, hv]
  have hinvalid : (inspect settings d.kind v).valid = false := by
    simp [Report.valid, hflaws]
  rw [load_of_invalid settings (namedKind_of_conforms hform) hinvalid, hflaws]

/-- A document that is loaded keeps only fields that it does not know. -/
theorem extra_of_load {v : Value} {d : Document} (h : load settings v = .ok d) :
    ∀ name ∈ d.extra.names, name ≠ "kind" ∧ name ∉ Reading.known d.kind := by
  obtain ⟨found, rfl, -, -, hextra, -⟩ := read_of_load h
  intro name hn
  rw [hextra] at hn
  obtain ⟨entry, hentry, rfl⟩ := List.mem_map.mp hn
  have hnot := (mem_excluding.mp hentry).2
  exact ⟨fun hk => hnot (by simp [hk]), fun hk => hnot (List.mem_cons_of_mem _ hk)⟩

/-- The fields that a document keeps are those of the value it is loaded from. -/
theorem proper_extra_of_load {v : Value} {d : Document} (hp : v.Proper)
    (h : load settings v = .ok d) : (Value.obj d.extra).Proper := by
  obtain ⟨found, rfl, -, -, hextra, -⟩ := read_of_load h
  rw [hextra]
  cases hp with
  | obj hn hv =>
    have hasc : Fields.Ascending found := hn
    exact .obj (hasc.excluding _) fun field hf => hv field (Fields.mem_excluding.mp hf).1

/-- What is loaded from a proper value has its numbers in range. -/
theorem inRange_of_load {v : Value} {d : Document} (hp : v.Proper) (h : load settings v = .ok d) :
    Reading.InRange d := by
  obtain ⟨found, rfl, -, -, -, -, hrange⟩ := read_of_load h
  exact hrange hp

theorem loadable_of_load {v : Value} {d : Document} (hp : v.Proper)
    (h : load settings v = .ok d) : d.Loadable settings where
  scores := by
    rintro j rfl
    exact inRange_of_load hp h
  target := by
    rintro o rfl
    exact (inRange_of_load hp h).1
  version := version_of_load h
  extra := extra_of_load h

/-- A field that the form of a part wants is of its form in what was written of the part. -/
theorem conforms_of_placed (name : String) {members : List (Member Form)} {entries : Fields}
    (h : (Form.record members).Conforms (Value.obj entries).arranged) {form : Form} {v : Value}
    (hm : Form.required name form ∈ members) (hv : last? name entries = some v) :
    form.Conforms v.arranged := by
  obtain ⟨found, hfound, hc⟩ := h
  obtain rfl : placed entries = found := Value.obj.inj hfound
  obtain ⟨w, hw, hcw⟩ := Form.conforms_of_mem hm hc
  rw [get?_placed, hv] at hw
  obtain rfl := Option.some.inj hw
  exact hcw

theorem score_of_conforms {a : JourneyAction}
    (h : (Form.record Form.journeyAction).Conforms (Writing.journeyAction a).arranged) :
    -2 ≤ a.emotionScore ∧ a.emotionScore ≤ 2 := by
  have hscore : (Form.integer (-2) 2).Conforms (Value.arranged (.int a.emotionScore)) := by
    refine conforms_of_placed "emotion_score" h ?_ ?_
    · simp [Form.journeyAction]
    · simp
  obtain ⟨n, hn, hl, hg⟩ := hscore
  obtain rfl : a.emotionScore = n := Option.some.inj hn
  exact ⟨hl, hg⟩

theorem isFinite_of_conforms {i : Indicator}
    (h : (Form.record Form.indicator).Conforms (Writing.indicator Writing.finite i).arranged) :
    i.target.isFinite = true := by
  have hnumber : Form.number.Conforms (Writing.finite i.target).arranged := by
    refine conforms_of_placed "target" h ?_ ?_
    · simp [Form.indicator]
    · simp
  by_contra hf
  rw [Writing.finite, if_neg hf] at hnumber
  exact Form.not_conforms_null _ hnumber

/-- A known field of a document that is loaded from its own value is of its form. -/
theorem conforms_of_load_toValue (name : String) {d : Document}
    (h : load settings d.toValue = .ok d) {form : Form} {v : Value}
    (hm : Form.required name form ∈ Form.document d.kind)
    (hn : name ∈ Reading.known d.kind)
    (hv : last? name (Writing.knownFields Writing.finite d) = some v) :
    form.Conforms v.arranged := by
  obtain ⟨hvalid, -⟩ := valid_of_load settings h
  refine conforms_of_placed name ((inspect_valid_iff _ _ _).mp hvalid).1 hm ?_
  rw [fields, ← List.append_assoc, last?_known (extra_of_load h) (List.mem_cons_of_mem _ hn),
    last?_append, hv, Option.some_or]

/-- A document is loaded from its own value exactly if its scores are from -2 to 2, its target is
finite, its version is allowed and none of the fields that it keeps has the name `kind` or the name
of a field that its kind knows. Every document that is loaded from a value is like that. The values
that a document keeps, and the value loaded from, are proper as those of every text are. -/
theorem load_toValue_iff_loadable (settings : Settings) :
    (∀ d : Document, (Value.obj d.extra).Proper →
      (load settings d.toValue = .ok d ↔ d.Loadable settings)) ∧
    (∀ (v : Value) (d : Document), v.Proper → load settings v = .ok d → d.Loadable settings) := by
  refine ⟨fun d hp => ⟨fun h => ⟨?_, ?_, version_of_load h, extra_of_load h⟩, fun h => ?_⟩,
    fun v d hp h => loadable_of_load hp h⟩
  · rintro j rfl a ha
    have hactions : (Form.list (.record Form.journeyAction)).Conforms
        (Writing.list Writing.journeyAction j.actions).arranged := by
      refine conforms_of_load_toValue "actions" h ?_ ?_ ?_
      · simp [kind, Form.document, Form.body]
      · simp [kind, Reading.known]
      · simp [Writing.knownFields]
    obtain ⟨items, hitems, hc⟩ := hactions
    rw [Writing.list, Value.arranged_arr] at hitems
    obtain rfl := Value.arr.inj hitems
    exact score_of_conforms (hc _ (List.mem_map_of_mem (List.mem_map_of_mem ha)))
  · rintro o rfl
    have hindicator : (Form.record Form.indicator).Conforms
        (Writing.indicator Writing.finite o.indicator).arranged := by
      refine conforms_of_load_toValue "primary_kpi" h ?_ ?_ ?_
      · simp [kind, Form.document, Form.body]
      · simp [kind, Reading.known]
      · simp [Writing.knownFields]
    exact isFinite_of_conforms hindicator
  · rw [toValue_eq_outline h.target]
    exact load_outline hp h

/-- A journey with one scored action and one field that it does not know. -/
theorem load_toValue_scored :
    let d : Document := .journey ⟨"1.0", "j", none, [], [⟨"a", "buy", "p", [], [], 2⟩],
      [("note", .str "new")]⟩
    load .standard d.toValue = .ok d ∧ d.Loadable .standard := by
  intro d
  have hp : (Value.obj d.extra).Proper :=
    .obj (by simp [d, extra]) (by simp [d, extra, Value.Sound.str])
  have h : load .standard d.toValue = .ok d := by
    decide +kernel
  have hvalue : d.toValue = .obj [("actions",
      .arr [.obj [("emotion_score", .int 2), ("id", .str "a"),
      ("name", .str "buy"), ("phase", .str "p")]]), ("id", .str "j"), ("kind", .str "cjm"),
      ("note", .str "new"), ("phases", .arr []), ("version", .str "1.0")] := by
    decide +kernel
  have hproper : d.toValue.Proper := by
    rw [hvalue]
    refine .obj (by decide) (List.forall_mem_cons.mpr ⟨.arr ?_, ?_⟩)
    · refine List.forall_mem_singleton.mpr (.obj (by decide) ?_)
      simp only [List.forall_mem_cons, Value.Sound.str, true_and]
      exact ⟨.int (by decide) (by decide), nofun⟩
    · simp only [List.forall_mem_cons, Value.Sound.str, true_and]
      exact ⟨.arr nofun, nofun⟩
  have hd : d.Loadable .standard := ((load_toValue_iff_loadable .standard).1 d hp).mp h
  exact ⟨h, (load_toValue_iff_loadable .standard).2 d.toValue d hproper h⟩

end Document

end ServiceMaps
