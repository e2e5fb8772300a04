import ServiceMaps.Proofs.Restoring

/-!
What loading keeps of a value. The normal form of a value is read off the table of fields of its
kind and off nothing else: declared fields are brought to the one way in which they are written,
those that may be left out are left out where they say no more than that, and fields that the table
does not list are dropped from the parts of a document and kept in the document itself. The value of
a loaded document is the normal form of the value that it was loaded from.
-/
namespace ServiceMaps

namespace Form

/-- What a field that may be left out says by being left out. -/
def isDefault : Value → Bool
  | .null | .bool false | .arr [] => true
  | _ => false

mutual

/-- The one way to write a value of a form. -/
def normal : Form → Value → Value
  | .integer _ _, v => ((integer? v).map .int).getD v
  | .number, v => match v with
    | .int n => .float (.ofInt n)
    | v => v
  | .list item, v => match v with
    | .arr items => .arr (items.map (normal item))
    | v => v
  | .record members, v => match v with
    | .obj fields => .obj (Fields.ofEntries (normalMembers members fields))
    | v => v
  | .string, v | .boolean, v | .constant _, v | .choice _, v => v

/-- The fields of a table that are written, in the order of the table. -/
def normalMembers : List (Member Form) → Fields → Fields
  | [], _ => []
  | ⟨name, required, form⟩ :: rest, fields =>
    (match fields.get? name with
      | none => []
      | some v => if !required && isDefault (normal form v) then [] else [(name, normal form v)])
      ++ normalMembers rest fields

end

theorem normalMembers_append (members more : List (Member Form)) (fields : Fields) :
    normalMembers (members ++ more) fields =
      normalMembers members fields ++ normalMembers more fields := by
  induction members with
  | nil => rfl
  | cons member rest ih => simp only [List.cons_append, normalMembers, ih, List.append_assoc]

/-- Only fields of the table are written. -/
theorem names_normalMembers (members : List (Member Form)) (fields : Fields) :
    (normalMembers members fields).names ⊆ members.map (·.name) := by
  induction members with
  | nil => exact List.Subset.refl []
  | cons member rest ih =>
    obtain ⟨name, required, form⟩ := member
    rw [normalMembers, Fields.names, List.map_append, List.map_cons]
    refine List.append_subset.mpr ⟨?_, List.subset_cons_of_subset name ih⟩
    split
    · simp
    · split <;> simp

/-- A field that may be left out has its form unless it is null. -/
theorem conforms_of_optional {name : String} {form : Form} {members : List (Member Form)}
    {fields : Fields} (hmem : optional name form ∈ members) (hm : MembersConform members fields)
    (v : Value) (hv : fields.get? name = some v) (hne : v ≠ .null) : form.Conforms v := by
  induction members with
  | nil => simp at hmem
  | cons first rest ih =>
    rcases List.mem_cons.mp hmem with rfl | hmem
    · obtain ⟨hfirst | hfirst | ⟨w, hw, hc⟩, -⟩ := membersConform_optional.mp hm
      · simp [hv] at hfirst
      · rw [hv] at hfirst
        exact absurd (Option.some.inj hfirst) hne
      · obtain rfl : v = w := Option.some.inj (hv.symm.trans hw)
        exact hc
    · exact ih hmem hm.2

end Form

theorem kind_of_conforms {k : Kind} {fields : Fields}
    (hm : Form.MembersConform (Form.document k) fields) :
    fields.get? "kind" = some (.str k.text) := by
  obtain ⟨⟨v, hv, rfl⟩, -⟩ := Form.membersConform_required.mp hm
  exact hv

/-- The one way to write what a value says as a document. Fields that the kind does not know are
kept as they are. A value that is no document stays as it is. -/
def Document.normal (v : Value) : Value :=
  match namedKind v, v with
  | .ok k, .obj fields => .obj (Fields.ofEntries (Form.normalMembers (Form.document k) fields
      ++ Fields.excluding ((Form.document k).map (·.name)) fields))
  | _, v => v

namespace Reading

open Value

variable {α β : Type}

/-! ### What a reader that succeeded has read -/

theorem bind_eq_ok {m : Read α} {next : α → Read β} {b : β} :
    m >>= next = .ok b ↔ ∃ a, m = .ok a ∧ next a = .ok b := by
  cases m with
  | error e => simp [bind, Except.bind]
  | ok a => simp [bind, Except.bind]

theorem pure_eq_ok {a b : α} : (pure a : Read α) = .ok b ↔ a = b := by
  simp [pure, Except.pure]

theorem map_eq_ok {m : Read α} {f : α → β} {b : β} :
    f <$> m = .ok b ↔ ∃ a, m = .ok a ∧ f a = b := by
  cases m with
  | error e => simp [Functor.map, Except.map]
  | ok a => simp [Functor.map, Except.map]

theorem string_eq_ok {v : Value} {s : String} (h : string v = .ok s) : v = .str s := by
  cases v with
  | str t => rw [Except.ok.inj h]
  | _ => simp [string] at h

theorem required_eq_ok {name : String} {read : Value → Read α} {fields : Fields} {x : α} :
    required name read fields = .ok x ↔ ∃ v, fields.get? name = some v ∧ read v = .ok x := by
  unfold required
  cases fields.get? name with
  | none => simp
  | some v => simp

/-- A field that is there is read as if it had to be there. -/
theorem required_of_present {name : String} {read : Value → Read α} {fields : Fields} {v : Value}
    {o : Option α} (hv : fields.get? name = some v) (h : present name read fields = .ok o) :
    ∃ x, o = some x ∧ required name read fields = .ok x := by
  rw [present, hv] at h
  obtain ⟨x, hx, rfl⟩ := map_eq_ok.mp h
  exact ⟨x, rfl, required_eq_ok.mpr ⟨v, hv, hx⟩⟩

/-- A field that may be left out is absent or null, or something is read from it. -/
theorem optional_eq_ok {name : String} {read : Value → Read α} {fields : Fields} {o : Option α}
    (h : optional name read fields = .ok o) :
    ((fields.get? name = none ∨ fields.get? name = some .null) ∧ o = none) ∨
      ∃ v x, fields.get? name = some v ∧ v ≠ .null ∧ read v = .ok x ∧ o = some x := by
  obtain ⟨p, hp, ho⟩ := bind_eq_ok.mp h
  obtain rfl : p.join = o := pure_eq_ok.mp ho
  unfold present at hp
  cases hv : fields.get? name with
  | none =>
    rw [hv] at hp
    rw [← Except.ok.inj hp]
    exact .inl ⟨.inl rfl, rfl⟩
  | some v =>
    rw [hv] at hp
    obtain ⟨q, hq, rfl⟩ := map_eq_ok.mp hp
    by_cases hnull : v = .null
    · subst hnull
      rw [← Except.ok.inj hq]
      exact .inl ⟨.inr rfl, rfl⟩
    · have hread : nullable read v = some <$> read v := by
        cases v with
        | null => exact absurd rfl hnull
        | _ => rfl
      rw [hread] at hq
      obtain ⟨x, hx, rfl⟩ := map_eq_ok.mp hq
      exact .inr ⟨v, x, rfl, hnull, hx, rfl⟩

theorem withDefault_eq_ok {fallback : α} {name : String} {read : Value → Read α} {fields : Fields}
    {x : α} (h : withDefault fallback name read fields = .ok x) :
    ∃ o, optional name read fields = .ok o ∧ o.getD fallback = x := by
  obtain ⟨o, ho, hx⟩ := bind_eq_ok.mp h
  exact ⟨o, ho, pure_eq_ok.mp hx⟩

/-! ### Forms and their readers -/

/-- What is read from a value of a form is written as the normal form of the value. -/
def Normalizes (form : Form) (read : Value → Read α) (write : α → Value) : Prop :=
  ∀ v x, form.Conforms v → read v = .ok x → (write x).arranged = form.normal v

/-- The entries are those that the normal form has of a table's fields. -/
def Follows (members : List (Member Form)) (fields entries : Fields) : Prop :=
  arrangedFields entries = Form.normalMembers members fields

theorem Follows.append {members more : List (Member Form)} {fields entries others : Fields}
    (h : Follows members fields entries) (h' : Follows more fields others) :
    Follows (members ++ more) fields (entries ++ others) := by
  unfold Follows at h h' ⊢
  rw [arrangedFields_append, Form.normalMembers_append, h, h']

theorem Follows.record {members : List (Member Form)} {fields entries : Fields}
    (h : Follows members fields entries) :
    (Value.obj entries).arranged = (Form.record members).normal (.obj fields) := by
  rw [arranged, Form.normal, h]

theorem normalizes_string : Normalizes .string string .str := by
  intro v s _ h
  rw [string_eq_ok h]
  rfl

theorem normalizes_number : Normalizes .number number .float := by
  intro v x _ h
  cases v with
  | int n =>
    rw [← Except.ok.inj h]
    rfl
  | float y =>
    rw [← Except.ok.inj h]
    rfl
  | _ => simp [number] at h

/-- A score becomes the whole number that it equals. -/
theorem normalizes_score : Normalizes (.integer (-2) 2) whole .int := by
  rintro v x ⟨n, hn, hl, hg⟩ h
  rw [whole_of_integer? hn hl hg] at h
  rw [← Except.ok.inj h]
  simp [Form.normal, hn, arranged]

theorem normalizes_actor :
    Normalizes (.choice (Actor.all.map Actor.text)) actor (fun a => .str a.text) := by
  rintro _ a ⟨s, hs, rfl⟩ h
  obtain ⟨b, -, rfl⟩ := List.mem_map.mp hs
  rw [actor, actor.ofName, Actor.ofText?_text] at h
  rw [← Except.ok.inj h]
  rfl

/-- The items of a list are normalized in their order. -/
theorem normalizes_list {form : Form} {read : Value → Read α} {write : α → Value}
    (h : Normalizes form read write) :
    Normalizes (.list form) (list read) (Writing.list write) := by
  rintro _ xs ⟨items, rfl, hc⟩ hr
  have hitems : (xs.map write).map arranged = items.map form.normal := by
    replace hr : items.mapM read = .ok xs := hr
    induction items generalizing xs with
    | nil =>
      rw [← pure_eq_ok.mp hr]
      rfl
    | cons v rest ih =>
      obtain ⟨hv, hrest⟩ := List.forall_mem_cons.mp hc
      simp only [List.mapM_cons, bind_eq_ok, pure_eq_ok] at hr
      obtain ⟨x, hx, ys, hys, rfl⟩ := hr
      rw [List.map_cons, List.map_cons, List.map_cons, h v x hv hx, ih ys hrest hys]
  rw [Writing.list, arranged_arr, hitems]
  rfl

/-! ### Fields -/

variable {name : String} {fields : Fields} {form : Form} {read : Value → Read α}
  {write : α → Value}

theorem follows_required (h : Normalizes form read write)
    (hc : ∃ v, fields.get? name = some v ∧ form.Conforms v) {x : α}
    (hr : required name read fields = .ok x) :
    Follows [Form.required name form] fields (Writing.field name (write x)) := by
  obtain ⟨v, hv, hc⟩ := hc
  obtain ⟨w, hw, hx⟩ := required_eq_ok.mp hr
  obtain rfl : v = w := Option.some.inj (hv.symm.trans hw)
  simp [Follows, Form.required, Form.normalMembers, Writing.field, arrangedFields, hv,
    h v x hc hx]

theorem follows_text {s : String} (hr : required name string fields = .ok s) :
    Follows [Form.required name .string] fields (Writing.text name s) := by
  obtain ⟨v, hv, hs⟩ := required_eq_ok.mp hr
  exact follows_required normalizes_string ⟨v, hv, s, string_eq_ok hs⟩ hr

/-- A field that may be left out is written if something was read from it. -/
theorem follows_optional (h : Normalizes form read write)
    (hd : ∀ x, Form.isDefault (write x).arranged = false)
    (hc : ∀ v, fields.get? name = some v → v ≠ .null → form.Conforms v) {o : Option α}
    (hr : optional name read fields = .ok o) :
    Follows [Form.optional name form] fields (o.map fun x => (name, write x)).toList := by
  rcases optional_eq_ok hr with ⟨hv | hv, rfl⟩ | ⟨v, x, hv, hne, hx, rfl⟩
  · simp [Follows, Form.optional, Form.normalMembers, arrangedFields, hv]
  · have hnull : form.normal .null = .null := by
      cases form <;> rfl
    simp [Follows, Form.optional, Form.normalMembers, arrangedFields, hv, hnull, Form.isDefault]
  · have hwritten := h v x (hc v hv hne) hx
    have hkeep : Form.isDefault (form.normal v) = false := hwritten ▸ hd x
    simp [Follows, Form.optional, Form.normalMembers, arrangedFields, hv, hwritten, hkeep]

theorem follows_optionalText {o : Option String} (hr : optional name string fields = .ok o) :
    Follows [Form.optional name .string] fields (Writing.optionalText name o) := by
  have hwrite : Writing.optionalText name o = (o.map fun s => (name, Value.str s)).toList := by
    cases o <;> rfl
  rw [hwrite]
  refine follows_optional normalizes_string (fun _ => rfl) (fun v hv hne => ?_) hr
  rcases optional_eq_ok hr with ⟨hnone | hnull, -⟩ | ⟨w, s, hw, -, hs, -⟩
  · simp [hv] at hnone
  · rw [hv] at hnull
    exact absurd (Option.some.inj hnull) hne
  · obtain rfl : v = w := Option.some.inj (hv.symm.trans hw)
    exact ⟨s, string_eq_ok hs⟩

/-- A list that may be left out is written unless nothing was read from it. -/
theorem follows_optionalList (h : Normalizes form read write)
    (hc : ∀ v, fields.get? name = some v → v ≠ .null → (Form.list form).Conforms v) {xs : List α}
    (hr : withDefault [] name (list read) fields = .ok xs) :
    Follows [Form.optional name (.list form)] fields (Writing.optionalList name write xs) := by
  obtain ⟨o, ho, rfl⟩ := withDefault_eq_ok hr
  rcases optional_eq_ok ho with ⟨hv | hv, rfl⟩ | ⟨v, ys, hv, hne, hys, rfl⟩
  · simp [Follows, Form.optional, Form.normalMembers, arrangedFields, hv, Writing.optionalList]
  · simp [Follows, Form.optional, Form.normalMembers, arrangedFields, hv, Writing.optionalList,
      Form.normal, Form.isDefault]
  · have hwritten := normalizes_list h v ys (hc v hv hne) hys
    rw [Writing.list, arranged_arr] at hwritten
    cases ys with
    | nil =>
      simp [Follows, Form.optional, Form.normalMembers, arrangedFields, hv, Writing.optionalList,
        ← hwritten, Form.isDefault]
    | cons y ys =>
      simp [Follows, Form.optional, Form.normalMembers, arrangedFields, hv, Writing.optionalList,
        Writing.field, Writing.list, ← hwritten, Form.isDefault]

theorem follows_strings
    (hc : ∀ v, fields.get? name = some v → v ≠ .null → Form.strings.Conforms v) {xs : List String}
    (hr : withDefault [] name (list string) fields = .ok xs) :
    Follows [Form.optional name Form.strings] fields (Writing.strings name xs) :=
  follows_optionalList normalizes_string hc hr

/-- A mark is written if it is set. -/
theorem follows_mark {b : Bool} (hr : withDefault false name boolean fields = .ok b) :
    Follows [Form.optional name .boolean] fields
      (if b then Writing.field name (.bool true) else []) := by
  obtain ⟨o, ho, rfl⟩ := withDefault_eq_ok hr
  rcases optional_eq_ok ho with ⟨hv | hv, rfl⟩ | ⟨v, c, hv, -, hc, rfl⟩
  · simp [Follows, Form.optional, Form.normalMembers, arrangedFields, hv]
  · simp [Follows, Form.optional, Form.normalMembers, arrangedFields, hv, Form.normal,
      Form.isDefault]
  · cases v with
    | bool d =>
      obtain rfl : d = c := Except.ok.inj hc
      cases d <;> simp [Follows, Form.optional, Form.normalMembers, arrangedFields, hv,
        Form.normal, Form.isDefault, Writing.field, arranged]
    | _ => simp [boolean] at hc

/-! ### Parts of documents -/

theorem normalizes_persona :
    Normalizes (.record (Form.texts ["name"])) persona Writing.persona := by
  rintro _ x ⟨fields, rfl, -⟩ hr
  simp only [persona, part, bind_eq_ok, pure_eq_ok] at hr
  obtain ⟨name, hname, rfl⟩ := hr
  exact (follows_text hname).record

theorem normalizes_phase :
    Normalizes (.record (Form.texts ["id", "name"])) phase Writing.phase := by
  rintro _ x ⟨fields, rfl, -⟩ hr
  simp only [phase, part, bind_eq_ok, pure_eq_ok] at hr
  obtain ⟨id, hid, name, hname, rfl⟩ := hr
  exact ((follows_text hid).append (follows_text hname)).record

theorem normalizes_goal :
    Normalizes (.record (Form.texts ["id", "name"])) goal Writing.goal := by
  rintro _ x ⟨fields, rfl, -⟩ hr
  simp only [goal, part, bind_eq_ok, pure_eq_ok] at hr
  obtain ⟨id, hid, name, hname, rfl⟩ := hr
  exact ((follows_text hid).append (follows_text hname)).record

theorem normalizes_enablementOutcome :
    Normalizes (.record (Form.texts ["id", "source_id"])) enablementOutcome
      Writing.enablementOutcome := by
  rintro _ x ⟨fields, rfl, -⟩ hr
  simp only [enablementOutcome, part, bind_eq_ok, pure_eq_ok] at hr
  obtain ⟨id, hid, source, hsource, rfl⟩ := hr
  exact ((follows_text hid).append (follows_text hsource)).record

theorem normalizes_enablementAction :
    Normalizes (.record (Form.texts ["id", "name", "source_id"])) enablementAction
      Writing.enablementAction := by
  rintro _ x ⟨fields, rfl, -⟩ hr
  simp only [enablementAction, part, bind_eq_ok, pure_eq_ok] at hr
  obtain ⟨id, hid, name, hname, source, hsource, rfl⟩ := hr
  exact (((follows_text hid).append (follows_text hname)).append (follows_text hsource)).record

theorem normalizes_learning :
    Normalizes (.record (Form.texts ["title", "url"])) learning Writing.learning := by
  rintro _ x ⟨fields, rfl, -⟩ hr
  simp only [learning, part, bind_eq_ok, pure_eq_ok] at hr
  obtain ⟨title, htitle, url, hurl, rfl⟩ := hr
  exact ((follows_text htitle).append (follows_text hurl)).record

theorem normalizes_resource :
    Normalizes (.record Form.resource) resource Writing.resource := by
  rintro _ x ⟨fields, rfl, -⟩ hr
  simp only [resource, part, bind_eq_ok, pure_eq_ok] at hr
  obtain ⟨id, hid, name, hname, action, haction, url, hurl, rfl⟩ := hr
  exact ((((follows_text hid).append (follows_text hname)).append (follows_text haction)).append
    (follows_text hurl)).record

theorem normalizes_lane : Normalizes (.record Form.lane) lane Writing.lane := by
  rintro _ x ⟨fields, rfl, hm⟩ hr
  simp only [lane, part, bind_eq_ok, pure_eq_ok] at hr
  obtain ⟨id, hid, name, hname, a, ha, rfl⟩ := hr
  have hactor := follows_required normalizes_actor
    (Form.conforms_of_mem (by simp [Form.lane]) hm) ha
  exact (((follows_text hid).append (follows_text hname)).append hactor).record

theorem normalizes_task : Normalizes (.record Form.task) task Writing.task := by
  rintro _ x ⟨fields, rfl, hm⟩ hr
  simp only [task, part, bind_eq_ok, pure_eq_ok] at hr
  obtain ⟨id, hid, lane, hlane, name, hname, source, hsource, links, hlinks, mark, hmark, rfl⟩ := hr
  have hlinks := follows_strings (Form.conforms_of_optional (by simp [Form.task]) hm) hlinks
  exact ((((((follows_text hid).append (follows_text hlane)).append (follows_text hname)).append
    (follows_optionalText hsource)).append hlinks).append (follows_mark hmark)).record

/-- The score of a journey action is read before the rest and written behind it. -/
theorem normalizes_journeyAction :
    Normalizes (.record Form.journeyAction) journeyAction Writing.journeyAction := by
  rintro _ x ⟨fields, rfl, hm⟩ hr
  have hscored : ∃ v, Fields.get? "emotion_score" fields = some v ∧
      (Form.integer (-2) 2).Conforms v :=
    Form.conforms_of_mem (by simp [Form.journeyAction]) hm
  obtain ⟨v, hv, -⟩ := id hscored
  simp only [journeyAction, unscored, bind_eq_ok, pure_eq_ok] at hr
  obtain ⟨o, ho, action, ⟨id, hid, name, hname, phase, hphase, touchpoints, htouchpoints, thoughts,
    hthoughts, rfl⟩, hx⟩ := hr
  obtain ⟨n, rfl, hscore⟩ := required_of_present hv ho
  obtain rfl := pure_eq_ok.mp hx
  have htouchpoints := follows_strings
    (Form.conforms_of_optional (by simp [Form.journeyAction]) hm) htouchpoints
  have hthoughts := follows_strings
    (Form.conforms_of_optional (by simp [Form.journeyAction]) hm) hthoughts
  exact ((((((follows_text hid).append (follows_text hname)).append (follows_text hphase)).append
    htouchpoints).append hthoughts).append
    (follows_required normalizes_score hscored hscore)).record

/-- The rationale of a success factor is there, though reading could do without it. -/
theorem normalizes_factor : Normalizes (.record Form.factor) factor Writing.factor := by
  rintro _ x ⟨fields, rfl, hm⟩ hr
  obtain ⟨v, hv, -⟩ : ∃ v, Fields.get? "rationale" fields = some v ∧ Form.string.Conforms v :=
    Form.conforms_of_mem (by simp [Form.factor]) hm
  simp only [factor, part, bind_eq_ok, pure_eq_ok] at hr
  obtain ⟨id, hid, goal, hgoal, source, hsource, o, ho, rfl⟩ := hr
  obtain ⟨rationale, rfl, hrationale⟩ := required_of_present hv ho
  exact ((((follows_text hid).append (follows_text hgoal)).append
    (follows_optionalText hsource)).append (follows_text hrationale)).record

theorem normalizes_indicator :
    Normalizes (.record Form.indicator) indicator (Writing.indicator .float) := by
  rintro _ x ⟨fields, rfl, hm⟩ hr
  simp only [indicator, part, bind_eq_ok, pure_eq_ok] at hr
  obtain ⟨id, hid, factor, hfactor, name, hname, definition, hdefinition, unit, hunit, target,
    htarget, rfl⟩ := hr
  have htarget := follows_required normalizes_number
    (Form.conforms_of_mem (by simp [Form.indicator]) hm) htarget
  exact ((((((follows_text hid).append (follows_text hfactor)).append (follows_text hname)).append
    (follows_optionalText hdefinition)).append (follows_optionalText hunit)).append
    htarget).record

theorem normalizes_skill : Normalizes (.record Form.skill) skill Writing.skill := by
  rintro _ x ⟨fields, rfl, hm⟩ hr
  simp only [skill, part, bind_eq_ok, pure_eq_ok] at hr
  obtain ⟨id, hid, name, hname, action, haction, learnings, hlearnings, rfl⟩ := hr
  have hlearnings := follows_optionalList normalizes_learning
    (Form.conforms_of_optional (by simp [Form.skill]) hm) hlearnings
  exact ((((follows_text hid).append (follows_text hname)).append (follows_text haction)).append
    hlearnings).record

/-! ### Documents -/

/-- What is read of one kind of document is written as the fields of its table. -/
def FollowsDocument (k : Kind) (read : Fields → Read Document) : Prop :=
  ∀ fields d, Form.MembersConform (Form.document k) fields → read fields = .ok d →
    Follows (Form.document k) fields
      (Writing.text "kind" k.text ++ Writing.knownFields .float d)

theorem follows_kind {k : Kind} (hm : Form.MembersConform (Form.document k) fields) :
    Follows [Form.required "kind" (.constant k.text)] fields (Writing.text "kind" k.text) := by
  simp [Follows, Form.required, Form.normalMembers, Writing.text, Writing.field, arrangedFields,
    arranged, kind_of_conforms hm, Form.normal]

theorem follows_journeyMap :
    FollowsDocument .journey fun fields => .journey <$> journeyMap fields := by
  intro fields d hm hr
  simp only [map_eq_ok, journeyMap, bind_eq_ok, pure_eq_ok] at hr
  obtain ⟨j, ⟨actions, hactions, version, hversion, id, hid, p, hp, phases, hphases, rfl⟩, rfl⟩ :=
    hr
  have hp := follows_optional normalizes_persona (fun _ => rfl)
    (Form.conforms_of_optional (by simp [Form.document, Form.body]) hm) hp
  have hphases := follows_required (normalizes_list normalizes_phase)
    (Form.conforms_of_mem (by simp [Form.document, Form.body]) hm) hphases
  have hactions := follows_required (normalizes_list normalizes_journeyAction)
    (Form.conforms_of_mem (by simp [Form.document, Form.body]) hm) hactions
  exact (follows_kind hm).append (((((follows_text hversion).append (follows_text hid)).append
    hp).append hphases).append hactions)

theorem follows_blueprint :
    FollowsDocument .blueprint fun fields => .blueprint <$> blueprint fields := by
  intro fields d hm hr
  simp only [map_eq_ok, blueprint, bind_eq_ok, pure_eq_ok] at hr
  obtain ⟨b, ⟨version, hversion, id, hid, lanes, hlanes, tasks, htasks, rfl⟩, rfl⟩ := hr
  have hlanes := follows_required (normalizes_list normalizes_lane)
    (Form.conforms_of_mem (by simp [Form.document, Form.body]) hm) hlanes
  have htasks := follows_required (normalizes_list normalizes_task)
    (Form.conforms_of_mem (by simp [Form.document, Form.body]) hm) htasks
  exact (follows_kind hm).append ((((follows_text hversion).append (follows_text hid)).append
    hlanes).append htasks)

theorem follows_outcome : FollowsDocument .outcome fun fields => .outcome <$> outcome fields := by
  intro fields d hm hr
  simp only [map_eq_ok, outcome, bind_eq_ok, pure_eq_ok] at hr
  obtain ⟨o, ⟨version, hversion, id, hid, g, hg, f, hf, i, hi, rfl⟩, rfl⟩ := hr
  have hg := follows_required normalizes_goal
    (Form.conforms_of_mem (by simp [Form.document, Form.body]) hm) hg
  have hf := follows_required normalizes_factor
    (Form.conforms_of_mem (by simp [Form.document, Form.body]) hm) hf
  have hi := follows_required normalizes_indicator
    (Form.conforms_of_mem (by simp [Form.document, Form.body]) hm) hi
  exact (follows_kind hm).append (((((follows_text hversion).append (follows_text hid)).append
    hg).append hf).append hi)

theorem follows_enablementMap :
    FollowsDocument .enablement fun fields => .enablement <$> enablementMap fields := by
  intro fields d hm hr
  simp only [map_eq_ok, enablementMap, bind_eq_ok, pure_eq_ok] at hr
  obtain ⟨e, ⟨version, hversion, id, hid, outcomes, houtcomes, actions, hactions, skills, hskills,
    knowledge, hknowledge, tools, htools, rfl⟩, rfl⟩ := hr
  have houtcomes := follows_required (normalizes_list normalizes_enablementOutcome)
    (Form.conforms_of_mem (by simp [Form.document, Form.body]) hm) houtcomes
  have hactions := follows_required (normalizes_list normalizes_enablementAction)
    (Form.conforms_of_mem (by simp [Form.document, Form.body]) hm) hactions
  have hskills := follows_optionalList normalizes_skill
    (Form.conforms_of_optional (by simp [Form.document, Form.body]) hm) hskills
  have hknowledge := follows_optionalList normalizes_resource
    (Form.conforms_of_optional (by simp [Form.document, Form.body]) hm) hknowledge
  have htools := follows_optionalList normalizes_resource
    (Form.conforms_of_optional (by simp [Form.document, Form.body]) hm) htools
  exact (follows_kind hm).append (((((((follows_text hversion).append (follows_text hid)).append
    houtcomes).append hactions).append hskills).append hknowledge).append htools)

end Reading

namespace Document

open Fields Value

variable {settings : Settings} {d : Document} {v : Value}

theorem follows_of_ofValue {fields : Fields} {k : Kind}
    (hm : Form.MembersConform (Form.document k) fields) (h : ofValue (.obj fields) = .ok d) :
    Reading.Follows (Form.document k) fields
      (Writing.text "kind" k.text ++ Writing.knownFields .float d) := by
  simp only [ofValue, kind_of_conforms hm, Kind.ofText?_text] at h
  cases k with
  | journey => exact Reading.follows_journeyMap fields d hm h
  | blueprint => exact Reading.follows_blueprint fields d hm h
  | outcome => exact Reading.follows_outcome fields d hm h
  | enablement => exact Reading.follows_enablementMap fields d hm h

/-- The names of a table are those that reading knows. -/
theorem names_document (k : Kind) :
    (Form.document k).map (·.name) = "kind" :: Reading.known k := by
  cases k <;> rfl

/-- The value of a loaded document is the normal form of the value that it was loaded from. -/
theorem toValue_of_load (hp : v.Proper) (h : load settings v = .ok d) : d.toValue = normal v := by
  obtain ⟨fields, rfl, hm, hd, hextra, -⟩ := read_of_load h
  have hkind := namedKind_of_load settings h
  have hknown := follows_of_ofValue hm hd
  -- what is kept is arranged as all that a proper value holds
  have hkept : arrangedFields d.extra = d.extra := by
    rw [hextra]
    refine arrangedFields_eq_self fun entry hentry => ?_
    cases hp with
    | obj _ hv => exact Proper.arranged_eq (hv entry (mem_excluding.mp hentry).1)
  rw [toValue_eq_outline (loadable_of_load hp h).target, outline, arranged, arrangedFields_append,
    hknown, hkept, hextra]
  simp only [normal, hkind, Reading.extra, names_document]

/-- A field that the kind does not know has in the normal form the value that it had. -/
theorem get?_normal_of_unknown (hp : v.Proper) {k : Kind} (hk : namedKind v = .ok k)
    {name : String} (hn : name ∉ (Form.document k).map (·.name)) :
    (normal v).get? name = v.get? name := by
  cases v with
  | obj fields =>
    have hasc : Ascending fields := by
      cases hp with
      | obj hnames _ => exact hnames
    have hknown :
        Fields.get? name (Form.normalMembers (Form.document k) fields).reverse = none := by
      refine get?_eq_none_iff.mpr fun hmem => hn ?_
      refine Form.names_normalMembers (Form.document k) fields ?_
      simpa [Fields.names] using hmem
    simp only [normal, hk, Value.get?]
    rw [get?_ofEntries, List.reverse_append, get?_append, (hasc.excluding _).get?_reverse,
      get?_excluding, if_neg hn, hknown, Option.or_none]
  | _ => simp [namedKind, Value.get?] at hk

end Document

end ServiceMaps
