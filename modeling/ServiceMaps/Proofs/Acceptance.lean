import ServiceMaps.Document.Reading
import ServiceMaps.Document.Writing
import ServiceMaps.Proofs.Conformity
import ServiceMaps.Proofs.Fields
import ServiceMaps.Proofs.Number.Rounding

/-!
Inspection and reading agree: every value of a document's form is read as a document. Each form is
met by the reader of its part, and what the reader returns is written with texts that all stand in
the value at the same places, so that reading invents none of them.
-/
namespace ServiceMaps

namespace Value

mutual

/-- Every text of the first value stands at the same place in the second. -/
def Keeps : Value → Value → Prop
  | .str s, v => v = .str s
  | .arr items, v => ∃ found, v = .arr found ∧ KeepsItems items found
  | .obj fields, v => ∃ found, v = .obj found ∧ KeepsFields fields found
  | .null, _ | .bool _, _ | .int _, _ | .float _, _ => True

def KeepsItems : List Value → List Value → Prop
  | [], found => found = []
  | v :: rest, found => ∃ w more, found = w :: more ∧ Keeps v w ∧ KeepsItems rest more

def KeepsFields : Fields → Fields → Prop
  | [], _ => True
  | (name, v) :: rest, found => (∃ w, found.get? name = some w ∧ Keeps v w) ∧ KeepsFields rest found

end

theorem keepsFields_append (fields more found : Fields) :
    KeepsFields (fields ++ more) found ↔ KeepsFields fields found ∧ KeepsFields more found := by
  induction fields with
  | nil => simp [KeepsFields]
  | cons entry rest ih => simp [KeepsFields, ih, and_assoc]

theorem keepsFields_field (name : String) (v : Value) (found : Fields) :
    KeepsFields (Writing.field name v) found ↔ ∃ w, found.get? name = some w ∧ Keeps v w := by
  simp [Writing.field, KeepsFields]

theorem Proper.get? {fields : Fields} (h : Proper (.obj fields)) {name : String} {v : Value}
    (hv : fields.get? name = some v) : Proper v := by
  cases h with
  | obj _ hentries => exact hentries _ (Fields.mem_of_get? hv)

end Value

namespace Reading

open Value

variable {α : Type}

/-- The reader takes every value of a form. What it returns is written with texts of the value, and
has a property if the value is proper. -/
def Takes (form : Form) (read : Value → Read α) (write : α → Value) (good : α → Prop) : Prop :=
  ∀ v, form.Conforms v → ∃ x, read v = .ok x ∧ (write x).Keeps v ∧ (v.Proper → good x)

/-- The property of what is read from a form that promises nothing. -/
def anything (_ : α) : Prop := True

theorem takes_string : Takes .string string .str anything := by
  rintro v ⟨s, rfl⟩
  exact ⟨s, rfl, rfl, fun _ => trivial⟩

theorem takes_boolean : Takes .boolean boolean .bool anything := by
  rintro v ⟨b, rfl⟩
  exact ⟨b, rfl, trivial, fun _ => trivial⟩

/-- A number is read as a finite floating number in its one form. -/
theorem takes_number : Takes .number number .float fun x => x.isFinite = true ∧ x.Canonical := by
  intro v hv
  cases v with
  | int n =>
    refine ⟨.ofInt n, rfl, trivial, fun hp => ?_⟩
    cases hp with
    | int hl hg => exact ⟨Binary64.isFinite_ofInt (by omega), Binary64.canonical_ofInt n⟩
  | float x =>
    refine ⟨x, rfl, trivial, fun hp => ?_⟩
    cases hp with
    | float hf hc => exact ⟨hf, hc⟩
  | _ => simp [Form.Conforms, Value.isNumber] at hv

/-- A score is read as the whole number that it stands for, however it is written. -/
theorem whole_of_integer? {v : Value} {n : Int} (hn : Form.integer? v = some n) (hl : -2 ≤ n)
    (hg : n ≤ 2) : whole v = .ok n := by
  have hwhole : ∀ x : Binary64, number v = .ok x → x.toInt? = some n → whole v = .ok n := by
    intro x hx ht
    have hlow : (-2 ^ 31 : Int) ≤ n := by omega
    have hhigh : n ≤ (2 ^ 31 - 1 : Int) := by omega
    simp only [whole, hx, bind, Except.bind, ht, hlow, hhigh]
    rfl
  cases v with
  | int m =>
    obtain rfl : m = n := by simpa [Form.integer?] using hn
    refine hwhole _ rfl ?_
    interval_cases m <;> decide +kernel
  | float x => exact hwhole x rfl hn
  | _ => simp [Form.integer?] at hn

theorem takes_score : Takes (.integer (-2) 2) whole .int fun n => -2 ≤ n ∧ n ≤ 2 := by
  rintro v ⟨n, hn, hl, hg⟩
  exact ⟨n, whole_of_integer? hn hl hg, trivial, fun _ => ⟨hl, hg⟩⟩

theorem mapM_takes {form : Form} {read : Value → Read α} {write : α → Value} {good : α → Prop}
    (h : Takes form read write good) {items : List Value} (hc : ∀ v ∈ items, form.Conforms v) :
    ∃ xs, items.mapM read = .ok xs ∧ KeepsItems (xs.map write) items ∧
      ((∀ v ∈ items, v.Proper) → ∀ x ∈ xs, good x) := by
  induction items with
  | nil => exact ⟨[], rfl, rfl, by simp⟩
  | cons v rest ih =>
    obtain ⟨x, hx, hk, hg⟩ := h v (hc v (by simp))
    obtain ⟨xs, hxs, hks, hgs⟩ := ih fun w hw => hc w (List.mem_cons_of_mem _ hw)
    refine ⟨x :: xs, ?_, ⟨v, rest, rfl, hk, hks⟩, fun hp => ?_⟩
    · simp only [List.mapM_cons, hx, hxs, bind, Except.bind, pure, Except.pure]
    · exact List.forall_mem_cons.mpr ⟨hg (hp v (by simp)),
        hgs fun w hw => hp w (List.mem_cons_of_mem _ hw)⟩

theorem takes_list {form : Form} {read : Value → Read α} {write : α → Value} {good : α → Prop}
    (h : Takes form read write good) :
    Takes (.list form) (list read) (Writing.list write) fun xs => ∀ x ∈ xs, good x := by
  rintro v ⟨items, rfl, hc⟩
  obtain ⟨xs, hxs, hks, hgs⟩ := mapM_takes h hc
  refine ⟨xs, hxs, ⟨items, rfl, hks⟩, fun hp => ?_⟩
  cases hp with
  | arr hitems => exact hgs hitems

/-- A field that its form wants is read with its form's reader. -/
theorem required_takes {form : Form} {read : Value → Read α} {write : α → Value} {good : α → Prop}
    (h : Takes form read write good) {name : String} {fields : Fields}
    (hf : ∃ v, fields.get? name = some v ∧ form.Conforms v) :
    ∃ x, required name read fields = .ok x ∧ KeepsFields (Writing.field name (write x)) fields ∧
      (Proper (.obj fields) → good x) := by
  obtain ⟨v, hv, hc⟩ := hf
  obtain ⟨x, hx, hk, hg⟩ := h v hc
  exact ⟨x, by simp only [required, hv, hx], (keepsFields_field _ _ _).mpr ⟨v, hv, hk⟩,
    fun hp => hg (hp.get? hv)⟩

/-- A field that may be left out is read with its form's reader where it is there. -/
theorem optional_takes {form : Form} {read : Value → Read α} {write : α → Value} {good : α → Prop}
    (h : Takes form read write good) {name : String} {fields : Fields}
    (hf : fields.get? name = none ∨ fields.get? name = some .null ∨
      ∃ v, fields.get? name = some v ∧ form.Conforms v) :
    ∃ x : Option α, optional name read fields = .ok x ∧
      (∀ y ∈ x, KeepsFields (Writing.field name (write y)) fields) ∧
      (Proper (.obj fields) → ∀ y ∈ x, good y) := by
  rcases hf with hv | hv | ⟨v, hv, hc⟩
  · exact ⟨none, by simp [optional, present, hv, bind, Except.bind, pure, Except.pure],
      by simp, by simp⟩
  · exact ⟨none, by simp [optional, present, hv, nullable, Functor.map, Except.map, bind,
      Except.bind, pure, Except.pure], by simp, by simp⟩
  · obtain ⟨x, hx, hk, hg⟩ := h v hc
    have hnull : nullable read v = .ok (some x) := by
      cases v with
      | null => exact absurd hc (Form.not_conforms_null form)
      | _ => simp [nullable, hx, Functor.map, Except.map]
    refine ⟨some x, ?_, ?_, ?_⟩
    · simp [optional, present, hv, hnull, Functor.map, Except.map, bind, Except.bind, pure,
        Except.pure]
    · rintro y ⟨⟩
      exact (keepsFields_field _ _ _).mpr ⟨v, hv, hk⟩
    · rintro hp y ⟨⟩
      exact hg (hp.get? hv)

/-- A list that may be left out is written only if something is in it. -/
theorem optionalList_takes {form : Form} {read : Value → Read α} {write : α → Value}
    {good : α → Prop} (h : Takes form read write good) {name : String} {fields : Fields}
    (hf : fields.get? name = none ∨ fields.get? name = some .null ∨
      ∃ v, fields.get? name = some v ∧ (Form.list form).Conforms v) :
    ∃ xs, withDefault [] name (list read) fields = .ok xs ∧
      KeepsFields (Writing.optionalList name write xs) fields ∧
      (Proper (.obj fields) → ∀ x ∈ xs, good x) := by
  obtain ⟨x, hx, hk, hg⟩ := optional_takes (takes_list h) hf
  refine ⟨x.getD [], by simp only [withDefault, hx, bind, Except.bind, pure, Except.pure], ?_, ?_⟩
  · cases x with
    | none => simp [Writing.optionalList, KeepsFields]
    | some xs =>
      cases xs with
      | nil => simp [Writing.optionalList, KeepsFields]
      | cons y ys => exact hk _ rfl
  · intro hp
    cases x with
    | none => simp
    | some xs => exact hg hp xs rfl

theorem optionalText_takes {name : String} {fields : Fields}
    (hf : fields.get? name = none ∨ fields.get? name = some .null ∨
      ∃ v, fields.get? name = some v ∧ Form.string.Conforms v) :
    ∃ x, optional name string fields = .ok x ∧
      KeepsFields (Writing.optionalText name x) fields := by
  obtain ⟨x, hx, hk, -⟩ := optional_takes takes_string hf
  refine ⟨x, hx, ?_⟩
  cases x with
  | none => simp [Writing.optionalText, KeepsFields]
  | some s => exact hk s rfl

theorem text_takes {name : String} {fields : Fields}
    (hf : ∃ v, fields.get? name = some v ∧ Form.string.Conforms v) :
    ∃ s, required name string fields = .ok s ∧ KeepsFields (Writing.text name s) fields := by
  obtain ⟨s, hs, hk, -⟩ := required_takes takes_string hf
  exact ⟨s, hs, hk⟩

theorem takes_persona :
    Takes (.record (Form.texts ["name"])) persona Writing.persona anything := by
  rintro _ ⟨fields, rfl, hm⟩
  obtain ⟨hname, -⟩ := Form.membersConform_required.mp hm
  obtain ⟨name, hname, kname⟩ := text_takes hname
  refine ⟨⟨name⟩, ?_, ⟨fields, rfl, ?_⟩, fun _ => trivial⟩
  · simp only [persona, part, hname, bind, Except.bind, pure, Except.pure]
  · exact kname

theorem takes_phase :
    Takes (.record (Form.texts ["id", "name"])) phase Writing.phase anything := by
  rintro _ ⟨fields, rfl, hm⟩
  obtain ⟨hid, hm⟩ := Form.membersConform_required.mp hm
  obtain ⟨hname, -⟩ := Form.membersConform_required.mp hm
  obtain ⟨id, hid, kid⟩ := text_takes hid
  obtain ⟨name, hname, kname⟩ := text_takes hname
  refine ⟨⟨id, name⟩, ?_, ⟨fields, rfl, ?_⟩, fun _ => trivial⟩
  · simp only [phase, part, hid, hname, bind, Except.bind, pure, Except.pure]
  · simp only [keepsFields_append, kid, kname, and_self]

theorem takes_goal :
    Takes (.record (Form.texts ["id", "name"])) goal Writing.goal anything := by
  rintro _ ⟨fields, rfl, hm⟩
  obtain ⟨hid, hm⟩ := Form.membersConform_required.mp hm
  obtain ⟨hname, -⟩ := Form.membersConform_required.mp hm
  obtain ⟨id, hid, kid⟩ := text_takes hid
  obtain ⟨name, hname, kname⟩ := text_takes hname
  refine ⟨⟨id, name⟩, ?_, ⟨fields, rfl, ?_⟩, fun _ => trivial⟩
  · simp only [goal, part, hid, hname, bind, Except.bind, pure, Except.pure]
  · simp only [keepsFields_append, kid, kname, and_self]

theorem takes_enablementOutcome :
    Takes (.record (Form.texts ["id", "source_id"])) enablementOutcome Writing.enablementOutcome
      anything := by
  rintro _ ⟨fields, rfl, hm⟩
  obtain ⟨hid, hm⟩ := Form.membersConform_required.mp hm
  obtain ⟨hsource, -⟩ := Form.membersConform_required.mp hm
  obtain ⟨id, hid, kid⟩ := text_takes hid
  obtain ⟨source, hsource, ksource⟩ := text_takes hsource
  refine ⟨⟨id, source⟩, ?_, ⟨fields, rfl, ?_⟩, fun _ => trivial⟩
  · simp only [enablementOutcome, part, hid, hsource, bind, Except.bind, pure, Except.pure]
  · simp only [keepsFields_append, kid, ksource, and_self]

theorem takes_enablementAction :
    Takes (.record (Form.texts ["id", "name", "source_id"])) enablementAction
      Writing.enablementAction anything := by
  rintro _ ⟨fields, rfl, hm⟩
  obtain ⟨hid, hm⟩ := Form.membersConform_required.mp hm
  obtain ⟨hname, hm⟩ := Form.membersConform_required.mp hm
  obtain ⟨hsource, -⟩ := Form.membersConform_required.mp hm
  obtain ⟨id, hid, kid⟩ := text_takes hid
  obtain ⟨name, hname, kname⟩ := text_takes hname
  obtain ⟨source, hsource, ksource⟩ := text_takes hsource
  refine ⟨⟨id, name, source⟩, ?_, ⟨fields, rfl, ?_⟩, fun _ => trivial⟩
  · simp only [enablementAction, part, hid, hname, hsource, bind, Except.bind, pure, Except.pure]
  · simp only [keepsFields_append, kid, kname, ksource, and_self]

theorem takes_learning :
    Takes (.record (Form.texts ["title", "url"])) learning Writing.learning anything := by
  rintro _ ⟨fields, rfl, hm⟩
  obtain ⟨htitle, hm⟩ := Form.membersConform_required.mp hm
  obtain ⟨hurl, -⟩ := Form.membersConform_required.mp hm
  obtain ⟨title, htitle, ktitle⟩ := text_takes htitle
  obtain ⟨url, hurl, kurl⟩ := text_takes hurl
  refine ⟨⟨title, url⟩, ?_, ⟨fields, rfl, ?_⟩, fun _ => trivial⟩
  · simp only [learning, part, htitle, hurl, bind, Except.bind, pure, Except.pure]
  · simp only [keepsFields_append, ktitle, kurl, and_self]

theorem takes_resource :
    Takes (.record (Form.texts ["id", "name", "action_id", "url"])) resource Writing.resource
      anything := by
  rintro _ ⟨fields, rfl, hm⟩
  obtain ⟨hid, hm⟩ := Form.membersConform_required.mp hm
  obtain ⟨hname, hm⟩ := Form.membersConform_required.mp hm
  obtain ⟨haction, hm⟩ := Form.membersConform_required.mp hm
  obtain ⟨hurl, -⟩ := Form.membersConform_required.mp hm
  obtain ⟨id, hid, kid⟩ := text_takes hid
  obtain ⟨name, hname, kname⟩ := text_takes hname
  obtain ⟨action, haction, kaction⟩ := text_takes haction
  obtain ⟨url, hurl, kurl⟩ := text_takes hurl
  refine ⟨⟨id, name, action, url⟩, ?_, ⟨fields, rfl, ?_⟩, fun _ => trivial⟩
  · simp only [resource, part, hid, hname, haction, hurl, bind, Except.bind, pure, Except.pure]
  · simp only [keepsFields_append, kid, kname, kaction, kurl, and_self]

/-- Who acts is read from the names that the form allows. -/
theorem takes_actor : Takes (.choice (Actor.all.map Actor.text)) actor (fun a => .str a.text)
    anything := by
  rintro _ ⟨s, hs, rfl⟩
  obtain ⟨a, -, rfl⟩ := List.mem_map.mp hs
  exact ⟨a, by simp only [actor, actor.ofName, Actor.ofText?_text], rfl, fun _ => trivial⟩

theorem takes_lane : Takes (.record Form.lane) lane Writing.lane anything := by
  rintro _ ⟨fields, rfl, hm⟩
  obtain ⟨hid, hm⟩ := Form.membersConform_required.mp hm
  obtain ⟨hname, hm⟩ := Form.membersConform_required.mp hm
  obtain ⟨hactor, -⟩ := Form.membersConform_required.mp hm
  obtain ⟨id, hid, kid⟩ := text_takes hid
  obtain ⟨name, hname, kname⟩ := text_takes hname
  obtain ⟨a, hactor, kactor, -⟩ := required_takes takes_actor hactor
  refine ⟨⟨id, name, a⟩, ?_, ⟨fields, rfl, ?_⟩, fun _ => trivial⟩
  · simp only [lane, part, hid, hname, hactor, bind, Except.bind, pure, Except.pure]
  · simp only [keepsFields_append, kid, kname, and_self, true_and]
    exact kactor

theorem takes_task : Takes (.record Form.task) task Writing.task anything := by
  rintro _ ⟨fields, rfl, hm⟩
  obtain ⟨hid, hm⟩ := Form.membersConform_required.mp hm
  obtain ⟨hlane, hm⟩ := Form.membersConform_required.mp hm
  obtain ⟨hname, hm⟩ := Form.membersConform_required.mp hm
  obtain ⟨hsource, hm⟩ := Form.membersConform_optional.mp hm
  obtain ⟨hlinks, hm⟩ := Form.membersConform_optional.mp hm
  obtain ⟨hreadonly, -⟩ := Form.membersConform_optional.mp hm
  obtain ⟨id, hid, kid⟩ := text_takes hid
  obtain ⟨lane, hlane, klane⟩ := text_takes hlane
  obtain ⟨name, hname, kname⟩ := text_takes hname
  obtain ⟨source, hsource, ksource⟩ := optionalText_takes hsource
  obtain ⟨links, hlinks, klinks, -⟩ := optionalList_takes takes_string hlinks
  obtain ⟨readonly, hreadonly, kreadonly, -⟩ := optional_takes takes_boolean hreadonly
  refine ⟨⟨id, lane, name, source, links, readonly.getD false⟩, ?_, ⟨fields, rfl, ?_⟩,
    fun _ => trivial⟩
  · simp only [task, part, withDefault, hid, hlane, hname, hsource, hreadonly, bind, Except.bind,
      pure, Except.pure]
    simp only [withDefault, bind, Except.bind, pure, Except.pure] at hlinks
    simp only [hlinks]
  · simp only [keepsFields_append, kid, klane, kname, ksource, and_self, true_and]
    refine ⟨klinks, ?_⟩
    rcases readonly with _ | _ | _
    · trivial
    · trivial
    · exact kreadonly true rfl

/-- A journey action is read whole, and its score is in range. -/
theorem takes_journeyAction : Takes (.record Form.journeyAction) journeyAction
    Writing.journeyAction fun a => -2 ≤ a.emotionScore ∧ a.emotionScore ≤ 2 := by
  rintro _ ⟨fields, rfl, hm⟩
  obtain ⟨hid, hm⟩ := Form.membersConform_required.mp hm
  obtain ⟨hname, hm⟩ := Form.membersConform_required.mp hm
  obtain ⟨hphase, hm⟩ := Form.membersConform_required.mp hm
  obtain ⟨htouch, hm⟩ := Form.membersConform_optional.mp hm
  obtain ⟨hthoughts, hm⟩ := Form.membersConform_optional.mp hm
  obtain ⟨⟨v, hv, hc⟩, -⟩ := Form.membersConform_required.mp hm
  obtain ⟨id, hid, kid⟩ := text_takes hid
  obtain ⟨name, hname, kname⟩ := text_takes hname
  obtain ⟨phase, hphase, kphase⟩ := text_takes hphase
  obtain ⟨touch, htouch, ktouch, -⟩ := optionalList_takes takes_string htouch
  obtain ⟨thoughts, hthoughts, kthoughts, -⟩ := optionalList_takes takes_string hthoughts
  obtain ⟨score, hscore, kscore, hrange⟩ := takes_score v hc
  refine ⟨⟨id, name, phase, touch, thoughts, score⟩, ?_, ⟨fields, rfl, ?_⟩,
    fun hp => hrange (hp.get? hv)⟩
  · simp only [journeyAction, unscored, present, hv, hscore, hid, hname, hphase, htouch, hthoughts,
      Functor.map, Except.map, bind, Except.bind, pure, Except.pure]
  · simp only [keepsFields_append, kid, kname, kphase, and_self, true_and]
    exact ⟨⟨ktouch, kthoughts⟩, (keepsFields_field _ _ _).mpr ⟨v, hv, kscore⟩⟩

/-- The rationale of a success factor may be left out when it is read, but not by its form. -/
theorem takes_factor : Takes (.record Form.factor) factor Writing.factor anything := by
  rintro _ ⟨fields, rfl, hm⟩
  obtain ⟨hid, hm⟩ := Form.membersConform_required.mp hm
  obtain ⟨hgoal, hm⟩ := Form.membersConform_required.mp hm
  obtain ⟨hsource, hm⟩ := Form.membersConform_optional.mp hm
  obtain ⟨⟨v, hv, rationale, rfl⟩, -⟩ := Form.membersConform_required.mp hm
  obtain ⟨id, hid, kid⟩ := text_takes hid
  obtain ⟨goal, hgoal, kgoal⟩ := text_takes hgoal
  obtain ⟨source, hsource, ksource⟩ := optionalText_takes hsource
  refine ⟨⟨id, goal, source, rationale⟩, ?_, ⟨fields, rfl, ?_⟩, fun _ => trivial⟩
  · simp only [factor, part, present, hv, string, hid, hgoal, hsource, Functor.map, Except.map,
      bind, Except.bind, pure, Except.pure, Option.getD_some]
  · simp only [keepsFields_append, kid, kgoal, ksource, and_self, true_and]
    exact (keepsFields_field _ _ _).mpr ⟨_, hv, rfl⟩

/-- An indicator is read with a finite target. -/
theorem takes_indicator : Takes (.record Form.indicator) indicator (Writing.indicator .float)
    fun i => i.target.isFinite = true ∧ i.target.Canonical := by
  rintro _ ⟨fields, rfl, hm⟩
  obtain ⟨hid, hm⟩ := Form.membersConform_required.mp hm
  obtain ⟨hfactor, hm⟩ := Form.membersConform_required.mp hm
  obtain ⟨hname, hm⟩ := Form.membersConform_required.mp hm
  obtain ⟨hdefinition, hm⟩ := Form.membersConform_optional.mp hm
  obtain ⟨hunit, hm⟩ := Form.membersConform_optional.mp hm
  obtain ⟨htarget, -⟩ := Form.membersConform_required.mp hm
  obtain ⟨id, hid, kid⟩ := text_takes hid
  obtain ⟨factor, hfactor, kfactor⟩ := text_takes hfactor
  obtain ⟨name, hname, kname⟩ := text_takes hname
  obtain ⟨definition, hdefinition, kdefinition⟩ := optionalText_takes hdefinition
  obtain ⟨unit, hunit, kunit⟩ := optionalText_takes hunit
  obtain ⟨target, htarget, ktarget, hfinite⟩ := required_takes takes_number htarget
  refine ⟨⟨id, factor, name, definition, unit, target⟩, ?_, ⟨fields, rfl, ?_⟩, hfinite⟩
  · simp only [indicator, part, hid, hfactor, hname, hdefinition, hunit, htarget, bind, Except.bind,
      pure, Except.pure]
  · simp only [keepsFields_append, kid, kfactor, kname, kdefinition, kunit, and_self, true_and]
    exact ktarget

theorem takes_skill : Takes (.record Form.skill) skill Writing.skill anything := by
  rintro _ ⟨fields, rfl, hm⟩
  obtain ⟨hid, hm⟩ := Form.membersConform_required.mp hm
  obtain ⟨hname, hm⟩ := Form.membersConform_required.mp hm
  obtain ⟨haction, hm⟩ := Form.membersConform_required.mp hm
  obtain ⟨hlearnings, -⟩ := Form.membersConform_optional.mp hm
  obtain ⟨id, hid, kid⟩ := text_takes hid
  obtain ⟨name, hname, kname⟩ := text_takes hname
  obtain ⟨action, haction, kaction⟩ := text_takes haction
  obtain ⟨learnings, hlearnings, klearnings, -⟩ := optionalList_takes takes_learning hlearnings
  refine ⟨⟨id, name, action, learnings⟩, ?_, ⟨fields, rfl, ?_⟩, fun _ => trivial⟩
  · simp only [skill, part, hid, hname, haction, hlearnings, bind, Except.bind, pure, Except.pure]
  · simp only [keepsFields_append, kid, kname, kaction, and_self, true_and]
    exact klearnings

/-- The scores and the target of a document are in range. -/
def InRange : Document → Prop
  | .journey d => ∀ a ∈ d.actions, -2 ≤ a.emotionScore ∧ a.emotionScore ≤ 2
  | .outcome d => d.indicator.target.isFinite = true ∧ d.indicator.target.Canonical
  | .blueprint _ | .enablement _ => True

/-- The reader of one kind of document takes every object of its form, keeps the fields that it
does not know, and finds numbers in range. -/
def TakesDocument (k : Kind) (read : Fields → Read Document) : Prop :=
  ∀ fields, Form.MembersConform (Form.document k) fields →
    ∃ d, read fields = .ok d ∧ d.kind = k ∧ d.extra = extra k fields ∧
      KeepsFields (Writing.knownFields .float d) fields ∧ (Proper (.obj fields) → InRange d)

theorem takes_journeyMap : TakesDocument .journey fun fields => .journey <$> journeyMap fields := by
  intro fields hm
  obtain ⟨-, hm⟩ := Form.membersConform_required.mp hm
  obtain ⟨hversion, hm⟩ := Form.membersConform_required.mp hm
  obtain ⟨hid, hm⟩ := Form.membersConform_required.mp hm
  obtain ⟨hpersona, hm⟩ := Form.membersConform_optional.mp hm
  obtain ⟨hphases, hm⟩ := Form.membersConform_required.mp hm
  obtain ⟨hactions, -⟩ := Form.membersConform_required.mp hm
  obtain ⟨version, hversion, kversion⟩ := text_takes hversion
  obtain ⟨id, hid, kid⟩ := text_takes hid
  obtain ⟨p, hpersona, kpersona, -⟩ := optional_takes takes_persona hpersona
  obtain ⟨phases, hphases, kphases, -⟩ := required_takes (takes_list takes_phase) hphases
  obtain ⟨actions, hactions, kactions, hrange⟩ :=
    required_takes (takes_list takes_journeyAction) hactions
  refine ⟨.journey ⟨version, id, p, phases, actions, extra .journey fields⟩, ?_, rfl, rfl, ?_,
    hrange⟩
  · simp only [journeyMap, hactions, hversion, hid, hpersona, hphases, Functor.map, Except.map,
      bind, Except.bind, pure, Except.pure]
  · simp only [Writing.knownFields, keepsFields_append, kversion, kid, true_and]
    refine ⟨⟨?_, kphases⟩, kactions⟩
    cases p with
    | none => trivial
    | some p => exact kpersona p rfl

theorem takes_blueprint :
    TakesDocument .blueprint fun fields => .blueprint <$> blueprint fields := by
  intro fields hm
  obtain ⟨-, hm⟩ := Form.membersConform_required.mp hm
  obtain ⟨hversion, hm⟩ := Form.membersConform_required.mp hm
  obtain ⟨hid, hm⟩ := Form.membersConform_required.mp hm
  obtain ⟨hlanes, hm⟩ := Form.membersConform_required.mp hm
  obtain ⟨htasks, -⟩ := Form.membersConform_required.mp hm
  obtain ⟨version, hversion, kversion⟩ := text_takes hversion
  obtain ⟨id, hid, kid⟩ := text_takes hid
  obtain ⟨lanes, hlanes, klanes, -⟩ := required_takes (takes_list takes_lane) hlanes
  obtain ⟨tasks, htasks, ktasks, -⟩ := required_takes (takes_list takes_task) htasks
  refine ⟨.blueprint ⟨version, id, lanes, tasks, extra .blueprint fields⟩, ?_, rfl, rfl, ?_,
    fun _ => trivial⟩
  · simp only [blueprint, hversion, hid, hlanes, htasks, Functor.map, Except.map, bind, Except.bind,
      pure, Except.pure]
  · simp only [Writing.knownFields, keepsFields_append, kversion, kid, true_and]
    exact ⟨klanes, ktasks⟩

theorem takes_outcome : TakesDocument .outcome fun fields => .outcome <$> outcome fields := by
  intro fields hm
  obtain ⟨-, hm⟩ := Form.membersConform_required.mp hm
  obtain ⟨hversion, hm⟩ := Form.membersConform_required.mp hm
  obtain ⟨hid, hm⟩ := Form.membersConform_required.mp hm
  obtain ⟨hgoal, hm⟩ := Form.membersConform_required.mp hm
  obtain ⟨hfactor, hm⟩ := Form.membersConform_required.mp hm
  obtain ⟨hindicator, -⟩ := Form.membersConform_required.mp hm
  obtain ⟨version, hversion, kversion⟩ := text_takes hversion
  obtain ⟨id, hid, kid⟩ := text_takes hid
  obtain ⟨g, hgoal, kgoal, -⟩ := required_takes takes_goal hgoal
  obtain ⟨f, hfactor, kfactor, -⟩ := required_takes takes_factor hfactor
  obtain ⟨i, hindicator, kindicator, hrange⟩ := required_takes takes_indicator hindicator
  refine ⟨.outcome ⟨version, id, g, f, i, extra .outcome fields⟩, ?_, rfl, rfl, ?_, hrange⟩
  · simp only [outcome, hversion, hid, hgoal, hfactor, hindicator, Functor.map, Except.map, bind,
      Except.bind, pure, Except.pure]
  · simp only [Writing.knownFields, keepsFields_append, kversion, kid, true_and]
    exact ⟨⟨kgoal, kfactor⟩, kindicator⟩

theorem takes_enablementMap :
    TakesDocument .enablement fun fields => .enablement <$> enablementMap fields := by
  intro fields hm
  obtain ⟨-, hm⟩ := Form.membersConform_required.mp hm
  obtain ⟨hversion, hm⟩ := Form.membersConform_required.mp hm
  obtain ⟨hid, hm⟩ := Form.membersConform_required.mp hm
  obtain ⟨houtcomes, hm⟩ := Form.membersConform_required.mp hm
  obtain ⟨hactions, hm⟩ := Form.membersConform_required.mp hm
  obtain ⟨hskills, hm⟩ := Form.membersConform_optional.mp hm
  obtain ⟨hknowledge, hm⟩ := Form.membersConform_optional.mp hm
  obtain ⟨htools, -⟩ := Form.membersConform_optional.mp hm
  obtain ⟨version, hversion, kversion⟩ := text_takes hversion
  obtain ⟨id, hid, kid⟩ := text_takes hid
  obtain ⟨outcomes, houtcomes, koutcomes, -⟩ :=
    required_takes (takes_list takes_enablementOutcome) houtcomes
  obtain ⟨actions, hactions, kactions, -⟩ :=
    required_takes (takes_list takes_enablementAction) hactions
  obtain ⟨skills, hskills, kskills, -⟩ := optionalList_takes takes_skill hskills
  obtain ⟨knowledge, hknowledge, kknowledge, -⟩ := optionalList_takes takes_resource hknowledge
  obtain ⟨tools, htools, ktools, -⟩ := optionalList_takes takes_resource htools
  refine ⟨.enablement ⟨version, id, outcomes, actions, skills, knowledge, tools,
    extra .enablement fields⟩, ?_, rfl, rfl, ?_, fun _ => trivial⟩
  · simp only [enablementMap, hversion, hid, houtcomes, hactions, hskills, hknowledge, htools,
      Functor.map, Except.map, bind, Except.bind, pure, Except.pure]
  · simp only [Writing.knownFields, keepsFields_append, kversion, kid, true_and]
    exact ⟨⟨⟨⟨koutcomes, kactions⟩, kskills⟩, kknowledge⟩, ktools⟩

end Reading

namespace Document

/-- Every value of a document's form is read as a document of that kind. -/
theorem ofValue_of_conforms {k : Kind} {fields : Fields}
    (h : Form.MembersConform (Form.document k) fields) :
    ∃ d, ofValue (.obj fields) = .ok d ∧ d.kind = k ∧ d.extra = Reading.extra k fields ∧
      Value.KeepsFields (Writing.knownFields .float d) fields ∧
      (Value.Proper (.obj fields) → Reading.InRange d) := by
  obtain ⟨⟨w, hw, rfl⟩, -⟩ := Form.membersConform_required.mp h
  simp only [ofValue, hw, Kind.ofText?_text]
  cases k with
  | journey => exact Reading.takes_journeyMap fields h
  | blueprint => exact Reading.takes_blueprint fields h
  | outcome => exact Reading.takes_outcome fields h
  | enablement => exact Reading.takes_enablementMap fields h

end Document

end ServiceMaps
