import Mathlib.Data.List.Nodup
import ServiceMaps.Proofs.Conformity
import ServiceMaps.Proofs.Paths

/-!
The report of an inspection is exact. A form watches for problems at the places of a value: at every
place for those of the form that belongs there, and in every record for the fields that must be
there. What is reported are the problems that are watched for and that the value has, each once, and
no place with a problem lies below another. All this rests on the tables: their names are different,
and such that the text of a path can be read back.
-/
namespace ServiceMaps

/-- What a problem says of the value at its place. -/
def Problem.Spoils : Problem → Value → Prop
  | .missing, v => v = .null
  | .notString, v => ∀ s, v ≠ .str s
  | .notInteger, v => Form.integer? v = none
  | .below least, v => ∃ n, Form.integer? v = some n ∧ n < least
  | .above greatest, v => ∃ n, Form.integer? v = some n ∧ greatest < n
  | .notNumber, v => v.isNumber = false
  | .notBoolean, v => ∀ b, v ≠ .bool b
  | .notConstant text, v => v ≠ .str text
  | .notChoice texts, v => ∀ s ∈ texts, v ≠ .str s
  | .notList, v => ∀ items, v ≠ .arr items
  | .notRecord, v => ∀ fields, v ≠ .obj fields
  | .otherVersion version supported, v => v = .str version ∧ version ∉ supported
  | .unknownKind _, v => ∀ k : Kind, v ≠ .str k.text

/-- What a problem says of its place: that nothing stands there, or something of a value. -/
def Problem.Describes (problem : Problem) : Option Value → Prop
  | none => problem = .missing ∨ ∃ text, problem = .unknownKind text
  | some v => problem.Spoils v

theorem Flaw.eq_mk_iff {f : Flaw} {path : Path} {problem : Problem} :
    f = ⟨path, problem⟩ ↔ f.path = path ∧ f.problem = problem :=
  ⟨by rintro rfl; exact ⟨rfl, rfl⟩, by rintro ⟨rfl, rfl⟩; rfl⟩

namespace Form

/-- The problems that a form watches for in a value as a whole. -/
def problems : Form → List Problem
  | .string => [.notString]
  | .integer least greatest => [.notInteger, .below least, .above greatest]
  | .number => [.notNumber]
  | .boolean => [.notBoolean]
  | .constant text => [.notConstant text]
  | .choice texts => [.notChoice texts]
  | .list _ => [.notList]
  | .record _ => [.notRecord]

/-- A form watches for a problem at the end of a path into a value. The path leads through items of
lists and through fields of a table that are there and not null; it ends at a value, or at a field
that must be there. -/
inductive Watches : Form → Value → Path → Problem → Prop where
  | whole {form : Form} {v : Value} {problem : Problem} : problem ∈ form.problems →
      Watches form v [] problem
  | item {item : Form} {items : List Value} {i : Nat} {w : Value} {path : Path}
      {problem : Problem} : items[i]? = some w → Watches item w path problem →
      Watches (.list item) (.arr items) (.index i :: path) problem
  | absent {members : List (Member Form)} {fields : Fields} {m : Member Form} : m ∈ members →
      m.required = true → Watches (.record members) (.obj fields) [.field m.name] .missing
  | field {members : List (Member Form)} {fields : Fields} {m : Member Form} {w : Value}
      {path : Path} {problem : Problem} : m ∈ members → fields.get? m.name = some w → w ≠ .null →
      Watches m.form w path problem →
      Watches (.record members) (.obj fields) (.field m.name :: path) problem

/-- A problem that a form watches for and that a value has, at the end of a path. -/
def Breaks (form : Form) (v : Value) (path : Path) (problem : Problem) : Prop :=
  form.Watches v path problem ∧ problem.Describes (path.follow? v)

/-- The names of a table are plain and different, and a range is not empty, in all parts of a
form. -/
inductive Regular : Form → Prop where
  | string : Regular .string
  | integer {least greatest : Int} : least ≤ greatest → Regular (.integer least greatest)
  | number : Regular .number
  | boolean : Regular .boolean
  | constant (text : String) : Regular (.constant text)
  | choice (texts : List String) : Regular (.choice texts)
  | list {item : Form} : Regular item → Regular (.list item)
  | record {members : List (Member Form)} : (members.map (·.name)).Nodup →
      (∀ m ∈ members, PlainName m.name) → (∀ m ∈ members, Regular m.form) →
      Regular (.record members)

theorem regular_list_iff {item : Form} : (list item).Regular ↔ item.Regular :=
  ⟨fun | .list h => h, .list⟩

theorem regular_record_iff {members : List (Member Form)} : (record members).Regular ↔
    (members.map (·.name)).Nodup ∧ (∀ m ∈ members, PlainName m.name) ∧
      ∀ m ∈ members, m.form.Regular :=
  ⟨fun | .record hn hp hf => ⟨hn, hp, hf⟩, fun ⟨hn, hp, hf⟩ => .record hn hp hf⟩

/-- A form that does not speak of parts of a value. -/
def IsLeaf : Form → Prop
  | .list _ | .record _ => False
  | _ => True

/-- A field that is not there, or null. -/
def Blank (name : String) (fields : Fields) : Prop :=
  fields.get? name = none ∨ fields.get? name = some .null

/-! ### The problems of a value and of its parts -/

variable {form : Form} {v : Value} {path : Path} {problem : Problem}

theorem follow?_field (name : String) (path : Path) (fields : Fields) :
    Path.follow? (.field name :: path) (.obj fields) =
      (fields.get? name).bind path.follow? := rfl

theorem follow?_single (name : String) (v : Value) :
    Path.follow? [.field name] v = v.get? name := by
  simp [Path.follow?]

theorem breaks_whole_iff :
    form.Breaks v [] problem ↔ problem ∈ form.problems ∧ problem.Spoils v := by
  constructor
  · rintro ⟨hw, hd⟩
    cases hw with
    | whole hp => exact ⟨hp, hd⟩
  · rintro ⟨hp, hd⟩
    exact ⟨.whole hp, hd⟩

/-- A form without parts watches for problems of the whole value only. -/
theorem breaks_leaf_iff (hleaf : form.IsLeaf) :
    form.Breaks v path problem ↔ path = [] ∧ problem ∈ form.problems ∧ problem.Spoils v := by
  constructor
  · rintro ⟨hw, hd⟩
    cases hw with
    | whole hp => exact ⟨rfl, hp, hd⟩
    | _ => exact hleaf.elim
  · rintro ⟨rfl, h⟩
    exact breaks_whole_iff.mpr h

/-- The problems of a list are those of its items. -/
theorem breaks_list_iff {item : Form} : (Form.list item).Breaks v path problem ↔
    (path = [] ∧ problem = .notList ∧ ∀ items, v ≠ .arr items) ∨
      ∃ items i w rest, v = .arr items ∧ path = .index i :: rest ∧ items[i]? = some w ∧
        item.Breaks w rest problem := by
  constructor
  · rintro ⟨hw, hd⟩
    cases hw with
    | whole hp =>
      obtain rfl := List.mem_singleton.mp hp
      exact .inl ⟨rfl, rfl, hd⟩
    | @item item items i w rest _ hi hw =>
      rw [Path.follow?, hi] at hd
      exact .inr ⟨items, i, w, rest, rfl, rfl, hi, hw, hd⟩
  · rintro (⟨rfl, rfl, hv⟩ | ⟨items, i, w, rest, rfl, rfl, hi, hw, hd⟩)
    · exact breaks_whole_iff.mpr ⟨List.mem_singleton.mpr rfl, hv⟩
    · refine ⟨.item hi hw, ?_⟩
      rw [Path.follow?, hi]
      exact hd

/-- The problems of a record are the fields that must be there and are not, and the problems of the
values of its fields. -/
theorem breaks_record_iff {members : List (Member Form)} :
    (Form.record members).Breaks v path problem ↔
      (path = [] ∧ problem = .notRecord ∧ ∀ fields, v ≠ .obj fields) ∨
        ∃ fields, v = .obj fields ∧ ∃ m ∈ members,
          (Blank m.name fields ∧ m.required = true ∧ path = [.field m.name] ∧
            problem = .missing) ∨
          ∃ w rest, Fields.get? m.name fields = some w ∧ w ≠ .null ∧
            path = .field m.name :: rest ∧ m.form.Breaks w rest problem := by
  constructor
  · rintro ⟨hw, hd⟩
    cases hw with
    | whole hp =>
      obtain rfl := List.mem_singleton.mp hp
      exact .inl ⟨rfl, rfl, hd⟩
    | @absent members fields m hm hr =>
      refine .inr ⟨fields, rfl, m, hm, .inl ⟨?_, hr, rfl, rfl⟩⟩
      rw [follow?_field] at hd
      rcases hv : Fields.get? m.name fields with _ | w
      · exact .inl hv
      · rw [hv] at hd
        obtain rfl : w = .null := hd
        exact .inr hv
    | @field members fields m w rest _ hm hv hne hw =>
      rw [follow?_field, hv] at hd
      exact .inr ⟨fields, rfl, m, hm, .inr ⟨w, rest, hv, hne, rfl, hw, hd⟩⟩
  · rintro (⟨rfl, rfl, hv⟩ | ⟨fields, rfl, m, hm, ⟨hv, hr, rfl, rfl⟩ |
      ⟨w, rest, hv, hne, rfl, hw, hd⟩⟩)
    · exact breaks_whole_iff.mpr ⟨List.mem_singleton.mpr rfl, hv⟩
    · refine ⟨.absent hm hr, ?_⟩
      rw [follow?_field]
      rcases hv with hv | hv
      · rw [hv]
        exact .inl rfl
      · rw [hv]
        exact rfl
    · refine ⟨.field hm hv hne hw, ?_⟩
      rw [follow?_field, hv]
      exact hd

/-! ### What is reported -/

theorem mem_memberFlaws {base : Path} {members : List (Member Form)} {fields : Fields} {f : Flaw} :
    f ∈ memberFlaws base members fields ↔ ∃ m ∈ members,
      (Blank m.name fields ∧ m.required = true ∧ f = ⟨base ++ [.field m.name], .missing⟩) ∨
        ∃ w, fields.get? m.name = some w ∧ w ≠ .null ∧
          f ∈ flaws (base ++ [.field m.name]) m.form w := by
  induction members with
  | nil => simp [memberFlaws]
  | cons m rest ih =>
    obtain ⟨name, required, form⟩ := m
    rw [memberFlaws, List.mem_append, ih, List.exists_mem_cons_iff]
    refine or_congr_left ?_
    rcases hv : fields.get? name with _ | w
    · cases required <;> simp [Blank, hv]
    · by_cases hne : w = .null
      · subst hne
        cases required <;> simp [Blank, hv]
      · simp [Blank, hv, hne]

open Classical in
/-- Of a form without parts those problems are reported that the value has. -/
theorem flaws_leaf (hreg : form.Regular) (hleaf : form.IsLeaf) (base : Path) (v : Value) :
    flaws base form v =
      (form.problems.filter fun problem => problem.Spoils v).map (Flaw.mk base) := by
  cases hreg with
  | string => cases v <;> simp [flaws, problems, Problem.Spoils]
  | @integer least greatest hle =>
    rcases hn : integer? v with _ | n
    · simp [flaws, problems, Problem.Spoils, hn]
    · by_cases hl : n < least
      · have hg : ¬ greatest < n := by omega
        simp [flaws, problems, Problem.Spoils, hn, hl, hg]
      · by_cases hg : greatest < n <;> simp [flaws, problems, Problem.Spoils, hn, hl, hg]
  | number => cases hv : v.isNumber <;> simp [flaws, problems, Problem.Spoils, hv]
  | boolean => cases v <;> simp [flaws, problems, Problem.Spoils]
  | constant text => by_cases hv : v = .str text <;> simp [flaws, problems, Problem.Spoils, hv]
  | choice texts =>
    cases v with
    | str s =>
      have hspoils : (Problem.notChoice texts).Spoils (.str s) ↔ s ∉ texts := by
        simp only [Problem.Spoils, ne_eq, Value.str.injEq]
        exact ⟨fun h hs => h s hs rfl, fun h t ht he => h (he ▸ ht)⟩
      by_cases hs : s ∈ texts <;> simp [flaws, problems, hspoils, hs]
    | _ => simp [flaws, problems, Problem.Spoils]
  | list _ => exact hleaf.elim
  | record _ _ _ => exact hleaf.elim

/-- What is reported of a form are the problems of the values at the ends of paths. -/
def Reports (form : Form) : Prop := ∀ (base : Path) (v : Value) (f : Flaw),
  f ∈ flaws base form v ↔ ∃ path, f.path = base ++ path ∧ form.Breaks v path f.problem

theorem reports_leaf (hreg : form.Regular) (hleaf : form.IsLeaf) : form.Reports := by
  intro base v f
  obtain ⟨place, other⟩ := f
  simp only [flaws_leaf hreg hleaf, breaks_leaf_iff hleaf, List.mem_map, List.mem_filter,
    decide_eq_true_eq, Flaw.mk.injEq]
  constructor
  · rintro ⟨problem, hp, rfl, rfl⟩
    exact ⟨[], (List.append_nil _).symm, rfl, hp⟩
  · rintro ⟨_, rfl, rfl, hp⟩
    exact ⟨other, hp, (List.append_nil _).symm, rfl⟩

/-- The path into a list starts with the place of an item. -/
theorem Reports.list {item : Form} (h : item.Reports) : (Form.list item).Reports := by
  intro base v f
  unfold Reports at h
  simp only [breaks_list_iff]
  cases v with
  | arr items =>
    simp only [flaws, List.mem_flatMap, Prod.exists, List.mem_zipIdx_iff_getElem?, h]
    constructor
    · rintro ⟨w, i, hi, rest, hp, hb⟩
      refine ⟨.index i :: rest, ?_, .inr ⟨items, i, w, rest, rfl, rfl, hi, hb⟩⟩
      rw [hp, List.append_assoc, List.singleton_append]
    · rintro ⟨path, hp, ⟨-, -, hv⟩ | ⟨_, i, w, rest, hitems, rfl, hi, hb⟩⟩
      · exact absurd rfl (hv items)
      · cases hitems
        exact ⟨w, i, hi, rest, by rw [hp, List.append_assoc, List.singleton_append], hb⟩
  | _ => simp [flaws, Flaw.eq_mk_iff]

/-- The path into a record starts with the name of a field. -/
theorem Reports.record {members : List (Member Form)} (h : ∀ m ∈ members, m.form.Reports) :
    (Form.record members).Reports := by
  intro base v f
  simp only [breaks_record_iff]
  cases v with
  | obj fields =>
    simp only [flaws, mem_memberFlaws]
    constructor
    · rintro ⟨m, hm, ⟨hv, hr, rfl⟩ | ⟨w, hv, hne, hf⟩⟩
      · exact ⟨_, rfl, .inr ⟨fields, rfl, m, hm, .inl ⟨hv, hr, rfl, rfl⟩⟩⟩
      · obtain ⟨rest, hp, hb⟩ := (h m hm _ _ _).mp hf
        refine ⟨.field m.name :: rest, ?_,
          .inr ⟨fields, rfl, m, hm, .inr ⟨w, rest, hv, hne, rfl, hb⟩⟩⟩
        rw [hp, List.append_assoc, List.singleton_append]
    · rintro ⟨path, hp, ⟨-, -, hv⟩ | ⟨_, hfields, m, hm, hb⟩⟩
      · exact absurd rfl (hv fields)
      · cases hfields
        refine ⟨m, hm, ?_⟩
        rcases hb with ⟨hv, hr, rfl, hprob⟩ | ⟨w, rest, hv, hne, rfl, hb⟩
        · exact .inl ⟨hv, hr, by rw [← hp, ← hprob]⟩
        · refine .inr ⟨w, hv, hne, (h m hm _ _ _).mpr ⟨rest, ?_, hb⟩⟩
          rw [hp, List.append_assoc, List.singleton_append]
  | _ => simp [flaws, Flaw.eq_mk_iff]

theorem reports_of_regular {form : Form} (hreg : form.Regular) : form.Reports := by
  induction hreg with
  | list _ ih => exact ih.list
  | record _ _ _ ih => exact Reports.record ih
  | string => exact reports_leaf .string trivial
  | integer hle => exact reports_leaf (.integer hle) trivial
  | number => exact reports_leaf .number trivial
  | boolean => exact reports_leaf .boolean trivial
  | constant text => exact reports_leaf (.constant text) trivial
  | choice texts => exact reports_leaf (.choice texts) trivial

/-- A flaw is reported if it is a problem of the value at the end of some path. -/
theorem mem_flaws_iff {form : Form} (hreg : form.Regular) {base : Path} {v : Value} {f : Flaw} :
    f ∈ flaws base form v ↔ ∃ path, f.path = base ++ path ∧ form.Breaks v path f.problem :=
  reports_of_regular hreg base v f

/-! ### Where flaws lie -/

theorem prefix_of_mem_flaws {form : Form} (hreg : form.Regular) {base : Path} {v : Value} {f : Flaw}
    (hf : f ∈ flaws base form v) : base <+: f.path := by
  obtain ⟨path, hp, -⟩ := (mem_flaws_iff hreg).mp hf
  exact hp ▸ List.prefix_append base path

theorem apart_flaws_leaf (hleaf : form.IsLeaf) (base : Path) (v : Value) :
    (flaws base form v).Pairwise fun f g => f.path.Apart g.path := by
  cases form with
  | string => cases v <;> simp [flaws]
  | integer least greatest =>
    rw [flaws]
    split
    · simp
    · split_ifs <;> simp
  | number => cases hv : v.isNumber <;> simp [flaws, hv]
  | boolean => cases v <;> simp [flaws]
  | constant text => by_cases hv : v = .str text <;> simp [flaws, hv]
  | choice texts =>
    cases v with
    | str s => by_cases hs : s ∈ texts <;> simp [flaws, hs]
    | _ => simp [flaws]
  | list item => exact hleaf.elim
  | record members => exact hleaf.elim

theorem prefix_of_mem_memberFlaws {members : List (Member Form)}
    (hreg : ∀ m ∈ members, m.form.Regular) {base : Path} {fields : Fields} {f : Flaw}
    (hf : f ∈ memberFlaws base members fields) :
    ∃ m ∈ members, base ++ [.field m.name] <+: f.path := by
  obtain ⟨m, hm, ⟨-, -, rfl⟩ | ⟨w, -, -, hf⟩⟩ := mem_memberFlaws.mp hf
  · exact ⟨m, hm, List.prefix_rfl⟩
  · exact ⟨m, hm, prefix_of_mem_flaws (hreg m hm) hf⟩

theorem apart_memberFlaws {members : List (Member Form)} (hnames : (members.map (·.name)).Nodup)
    (hreg : ∀ m ∈ members, m.form.Regular) (base : Path) (fields : Fields)
    (hone : ∀ m ∈ members, ∀ w, (flaws (base ++ [.field m.name]) m.form w).Pairwise
      fun f g => f.path.Apart g.path) :
    (memberFlaws base members fields).Pairwise fun f g => f.path.Apart g.path := by
  induction members with
  | nil => simp [memberFlaws]
  | cons m rest ih =>
    obtain ⟨hm, hrest⟩ := List.forall_mem_cons.mp hreg
    obtain ⟨hname, hnames⟩ := List.nodup_cons.mp hnames
    rw [memberFlaws, List.pairwise_append]
    refine ⟨?_, ih hnames hrest fun n hn => hone n (List.mem_cons_of_mem m hn), ?_⟩
    · split
      · split_ifs <;> simp
      · split_ifs <;> simp
      · exact hone m List.mem_cons_self _
    · intro f hf g hg
      -- the flaws of one field are those of a table of one
      have hf : f ∈ memberFlaws base [m] fields := by
        rw [memberFlaws, memberFlaws, List.append_nil]
        exact hf
      obtain ⟨n, hn, hfn⟩ := prefix_of_mem_memberFlaws (List.forall_mem_singleton.mpr hm) hf
      obtain rfl := List.mem_singleton.mp hn
      obtain ⟨o, ho, hgo⟩ := prefix_of_mem_memberFlaws hrest hg
      refine Path.apart_of_steps (fun he => hname ?_) hfn hgo
      exact List.mem_map.mpr ⟨o, ho, (Step.field.inj he).symm⟩

/-- No flaw of a record lies at a field that has its form, or below it. -/
theorem apart_of_conforms {members : List (Member Form)} (hreg : (record members).Regular)
    {m : Member Form} (hm : m ∈ members) {fields : Fields} {w : Value}
    (hw : fields.get? m.name = some w) (hc : m.form.Conforms w) {base : Path} {f : Flaw}
    (hf : f ∈ memberFlaws base members fields) : f.path.Apart (base ++ [.field m.name]) := by
  obtain ⟨hnames, -, hforms⟩ := regular_record_iff.mp hreg
  obtain ⟨n, hn, hcases⟩ := mem_memberFlaws.mp hf
  by_cases he : n.name = m.name
  · obtain rfl : n = m := List.inj_on_of_nodup_map hnames hn hm he
    exfalso
    obtain ⟨hblank | hblank, -⟩ | ⟨u, hu, -, hfu⟩ := hcases
    · cases hw.symm.trans hblank
    · cases hw.symm.trans hblank
      exact not_conforms_null _ hc
    · cases hw.symm.trans hu
      rw [(flaws_eq_nil_iff _ _ _).mpr hc] at hfu
      cases hfu
  · have hbelow : base ++ [.field n.name] <+: f.path := by
      obtain ⟨-, -, rfl⟩ | ⟨u, -, -, hfu⟩ := hcases
      · exact List.prefix_rfl
      · exact prefix_of_mem_flaws (hforms n hn) hfu
    exact Path.apart_of_steps (by simpa using he) hbelow List.prefix_rfl

/-- No flaw lies at the place of another one or below it. -/
theorem apart_flaws {form : Form} (hreg : form.Regular) (base : Path) (v : Value) :
    (flaws base form v).Pairwise fun f g => f.path.Apart g.path := by
  induction hreg generalizing base v with
  | @list item hitem ih =>
    cases v with
    | arr items =>
      rw [flaws, List.pairwise_flatMap]
      refine ⟨fun _ _ => ih _ _, ?_⟩
      have hindex : items.zipIdx.Pairwise fun a b => a.2 ≠ b.2 := by
        rw [← List.pairwise_map, List.zipIdx_map_snd]
        exact List.nodup_range'
      refine hindex.imp fun hne f hf g hg => Path.apart_of_steps (s := .index _) (t := .index _) ?_
        (prefix_of_mem_flaws hitem hf) (prefix_of_mem_flaws hitem hg)
      simpa using hne
    | _ => simp [flaws]
  | @record members hnames hplain hmembers ih =>
    cases v with
    | obj fields =>
      rw [flaws]
      exact apart_memberFlaws hnames hmembers base fields fun m hm w => ih m hm _ w
    | _ => simp [flaws]
  | _ =>
    refine apart_flaws_leaf ?_ base v
    exact trivial

/-! ### The forms of documents -/

theorem Watches.plain {form : Form} (hreg : form.Regular) {v : Value} {path : Path}
    {problem : Problem} (h : form.Watches v path problem) : path.Plain := by
  induction h with
  | whole _ => exact List.forall_mem_nil _
  | item _ _ ih =>
    cases hreg with
    | list hitem => exact List.forall_mem_cons.mpr ⟨trivial, ih hitem⟩
  | absent hm _ =>
    cases hreg with
    | record _ hplain _ => exact List.forall_mem_singleton.mpr (hplain _ hm)
  | field hm _ _ _ ih =>
    cases hreg with
    | record _ hplain hforms => exact List.forall_mem_cons.mpr ⟨hplain _ hm, ih (hforms _ hm)⟩

/-- No form watches for a document whose kind is not known. -/
theorem Watches.known {form : Form} {v : Value} {path : Path} {problem : Problem}
    (h : form.Watches v path problem) (text : String) : problem ≠ .unknownKind text := by
  induction h with
  | @whole form _ _ hp =>
    rintro rfl
    cases form <;> simp [problems] at hp
  | item _ _ ih => exact ih
  | absent _ _ => exact Problem.noConfusion
  | field _ _ _ _ ih => exact ih

/-- What is watched for as missing is a field of an object that the path leads to. -/
theorem Watches.missing {form : Form} {v : Value} {path : Path} {problem : Problem}
    (h : form.Watches v path problem) (hp : problem = .missing) :
    ∃ (base : Path) (fields : Fields) (name : String), path = base ++ [.field name] ∧
      base.follow? v = some (.obj fields) ∧ path.follow? v = fields.get? name := by
  induction h with
  | @whole form _ _ hproblem =>
    subst hp
    cases form <;> simp [problems] at hproblem
  | @item _ items i w path _ hi _ ih =>
    obtain ⟨base, fields, name, rfl, hbase, hplace⟩ := ih hp
    exact ⟨.index i :: base, fields, name, rfl, by rw [Path.follow?, hi]; exact hbase,
      by rw [Path.follow?, hi]; exact hplace⟩
  | @absent _ fields m _ _ =>
    exact ⟨[], fields, m.name, rfl, rfl, follow?_single m.name (.obj fields)⟩
  | @field _ _ m w path _ _ hw _ _ ih =>
    obtain ⟨base, fields, name, rfl, hbase, hplace⟩ := ih hp
    exact ⟨.field m.name :: base, fields, name, rfl, by rw [follow?_field, hw]; exact hbase,
      by rw [follow?_field, hw]; exact hplace⟩

theorem regular_document (k : Kind) : (record (document k)).Regular := by
  have hscore : (integer (-2) 2).Regular := .integer (by decide)
  cases k <;>
    simp [regular_record_iff, regular_list_iff, hscore, document, envelope, body, texts, strings,
      required, optional, journeyAction, lane, task, factor, indicator, skill, resource,
      Regular.string, Regular.number, Regular.boolean, Regular.constant, Regular.choice] <;>
    decide

theorem names_nodup (k : Kind) : ((document k).map (·.name)).Nodup :=
  (regular_record_iff.mp (regular_document k)).1

theorem kind_mem_document (k : Kind) : required "kind" (.constant k.text) ∈ document k :=
  List.mem_append_left _ (by simp [envelope])

theorem version_mem_document (k : Kind) : required "version" .string ∈ document k :=
  List.mem_append_left _ (by simp [envelope])

end Form

theorem Problem.message_eq_required_iff (problem : Problem) :
    problem.message = "is required" ↔ problem = .missing := by
  refine ⟨fun h => ?_, fun h => h ▸ rfl⟩
  -- every other message starts with another letter
  have hstart := congrArg (fun text => text.toList.head?) h
  unfold message at hstart
  cases problem <;> simp at hstart ⊢

/-- What the inspection of a kind watches for in a value: what the form of the kind watches for and,
where the settings name versions, another version. -/
def Watched (settings : Settings) (k : Kind) (v : Value) (path : Path) (problem : Problem) : Prop :=
  (Form.record (Form.document k)).Watches v path problem ∨
    settings.allowedVersions ≠ [] ∧ path = [.field "version"] ∧
      ∃ version, problem = .otherVersion version settings.allowedVersions

variable {settings : Settings} {k : Kind} {v : Value} {path : Path} {problem : Problem} {f g : Flaw}

theorem mem_versionFlaws :
    f ∈ versionFlaws settings v ↔ ∃ version, v.get? "version" = some (.str version) ∧
      settings.allows version = false ∧
      f = ⟨[.field "version"], .otherVersion version settings.allowedVersions⟩ := by
  unfold versionFlaws
  rcases v.get? "version" with _ | w
  · simp
  · cases w with
    | str version => cases hv : settings.allows version <;> simp [hv]
    | _ => simp

/-- What is reported is what is watched for and the value has. -/
theorem mem_inspect_iff :
    f ∈ (inspect settings k v).flaws ↔
      Watched settings k v f.path f.problem ∧ f.problem.Describes (f.path.follow? v) := by
  obtain ⟨path, problem⟩ := f
  have hform : ⟨path, problem⟩ ∈ Form.flaws [] (.record (Form.document k)) v ↔
      (Form.record (Form.document k)).Breaks v path problem := by
    rw [Form.mem_flaws_iff (Form.regular_document k)]
    simp only [List.nil_append, exists_eq_left']
  have hversion : ⟨path, problem⟩ ∈ versionFlaws settings v ↔
      (settings.allowedVersions ≠ [] ∧ path = [.field "version"] ∧
        ∃ version, problem = .otherVersion version settings.allowedVersions) ∧
        problem.Describes (path.follow? v) := by
    rw [mem_versionFlaws]
    constructor
    · rintro ⟨version, hv, hallows, hf⟩
      obtain ⟨rfl, rfl⟩ := Flaw.mk.inj hf
      obtain ⟨hne, hother⟩ := Settings.not_allows_iff.mp hallows
      rw [Form.follow?_single, hv]
      exact ⟨⟨hne, rfl, version, rfl⟩, rfl, hother⟩
    · rintro ⟨⟨hne, rfl, version, rfl⟩, hd⟩
      rw [Form.follow?_single] at hd
      rcases hv : v.get? "version" with _ | w
      · rw [hv] at hd
        obtain hd | ⟨_, hd⟩ := hd <;> cases hd
      · rw [hv] at hd
        obtain ⟨rfl, hother⟩ := hd
        exact ⟨version, rfl, Settings.not_allows_iff.mpr ⟨hne, hother⟩, rfl⟩
  rw [inspect, List.mem_append, hform, hversion, Watched, or_and_right]
  rfl

/-- A version that is a text has its form, so that no flaw of the form lies there. -/
theorem apart_versionFlaws
    (hf : f ∈ Form.flaws [] (.record (Form.document k)) v) (hg : g ∈ versionFlaws settings v) :
    f.path.Apart g.path := by
  obtain ⟨version, hv, -, rfl⟩ := mem_versionFlaws.mp hg
  cases v with
  | obj fields =>
    have hconforms : Form.string.Conforms (.str version) := ⟨version, rfl⟩
    rw [Form.flaws] at hf
    exact Form.apart_of_conforms (Form.regular_document k) (Form.version_mem_document k) hv
      hconforms hf
  | _ => cases hv

theorem apart_inspect (settings : Settings) (k : Kind) (v : Value) :
    (inspect settings k v).flaws.Pairwise fun f g => f.path.Apart g.path := by
  rw [inspect, List.pairwise_append]
  refine ⟨Form.apart_flaws (Form.regular_document k) [] v, ?_,
    fun f hf g hg => apart_versionFlaws hf hg⟩
  unfold versionFlaws
  split
  · split_ifs <;> simp
  · simp

theorem Watched.plain (h : Watched settings k v path problem) : path.Plain := by
  obtain h | ⟨-, rfl, -⟩ := h
  · exact h.plain (Form.regular_document k)
  · exact List.forall_mem_singleton.mpr (by decide : PlainName "version")

theorem Watched.known (h : Watched settings k v path problem) (text : String) :
    problem ≠ .unknownKind text := by
  obtain h | ⟨-, -, version, rfl⟩ := h
  · exact h.known text
  · exact Problem.noConfusion

theorem Watched.missing (h : Watched settings k v path .missing) :
    ∃ (base : Path) (fields : Fields) (name : String), path = base ++ [.field name] ∧
      base.follow? v = some (.obj fields) ∧ path.follow? v = fields.get? name := by
  obtain h | ⟨-, -, version, hversion⟩ := h
  · exact h.missing rfl
  · cases hversion

/-- A problem is that of a field that is absent or null, or of a value that is there. -/
theorem Watched.place (h : Watched settings k v path problem)
    (hd : problem.Describes (path.follow? v)) :
    if problem.message = "is required" then
      ∃ (base : Path) (fields : Fields) (name : String), path = base ++ [.field name] ∧
        base.follow? v = some (.obj fields) ∧ Form.Blank name fields
    else ∃ w, path.follow? v = some w ∧ problem.Spoils w := by
  simp only [Problem.message_eq_required_iff]
  split_ifs with hmissing
  · subst hmissing
    obtain ⟨base, fields, name, hpath, hbase, hplace⟩ := h.missing
    refine ⟨base, fields, name, hpath, hbase, ?_⟩
    rw [hplace] at hd
    rcases hv : fields.get? name with _ | w
    · exact .inl hv
    · rw [hv] at hd
      exact .inr (hv.trans (congrArg some hd))
  · rcases hv : path.follow? v with _ | w
    · rw [hv] at hd
      obtain rfl | ⟨text, rfl⟩ := hd
      · exact absurd rfl hmissing
      · exact absurd rfl (h.known text)
    · rw [hv] at hd
      exact ⟨w, rfl, hd⟩

/-- The report of an inspection is exact. It is empty just for values of the form of the kind with
an allowed version; it names no place twice; it lists what is watched for and the value has; every
text of a place leads to one place only, where a required field is absent or null or a value has the
problem; and no place lies at or below another. -/
theorem inspect_exact (settings : Settings) (k : Kind) (v : Value) :
    ((inspect settings k v).flaws = [] ↔
      (Form.record (Form.document k)).Conforms v ∧ VersionAllowed settings v) ∧
    ((inspect settings k v).flaws.map (·.path.text)).Nodup ∧
    (∀ f, f ∈ (inspect settings k v).flaws ↔
      Watched settings k v f.path f.problem ∧ f.problem.Describes (f.path.follow? v)) ∧
    (∀ f ∈ (inspect settings k v).flaws,
      (f.path.Plain ∧ ∀ path : Path, path.Plain → path.text = f.path.text → path = f.path) ∧
      if f.problem.message = "is required" then
        ∃ (base : Path) (fields : Fields) (name : String), f.path = base ++ [.field name] ∧
          base.follow? v = some (.obj fields) ∧ Form.Blank name fields
      else ∃ w, f.path.follow? v = some w ∧ f.problem.Spoils w) ∧
    (inspect settings k v).flaws.Pairwise fun f g => f.path.Apart g.path := by
  have hplain : ∀ f ∈ (inspect settings k v).flaws, f.path.Plain :=
    fun f hf => (mem_inspect_iff.mp hf).1.plain
  refine ⟨?_, ?_, fun f => mem_inspect_iff, fun f hf => ⟨⟨hplain f hf, ?_⟩, ?_⟩,
    apart_inspect _ _ _⟩
  · rw [← inspect_valid_iff, Report.valid, List.isEmpty_iff]
  · rw [List.Nodup, List.pairwise_map]
    refine (apart_inspect settings k v).imp_of_mem fun hf hg happart he => happart.ne ?_
    exact Path.text_injective (hplain _ hf) (hplain _ hg) he
  · intro path hpath he
    exact Path.text_injective hpath (hplain f hf) he
  · obtain ⟨hwatched, hd⟩ := mem_inspect_iff.mp hf
    exact hwatched.place hd

end ServiceMaps
