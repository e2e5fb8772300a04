import ServiceMaps.ServiceMap.Text
import ServiceMaps.Proofs.Loading

/-!
The meaning of a text as a service map. The first document at fault decides the error. Without a
fault every kind has the last document that names it, so that documents which name no kind, and the
order of documents of different kinds, do not matter.
-/
namespace ServiceMaps.ServiceMap

open Document

variable {settings : Settings}

/-- What is wrong with the document of a text at `index`: it cannot be read, or it names a kind and
cannot be loaded. -/
def fault? (settings : Settings) (index : Nat) : Option Value → Option LoadError
  | none => some (.unreadableDocument index)
  | some v =>
    if namesKind v then
      match load settings v with
      | .error e => some e
      | .ok _ => none
    else none

/-- No document of a text, the first of them at `index`, is at fault. -/
def Faultless (settings : Settings) (index : Nat) (items : List (Option Value)) : Prop :=
  ∀ i item, items[i]? = some item → fault? settings (index + i) item = none

theorem faultless_cons {index : Nat} {item : Option Value} {rest : List (Option Value)} :
    Faultless settings index (item :: rest) ↔
      fault? settings index item = none ∧ Faultless settings (index + 1) rest := by
  constructor
  · refine fun h => ⟨h 0 item rfl, fun i other hi => ?_⟩
    rw [Nat.add_right_comm]
    exact h (i + 1) other hi
  · rintro ⟨hitem, hrest⟩ i other hi
    cases i with
    | zero =>
      obtain rfl : item = other := by simpa using hi
      exact hitem
    | succ i =>
      rw [← Nat.add_assoc, Nat.add_right_comm]
      exact hrest i other (by simpa using hi)

/-- The values that name a kind, in order. -/
def valuesOf (k : Kind) (items : List (Option Value)) : List Value :=
  items.reduceOption.filter fun v => v.get? "kind" = some (.str k.text)

@[simp] theorem valuesOf_nil (k : Kind) : valuesOf k [] = [] := rfl

theorem valuesOf_append (k : Kind) (items more : List (Option Value)) :
    valuesOf k (items ++ more) = valuesOf k items ++ valuesOf k more := by
  simp [valuesOf, List.reduceOption_append]

theorem mem_valuesOf {k : Kind} {items : List (Option Value)} {v : Value} :
    v ∈ valuesOf k items ↔ some v ∈ items ∧ v.get? "kind" = some (.str k.text) := by
  simp [valuesOf, List.reduceOption_mem_iff]

/-- A document that names no kind is no value of any kind. -/
theorem valuesOf_stray {v : Value} (h : namesKind v = false) (k : Kind) :
    valuesOf k [some v] = [] := by
  have hk : v.get? "kind" = none := by simpa [namesKind] using h
  simp [valuesOf, hk]

theorem addItem_of_fault {index : Nat} {item : Option Value} {e : LoadError} (s : ServiceMap)
    (h : fault? settings index item = some e) : addItem settings index item s = .error e := by
  cases item with
  | none =>
    obtain rfl := Option.some.inj h
    rfl
  | some v =>
    rcases hn : namesKind v with _ | _
    · simp [fault?, hn] at h
    · rcases hl : load settings v with e' | d
      · obtain rfl : e' = e := by simpa [fault?, hn, hl] using h
        simp only [addItem, hn, hl, if_true, Functor.map, Except.map]
      · simp [fault?, hn, hl] at h

/-- A document without a fault takes the place of its kind, if it names one. -/
theorem addItem_of_faultless {index : Nat} {item : Option Value} (s : ServiceMap)
    (h : fault? settings index item = none) :
    ∃ s', addItem settings index item s = .ok s' ∧ ∀ k, (s'.get? k).map .ok =
      ((valuesOf k [item]).getLast?.map (load settings)).or ((s.get? k).map .ok) := by
  cases item with
  | none => simp [fault?] at h
  | some v =>
    rcases hn : namesKind v with _ | _
    · exact ⟨s, by simp [addItem, hn], fun k => by simp [valuesOf_stray hn]⟩
    · rcases hl : load settings v with e | d
      · simp [fault?, hn, hl] at h
      · refine ⟨s.insert d, by simp only [addItem, hn, hl, if_true, Functor.map, Except.map], ?_⟩
        intro k
        have hd := (namedKind_eq_ok_iff v d.kind).mp (namedKind_of_load settings hl)
        rw [get?_insert]
        by_cases hk : k = d.kind
        · subst hk
          simp [valuesOf, hd, hl]
        · have hne : d.kind.text ≠ k.text := fun ht => hk (Kind.text_injective ht).symm
          simp [valuesOf, hd, hne, hk]

/-- The first fault ends the reading. -/
theorem addItems_of_fault {index : Nat} {before after : List (Option Value)} {item : Option Value}
    {e : LoadError} (s : ServiceMap) (hb : Faultless settings index before)
    (h : fault? settings (index + before.length) item = some e) :
    addItems settings index (before ++ item :: after) s = .error e := by
  induction before generalizing index s with
  | nil =>
    have hitem : addItem settings index item s = .error e := addItem_of_fault s h
    rw [List.nil_append, addItems, hitem]
    rfl
  | cons first rest ih =>
    obtain ⟨hfirst, hrest⟩ := faultless_cons.mp hb
    obtain ⟨s', hs', -⟩ := addItem_of_faultless s hfirst
    rw [List.cons_append, addItems, hs']
    refine ih s' hrest ?_
    rw [Nat.add_right_comm]
    exact h

/-- Without a fault every kind has what the last value of that kind is loaded as, or else what was
there before. -/
theorem addItems_of_faultless {index : Nat} {items : List (Option Value)} (s : ServiceMap)
    (h : Faultless settings index items) :
    ∃ s', addItems settings index items s = .ok s' ∧ ∀ k, (s'.get? k).map .ok =
      ((valuesOf k items).getLast?.map (load settings)).or ((s.get? k).map .ok) := by
  induction items generalizing index s with
  | nil => exact ⟨s, rfl, fun k => by simp⟩
  | cons item rest ih =>
    obtain ⟨hitem, hrest⟩ := faultless_cons.mp h
    obtain ⟨s₁, h₁, hg₁⟩ := addItem_of_faultless s hitem
    obtain ⟨s₂, h₂, hg₂⟩ := ih s₁ hrest
    refine ⟨s₂, ?_, fun k => ?_⟩
    · rw [addItems, h₁]
      exact h₂
    · rw [hg₂, hg₁, ← Option.or_assoc, ← List.singleton_append (l := rest), valuesOf_append,
        List.getLast?_append, Option.map_or]

/-- A text is read as a service map exactly if it has no fault. -/
theorem ofItems_of_faultless {items : List (Option Value)} (h : Faultless settings 0 items) :
    ∃ s, ofItems settings items = .ok s ∧
      ∀ k, (s.get? k).map .ok = (valuesOf k items).getLast?.map (load settings) := by
  obtain ⟨s, hs, hg⟩ := addItems_of_faultless empty h
  exact ⟨s, hs, fun k => by rw [hg, get?_empty, Option.map_none, Option.or_none]⟩

theorem exists_first_fault {index : Nat} {items : List (Option Value)}
    (h : ¬ Faultless settings index items) :
    ∃ before item after e, items = before ++ item :: after ∧ Faultless settings index before ∧
      fault? settings (index + before.length) item = some e := by
  induction items generalizing index with
  | nil => exact absurd (fun i item hi => by simp at hi) h
  | cons item rest ih =>
    rcases hf : fault? settings index item with _ | e
    · obtain ⟨before, other, after, e, rfl, hb, he⟩ := ih fun hr => h (faultless_cons.mpr ⟨hf, hr⟩)
      refine ⟨item :: before, other, after, e, rfl, faultless_cons.mpr ⟨hf, hb⟩, ?_⟩
      rw [List.length_cons, ← Nat.add_assoc, Nat.add_right_comm]
      exact he
    · exact ⟨[], item, rest, e, rfl, fun i item hi => by simp at hi, hf⟩

theorem faultless_of_ofItems {items : List (Option Value)} {s : ServiceMap}
    (h : ofItems settings items = .ok s) : Faultless settings 0 items := by
  by_contra hf
  obtain ⟨before, item, after, e, rfl, hb, he⟩ := exists_first_fault hf
  rw [ofItems, addItems_of_fault empty hb he] at h
  simp at h

/-- Every document of a map is loaded from one of the values that were read. -/
theorem exists_load_of_ofItems {items : List (Option Value)} {s : ServiceMap}
    (h : ofItems settings items = .ok s) {d : Document} (hd : d ∈ s.documents) :
    ∃ v : Value, some v ∈ items ∧ load settings v = .ok d := by
  obtain ⟨found, hfound, hget⟩ := ofItems_of_faultless (faultless_of_ofItems h)
  obtain rfl : found = s := Except.ok.inj (hfound.symm.trans h)
  have hlast := hget d.kind
  rw [mem_documents.mp hd] at hlast
  obtain ⟨v, hv, hload⟩ := Option.map_eq_some_iff.mp hlast.symm
  exact ⟨v, (mem_valuesOf.mp (List.mem_of_getLast? hv)).1, hload⟩

/-- Lists of documents that differ in documents which name no kind, and in the order of documents
of different kinds. -/
inductive Rearranged : List (Option Value) → List (Option Value) → Prop where
  | insert (before after : List (Option Value)) {v : Value} : namesKind v = false →
      Rearranged (before ++ after) (before ++ some v :: after)
  | delete (before after : List (Option Value)) {v : Value} : namesKind v = false →
      Rearranged (before ++ some v :: after) (before ++ after)
  | reorder {items more : List (Option Value)} : items.Perm more →
      (∀ k, valuesOf k items = valuesOf k more) → Rearranged items more
  | trans {items more others : List (Option Value)} : Rearranged items more →
      Rearranged more others → Rearranged items others

/-- What does not change: no document becomes unreadable or claims a kind that was not there, and
the values of every kind stay the same in the same order. -/
theorem Rearranged.keeps {items more : List (Option Value)} (h : Rearranged items more) :
    (∀ item ∈ more, item ∈ items ∨ ∃ v, item = some v ∧ namesKind v = false) ∧
      ∀ k, valuesOf k items = valuesOf k more := by
  induction h with
  | @insert before after v hv =>
    refine ⟨fun item hi => ?_, fun k => ?_⟩
    · rcases List.mem_append.mp hi with hi | hi
      · exact .inl (List.mem_append_left _ hi)
      · rcases List.mem_cons.mp hi with rfl | hi
        · exact .inr ⟨v, rfl, hv⟩
        · exact .inl (List.mem_append_right _ hi)
    · rw [← List.singleton_append (l := after), valuesOf_append, valuesOf_append, valuesOf_append,
        valuesOf_stray hv, List.nil_append]
  | @delete before after v hv =>
    refine ⟨fun item hi => .inl ?_, fun k => ?_⟩
    · rcases List.mem_append.mp hi with hi | hi
      · exact List.mem_append_left _ hi
      · exact List.mem_append_right _ (List.mem_cons_of_mem _ hi)
    · rw [← List.singleton_append (l := after), valuesOf_append, valuesOf_append, valuesOf_append,
        valuesOf_stray hv, List.nil_append]
  | reorder hp hk => exact ⟨fun item hi => .inl (hp.mem_iff.mpr hi), hk⟩
  | trans _ _ ih ih' =>
    refine ⟨fun item hi => ?_, fun k => (ih.2 k).trans (ih'.2 k)⟩
    rcases ih'.1 item hi with hi | hv
    · exact ih.1 item hi
    · exact .inr hv

theorem Rearranged.faultless {items more : List (Option Value)} (h : Rearranged items more)
    (hf : Faultless settings 0 items) : Faultless settings 0 more := by
  intro i item hi
  rcases h.keeps.1 item (List.mem_of_getElem? hi) with hm | ⟨v, rfl, hv⟩
  · obtain ⟨j, hj⟩ := List.mem_iff_getElem?.mp hm
    have hfine := hf j item hj
    cases item with
    | none => simp [fault?] at hfine
    | some v => exact hfine
  · simp [fault?, hv]

/-- A fault is one of three: the document cannot be read, it names an unknown kind, or it is not
valid for its kind. -/
theorem fault?_cases {index : Nat} {item : Option Value} {e : LoadError}
    (h : fault? settings index item = some e) :
    (item = none ∧ e = .unreadableDocument index) ∨
      ∃ v, item = some v ∧ namesKind v = true ∧ load settings v = .error e ∧
        ((∃ text, e = .unknownKind text) ∨ ∃ k flaws, e = .invalid k flaws) := by
  cases item with
  | none => exact .inl ⟨rfl, (Option.some.inj h).symm⟩
  | some v =>
    refine .inr ⟨v, rfl, ?_⟩
    rcases hn : namesKind v with _ | _
    · simp [fault?, hn] at h
    · rcases load_cases settings v with ⟨text, -, hl⟩ | ⟨k, -, hl⟩ | ⟨d, -, -, hl⟩
      · obtain rfl : .unknownKind text = e := by simpa [fault?, hn, hl] using h
        exact ⟨rfl, hl, .inl ⟨text, rfl⟩⟩
      · obtain rfl : .invalid k (inspect settings k v).flaws = e := by
          simpa [fault?, hn, hl] using h
        exact ⟨rfl, hl, .inr ⟨k, _, rfl⟩⟩
      · simp [fault?, hn, hl] at h

/-- What a text means as a service map. The first document that cannot be read, or that names a
kind and cannot be loaded, decides the error, whatever follows it. Without such a document reading
succeeds, and every kind has what its last value is loaded as, or nothing if it has no value.
Documents that name no kind, and the order of documents of different kinds, make no difference. -/
theorem ofText_meaning (settings : Settings) (text : String) :
    (¬ Faultless settings 0 (Yaml.documents text) → ∃ before item after e,
      Yaml.documents text = before ++ item :: after ∧ Faultless settings 0 before ∧
      ((item = none ∧ e = .unreadableDocument before.length) ∨
        ∃ v, item = some v ∧ namesKind v = true ∧ load settings v = .error e ∧
          ((∃ text, e = .unknownKind text) ∨ ∃ k flaws, e = .invalid k flaws)) ∧
      ofText settings text = .error e) ∧
    (Faultless settings 0 (Yaml.documents text) →
      ∃ s, ofText settings text = .ok s ∧ ∀ k, (s.get? k).map .ok =
        (valuesOf k (Yaml.documents text)).getLast?.map (load settings)) ∧
    (∀ s items, ofText settings text = .ok s → Rearranged (Yaml.documents text) items →
      ofItems settings items = .ok s) := by
  refine ⟨fun hf => ?_, ofItems_of_faultless, fun s items hs hr => ?_⟩
  · obtain ⟨before, item, after, e, hd, hb, he⟩ := exists_first_fault hf
    refine ⟨before, item, after, e, hd, hb, ?_, ?_⟩
    · rw [Nat.zero_add] at he
      exact fault?_cases he
    · rw [ofText, hd]
      exact addItems_of_fault empty hb he
  · have hf := faultless_of_ofItems hs
    obtain ⟨a, ha, hga⟩ := ofItems_of_faultless hf
    obtain ⟨b, hb, hgb⟩ := ofItems_of_faultless (hr.faultless hf)
    have hok : Function.Injective (Except.ok : Document → Except LoadError Document) :=
      fun _ _ => Except.ok.inj
    have hab : a = b := ext_get? fun k => by
      refine Option.map_injective hok ?_
      rw [hga, hgb, hr.keeps.2 k]
    rw [hb, ← hab, ← ha]
    exact hs

/-- A stray number before a blueprint, and the name of no kind. -/
theorem ofText_meaning_stray :
    (∃ s,
      ofText .standard "5\n---\nkind: sbp\nversion: '1'\nid: b\nlanes: []\ntasks: []\n" = .ok s ∧
      ofItems .standard ((Yaml.documents
        "5\n---\nkind: sbp\nversion: '1'\nid: b\nlanes: []\ntasks: []\n").drop 1) = .ok s) ∧
    ∃ e, ofText .standard "5\n---\nkind: map\n" = .error e := by
  have hd : Yaml.documents "5\n---\nkind: sbp\nversion: '1'\nid: b\nlanes: []\ntasks: []\n" =
      [] ++ some (.int 5) :: [some (.obj
        [("id", .str "b"), ("kind", .str "sbp"), ("lanes", .arr []),
        ("tasks", .arr []), ("version", .str "1")])] := by
    decide +kernel
  have hd' : Yaml.documents "5\n---\nkind: map\n" =
      [some (.int 5), some (.obj [("kind", .str "map")])] := by
    decide +kernel
  have hf : Faultless .standard 0
      (Yaml.documents "5\n---\nkind: sbp\nversion: '1'\nid: b\nlanes: []\ntasks: []\n") := by
    rw [hd]
    exact faultless_cons.mpr ⟨by decide +kernel, faultless_cons.mpr ⟨by decide +kernel, nofun⟩⟩
  have hf' : ¬ Faultless .standard 0 (Yaml.documents "5\n---\nkind: map\n") := by
    rw [hd']
    refine fun h => absurd (faultless_cons.mp (faultless_cons.mp h).2).1 ?_
    decide +kernel
  obtain ⟨s, hs, -⟩ := (ofText_meaning .standard _).2.1 hf
  obtain ⟨-, -, -, e, -, -, -, he⟩ := (ofText_meaning .standard _).1 hf'
  refine ⟨⟨s, hs, (ofText_meaning .standard _).2.2 s _ hs ?_⟩, e, he⟩
  rw [hd]
  exact .delete [] _ rfl

end ServiceMaps.ServiceMap
