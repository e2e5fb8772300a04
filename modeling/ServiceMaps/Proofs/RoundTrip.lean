import ServiceMaps.Proofs.Items
import ServiceMaps.Proofs.Outline
import ServiceMaps.Proofs.Yaml.Endings
import ServiceMaps.Proofs.Yaml.Proper

/-!
Reading back a written service map. What is read for each document is its outline, where the last
text may have taken in a line feed; a document that is nested too deeply is not read at all. So the
map comes back equal exactly if neither happens to one of its documents.
-/
namespace ServiceMaps

namespace Yaml.Writing

open Value Fields

variable {extra : List Char} {s : String}

mutual

/-- A value whose last text has become another one does not have the same texts. -/
theorem not_keeps_padded (hs : Layout.reread extra s ≠ s) : ∀ {v : Value}, lastText? v = some s →
    ¬ v.Keeps (padded extra v).arranged
  | .str t, hl, hk => by
    obtain rfl : t = s := Option.some.inj hl
    exact hs (Value.str.inj hk)
  | .arr items, hl, ⟨found, hv, hk⟩ => by
    obtain rfl : arrangedItems (paddedItems extra items) = found := Value.arr.inj hv
    exact not_keepsItems_padded hs hl hk
  | .obj fields, hl, ⟨found, hv, hk⟩ => by
    obtain rfl : placed (paddedFields extra fields) = found := Value.obj.inj hv
    exact not_keepsFields_padded hs [] hl hk

theorem not_keepsItems_padded (hs : Layout.reread extra s ≠ s) : ∀ {items : List Value},
    lastItemText? items = some s → ¬ KeepsItems items (arrangedItems (paddedItems extra items))
  | [v], hl, ⟨w, more, hf, hk, _⟩ => by
    obtain rfl : (padded extra v).arranged = w := (List.cons.inj hf).1
    exact not_keeps_padded hs hl hk
  | v :: u :: rest, hl, ⟨w, more, hf, _, hk⟩ => by
    obtain rfl : arrangedItems (paddedItems extra (u :: rest)) = more := (List.cons.inj hf).2
    have hlast : lastItemText? (u :: rest) = some s := hl
    exact not_keepsItems_padded hs hlast hk

theorem not_keepsFields_padded (hs : Layout.reread extra s ≠ s) :
    ∀ {fields : Fields} (front : Fields),
    lastFieldText? fields = some s → ¬ KeepsFields fields
      (placed (front ++ paddedFields extra fields))
  | [(name, v)], front, hl, ⟨⟨w, hw, hk⟩, _⟩ => by
    have hlast : last? name (front ++ [(name, padded extra v)]) = some (padded extra v) := by
      simp [last?, get?_cons]
    obtain rfl : (padded extra v).arranged = w := by
      change get? name (placed (front ++ [(name, padded extra v)])) = some w at hw
      rw [get?_placed, hlast] at hw
      exact Option.some.inj hw
    exact not_keeps_padded hs hl hk
  | (name, v) :: field :: rest, front, hl, ⟨_, hk⟩ => by
    have hlast : lastFieldText? (field :: rest) = some s := hl
    refine not_keepsFields_padded hs (front ++ [(name, v)]) hlast ?_
    rw [List.append_assoc]
    exact hk

end

end Yaml.Writing

namespace Document

variable {settings : Settings} {d d' : Document}

/-- The texts of a document that is loaded from an object stand in the object. -/
theorem keepsFields_outline {found : Fields} (hp : (Value.obj found).Proper)
    (h : load settings (.obj found) = .ok d) : Value.KeepsFields d.outline found := by
  obtain ⟨fields, hfields, -, -, hextra, hkeeps, -⟩ := read_of_load h
  obtain rfl : found = fields := Value.obj.inj hfields
  have hkind : found.get? "kind" = some (.str d.kind.text) :=
    (namedKind_eq_ok_iff _ _).mp (namedKind_of_load settings h)
  rw [outline, Value.keepsFields_append, Value.keepsFields_append]
  refine ⟨⟨(Value.keepsFields_field _ _ _).mpr ⟨_, hkind, rfl⟩, hkeeps⟩, ?_⟩
  cases hp with
  | obj hn hv =>
    have hasc : Fields.Ascending found := hn
    refine Value.keepsFields_of_get? fun field hf => ?_
    rw [hextra] at hf
    obtain ⟨hf, -⟩ := Fields.mem_excluding.mp hf
    exact ⟨hasc.get?_of_mem hf, Value.Proper.keeps_self (hv field hf)⟩

/-- What the outline of a document must be like to be read back: its objects and lists are not
nested too deeply, and its last text does not take in a line feed. -/
def ReadsBack (d : Document) : Prop :=
  (Value.obj d.outline).depth ≤ Yaml.Datum.maxDepth ∧ Yaml.Writing.endsOpen d.outline = false

instance (d : Document) : Decidable d.ReadsBack :=
  inferInstanceAs (Decidable ((Value.obj d.outline).depth ≤ Yaml.Datum.maxDepth ∧
    Yaml.Writing.endsOpen d.outline = false))

end Document

namespace ServiceMap

open Document Yaml Yaml.Writing

variable {settings : Settings} {s : ServiceMap}

/-- A map of values that name the kinds of its documents. -/
theorem valuesOf_documents {f : Document → Value}
    (hf : ∀ d ∈ s.documents, (f d).get? "kind" = some (.str d.kind.text)) (k : Kind) :
    valuesOf k (s.documents.map fun d => some (f d)) = (s.get? k).toList.map f := by
  have hvalues : (s.documents.map fun d => some (f d)).reduceOption = s.documents.map f := by
    simp [List.reduceOption, List.filterMap_map]
  rw [valuesOf, hvalues, List.filter_map, ← filter_documents]
  refine congrArg (List.map f) (List.filter_congr fun d hd => ?_)
  simp only [Function.comp_apply, hf d hd, Option.some.injEq, Value.str.injEq, decide_eq_decide]
  exact ⟨fun h => Kind.text_injective h, fun h => congrArg Kind.text h⟩

/-- Reading values that name the kinds of documents gives what each of them is loaded as. -/
theorem get?_of_ofItems {s' : ServiceMap} {f : Document → Value}
    (hf : ∀ d ∈ s.documents, (f d).get? "kind" = some (.str d.kind.text))
    (h : ofItems settings (s.documents.map fun d => some (f d)) = .ok s') (k : Kind) :
    (s'.get? k).map .ok = (s.get? k).map fun d => load settings (f d) := by
  obtain ⟨found, hfound, hget⟩ := ofItems_of_faultless (faultless_of_ofItems h)
  obtain rfl : found = s' := Except.ok.inj (hfound.symm.trans h)
  rw [hget, valuesOf_documents hf]
  cases s.get? k <;> rfl

/-- Documents that are loaded from values of their own are read as a map again. -/
theorem ofItems_restores {f : Document → Value}
    (hf : ∀ d ∈ s.documents, (f d).get? "kind" = some (.str d.kind.text))
    (hl : ∀ d ∈ s.documents, load settings (f d) = .ok d) :
    ofItems settings (s.documents.map fun d => some (f d)) = .ok s := by
  have hfaultless : Faultless settings 0 (s.documents.map fun d => some (f d)) := by
    intro i item hi
    obtain ⟨d, hd, rfl⟩ := List.mem_map.mp (List.mem_of_getElem? hi)
    simp [fault?, hl d hd]
  obtain ⟨found, hfound, -⟩ := ofItems_of_faultless hfaultless
  have hget := get?_of_ofItems hf hfound
  obtain rfl : found = s := by
    refine ext_get? fun k => ?_
    have hk := hget k
    cases hs : s.get? k with
    | none => simpa [hs] using hk
    | some d =>
      have hkind : d.kind = k := by
        have hmem : d ∈ s.documents.filter (fun e => e.kind = k) := by
          rw [filter_documents, hs]
          simp
        simpa using (List.mem_filter.mp hmem).2
      have hd : d ∈ s.documents := mem_documents.mpr (hkind ▸ hs)
      simpa [hs, hl d hd] using hk
  exact hfound

theorem toList_endLine_write {fields : Fields} (h : fields ≠ []) :
    (endLine (Yaml.write fields)).toList = documentText fields ++ lineFeed fields := by
  obtain ⟨c, more, -, hhere, hbelow⟩ := Layout.fields_below 0 h
  have hwrite : (Yaml.write fields).toList = documentText fields := by
    have hn : fields.isEmpty = false := by simpa using h
    have hsame : fieldsFrom 0 true fields = fieldsFrom 0 false fields := hbelow
    simp [Yaml.write, hn, hsame, documentText]
  rw [endLine, lineFeed, hwrite]
  split
  · rw [hwrite, List.append_nil]
  · rw [String.toList_append, hwrite]
    rfl

theorem intercalate_eq {α : Type} (sep first : List α) (rest : List (List α)) :
    sep.intercalate (first :: rest) = first ++ rest.flatMap (sep ++ ·) := by
  induction rest generalizing first with
  | nil => simp
  | cons next rest ih => simp [List.intercalate_cons_cons, ih]

/-- The text of a map is a stream of its documents' outlines. -/
theorem text_eq {d : Document} {rest : List Document} (h : s.documents = d :: rest) :
    s.text = String.ofList (documentText d.outline ++ lineFeed d.outline
      ++ laterText (rest.map outline)) := by
  rw [← String.ofList_toList (s := s.text), text, String.toList_intercalate, h, List.map_cons,
    List.map_cons, intercalate_eq, toList_endLine_write (outline_ne_nil d), laterText,
    List.flatMap_map, List.flatMap_map, List.flatMap_map]
  have hlater : ∀ e : Document, "---\n".toList ++ (endLine (Yaml.write e.outline)).toList =
      '-' :: '-' :: '-' :: '\n' :: (documentText e.outline ++ lineFeed e.outline) := by
    intro e
    rw [toList_endLine_write (outline_ne_nil e)]
    rfl
  simp only [hlater]

/-- Reading a written map reads each of its outlines, up to the first that is too deep. -/
theorem ofText_text (h : ∀ d ∈ s.documents, Writable d.outline) :
    ofText settings s.text =
      ofItems settings (Stream.untilNone (s.documents.map fun d => readAs? d.outline)) := by
  cases hs : s.documents with
  | nil =>
    have hempty : s.text = "" := by simp [text, hs]
    rw [ofText, hempty]
    rfl
  | cons d rest =>
    rw [hs] at h
    have hwritable : ∀ fields ∈ d.outline :: rest.map outline, Writable fields := by
      simpa using h
    rw [ofText, text_eq hs, documents_written hwritable]
    simp [Function.comp_def]

/-- Every document of a map that was read from a text was loaded from a proper value. -/
theorem exists_load_of_ofText {text : String} (h : ofText settings text = .ok s) {d : Document}
    (hd : d ∈ s.documents) : ∃ v : Value, v.Proper ∧ load settings v = .ok d := by
  obtain ⟨v, hv, hload⟩ := exists_load_of_ofItems h hd
  exact ⟨v, proper_of_mem_documents hv, hload⟩

/-- What is read from a text can be written again. -/
theorem writable_of_ofText {text : String} (h : ofText settings text = .ok s) {d : Document}
    (hd : d ∈ s.documents) : Writable d.outline := by
  obtain ⟨v, hv, hload⟩ := exists_load_of_ofText h hd
  exact ⟨outline_ne_nil d, sound_outline (proper_extra_of_load hv hload) (inRange_of_load hv hload)
    (loadable_of_load hv hload)⟩

theorem knownFields_ne_nil (number : Binary64 → Value) (d : Document) :
    Writing.knownFields number d ≠ [] := by
  cases d <;> simp [Writing.knownFields, Writing.text, Writing.field]

/-- The kind stands first, so that a line feed behind the document does not reach it. -/
theorem get?_kind_readBack {d : Document} (h : Writable d.outline) :
    (readBack d.outline).arranged.get? "kind" = some (.str d.kind.text) := by
  have houtline : d.outline =
      ("kind", .str d.kind.text) :: (Writing.knownFields .float d ++ d.extra) := by
    simp [outline, Writing.text, Writing.field]
  generalize hmore : Writing.knownFields .float d ++ d.extra = more at houtline
  have hn : more.isEmpty = false := by
    simp [← hmore, knownFields_ne_nil]
  obtain ⟨-, hsound⟩ := h
  rw [houtline] at hsound
  have hkind : "kind" ∉ Fields.names (paddedFields (lineFeed d.outline) more) := by
    rw [Fields.names, names_paddedFields]
    cases hsound with
    | obj hnames _ => exact fun hmem => (List.pairwise_cons.mp hnames).1 _ hmem rfl
  have hpadded : ∀ extra, paddedFields extra d.outline =
      [("kind", .str d.kind.text)] ++ paddedFields extra more := by
    intro extra
    rw [houtline, paddedFields, hn]
    rfl
  change Fields.get? "kind" (Fields.placed (paddedFields (lineFeed d.outline) d.outline)) = _
  rw [Fields.get?_placed, hpadded, Fields.last?_append, Fields.last?_eq_none_iff.mpr hkind]
  rfl

/-- Reading a written map whose documents are not too deep. -/
theorem ofText_text_of_depth (hw : ∀ d ∈ s.documents, Writable d.outline)
    (hd : ∀ d ∈ s.documents, (Value.obj d.outline).depth ≤ Datum.maxDepth) :
    ofText settings s.text =
      ofItems settings (s.documents.map fun d => some (readBack d.outline).arranged) := by
  have hitems : (s.documents.map fun d => readAs? d.outline) =
      s.documents.map fun d => some (readBack d.outline).arranged :=
    List.map_congr_left fun d hmem => if_pos (hd d hmem)
  rw [ofText_text hw, hitems, Stream.untilNone_eq (by simp)]

/-- Reading a written map fails if one of its documents is too deep. -/
theorem depth_of_ofText_text (hw : ∀ d ∈ s.documents, Writable d.outline) {s' : ServiceMap}
    (h : ofText settings s.text = .ok s') :
    ∀ d ∈ s.documents, (Value.obj d.outline).depth ≤ Datum.maxDepth := by
  intro d hd
  by_contra hdeep
  rw [ofText_text hw] at h
  have hmem : none ∈ Stream.untilNone (s.documents.map fun d => readAs? d.outline) :=
    Stream.none_mem_untilNone (List.mem_map.mpr ⟨d, hd, if_neg hdeep⟩)
  obtain ⟨i, hi⟩ := List.mem_iff_getElem?.mp hmem
  have hfault := faultless_of_ofItems h i none hi
  simp [fault?] at hfault

/-- A map whose documents read back is restored from its text. -/
theorem ofText_text_of_readsBack {text : String} (h : ofText settings text = .ok s)
    (hb : ∀ d ∈ s.documents, d.ReadsBack) : ofText settings s.text = .ok s := by
  have hw : ∀ d ∈ s.documents, Writable d.outline := fun d hd => writable_of_ofText h hd
  rw [ofText_text_of_depth hw fun d hd => (hb d hd).1]
  refine ofItems_restores (fun d hd => get?_kind_readBack (hw d hd)) fun d hd => ?_
  obtain ⟨v, hv, hload⟩ := exists_load_of_ofText h hd
  rw [readBack_eq (outline_ne_nil d) (hb d hd).2]
  exact load_outline (proper_extra_of_load hv hload) (loadable_of_load hv hload)

theorem sameOption_map {α : Type} (f : α → α → Bool) (wrap : α → Document)
    (h : ∀ a b, (wrap a).same (wrap b) = f a b) (o o' : Option α) :
    sameOption Document.same (o.map wrap) (o'.map wrap) = sameOption f o o' := by
  cases o <;> cases o' <;> simp [sameOption, h]

/-- Maps are equal if they have equal documents of every kind. -/
theorem same_iff_get? {s' : ServiceMap} :
    s.same s' = true ↔ ∀ k, sameOption Document.same (s.get? k) (s'.get? k) = true := by
  rw [ServiceMap.same, ← sameOption_map JourneyMap.same .journey fun _ _ => rfl,
    ← sameOption_map Blueprint.same .blueprint fun _ _ => rfl,
    ← sameOption_map Outcome.same .outcome fun _ _ => rfl,
    ← sameOption_map EnablementMap.same .enablement fun _ _ => rfl]
  simp only [Bool.and_eq_true]
  refine ⟨fun ⟨⟨⟨hj, hb⟩, ho⟩, he⟩ k => ?_, fun h =>
    ⟨⟨⟨h .journey, h .blueprint⟩, h .outcome⟩, h .enablement⟩⟩
  cases k with
  | journey => exact hj
  | blueprint => exact hb
  | outcome => exact ho
  | enablement => exact he

theorem same_get? {s' : ServiceMap} (h : s.same s' = true) {k : Kind} {d d' : Document}
    (hd : s.get? k = some d) (hd' : s'.get? k = some d') : d.same d' = true := by
  have hsame := same_iff_get?.mp h k
  rwa [hd, hd'] at hsame

/-- A document whose last text takes in a line feed does not come back equal. -/
theorem not_same_of_endsOpen {d d' : Document} (hw : Writable d.outline)
    (ho : endsOpen d.outline = true)
    (hl : load settings (readBack d.outline).arranged = .ok d') : d.same d' = false := by
  obtain ⟨hfeed, s, hs, hlonger⟩ := lineFeed_of_endsOpen hw.1 ho
  have hread : (readBack d.outline).arranged =
      .obj (Fields.placed (paddedFields ['\n'] d.outline)) := by
    rw [readBack, hfeed]
    rfl
  have hp : (readBack d.outline).arranged.Proper := (sound_padded _ hw.2).proper_arranged
  rw [hread] at hp hl
  refine Bool.eq_false_iff.mpr fun hsame => not_keepsFields_padded hlonger [] hs ?_
  exact Value.KeepsFields.of_agree (agree_outline_of_same hsame) (keepsFields_outline hp hl)

/-- A map whose documents equal themselves equals itself. -/
theorem same_self (h : ∀ d ∈ s.documents, d.same d = true) : s.same s = true := by
  refine same_iff_get?.mpr fun k => ?_
  cases hd : s.get? k with
  | none => rfl
  | some d =>
    have hmem : d ∈ s.documents.filter (fun e => e.kind = k) := by
      rw [filter_documents, hd]
      exact List.mem_singleton_self d
    exact h d (List.mem_filter.mp hmem).1

/-- A map that was read from a text comes back equal from its own text, and is then written as the
same text again, exactly if each of its documents reads back; and what comes back is then the very
same map. A document that is nested too deeply makes reading fail, and one whose last text takes in
a line feed comes back with a longer text. -/
theorem text_roundTrips_iff (settings : Settings) {text : String} {s : ServiceMap}
    (h : ofText settings text = .ok s) :
    ((∃ s', ofText settings s.text = .ok s' ∧ s.same s' = true ∧ s'.text = s.text) ↔
      ∀ d ∈ s.documents, d.ReadsBack) ∧
    ((∀ d ∈ s.documents, d.ReadsBack) → ofText settings s.text = .ok s) := by
  have hw : ∀ d ∈ s.documents, Writable d.outline := fun d hd => writable_of_ofText h hd
  refine ⟨⟨?_, fun hb => ⟨s, ofText_text_of_readsBack h hb, same_self fun d hd => ?_, rfl⟩⟩,
    ofText_text_of_readsBack h⟩
  · rintro ⟨s', hs', hsame, -⟩ d hd
    have hdepth := depth_of_ofText_text hw hs'
    refine ⟨hdepth d hd, Bool.eq_false_iff.mpr fun hopen => ?_⟩
    rw [ofText_text_of_depth hw hdepth] at hs'
    have hget := get?_of_ofItems (fun e he => get?_kind_readBack (hw e he)) hs' d.kind
    rw [mem_documents.mp hd] at hget
    obtain ⟨d', hd', hl⟩ := Option.map_eq_some_iff.mp hget
    have hne := not_same_of_endsOpen (hw d hd) hopen hl.symm
    rw [same_get? hsame (mem_documents.mp hd) hd'] at hne
    exact absurd hne (by simp)
  · obtain ⟨v, hv, hload⟩ := exists_load_of_ofText h hd
    exact Document.same_self (proper_extra_of_load hv hload) (inRange_of_load hv hload)

/-- A map with a note of several lines is restored from its text. -/
theorem text_roundTrips_lines :
    let text := "note: |\n  - a\n\n  ---\nkind: cjm\nversion: '1.0'\nid: i\nphases: []\nactions: []"
    let s : ServiceMap :=
      ⟨some ⟨"1.0", "i", none, [], [], [("note", .str "- a\n\n---\n")]⟩, none, none, none⟩
    ofText .standard text = .ok s ∧ (∀ d ∈ s.documents, d.ReadsBack) ∧
      ofText .standard s.text = .ok s := by
  intro text s
  have h : ofText .standard text = .ok s := by
    decide +kernel
  have hb : ∀ d ∈ s.documents, d.ReadsBack := by
    decide +kernel
  exact ⟨h, hb, (text_roundTrips_iff .standard h).2 hb⟩

/-- A note that ends with a line feed and a line separator comes back with one more line feed. -/
theorem text_separator_grows :
    let text := "kind: cjm\nversion: '1.0'\nid: i\nphases: []\nactions: []\nnote: \"a\\n\\L\"\n"
    let s : ServiceMap :=
      ⟨some ⟨"1.0", "i", none, [], [], [("note", .str "a\n\u2028")]⟩, none, none, none⟩
    let s' : ServiceMap :=
      ⟨some ⟨"1.0", "i", none, [], [], [("note", .str "a\n\u2028\n")]⟩, none, none, none⟩
    ofText .standard text = .ok s ∧ ofText .standard s.text = .ok s' ∧ s.same s' = false := by
  decide +kernel

end ServiceMap

end ServiceMaps
