import ServiceMaps.Proofs.Yaml.Printable
import ServiceMaps.Proofs.Yaml.Data

/-!
A stream of written documents, each with its last line ended. The text is read as one document for
each, with the fields as they were written; only the last text of a document can come back longer,
by the line feed that ended its line. A document too deep to be read ends the stream.
-/
namespace ServiceMaps.Yaml

namespace Writing

mutual

theorem depth_padded (extra : List Char) : ∀ v : Value, (padded extra v).depth = v.depth
  | .null | .bool _ | .int _ | .float _ | .str _ => rfl
  | .arr items => by rw [padded, Value.depth, Value.depth, depth_paddedItems extra items]
  | .obj fields => by rw [padded, Value.depth, Value.depth, depth_paddedFields extra fields]

theorem depth_paddedItems (extra : List Char) : ∀ items : List Value,
    Value.depthItems (paddedItems extra items) = Value.depthItems items
  | [] => rfl
  | v :: rest => by
    have hrest := depth_paddedItems extra rest
    rw [paddedItems, Value.depthItems]
    split
    · obtain rfl : rest = [] := by simp_all
      simp [Value.depthItems, depth_padded extra v]
    · rw [Value.depthItems, hrest]

theorem depth_paddedFields (extra : List Char) : ∀ fields : List (String × Value),
    Value.depthFields (paddedFields extra fields) = Value.depthFields fields
  | [] => rfl
  | (name, v) :: rest => by
    have hrest := depth_paddedFields extra rest
    rw [paddedFields, Value.depthFields]
    split
    · obtain rfl : rest = [] := by simp_all
      simp [Value.depthFields, depth_padded extra v]
    · rw [Value.depthFields, hrest]

end

/-- The text of a document, up to what ends its last line. -/
def documentText (fields : List (String × Value)) : List Char := fieldsFrom 0 false fields

/-- What ends the last line of a document. -/
def lineFeed (fields : List (String × Value)) : List Char :=
  if (documentText fields).getLast? = some '\n' then [] else ['\n']

/-- The value that a document is read as, up to the order of fields. -/
def readBack (fields : List (String × Value)) : Value :=
  .obj (paddedFields (lineFeed fields) fields)

theorem ending_lineFeed (fields : List (String × Value)) : Ending (lineFeed fields) := by
  unfold lineFeed
  split
  · exact .inl rfl
  · exact .inr rfl

/-- The documents behind the first one, each behind its mark. -/
def laterText (documents : List (List (String × Value))) : List Char :=
  documents.flatMap fun fields =>
    '-' :: '-' :: '-' :: '\n' :: (documentText fields ++ lineFeed fields)

def laterTokens (documents : List (List (String × Value))) : List Token :=
  documents.flatMap fun fields => .documentStart :: valueTokens false (readBack fields)

/-- The fields of documents that can be written: at least one field each, and sound values. -/
def Writable (fields : List (String × Value)) : Prop :=
  fields ≠ [] ∧ (Value.obj fields).Sound (· ≠ ·)

theorem Writable.values {fields : List (String × Value)} (h : Writable fields) :
    ∀ field ∈ fields, field.2.Sound (· ≠ ·) := by
  obtain ⟨-, hv⟩ := h
  cases hv with
  | obj _ h => exact h

theorem printable_documentText {fields : List (String × Value)} (h : Writable fields) :
    Printable (documentText fields ++ lineFeed fields) := by
  refine printable_append.mpr ⟨printable_fieldsFrom h.values 0 false, ?_⟩
  unfold lineFeed
  split
  · exact printable_nil
  · decide

theorem printable_laterText {documents : List (List (String × Value))}
    (h : ∀ fields ∈ documents, Writable fields) : Printable (laterText documents) := by
  induction documents with
  | nil => exact printable_nil
  | cons fields rest ih =>
    obtain ⟨hfields, hrest⟩ := List.forall_mem_cons.mp h
    have hmark : Printable ['-', '-', '-', '\n'] := by decide
    rw [laterText, List.flatMap_cons, printable_append]
    exact ⟨printable_append.mpr ⟨hmark, printable_documentText hfields⟩, ih hrest⟩

end Writing

namespace Layout

open Yaml.Writing

theorem laterText_lands (line : Nat) (documents : List (List (String × Value))) :
    NextWithin 0 (laterText documents) ∧
      land line (laterText documents) = spread line 0 (laterText documents) := by
  cases documents with
  | nil => exact ⟨.inl rfl, rfl⟩
  | cons fields rest =>
    have hdash : StartsToken '-' := by decide
    exact ⟨.inr ⟨0, '-', _, rfl, Nat.le_refl 0, hdash⟩, land_spaces line 0 hdash _⟩

/-- A document is read up to the mark of the next one. -/
theorem leads_document (emitted : List Token) (line : Nat) {fields : List (String × Value)}
    (h : Writable fields) (documents : List (List (String × Value))) :
    ∃ line', Leads ⟨emitted, [], none, [], true⟩
        (spread line 0 (documentText fields ++ lineFeed fields ++ laterText documents))
      ⟨(fieldTokens (paddedFields (lineFeed fields) fields)).reverse ++ .blockMapping :: emitted,
        [0], none, [], true⟩ (spread line' 0 (laterText documents)) := by
  obtain ⟨line', hread⟩ : ∃ line', Leads ⟨emitted, [], none, [], true⟩
      (spread line 0 (fieldsFrom 0 false fields ++ (lineFeed fields ++ laterText documents))) _ _ :=
    reads_fields h.1 h.values (.opens nofun) (ending_lineFeed fields)
      (laterText_lands 0 documents).1
  rw [(laterText_lands line' documents).2] at hread
  exact ⟨line', by simpa [documentText] using hread⟩

theorem valueTokens_readBack {fields : List (String × Value)} (h : fields ≠ []) :
    valueTokens false (readBack fields) =
      .blockMapping :: fieldTokens (paddedFields (lineFeed fields) fields) ++ [.blockEnd] := by
  have hn : (paddedFields (lineFeed fields) fields).isEmpty = false := by
    simpa using h
  rw [readBack, valueTokens, hn]
  rfl

/-- The later documents of a stream are read to its end, where one mapping is still open. -/
theorem leads_later (emitted : List Token) (line : Nat)
    {documents : List (List (String × Value))} (h : ∀ fields ∈ documents, Writable fields) :
    ∃ read, Leads ⟨emitted, [0], none, [], true⟩ (spread line 0 (laterText documents))
        ⟨read, [0], none, [], true⟩ [] ∧
      .blockEnd :: read = (laterTokens documents).reverse ++ .blockEnd :: emitted := by
  induction documents generalizing emitted line with
  | nil => exact ⟨emitted, .refl _ _, rfl⟩
  | cons fields rest ih =>
    obtain ⟨hfields, hrest⟩ := List.forall_mem_cons.mp h
    obtain ⟨c, more, hstart, htext, -⟩ := fields_below 0 hfields.1
    have hnext : NextWithin 0 (documentText fields ++ lineFeed fields ++ laterText rest) := by
      rw [documentText, htext]
      exact .inr ⟨0, c, _, rfl, Nat.le_refl 0, hstart⟩
    have hland : ∀ line, land line (documentText fields ++ lineFeed fields ++ laterText rest) =
        spread line 0 (documentText fields ++ lineFeed fields ++ laterText rest) := by
      intro line
      rw [documentText, htext]
      exact land_spaces line 0 hstart _
    obtain ⟨line', hread⟩ : ∃ line', Leads ⟨.documentStart :: .blockEnd :: emitted, [], none, [],
        true⟩ (spread (line + 1) 0 (documentText fields ++ lineFeed fields ++
          laterText rest)) _ _ :=
      leads_document _ _ hfields rest
    have hline : Leads ⟨.documentStart :: .blockEnd :: emitted, [], none, [], false⟩
        (spread line 3 ('\n' :: [] ++ (documentText fields ++ lineFeed fields ++ laterText rest)))
        _ _ := leads_newline line 3 (.inl rfl) hnext
    rw [List.length_nil, Nat.add_zero, hland] at hline
    obtain ⟨read, hlater, htokens⟩ := ih _ line' hrest
    refine ⟨read, ?_, ?_⟩
    · have hmark := leads_mark emitted line
        (documentText fields ++ lineFeed fields ++ laterText rest)
      simpa [laterText] using ((hmark.trans hline).trans hread).trans hlater
    · rw [htokens, laterTokens, laterTokens, List.flatMap_cons, valueTokens_readBack hfields.1]
      simp

end Layout

open Yaml.Writing

/-- The tokens of a stream of written documents are those of its values. -/
theorem tokens_documents {fields : List (String × Value)} {rest : List (List (String × Value))}
    (h : ∀ document ∈ fields :: rest, Writable document) :
    tokens (String.ofList (documentText fields ++ lineFeed fields ++ laterText rest)) =
      valueTokens false (readBack fields) ++ laterTokens rest := by
  obtain ⟨hfields, hrest⟩ := List.forall_mem_cons.mp h
  obtain ⟨line', hread⟩ := Layout.leads_document [] 0 hfields rest
  obtain ⟨read, hlater, htokens⟩ := Layout.leads_later _ line' hrest
  have hrun := (hread.trans hlater).run_eq
  have hprint := printable_append.mpr ⟨printable_documentText hfields, printable_laterText hrest⟩
  rw [tokens, ofText?_printable hprint]
  change Layout.start.run _ _ = _
  rw [Layout.start, hrun]
  have hfinish : (Layout.allowKey true ⟨read, [0], none, [], true⟩).finish =
      (Token.blockEnd :: read).reverse := rfl
  rw [hfinish, htokens, Layout.valueTokens_readBack hfields.1]
  simp

namespace Stream

/-- One document is read as its tree, up to the mark of the next one. -/
theorem ofTokens?_document (handles : Node.Handles) (fields : List (String × Value))
    (documents : List (List (String × Value))) :
    Node.ofTokens? handles (valueTokens false (readBack fields) ++ laterTokens documents) =
      some (Node.ofValue (readBack fields), laterTokens documents) := by
  have hread := (Node.readsNode handles (readBack fields)).1 false
    (3 * (valueTokens false (readBack fields) ++ laterTokens documents).length + 3)
    (laterTokens documents) [] (by simp; omega)
  rw [Node.ofTokens?, hread]
  rfl

theorem endDocument?_later (documents : List (List (String × Value))) :
    endDocument? (laterTokens documents) = some (laterTokens documents) := by
  cases documents <;> rfl

theorem nodes_later (documents : List (List (String × Value))) {fuel : Nat}
    (h : (laterTokens documents).length < fuel) (hn : ∀ fields ∈ documents, fields ≠ []) :
    nodes false fuel (laterTokens documents) =
      documents.map fun fields => some (Node.ofValue (readBack fields)) := by
  induction documents generalizing fuel with
  | nil =>
    obtain ⟨f, rfl⟩ : ∃ f, fuel = f + 1 := ⟨fuel - 1, by omega⟩
    rfl
  | cons fields rest ih =>
    obtain ⟨hfields, hrest⟩ := List.forall_mem_cons.mp hn
    obtain ⟨f, rfl⟩ : ∃ f, fuel = f + 1 := ⟨fuel - 1, by omega⟩
    have htokens : laterTokens (fields :: rest) =
        .documentStart :: (valueTokens false (readBack fields) ++ laterTokens rest) := rfl
    have hdocument : document? false (laterTokens (fields :: rest)) =
        some (Node.ofValue (readBack fields), laterTokens rest) := by
      have hempty : isEmpty (valueTokens false (readBack fields) ++ laterTokens rest) = false := by
        rw [Layout.valueTokens_readBack hfields]
        rfl
      simp [document?, htokens, directives?, hempty, ofTokens?_document, endDocument?_later]
    have hlength : (laterTokens rest).length < f := by
      rw [htokens, List.length_cons, List.length_append] at h
      omega
    rw [List.map_cons, ← ih hlength hrest, nodes]
    simp only [Bool.false_eq_true, if_false]
    rw [htokens] at hdocument ⊢
    rw [List.dropWhile_cons_of_neg (by simp)]
    simp only [hdocument]

theorem untilNone_eq {α : Type} {items : List (Option α)} (h : none ∉ items) :
    untilNone items = items := by
  induction items with
  | nil => rfl
  | cons item rest ih =>
    cases item with
    | none => simp at h
    | some a => rw [untilNone, ih (by simpa using h)]

theorem none_mem_untilNone {α : Type} {items : List (Option α)} (h : none ∈ items) :
    none ∈ untilNone items := by
  induction items with
  | nil => simp at h
  | cons item rest ih =>
    cases item with
    | none => simp [untilNone]
    | some a => simpa [untilNone] using ih (by simpa using h)

theorem map_untilNone {α β : Type} (f : α → β) (items : List (Option α)) :
    (untilNone items).map (Option.map f) = untilNone (items.map (Option.map f)) := by
  induction items with
  | nil => rfl
  | cons item rest ih => cases item <;> simp [untilNone, ih]

end Stream

/-- What a written document is read as: nothing if it is too deep. -/
def readAs? (fields : List (String × Value)) : Option Value :=
  if (Value.obj fields).depth ≤ Datum.maxDepth then some (readBack fields).arranged else none

theorem nodes_documents {fields : List (String × Value)} {rest : List (List (String × Value))}
    (h : ∀ document ∈ fields :: rest, Writable document) :
    nodes (String.ofList (documentText fields ++ lineFeed fields ++ laterText rest)) =
      (fields :: rest).map fun document => some (Node.ofValue (readBack document)) := by
  obtain ⟨hfields, hrest⟩ := List.forall_mem_cons.mp h
  have hdocument : Stream.document? true (valueTokens false (readBack fields) ++ laterTokens rest) =
      some (Node.ofValue (readBack fields), laterTokens rest) := by
    have hbare : Stream.startsBare (valueTokens false (readBack fields) ++ laterTokens rest) =
        true := by
      rw [Layout.valueTokens_readBack hfields.1]
      rfl
    simp [Stream.document?, hbare, Stream.ofTokens?_document, Stream.endDocument?_later]
  have hfuel : (laterTokens rest).length <
      (valueTokens false (readBack fields) ++ laterTokens rest).length := by
    rw [Layout.valueTokens_readBack hfields.1]
    simp only [List.cons_append, List.length_cons, List.length_append]
    omega
  have hlater := Stream.nodes_later rest hfuel fun document hd => (hrest document hd).1
  have htokens := tokens_documents h
  rw [Layout.valueTokens_readBack hfields.1] at hdocument htokens hlater
  simp only [List.cons_append] at hdocument htokens hlater
  rw [nodes, htokens, List.map_cons, ← hlater]
  simp only [Stream.nodes.eq_def true, if_true, hdocument]

/-- A written stream is read as its documents, up to the first that is too deep. -/
theorem documents_written {fields : List (String × Value)} {rest : List (List (String × Value))}
    (h : ∀ document ∈ fields :: rest, Writable document) :
    documents (String.ofList (documentText fields ++ lineFeed fields ++ laterText rest)) =
      Stream.untilNone ((fields :: rest).map readAs?) := by
  rw [documents, data, nodes_documents h, Stream.map_untilNone, List.map_map, List.map_map]
  refine congrArg Stream.untilNone (List.map_congr_left fun document hd => ?_)
  obtain ⟨-, hsound⟩ := h document hd
  have hread : (readBack document).Sound (· ≠ ·) := sound_padded (lineFeed document) hsound
  have hdepth : (readBack document).depth = (Value.obj document).depth :=
    depth_padded (lineFeed document) (.obj document)
  simp only [Function.comp_apply, Option.bind_some, Datum.ofDocument?_ofValue hread, hdepth,
    readAs?]
  split
  · rw [Option.map_some, Datum.toValue_ofValue hread]
  · rfl

end ServiceMaps.Yaml
