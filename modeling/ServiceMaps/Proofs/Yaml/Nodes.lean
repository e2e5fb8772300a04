import ServiceMaps.Proofs.Yaml.Tokens

/-!
The tree of a written value. Its tokens are read as one node without anchors and tags, and what
follows them is left; a list that stands at the column of its name ends where no further entry
follows.
-/
namespace ServiceMaps.Yaml

namespace Node

open Yaml.Writing
open Layout (token)

/-- The scalar of a text. -/
def ofString (s : String) : Node := .scalar none none s (Style.ofText s = .plain)

mutual

/-- The tree of a written value. -/
def ofValue : Value → Node
  | .null => .scalar none none "null" true
  | .bool b => .scalar none none (if b then "true" else "false") true
  | .int n => .scalar none none (toString n) true
  | .float x => .scalar none none x.yamlText true
  | .str s => ofString s
  | .arr items => .sequence none none (ofItems items)
  | .obj fields => .mapping none none (ofFields fields)

def ofItems : List Value → List Node
  | [] => []
  | v :: rest => ofValue v :: ofItems rest

def ofFields : List (String × Value) → List (Node × Node)
  | [] => []
  | (name, v) :: rest => (ofString name, ofValue v) :: ofFields rest

end

variable {handles : Handles} {block bare : Bool} {fuel : Nat} {tail : List Token}
variable {anchors : List (String × Nat)}

theorem node?_scalar (text : String) (plain : Bool) :
    node? handles block bare (fuel + 1) ⟨.scalar text plain :: tail, anchors⟩ =
      some (.scalar none none text plain, ⟨tail, anchors⟩) := rfl

theorem node?_flowSequence :
    node? handles block bare (fuel + 2) ⟨.flowSequence :: .flowSequenceEnd :: tail, anchors⟩ =
      some (.sequence none none [], ⟨tail, anchors⟩) := rfl

theorem node?_flowMapping :
    node? handles block bare (fuel + 2) ⟨.flowMapping :: .flowMappingEnd :: tail, anchors⟩ =
      some (.mapping none none [], ⟨tail, anchors⟩) := rfl

theorem node?_blockSequence :
    node? handles true bare (fuel + 1) ⟨.blockSequence :: tail, anchors⟩ =
      (blockItems? handles fuel ⟨tail, anchors⟩).map fun r => (.sequence none none r.1, r.2) := by
  simp [node?, properties, resolveTag?, Cursor.move, Cursor.declare?]
  cases blockItems? handles fuel ⟨tail, anchors⟩ <;> rfl

theorem node?_blockMapping :
    node? handles true bare (fuel + 1) ⟨.blockMapping :: tail, anchors⟩ =
      (blockEntries? handles fuel ⟨tail, anchors⟩).map fun r => (.mapping none none r.1, r.2) := by
  simp [node?, properties, resolveTag?, Cursor.move, Cursor.declare?]
  cases blockEntries? handles fuel ⟨tail, anchors⟩ <;> rfl

theorem node?_bare :
    node? handles block true (fuel + 1) ⟨.blockEntry :: tail, anchors⟩ =
      (bareItems? handles fuel ⟨.blockEntry :: tail, anchors⟩).map
        fun r => (.sequence none none r.1, r.2) := by
  simp [node?, properties, resolveTag?, Cursor.move, Cursor.declare?]
  cases bareItems? handles fuel ⟨.blockEntry :: tail, anchors⟩ <;> rfl

/-- Two tokens start no entry and end no collection. -/
def StartsNode (t : Token) : Prop := t ≠ .key ∧ t ≠ .value ∧ t ≠ .blockEnd

theorem valueTokens_cons (bare : Bool) (v : Value) : ∃ t more, valueTokens bare v = t :: more ∧
    StartsNode t ∧ (bare = false → t ≠ .blockEntry) := by
  cases v with
  | arr items =>
    cases items with
    | nil => exact ⟨_, _, rfl, ⟨nofun, nofun, nofun⟩, nofun⟩
    | cons v rest =>
      cases bare with
      | true => exact ⟨_, _, rfl, ⟨nofun, nofun, nofun⟩, nofun⟩
      | false => exact ⟨_, _, rfl, ⟨nofun, nofun, nofun⟩, nofun⟩
  | obj fields =>
    cases fields with
    | nil => exact ⟨_, _, rfl, ⟨nofun, nofun, nofun⟩, nofun⟩
    | cons field rest => exact ⟨_, _, rfl, ⟨nofun, nofun, nofun⟩, nofun⟩
  | null | bool b | int n | float x | str s => exact ⟨_, _, rfl, ⟨nofun, nofun, nofun⟩, nofun⟩

/-- Where no further entry of a list at the column of its name comes. -/
def EndsBare (tail : List Token) : Prop := ∀ more, tail ≠ .blockEntry :: more

/-- The tokens of a value are read as its tree, with three steps for each token. -/
def ReadsNode (handles : Handles) (v : Value) : Prop :=
  (∀ bare fuel tail anchors, 3 * (valueTokens false v).length + 2 ≤ fuel →
    node? handles true bare fuel ⟨valueTokens false v ++ tail, anchors⟩ =
      some (ofValue v, ⟨tail, anchors⟩)) ∧
  (∀ fuel tail anchors, 3 * (valueTokens true v).length + 2 ≤ fuel → EndsBare tail →
    node? handles true true fuel ⟨valueTokens true v ++ tail, anchors⟩ =
      some (ofValue v, ⟨tail, anchors⟩))

def ReadsNodes (handles : Handles) (items : List Value) : Prop :=
  (∀ fuel tail anchors, 3 * (itemTokens items).length + 1 ≤ fuel →
    blockItems? handles fuel ⟨itemTokens items ++ .blockEnd :: tail, anchors⟩ =
      some (ofItems items, ⟨tail, anchors⟩)) ∧
  (∀ fuel tail anchors, 3 * (itemTokens items).length + 1 ≤ fuel → EndsBare tail →
    bareItems? handles fuel ⟨itemTokens items ++ tail, anchors⟩ =
      some (ofItems items, ⟨tail, anchors⟩))

def ReadsEntries (handles : Handles) (fields : List (String × Value)) : Prop :=
  ∀ fuel tail anchors, 3 * (fieldTokens fields).length + 1 ≤ fuel →
    blockEntries? handles fuel ⟨fieldTokens fields ++ .blockEnd :: tail, anchors⟩ =
      some (ofFields fields, ⟨tail, anchors⟩)

theorem readsNodes_nil : ReadsNodes handles [] := by
  refine ⟨fun fuel tail anchors hf => ?_, fun fuel tail anchors hf ht => ?_⟩
  · obtain ⟨f, rfl⟩ : ∃ f, fuel = f + 1 := ⟨fuel - 1, by omega⟩
    rfl
  · obtain ⟨f, rfl⟩ : ∃ f, fuel = f + 1 := ⟨fuel - 1, by omega⟩
    rw [itemTokens, List.nil_append, bareItems?]
    split
    · rename_i h
      exact absurd h (ht _)
    · rfl

theorem readsNodes_cons {v : Value} {items : List Value} (hv : ReadsNode handles v)
    (hitems : ReadsNodes handles items) : ReadsNodes handles (v :: items) := by
  obtain ⟨t, more, ht, ⟨hkey, hvalue, hend⟩, hentry⟩ := valueTokens_cons false v
  refine ⟨fun fuel tail anchors hf => ?_, fun fuel tail anchors hf hbare => ?_⟩
  · obtain ⟨f, rfl⟩ : ∃ f, fuel = f + 1 := ⟨fuel - 1, by omega⟩
    simp only [itemTokens, List.length_cons, List.length_append] at hf
    have hnode := hv.1 false f (itemTokens items ++ .blockEnd :: tail) anchors (by omega)
    have hrest := hitems.1 f tail anchors (by omega)
    have hmid : endsBlockItem (valueTokens false v ++ (itemTokens items ++ .blockEnd :: tail)) =
        false := by
      rw [ht]
      cases t <;> simp_all [endsBlockItem]
    rw [itemTokens, List.cons_append, List.cons_append, List.append_assoc, blockItems?]
    simp only [hmid, Bool.false_eq_true, if_false, Cursor.move, hnode]
    simp [hrest, ofItems]
  · obtain ⟨f, rfl⟩ : ∃ f, fuel = f + 1 := ⟨fuel - 1, by omega⟩
    simp only [itemTokens, List.length_cons, List.length_append] at hf
    have hnode := hv.1 false f (itemTokens items ++ tail) anchors (by omega)
    have hrest := hitems.2 f tail anchors (by omega) hbare
    have hmid : (endsBlockItem (valueTokens false v ++ (itemTokens items ++ tail)) ||
        endsBlockPart (valueTokens false v ++ (itemTokens items ++ tail))) = false := by
      rw [ht]
      cases t <;> simp_all [endsBlockItem, endsBlockPart]
    rw [itemTokens, List.cons_append, List.cons_append, List.append_assoc, bareItems?]
    simp only [hmid, Bool.false_eq_true, if_false, Cursor.move, hnode]
    simp [hrest, ofItems]

theorem readsEntries_nil : ReadsEntries handles [] := by
  intro fuel tail anchors hf
  obtain ⟨f, rfl⟩ : ∃ f, fuel = f + 1 := ⟨fuel - 1, by omega⟩
  rfl

theorem endsBare_fields (fields : List (String × Value)) (tail : List Token) :
    EndsBare (fieldTokens fields ++ .blockEnd :: tail) := by
  cases fields <;> exact nofun

/-- The value of a field is read in a mapping, whether its tokens are bare or not. -/
theorem blockPart?_value {v : Value} (hv : ReadsNode handles v) (bare : Bool)
    (hf : 3 * (valueTokens bare v).length + 3 ≤ fuel) (ht : EndsBare tail) :
    blockPart? handles fuel ⟨valueTokens bare v ++ tail, anchors⟩ =
      some (ofValue v, ⟨tail, anchors⟩) := by
  obtain ⟨f, rfl⟩ : ∃ f, fuel = f + 1 := ⟨fuel - 1, by omega⟩
  obtain ⟨t, more, hcons, ⟨hkey, hvalue, hend⟩, -⟩ := valueTokens_cons bare v
  have hmid : endsBlockPart (valueTokens bare v ++ tail) = false := by
    rw [hcons]
    cases t <;> simp_all [endsBlockPart]
  rw [blockPart?, hmid, if_neg (by simp)]
  cases bare with
  | false => exact hv.1 true f tail anchors (by omega)
  | true => exact hv.2 f tail anchors (by omega) ht

theorem readsEntries_cons {name : String} {v : Value} {fields : List (String × Value)}
    (hv : ReadsNode handles v) (hfields : ReadsEntries handles fields) :
    ReadsEntries handles ((name, v) :: fields) := by
  intro fuel tail anchors hf
  obtain ⟨f, rfl⟩ : ∃ f, fuel = f + 3 := ⟨fuel - 3, by simp [fieldTokens] at hf; omega⟩
  simp only [fieldTokens, List.length_cons, List.length_append] at hf
  have hvalue : blockPart? handles (f + 2) ⟨valueTokens (Style.isSimpleKey name) v ++
      (fieldTokens fields ++ .blockEnd :: tail), anchors⟩ =
      some (ofValue v, ⟨fieldTokens fields ++ .blockEnd :: tail, anchors⟩) :=
    blockPart?_value hv _ (by omega) (endsBare_fields fields tail)
  have hrest := hfields (f + 2) tail anchors (by omega)
  have hname : ∀ rest, blockPart? handles (f + 2) ⟨token name :: rest, anchors⟩ =
      some (ofString name, ⟨rest, anchors⟩) := fun rest => rfl
  rw [fieldTokens, List.cons_append, List.cons_append, List.cons_append, List.cons_append,
    List.append_assoc, blockEntries?]
  simp only [Cursor.move, hname, Option.bind_eq_bind, Option.bind_some, List.cons_append, hvalue,
    hrest]
  rfl

theorem readsNode_scalar {v : Value} {text : String} {plain : Bool}
    (ht : ∀ bare, valueTokens bare v = [.scalar text plain])
    (hn : ofValue v = .scalar none none text plain) : ReadsNode handles v := by
  unfold ReadsNode
  rw [ht, ht, hn]
  refine ⟨fun bare fuel tail anchors hf => ?_, fun fuel tail anchors hf _ => ?_⟩
  · obtain ⟨f, rfl⟩ : ∃ f, fuel = f + 1 := ⟨fuel - 1, by omega⟩
    exact node?_scalar text plain
  · obtain ⟨f, rfl⟩ : ∃ f, fuel = f + 1 := ⟨fuel - 1, by omega⟩
    exact node?_scalar text plain

theorem readsNode_empty {v : Value} {opens closes : Token} {n : Node}
    (ht : ∀ bare, valueTokens bare v = [opens, closes]) (hn : ofValue v = n)
    (hread : ∀ {bare fuel tail anchors}, node? handles true bare (fuel + 2)
      ⟨opens :: closes :: tail, anchors⟩ = some (n, ⟨tail, anchors⟩)) : ReadsNode handles v := by
  unfold ReadsNode
  rw [ht, ht, hn]
  refine ⟨fun bare fuel tail anchors hf => ?_, fun fuel tail anchors hf _ => ?_⟩
  · obtain ⟨f, rfl⟩ : ∃ f, fuel = f + 2 := ⟨fuel - 2, by omega⟩
    exact hread
  · obtain ⟨f, rfl⟩ : ∃ f, fuel = f + 2 := ⟨fuel - 2, by omega⟩
    exact hread

theorem readsNode_arr {v : Value} {rest : List Value} (h : ReadsNodes handles (v :: rest)) :
    ReadsNode handles (.arr (v :: rest)) := by
  refine ⟨fun bare fuel tail anchors hf => ?_, fun fuel tail anchors hf ht => ?_⟩
  · have htokens : valueTokens false (.arr (v :: rest)) =
        .blockSequence :: itemTokens (v :: rest) ++ [.blockEnd] := rfl
    rw [htokens] at hf ⊢
    obtain ⟨f, rfl⟩ : ∃ f, fuel = f + 1 := ⟨fuel - 1, by omega⟩
    simp only [List.length_cons, List.length_append] at hf
    have hread := h.1 f tail anchors (by omega)
    rw [List.cons_append, List.cons_append, List.append_assoc, List.singleton_append,
      node?_blockSequence, hread]
    rfl
  · have htokens : valueTokens true (.arr (v :: rest)) = itemTokens (v :: rest) := rfl
    rw [htokens] at hf ⊢
    obtain ⟨f, rfl⟩ : ∃ f, fuel = f + 1 := ⟨fuel - 1, by omega⟩
    have hread := h.2 f tail anchors (by omega) ht
    rw [itemTokens, List.cons_append, List.cons_append] at hread ⊢
    rw [node?_bare, hread]
    rfl

theorem readsNode_obj {field : String × Value} {rest : List (String × Value)}
    (h : ReadsEntries handles (field :: rest)) : ReadsNode handles (.obj (field :: rest)) := by
  have htokens : ∀ bare, valueTokens bare (.obj (field :: rest)) =
      .blockMapping :: fieldTokens (field :: rest) ++ [.blockEnd] := fun _ => rfl
  have hread : ∀ bare fuel tail anchors,
      3 * (valueTokens bare (.obj (field :: rest))).length + 2 ≤ fuel →
      ∀ below, node? handles true below fuel
        ⟨valueTokens bare (.obj (field :: rest)) ++ tail, anchors⟩ =
        some (ofValue (.obj (field :: rest)), ⟨tail, anchors⟩) := by
    intro bare fuel tail anchors hf below
    rw [htokens] at hf ⊢
    obtain ⟨f, rfl⟩ : ∃ f, fuel = f + 1 := ⟨fuel - 1, by omega⟩
    simp only [List.length_cons, List.length_append] at hf
    have hread := h f tail anchors (by omega)
    rw [List.cons_append, List.cons_append, List.append_assoc, List.singleton_append,
      node?_blockMapping, hread]
    rfl
  exact ⟨fun bare fuel tail anchors hf => hread false fuel tail anchors hf bare,
    fun fuel tail anchors hf _ => hread true fuel tail anchors hf true⟩

mutual

/-- Every value is read from its tokens. -/
theorem readsNode (handles : Handles) : ∀ v : Value, ReadsNode handles v
  | .null => readsNode_scalar (fun _ => rfl) rfl
  | .bool _ => readsNode_scalar (fun _ => rfl) rfl
  | .int _ => readsNode_scalar (fun _ => rfl) rfl
  | .float _ => readsNode_scalar (fun _ => rfl) rfl
  | .str _ => readsNode_scalar (fun _ => rfl) rfl
  | .arr [] => readsNode_empty (fun _ => rfl) rfl node?_flowSequence
  | .arr (v :: rest) => readsNode_arr (readsNodes handles (v :: rest))
  | .obj [] => readsNode_empty (fun _ => rfl) rfl node?_flowMapping
  | .obj (field :: rest) => readsNode_obj (readsEntries handles (field :: rest))

theorem readsNodes (handles : Handles) : ∀ items : List Value, ReadsNodes handles items
  | [] => readsNodes_nil
  | v :: rest => readsNodes_cons (readsNode handles v) (readsNodes handles rest)

theorem readsEntries (handles : Handles) :
    ∀ fields : List (String × Value), ReadsEntries handles fields
  | [] => readsEntries_nil
  | (_, v) :: rest => readsEntries_cons (readsNode handles v) (readsEntries handles rest)

end

end Node

end ServiceMaps.Yaml
