import ServiceMaps.Proofs.Yaml.Nodes

/-!
What the tree of a written value says. Every scalar is read as the value that it was written for,
and the names of an object are all different, so that the tree has a meaning exactly if its
collections are not nested too deep. The value read is the written one with its fields put in order.
-/
namespace ServiceMaps

namespace Value

mutual

/-- How deep the collections of a value are nested. -/
def depth : Value → Nat
  | .arr items => depthItems items + 1
  | .obj fields => depthFields fields + 1
  | _ => 0

def depthItems : List Value → Nat
  | [] => 0
  | v :: rest => max (depth v) (depthItems rest)

def depthFields : List (String × Value) → Nat
  | [] => 0
  | (_, v) :: rest => max (depth v) (depthFields rest)

end

end Value

namespace Yaml.Datum

mutual

/-- A value as a datum. -/
def ofValue : Value → Datum
  | .null => .null
  | .bool b => .bool b
  | .int n => .int n
  | .float x => .float x
  | .str s => .str s
  | .arr items => .seq (ofItems items)
  | .obj fields => .map (ofFields fields)

def ofItems : List Value → List Datum
  | [] => []
  | v :: rest => ofValue v :: ofItems rest

def ofFields : List (String × Value) → List (Key × Datum)
  | [] => []
  | (name, v) :: rest => (.str name, ofValue v) :: ofFields rest

end

variable {r : String → String → Prop}

mutual

/-- A datum gives back the value with its fields in order. -/
theorem toValue_ofValue : ∀ {v : Value}, v.Sound r → toValue (ofValue v) = v.arranged
  | .null, _ | .bool _, _ | .int _, _ | .str _, _ => rfl
  | .float x, .float hf _ => by simp [ofValue, toValue, Value.arranged, hf]
  | .arr items, .arr hv => by
    rw [ofValue, toValue, Value.arranged, toValues_ofItems hv]
  | .obj fields, .obj _ hv => by
    rw [ofValue, toValue, Value.arranged, toFields_ofFields hv]

theorem toValues_ofItems : ∀ {items : List Value}, (∀ v ∈ items, v.Sound r) →
    toValues (ofItems items) = Value.arrangedItems items
  | [], _ => rfl
  | v :: rest, hv => by
    rw [ofItems, toValues, Value.arrangedItems, toValue_ofValue (hv v (by simp)),
      toValues_ofItems fun w hw => hv w (List.mem_cons_of_mem v hw)]

theorem toFields_ofFields : ∀ {fields : List (String × Value)},
    (∀ entry ∈ fields, entry.2.Sound r) → toFields (ofFields fields) = Value.arrangedFields fields
  | [], _ => rfl
  | (name, v) :: rest, hv => by
    rw [ofFields, toFields, Value.arrangedFields, toValue_ofValue (hv (name, v) (by simp)),
      toFields_ofFields fun entry hentry => hv entry (List.mem_cons_of_mem _ hentry)]
    rfl

end

theorem ofPlain?_str {s t : String} (h : ofPlain? s = some (.str t)) : t = s := by
  unfold ofPlain? at h
  split at h
  · simp at h
  · split at h
    · simp at h
    · split at h
      · split at h <;> simp at h
      · split at h
        · simpa using h.symm
        · split at h
          · simp at h
          · simpa using h.symm

/-- A text is read as itself in every style. -/
theorem ofUntagged?_token (s : String) :
    ofUntagged? s (decide (Style.ofText s = .plain)) = some (.str s) := by
  by_cases hs : Style.ofText s = .plain
  · have hamb := (Style.of_ofText_plain hs).2
    simp only [Style.isAmbiguous, Bool.or_eq_false_iff] at hamb
    have hmeans := hamb.2
    split at hmeans
    · rename_i t ht
      rw [ofPlain?_str ht] at ht
      simp [ofUntagged?, hs, ht]
    · simp at hmeans
  · simp [ofUntagged?, hs]

variable {anchors : Anchors} {depth : Nat}

theorem ofNode?_scalar {text : String} {plain : Bool} {d : Datum}
    (h : ofUntagged? text plain = some d) :
    ofNode? anchors depth (.scalar none none text plain) = pure d := by
  have hread : ofNode? anchors depth (.scalar none none text plain) =
      (liftM (ofUntagged? text plain) : StateT Nat Option Datum) := by
    cases depth <;> rfl
  rw [hread, h]
  rfl

theorem ofNode?_sequence (items : List Node) :
    ofNode? anchors (depth + 1) (.sequence none none items) = do
      return .seq (← items.mapM (ofNode? anchors depth)) := rfl

theorem ofNode?_mapping (entries : List (Node × Node)) :
    ofNode? anchors (depth + 1) (.mapping none none entries) = do
      let read ← entries.mapM fun (k, v) => do
        return (← ofNode? anchors depth k, ← ofNode? anchors depth v)
      return .map (← entries? read) := rfl

/-- A part that is refused for its depth makes the whole refused. -/
theorem bind_within {α β γ : Type} {m n depth : Nat} {a : α} {b : β} (f : α → β → γ) :
    ((if m ≤ depth then (pure a : StateT Nat Option α) else failure) >>= fun x =>
      (if n ≤ depth then (pure b : StateT Nat Option β) else failure) >>= fun y =>
        pure (f x y)) = if max m n ≤ depth then pure (f a b) else failure := by
  by_cases hm : m ≤ depth <;> by_cases hn : n ≤ depth <;>
    simp [hm, hn]

theorem ofNode?_name (name : String) : ofNode? anchors depth (Node.ofString name) =
    pure (.str name) :=
  ofNode?_scalar (ofUntagged?_token name)

/-- The entries of an object as they are read, before their keys are told from other data. -/
def namedFields (fields : List (String × Value)) : List (Datum × Datum) :=
  fields.map fun (name, v) => (.str name, ofValue v)

theorem any_ofFields {name : String} {fields : List (String × Value)}
    (h : ∀ entry ∈ fields, entry.1 ≠ name) :
    (ofFields fields).any (fun entry => entry.1.same (.str name)) = false := by
  induction fields with
  | nil => rfl
  | cons field rest ih =>
    obtain ⟨other, v⟩ := field
    obtain ⟨hother, hrest⟩ := List.forall_mem_cons.mp h
    have hsame : Key.same (.str other) (.str name) = false := by
      simpa [Key.same] using hother
    rw [ofFields, List.any_cons, hsame, ih hrest]
    rfl

/-- The keys of an object with different names are its names. -/
theorem entries?_named {fields : List (String × Value)} (h : (fields.map (·.1)).Pairwise (· ≠ ·)) :
    entries? (namedFields fields) = some (ofFields fields) := by
  induction fields with
  | nil => rfl
  | cons field rest ih =>
    obtain ⟨name, v⟩ := field
    obtain ⟨hname, hrest⟩ := List.pairwise_cons.mp h
    have hany : (ofFields rest).any (fun entry => entry.1.same (.str name)) = false :=
      any_ofFields fun entry hentry => (hname entry.1 (List.mem_map_of_mem hentry)).symm
    have hread := ih hrest
    unfold namedFields at hread ⊢
    rw [List.map_cons, entries?, hread]
    simp [key?, hany, ofFields]

/-- A value of a given depth has a meaning exactly where collections may be nested so deep. -/
def Means (anchors : Anchors) (v : Value) : Prop :=
  ∀ depth, ofNode? anchors depth (Node.ofValue v) =
    if v.depth ≤ depth then pure (ofValue v) else failure

def MeansItems (anchors : Anchors) (items : List Value) : Prop :=
  ∀ depth, (Node.ofItems items).mapM (ofNode? anchors depth) =
    if Value.depthItems items ≤ depth then pure (ofItems items) else failure

def MeansFields (anchors : Anchors) (fields : List (String × Value)) : Prop :=
  ∀ depth, ((Node.ofFields fields).mapM fun (k, v) => do
      return (← ofNode? anchors depth k, ← ofNode? anchors depth v)) =
    if Value.depthFields fields ≤ depth then pure (namedFields fields) else failure

theorem means_scalar {v : Value} {text : String} {plain : Bool}
    (hn : Node.ofValue v = .scalar none none text plain) (hd : v.depth = 0)
    (h : ofUntagged? text plain = some (ofValue v)) : Means anchors v := by
  intro depth
  rw [hn, ofNode?_scalar h, if_pos (by omega)]

theorem means_arr {items : List Value} (h : MeansItems anchors items) :
    Means anchors (.arr items) := by
  intro depth
  cases depth with
  | zero => rfl
  | succ depth =>
    rw [Node.ofValue, ofNode?_sequence, h depth, Value.depth]
    by_cases hd : Value.depthItems items ≤ depth <;> simp [hd, ofValue]

theorem means_obj {fields : List (String × Value)} (h : MeansFields anchors fields)
    (hn : (fields.map (·.1)).Pairwise (· ≠ ·)) : Means anchors (.obj fields) := by
  intro depth
  cases depth with
  | zero => rfl
  | succ depth =>
    rw [Node.ofValue, ofNode?_mapping, h depth, Value.depth]
    by_cases hd : Value.depthFields fields ≤ depth
    · simp only [hd, Nat.add_le_add_right, if_true, pure_bind, entries?_named hn]
      rfl
    · simp [hd]

theorem meansItems_cons {v : Value} {items : List Value} (hv : Means anchors v)
    (hitems : MeansItems anchors items) : MeansItems anchors (v :: items) := by
  intro depth
  rw [Node.ofItems, List.mapM_cons, hv depth, hitems depth]
  exact bind_within List.cons

theorem meansFields_cons {name : String} {v : Value} {fields : List (String × Value)}
    (hv : Means anchors v) (hfields : MeansFields anchors fields) :
    MeansFields anchors ((name, v) :: fields) := by
  intro depth
  have hentry : (do
        return (← ofNode? anchors depth (Node.ofString name),
          ← ofNode? anchors depth (Node.ofValue v)) : StateT Nat Option (Datum × Datum)) =
      if v.depth ≤ depth then pure (.str name, ofValue v) else failure := by
    rw [ofNode?_name, hv depth]
    by_cases hd : v.depth ≤ depth <;> simp [hd]
  rw [Node.ofFields, List.mapM_cons, hfields depth]
  simp only [hentry]
  exact bind_within List.cons

theorem fits_of_bounds {n : Int} (hl : -(2 ^ 63) ≤ n) (hu : n < 2 ^ 64) : fits 64 n = true := by
  simp only [fits, Bool.and_eq_true, decide_eq_true_eq]
  exact ⟨hl, hu⟩

mutual

theorem means : ∀ {v : Value}, v.Sound (· ≠ ·) → Means anchors v
  | .null, _ => means_scalar rfl rfl rfl
  | .bool b, _ => means_scalar rfl rfl (by cases b <;> rfl)
  | .int n, .int hl hu => means_scalar rfl rfl (ofPlain?_int (fits_of_bounds hl hu))
  | .float x, .float hf hc => means_scalar rfl rfl (ofPlain?_float hf hc)
  | .str s, _ => means_scalar rfl rfl (ofUntagged?_token s)
  | .arr items, .arr hv => means_arr (meansItems hv)
  | .obj fields, .obj hn hv => means_obj (meansFields hv) hn

theorem meansItems : ∀ {items : List Value}, (∀ v ∈ items, v.Sound (· ≠ ·)) →
    MeansItems anchors items
  | [], _ => fun _ => by simp [Node.ofItems, Value.depthItems, ofItems]
  | v :: rest, hv => meansItems_cons (means (hv v (by simp)))
      (meansItems fun w hw => hv w (List.mem_cons_of_mem v hw))

theorem meansFields : ∀ {fields : List (String × Value)},
    (∀ entry ∈ fields, entry.2.Sound (· ≠ ·)) → MeansFields anchors fields
  | [], _ => fun _ => by simp [Node.ofFields, Value.depthFields, namedFields]
  | (name, v) :: rest, hv => meansFields_cons (means (hv (name, v) (by simp)))
      (meansFields fun entry hentry => hv entry (List.mem_cons_of_mem _ hentry))

end

/-- The tree of a value has a meaning as a document exactly if it is not nested too deep. -/
theorem ofDocument?_ofValue {v : Value} (hv : v.Sound (· ≠ ·)) :
    ofDocument? (Node.ofValue v) = if v.depth ≤ maxDepth then some (ofValue v) else none := by
  rw [ofDocument?, means hv maxDepth]
  split <;> rfl

end Yaml.Datum

end ServiceMaps
