import ServiceMaps.Number.Digits

/-!
Generic values: what a YAML, JSON or TOML text says before anything is known about its
kind. An object lists its fields by ascending name, each name once, and a number has the range
of its 64 bits; `Proper` says so, and `Fields.put`, `Fields.ofEntries` and `arranged` see to the
names. Whole numbers and floating numbers are different values even when they are equal as
numbers. `same` compares floating numbers as numbers and all else exactly.
-/
namespace ServiceMaps

inductive Value where
  | null
  | bool (b : Bool)
  | int (n : Int)
  | float (x : Binary64)
  | str (s : String)
  | arr (items : List Value)
  | obj (fields : List (String × Value))
  deriving Inhabited

/-- The fields of an object, by ascending name. -/
abbrev Fields := List (String × Value)

namespace Fields

def get? (name : String) : Fields → Option Value
  | [] => none
  | (key, v) :: rest => if key = name then some v else get? name rest

/-- Puts a field in its place; an earlier value under the same name gives way. -/
def put (name : String) (v : Value) : Fields → Fields
  | [] => [(name, v)]
  | (key, w) :: rest =>
    if name = key then (name, v) :: rest
    else if name < key then (name, v) :: (key, w) :: rest
    else (key, w) :: put name v rest

/-- Collects entries in order; of two with one name the later stays. -/
def ofEntries (entries : List (String × Value)) : Fields :=
  entries.foldl (fun fields entry => fields.put entry.1 entry.2) []

def names (fields : Fields) : List String := fields.map (·.1)

/-- The fields whose names are not among `known`. -/
def excluding (known : List String) (fields : Fields) : Fields :=
  fields.filter fun entry => !known.contains entry.1

@[simp] theorem get?_nil (name : String) : get? name [] = none := rfl

theorem get?_cons (name key : String) (v : Value) (rest : Fields) :
    get? name ((key, v) :: rest) = if key = name then some v else get? name rest := rfl

/-- What was put is found; every other name is untouched. -/
theorem get?_put (name other : String) (v : Value) (fields : Fields) :
    get? other (put name v fields) = if name = other then some v else get? other fields := by
  induction fields with
  | nil => simp [put, get?]
  | cons entry rest ih =>
    obtain ⟨key, w⟩ := entry
    by_cases h : name = key
    · subst h; by_cases ho : name = other <;> simp [put, get?, ho]
    · by_cases hl : name < key
      · simp [put, h, hl, get?]
      · by_cases ho : key = other
        · subst ho; simp [put, h, hl, get?]
        · simp [put, h, hl, get?, ho, ih]

end Fields

namespace Value

/-- The field of an object; nothing for any other value. -/
def get? (name : String) : Value → Option Value
  | .obj fields => Fields.get? name fields
  | _ => none

def ofNumber : Number → Value
  | .whole n => .int n
  | .floating x => .float x

def isNumber : Value → Bool
  | .int _ | .float _ => true
  | _ => false

mutual

/-- Equality up to a given comparison of floating numbers. -/
def agree (floats : Binary64 → Binary64 → Bool) : Value → Value → Bool
  | .null, .null => true
  | .bool a, .bool b => a == b
  | .int a, .int b => a == b
  | .float a, .float b => floats a b
  | .str a, .str b => a == b
  | .arr xs, .arr ys => agreeItems floats xs ys
  | .obj xs, .obj ys => agreeFields floats xs ys
  | _, _ => false

def agreeItems (floats : Binary64 → Binary64 → Bool) : List Value → List Value → Bool
  | [], [] => true
  | x :: xs, y :: ys => agree floats x y && agreeItems floats xs ys
  | _, _ => false

def agreeFields (floats : Binary64 → Binary64 → Bool) :
    List (String × Value) → List (String × Value) → Bool
  | [], [] => true
  | (a, x) :: xs, (b, y) :: ys => a == b && agree floats x y && agreeFields floats xs ys
  | _, _ => false

end

/-- Equality with floating numbers compared as numbers. -/
def same : Value → Value → Bool := agree Binary64.same

mutual

theorem eq_of_agree : ∀ {a b : Value}, agree (· == ·) a b = true → a = b
  | .null, .null, _ => rfl
  | .bool a, .bool b, h => by simpa [agree] using h
  | .int a, .int b, h => by simpa [agree] using h
  | .float a, .float b, h => by simpa [agree] using h
  | .str a, .str b, h => by simpa [agree] using h
  | .arr xs, .arr ys, h => congrArg Value.arr (eq_of_agreeItems (by simpa [agree] using h))
  | .obj xs, .obj ys, h => congrArg Value.obj (eq_of_agreeFields (by simpa [agree] using h))

theorem eq_of_agreeItems : ∀ {xs ys : List Value}, agreeItems (· == ·) xs ys = true → xs = ys
  | [], [], _ => rfl
  | x :: xs, y :: ys, h => by
    simp only [agreeItems, Bool.and_eq_true] at h
    rw [eq_of_agree h.1, eq_of_agreeItems h.2]

theorem eq_of_agreeFields : ∀ {xs ys : List (String × Value)},
    agreeFields (· == ·) xs ys = true → xs = ys
  | [], [], _ => rfl
  | (a, x) :: xs, (b, y) :: ys, h => by
    simp only [agreeFields, Bool.and_eq_true, beq_iff_eq] at h
    rw [h.1.1, eq_of_agree h.1.2, eq_of_agreeFields h.2]

end

mutual

theorem agree_refl {floats : Binary64 → Binary64 → Bool} (hf : ∀ x, floats x x = true) :
    ∀ a : Value, agree floats a a = true
  | .null => rfl
  | .bool a => by simp [agree]
  | .int a => by simp [agree]
  | .float a => by simp [agree, hf]
  | .str a => by simp [agree]
  | .arr xs => by simp [agree, agreeItems_refl hf xs]
  | .obj xs => by simp [agree, agreeFields_refl hf xs]

theorem agreeItems_refl {floats : Binary64 → Binary64 → Bool} (hf : ∀ x, floats x x = true) :
    ∀ xs : List Value, agreeItems floats xs xs = true
  | [] => rfl
  | x :: xs => by simp [agreeItems, agree_refl hf x, agreeItems_refl hf xs]

theorem agreeFields_refl {floats : Binary64 → Binary64 → Bool} (hf : ∀ x, floats x x = true) :
    ∀ xs : List (String × Value), agreeFields floats xs xs = true
  | [] => rfl
  | (a, x) :: xs => by simp [agreeFields, agree_refl hf x, agreeFields_refl hf xs]

end

instance : DecidableEq Value := fun a b =>
  if h : agree (· == ·) a b = true then .isTrue (eq_of_agree h)
  else .isFalse fun hab => h (hab ▸ agree_refl (fun x => by simp) a)

/-- Every number is one of its 64-bit format, and the names of every object are related in the
order in which they are listed. -/
inductive Sound (r : String → String → Prop) : Value → Prop where
  | null : Sound r .null
  | bool (b : Bool) : Sound r (.bool b)
  | int {n : Int} : -(2 ^ 63) ≤ n → n < 2 ^ 64 → Sound r (.int n)
  | float {x : Binary64} : x.isFinite → x.Canonical → Sound r (.float x)
  | str (s : String) : Sound r (.str s)
  | arr {items : List Value} : (∀ v ∈ items, Sound r v) → Sound r (.arr items)
  | obj {fields : List (String × Value)} : (fields.map (·.1)).Pairwise r →
      (∀ entry ∈ fields, Sound r entry.2) → Sound r (.obj fields)

/-- What a text can say: every object lists its fields by strictly ascending name. -/
abbrev Proper : Value → Prop := Sound (· < ·)

mutual

/-- The value with the fields of every object put in their places; of two with one name the later
stays. -/
def arranged : Value → Value
  | .null => .null
  | .bool b => .bool b
  | .int n => .int n
  | .float x => .float x
  | .str s => .str s
  | .arr items => .arr (arrangedItems items)
  | .obj fields => .obj (Fields.ofEntries (arrangedFields fields))

def arrangedItems : List Value → List Value
  | [] => []
  | v :: rest => arranged v :: arrangedItems rest

def arrangedFields : List (String × Value) → List (String × Value)
  | [] => []
  | (name, v) :: rest => (name, arranged v) :: arrangedFields rest

end

end Value

end ServiceMaps
