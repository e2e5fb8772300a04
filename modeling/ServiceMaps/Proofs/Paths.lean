import Mathlib.Data.List.Basic
import ServiceMaps.Document.Inspection

/-!
The text of a path. A field name that is not empty, and has neither a point nor an opening bracket
in it, can be told apart from what stands around it. So the text of a path whose field names are all
of that kind says which path it is. Two paths are apart if neither leads to or through the place of
the other.
-/
namespace ServiceMaps

/-- A field name that cannot be mistaken for more than one step. -/
def PlainName (name : String) : Prop := name.toList ≠ [] ∧ '.' ∉ name.toList ∧ '[' ∉ name.toList

instance (name : String) : Decidable (PlainName name) := inferInstanceAs (Decidable (_ ∧ _ ∧ _))

namespace Step

/-- The character that starts a step behind another one. -/
def mark : Step → Char
  | .field _ => '.'
  | .index _ => '['

/-- What follows the mark of a step. -/
def body : Step → List Char
  | .field name => name.toList
  | .index i => Nat.toDigits 10 i ++ [']']

def Plain : Step → Prop
  | .field name => PlainName name
  | .index _ => True

/-- A plain step has no mark but the one that starts it. -/
theorem Plain.unmarked {s : Step} (h : s.Plain) : ∀ c ∈ s.body, c ≠ '.' ∧ c ≠ '[' := by
  intro c hc
  cases s with
  | field name => exact ⟨fun he => h.2.1 (he ▸ hc), fun he => h.2.2 (he ▸ hc)⟩
  | index i =>
    have hclear : ∀ d : Char, d.isDigit = false → d ≠ ']' → c ≠ d := by
      rintro d hd hne rfl
      rcases List.mem_append.mp hc with hc | hc
      · simp [Nat.isDigit_of_mem_toDigits (by decide) (by decide) hc] at hd
      · exact hne (List.mem_singleton.mp hc)
    exact ⟨hclear '.' (by decide) (by decide), hclear '[' (by decide) (by decide)⟩

theorem eq_of_body {s t : Step} (hm : s.mark = t.mark) (hb : s.body = t.body) : s = t := by
  cases s with
  | field name =>
    cases t with
    | field other => rw [String.toList_inj.mp hb]
    | index i => simp [mark] at hm
  | index i =>
    cases t with
    | field name => simp [mark] at hm
    | index j =>
      have hdigits : Nat.toDigits 10 i = Nat.toDigits 10 j := List.append_cancel_right hb
      rw [← Nat.ofDigitChars_ten_toDigits (n := i), hdigits, Nat.ofDigitChars_ten_toDigits]

end Step

namespace Path

def Plain (path : Path) : Prop := ∀ s ∈ path, s.Plain

/-- The steps of a path, each behind its mark. -/
def marked (path : Path) : List Char := path.flatMap fun s => s.mark :: s.body

@[simp] theorem marked_nil : marked [] = [] := rfl

@[simp] theorem marked_cons (s : Step) (path : Path) :
    marked (s :: path) = s.mark :: (s.body ++ marked path) := rfl

/-- What stands in front of the first mark. -/
theorem takeWhile_append_marked {front : List Char} (h : ∀ c ∈ front, c ≠ '.' ∧ c ≠ '[')
    (path : Path) :
    (front ++ marked path).takeWhile (fun c => c ≠ '.' ∧ c ≠ '[') = front := by
  rw [List.takeWhile_append_of_pos fun c hc => decide_eq_true (h c hc)]
  cases path with
  | nil => simp
  | cons s rest => cases s <;> simp [Step.mark]

theorem marked_injective {p q : Path} (hp : p.Plain) (hq : q.Plain) (h : marked p = marked q) :
    p = q := by
  induction p generalizing q with
  | nil =>
    cases q with
    | nil => rfl
    | cons t q => simp at h
  | cons s p ih =>
    cases q with
    | nil => simp at h
    | cons t q =>
      obtain ⟨hs, hp⟩ := List.forall_mem_cons.mp hp
      obtain ⟨ht, hq⟩ := List.forall_mem_cons.mp hq
      rw [marked_cons, marked_cons] at h
      obtain ⟨hmark, hrest⟩ := List.cons.inj h
      have hbody : s.body = t.body := by
        rw [← takeWhile_append_marked hs.unmarked p, hrest,
          takeWhile_append_marked ht.unmarked q]
      rw [hbody, List.append_cancel_left_eq] at hrest
      rw [Step.eq_of_body hmark hbody, ih hp hq hrest]

/-- Behind a text that is not empty every step starts with its mark. -/
theorem toList_foldl_extend {text : String} (h : text.toList ≠ []) (path : Path) :
    (path.foldl extend text).toList = text.toList ++ marked path := by
  induction path generalizing text with
  | nil => simp
  | cons s path ih =>
    have hstep : (extend text s).toList = text.toList ++ s.mark :: s.body := by
      have hempty : text.isEmpty = false := by
        rw [← Bool.not_eq_true, String.isEmpty_iff]
        rintro rfl
        exact h rfl
      cases s <;> simp [extend, Step.mark, Step.body, hempty]
    rw [List.foldl_cons, ih (by simp [hstep]), hstep, marked_cons, List.append_assoc,
      List.cons_append]

/-- Puts back the mark that a field name does not have where the path starts. -/
def restoreMark : List Char → List Char
  | [] => []
  | c :: rest => if c = '[' then c :: rest else '.' :: c :: rest

theorem restoreMark_text {path : Path} (hp : path.Plain) :
    restoreMark path.text.toList = marked path := by
  cases path with
  | nil => rfl
  | cons s path =>
    rw [text, List.foldl_cons]
    cases s with
    | field name =>
      have hname : PlainName name := hp _ List.mem_cons_self
      have hstart : extend "" (.field name) = name := rfl
      obtain ⟨c, rest, hc⟩ := List.exists_cons_of_ne_nil hname.1
      have hne : c ≠ '[' := fun he => hname.2.2 (by simp [hc, he])
      rw [hstart, toList_foldl_extend hname.1, hc, List.cons_append, restoreMark, if_neg hne,
        marked_cons, Step.mark, Step.body, hc, List.cons_append]
    | index i =>
      have hstart : (extend "" (.index i)).toList = '[' :: (Step.index i).body := by
        simp [extend, Step.body]
      rw [toList_foldl_extend (by simp [hstart]), hstart, List.cons_append, restoreMark,
        if_pos rfl]
      rfl

/-- The text of a path says which path it is. -/
theorem text_injective {p q : Path} (hp : p.Plain) (hq : q.Plain) (h : p.text = q.text) :
    p = q := by
  refine marked_injective hp hq ?_
  rw [← restoreMark_text hp, ← restoreMark_text hq, h]

/-- Neither of two places is the other or lies below it. -/
def Apart (p q : Path) : Prop := ¬ p <+: q ∧ ¬ q <+: p

theorem Apart.ne {p q : Path} (h : Apart p q) : p ≠ q :=
  fun he => h.1 (he ▸ List.prefix_rfl)

/-- Paths that part at some step lead to places apart. -/
theorem apart_of_steps {base p q : Path} {s t : Step} (hne : s ≠ t) (hp : base ++ [s] <+: p)
    (hq : base ++ [t] <+: q) : Apart p q := by
  have hpart : ∀ {path : Path}, base ++ [s] <+: path → base ++ [t] <+: path → False := by
    intro path hs ht
    have heq : base ++ [s] = base ++ [t] :=
      (List.prefix_of_prefix_length_le hs ht (by simp)).eq_of_length (by simp)
    exact hne (List.singleton_inj.mp (List.append_cancel_left heq))
  exact ⟨fun h => hpart (hp.trans h) hq, fun h => hpart hp (hq.trans h)⟩

end Path

end ServiceMaps
