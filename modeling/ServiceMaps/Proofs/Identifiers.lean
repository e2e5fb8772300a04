import Mathlib.Data.List.Nodup
import ServiceMaps.Identifier

/-!
Identifiers from a sequence. The number at the end of an identifier can be read off whatever the
kind, the type and the label are, since its digits are all that follows the last dash. So a
sequence does not repeat itself before its 64-bit word has taken every value.
-/
namespace ServiceMaps

/-- A supply that keeps a record of what was drawn from it, the latest first. -/
def IdSource.recorded {σ : Type} (ids : IdSource σ) : IdSource (σ × List String) :=
  ⟨fun kind entity s =>
    ((ids.draw kind entity s.1).1, (ids.draw kind entity s.1).2,
      (ids.draw kind entity s.1).1 :: s.2)⟩

namespace IdSequence

/-- An identifier of some kind and type with a given label and number. -/
def IsNumbered (label : String) (n : Nat) (id : String) : Prop :=
  ∃ kind entity, id = (Identifier.mk kind entity (label ++ "-" ++ toString n)).text

theorem not_mem_digits {c : Char} (h : c.isDigit = false) (n : Nat) : c ∉ Nat.toDigits 10 n := by
  intro hc
  have hdigit : c.isDigit = true := Nat.isDigit_of_mem_toDigits (by decide) (by decide) hc
  simp [h] at hdigit

/-- What follows the last dash of a text that ends in a dash and digits. -/
theorem takeWhile_reverse_digits (front : List Char) (n : Nat) :
    (front ++ '-' :: Nat.toDigits 10 n).reverse.takeWhile (· ≠ '-') =
      (Nat.toDigits 10 n).reverse := by
  have hdigits : ∀ c ∈ (Nat.toDigits 10 n).reverse, (decide (c ≠ '-')) = true := by
    intro c hc
    have hmem : c ∈ Nat.toDigits 10 n := List.mem_reverse.mp hc
    exact decide_eq_true fun h => not_mem_digits (c := '-') (by decide) n (h ▸ hmem)
  rw [List.reverse_append, List.reverse_cons, List.append_assoc, List.singleton_append,
    List.takeWhile_append_of_pos hdigits]
  simp

/-- The number of an identifier can be read off it. -/
theorem IsNumbered.unique {label id : String} {m n : Nat} (hm : IsNumbered label m id)
    (hn : IsNumbered label n id) : m = n := by
  obtain ⟨kind, entity, rfl⟩ := hm
  obtain ⟨kind', entity', heq⟩ := hn
  have hchars := congrArg (fun s => s.toList.reverse.takeWhile (· ≠ '-')) heq
  have htext : ∀ (kind entity : String) (k : Nat),
      (Identifier.mk kind entity (label ++ "-" ++ toString k)).text.toList =
        (kind.toList ++ ':' :: entity.toList ++ ':' :: label.toList) ++
          '-' :: Nat.toDigits 10 k := by
    intro kind entity k
    simp [Identifier.text]
  simp only [htext, takeWhile_reverse_digits, List.reverse_inj] at hchars
  rw [← Nat.ofDigitChars_ten_toDigits (n := m), hchars, Nat.ofDigitChars_ten_toDigits]

theorem isNumbered_draw (kind entity : String) (s : IdSequence) :
    IsNumbered s.label s.next.toNat (s.draw kind entity).1 := ⟨kind, entity, rfl⟩

/-- What holds of a sequence with its record, as long as fewer than 2^64 identifiers were drawn: the
sequence has counted them, and they have different numbers. -/
structure Counts (label : String) (s : IdSequence) (drawn : List String) : Prop where
  label_eq : s.label = label
  next : s.next.toNat = drawn.length
  numbered : ∀ id ∈ drawn, ∃ n < drawn.length, IsNumbered label n id
  nodup : drawn.Nodup

theorem counts_start (label : String) : Counts label (start label) [] :=
  ⟨rfl, rfl, nofun, .nil⟩

/-- One more identifier is counted, and differs from those before it. -/
theorem Counts.draw {label : String} {s : IdSequence} {drawn : List String}
    (h : Counts label s drawn) (hlt : drawn.length + 1 < 2 ^ 64) (kind entity : String) :
    Counts label (s.draw kind entity).2 ((s.draw kind entity).1 :: drawn) := by
  have hnew : IsNumbered label drawn.length (s.draw kind entity).1 := by
    rw [← h.label_eq, ← h.next]
    exact isNumbered_draw kind entity s
  refine ⟨h.label_eq, ?_, ?_, List.nodup_cons.mpr ⟨?_, h.nodup⟩⟩
  · have hnext : (s.draw kind entity).2.next = s.next + 1 := rfl
    rw [hnext, UInt64.toNat_add, UInt64.toNat_one, h.next, List.length_cons]
    exact Nat.mod_eq_of_lt hlt
  · intro id hid
    rcases List.mem_cons.mp hid with rfl | hid
    · exact ⟨drawn.length, by simp, hnew⟩
    · obtain ⟨n, hn, hid⟩ := h.numbered id hid
      exact ⟨n, by simp only [List.length_cons]; omega, hid⟩
  · intro hmem
    obtain ⟨n, hn, hid⟩ := h.numbered _ hmem
    have := hnew.unique hid
    omega

/-- Under one label two identifiers are the same text exactly if they have the same number, and
their kinds and types spell the same text with a colon between them. -/
theorem text_numbered_eq_iff (label kind entity kind' entity' : String) (m n : Nat) :
    (Identifier.mk kind entity (label ++ "-" ++ toString m)).text =
        (Identifier.mk kind' entity' (label ++ "-" ++ toString n)).text ↔
      m = n ∧ kind ++ ":" ++ entity = kind' ++ ":" ++ entity' := by
  have hsplit : ∀ (kind entity : String) (k : Nat),
      (Identifier.mk kind entity (label ++ "-" ++ toString k)).text =
        kind ++ ":" ++ entity ++ (":" ++ (label ++ "-" ++ toString k)) := by
    intro kind entity k
    simp only [Identifier.text, String.append_assoc]
  constructor
  · intro h
    have hm : IsNumbered label m (Identifier.mk kind entity (label ++ "-" ++ toString m)).text :=
      ⟨kind, entity, rfl⟩
    obtain rfl : m = n := hm.unique ⟨kind', entity', h⟩
    rw [hsplit, hsplit] at h
    exact ⟨rfl, (String.append_left_inj _).mp h⟩
  · rintro ⟨rfl, h⟩
    rw [hsplit, hsplit, h]

/-- The identifiers that a run of calls draws, each for a kind and a type. -/
def drawAll : List (String × String) → IdSequence → List String
  | [], _ => []
  | (kind, entity) :: calls, s => (s.draw kind entity).1 :: drawAll calls (s.draw kind entity).2

@[simp] theorem length_drawAll (calls : List (String × String)) (s : IdSequence) :
    (drawAll calls s).length = calls.length := by
  induction calls generalizing s with
  | nil => rfl
  | cons call calls ih => rw [drawAll, List.length_cons, ih, List.length_cons]

/-- Each identifier of a run has the kind and the type of its call. Its number goes on counting from
that of the first, and starts again from zero where the word overflows. -/
theorem getElem?_drawAll (calls : List (String × String)) (s : IdSequence) (i : Nat) :
    (drawAll calls s)[i]? = calls[i]?.map fun call => (Identifier.mk call.1 call.2
      (s.label ++ "-" ++ toString ((s.next.toNat + i) % 2 ^ 64))).text := by
  induction calls generalizing s i with
  | nil => rfl
  | cons call calls ih =>
    obtain ⟨kind, entity⟩ := call
    cases i with
    | zero =>
      have hword : s.next.toNat % 2 ^ 64 = s.next.toNat := Nat.mod_eq_of_lt s.next.toNat_lt
      simp [drawAll, draw, hword]
    | succ i =>
      have hlabel : (s.draw kind entity).2.label = s.label := rfl
      have hnumber : ((s.draw kind entity).2.next.toNat + i) % 2 ^ 64 =
          (s.next.toNat + (i + 1)) % 2 ^ 64 := by
        have hnext : (s.draw kind entity).2.next = s.next + 1 := rfl
        rw [hnext, UInt64.toNat_add, UInt64.toNat_one]
        omega
      rw [drawAll, List.getElem?_cons_succ, List.getElem?_cons_succ, ih, hlabel, hnumber]

/-- Two identifiers of a run are the same text exactly if a multiple of 2^64 calls lies between
them, and their kinds and types spell the same text. -/
theorem getElem?_drawAll_eq_iff {calls : List (String × String)} (s : IdSequence) {i j : Nat}
    {a b : String × String} (ha : calls[i]? = some a) (hb : calls[j]? = some b) :
    (drawAll calls s)[i]? = (drawAll calls s)[j]? ↔
      i % 2 ^ 64 = j % 2 ^ 64 ∧ a.1 ++ ":" ++ a.2 = b.1 ++ ":" ++ b.2 := by
  have hshift : (s.next.toNat + i) % 2 ^ 64 = (s.next.toNat + j) % 2 ^ 64 ↔
      i % 2 ^ 64 = j % 2 ^ 64 := by omega
  rw [getElem?_drawAll, getElem?_drawAll, ha, hb, Option.map_some, Option.map_some,
    Option.some.injEq, text_numbered_eq_iff, hshift]

/-- A run draws one identifier for each call, and all of them are different as long as there are no
more calls than the word has values. It does not matter which kinds and types are asked for, what
the label is and which number comes first. -/
theorem drawAll_nodup (s : IdSequence) (calls : List (String × String))
    (h : calls.length ≤ 2 ^ 64) :
    (drawAll calls s).length = calls.length ∧ (drawAll calls s).Nodup := by
  refine ⟨length_drawAll calls s, List.nodup_iff_getElem?_ne_getElem?.mpr fun i j hij hj heq => ?_⟩
  rw [length_drawAll] at hj
  have ha : calls[i]? = some calls[i] := List.getElem?_eq_getElem (by omega)
  have hb : calls[j]? = some calls[j] := List.getElem?_eq_getElem hj
  obtain ⟨hmod, -⟩ := (getElem?_drawAll_eq_iff s ha hb).mp heq
  rw [Nat.mod_eq_of_lt (by omega), Nat.mod_eq_of_lt (by omega)] at hmod
  omega

/-- Kinds and types that spell the same text, at the overflow of the word. -/
theorem drawAll_nodup_overflow :
    let s : IdSequence := ⟨"1-", 18446744073709551615⟩
    let calls := [("a:b", "c"), ("a", "b:c"), ("", "1"), ("", "")]
    calls.length ≤ 2 ^ 64 ∧
      drawAll calls s = ["a:b:c:1--18446744073709551615", "a:b:c:1--0", ":1:1--1", "::1--2"] ∧
      (drawAll calls s).length = calls.length ∧ (drawAll calls s).Nodup := by
  intro s calls
  have hlength : calls.length ≤ 2 ^ 64 := by decide
  exact ⟨hlength, by decide +kernel, drawAll_nodup s calls hlength⟩

end IdSequence

end ServiceMaps
