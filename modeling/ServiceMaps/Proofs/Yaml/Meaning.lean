import Mathlib.Data.List.Forall2
import ServiceMaps.Yaml.Stream

/-!
What the documents of a text say. `Says` relates a node to the datum that it stands for, without the
limits on nesting and on aliases, which only decide whether reading ends with that datum or fails. A
document that is read stands at its place among the trees of the text, and its tree says what was
read.
-/
namespace ServiceMaps.Yaml

namespace Datum

/-- What a node says, where an alias says what the node under its number says. The keys of a mapping
are scalars and all different. -/
inductive Says (anchors : Anchors) : Node → Datum → Prop where
  | scalar {anchor : Option Nat} {tag : Option Tag} {text : String} {plain : Bool} {d : Datum} :
      ofScalar? tag text plain = some d → Says anchors (.scalar anchor tag text plain) d
  | followed {number : Nat} {n : Node} {d : Datum} : anchors.reverse.lookup number = some n →
      Says anchors n d → Says anchors (.alias number) d
  | sequence {anchor : Option Nat} {tag : Option Tag} {nodes : List Node} {items : List Datum} :
      nodes.length = items.length → (∀ pair ∈ nodes.zip items, Says anchors pair.1 pair.2) →
      Says anchors (.sequence anchor tag nodes) (underTag tag (.seq items))
  | mapping {anchor : Option Nat} {tag : Option Tag} {nodes : List (Node × Node)}
      {read : List (Datum × Datum)} {entries : List (Key × Datum)} :
      nodes.length = read.length → (∀ pair ∈ nodes.zip read, Says anchors pair.1.1 pair.2.1) →
      (∀ pair ∈ nodes.zip read, Says anchors pair.1.2 pair.2.2) → entries? read = some entries →
      Says anchors (.mapping anchor tag nodes) (underTag tag (.map entries))

/-- The entries of a mapping are what was read, in its order, each under its key, and no key is the
same as another. -/
theorem entries?_eq_some {read : List (Datum × Datum)} {entries : List (Key × Datum)}
    (h : entries? read = some entries) :
    List.Forall₂ (fun pair entry => pair.1.key? = some entry.1 ∧ pair.2 = entry.2) read entries ∧
      entries.Pairwise fun first later => later.1.same first.1 = false := by
  induction read generalizing entries with
  | nil =>
    obtain rfl := Option.some.inj h
    exact ⟨.nil, .nil⟩
  | cons pair rest ih =>
    obtain ⟨k, v⟩ := pair
    simp only [entries?, Option.bind_eq_bind, Option.bind_eq_some_iff] at h
    obtain ⟨key, hkey, more, hmore, h⟩ := h
    obtain ⟨hread, hapart⟩ := ih hmore
    split at h
    · simp at h
    · rename_i hany
      obtain rfl := Option.some.inj h
      refine ⟨.cons ⟨hkey, rfl⟩ hread, List.pairwise_cons.mpr ⟨fun entry hentry => ?_, hapart⟩⟩
      simpa using fun hsame => hany (List.any_eq_true.mpr ⟨entry, hentry, hsame⟩)

section Steps

variable {α β : Type} {left left' : Nat}

theorem bind_eq_some {m : StateT Nat Option α} {k : α → StateT Nat Option β} {b : β} :
    (m >>= k) left = some (b, left') ↔
      ∃ a mid, m left = some (a, mid) ∧ k a mid = some (b, left') := by
  change ((m left).bind fun r => k r.1 r.2) = _ ↔ _
  rw [Option.bind_eq_some_iff]
  exact ⟨fun ⟨⟨a, mid⟩, h⟩ => ⟨a, mid, h⟩, fun ⟨a, mid, h⟩ => ⟨⟨a, mid⟩, h⟩⟩

theorem pure_eq_some {a b : α} (h : (pure a : StateT Nat Option α) left = some (b, left')) :
    a = b :=
  (Prod.mk.inj (Option.some.inj h)).1

theorem lift_eq_some {o : Option α} {a : α}
    (h : (liftM o : StateT Nat Option α) left = some (a, left')) : o = some a := by
  cases o with
  | none => exact absurd h nofun
  | some b => rw [(Prod.mk.inj (Option.some.inj h)).1]

/-- A list is read member by member. -/
theorem zip_of_mapM {f : α → StateT Nat Option β} {xs : List α} {ys : List β}
    (h : xs.mapM f left = some (ys, left')) : xs.length = ys.length ∧
      ∀ pair ∈ xs.zip ys, ∃ before after, f pair.1 before = some (pair.2, after) := by
  induction xs generalizing ys left left' with
  | nil =>
    obtain rfl := pure_eq_some h
    simp
  | cons x rest ih =>
    rw [List.mapM_cons] at h
    obtain ⟨y, mid, hy, h⟩ := bind_eq_some.mp h
    obtain ⟨more, last, hmore, h⟩ := bind_eq_some.mp h
    obtain rfl := pure_eq_some h
    obtain ⟨hlength, hread⟩ := ih hmore
    constructor
    · rw [List.length_cons, List.length_cons, hlength]
    · rw [List.zip_cons_cons]
      exact List.forall_mem_cons.mpr ⟨⟨left, mid, hy⟩, hread⟩

end Steps

theorem exists_mem_zip {α β : Type} {xs : List α} {ys : List β} (h : xs.length = ys.length) {y : β}
    (hy : y ∈ ys) : ∃ x, (x, y) ∈ xs.zip ys := by
  rw [← List.map_snd_zip (Nat.le_of_eq h.symm)] at hy
  obtain ⟨⟨x, z⟩, hz, rfl⟩ := List.mem_map.mp hy
  exact ⟨x, hz⟩

/-- An entry of a mapping has its key and its value from one entry of the text. -/
theorem exists_read_of_mem {nodes : List (Node × Node)} {read : List (Datum × Datum)}
    {entries : List (Key × Datum)} (hlength : nodes.length = read.length)
    (hentries : entries? read = some entries) {entry : Key × Datum} (h : entry ∈ entries) :
    ∃ pair key, (pair, (key, entry.2)) ∈ nodes.zip read ∧ key.key? = some entry.1 := by
  obtain ⟨hread, -⟩ := entries?_eq_some hentries
  obtain ⟨⟨key, value⟩, hpair⟩ := exists_mem_zip hread.length_eq h
  obtain ⟨hkey, rfl⟩ := List.forall₂_zip hread hpair
  obtain ⟨pair, hnodes⟩ := exists_mem_zip hlength (List.of_mem_zip hpair).1
  exact ⟨pair, key, hnodes, hkey⟩

variable {anchors : Anchors} {left left' : Nat} {d : Datum}

theorem says_of_target {n m : Node} (h : target anchors n left = some (m, left'))
    (hm : Says anchors m d) : Says anchors n d := by
  cases n with
  | «alias» number =>
    obtain ⟨-, mid, -, h⟩ := bind_eq_some.mp h
    cases hn : anchors.reverse.lookup number with
    | none =>
      rw [hn] at h
      exact absurd h nofun
    | some n =>
      rw [hn] at h
      obtain rfl := pure_eq_some h
      exact .followed hn hm
  | _ =>
    obtain rfl := pure_eq_some h
    exact hm

theorem says_of_ofContent? {inner : Node → StateT Nat Option Datum}
    (hi : ∀ n d left left', inner n left = some (d, left') → Says anchors n d) {n : Node}
    (h : ofContent? inner n left = some (d, left')) : Says anchors n d := by
  cases n with
  | scalar anchor tag text plain => exact .scalar (lift_eq_some h)
  | sequence anchor tag nodes =>
    obtain ⟨items, mid, hitems, h⟩ := bind_eq_some.mp h
    obtain rfl := pure_eq_some h
    obtain ⟨hlength, hread⟩ := zip_of_mapM hitems
    refine .sequence hlength fun pair hpair => ?_
    obtain ⟨before, after, hn⟩ := hread pair hpair
    exact hi _ _ before after hn
  | mapping anchor tag nodes =>
    obtain ⟨read, mid, hparts, h⟩ := bind_eq_some.mp h
    obtain ⟨entries, last, hentries, h⟩ := bind_eq_some.mp h
    obtain rfl := pure_eq_some h
    obtain ⟨hlength, hread⟩ := zip_of_mapM hparts
    have hboth : ∀ pair ∈ nodes.zip read,
        Says anchors pair.1.1 pair.2.1 ∧ Says anchors pair.1.2 pair.2.2 := by
      rintro ⟨⟨k, v⟩, b⟩ hpair
      obtain ⟨before, after, hn⟩ := hread _ hpair
      obtain ⟨key, mid, hkey, hn⟩ := bind_eq_some.mp hn
      obtain ⟨value, last, hvalue, hn⟩ := bind_eq_some.mp hn
      obtain rfl := pure_eq_some hn
      exact ⟨hi k key before mid hkey, hi v value mid last hvalue⟩
    exact .mapping hlength (fun pair hpair => (hboth pair hpair).1)
      (fun pair hpair => (hboth pair hpair).2) (lift_eq_some hentries)
  | «alias» number => exact absurd h nofun

/-- Whatever a node is read as, it says. -/
theorem says_of_ofNode? {depth : Nat} {n : Node}
    (h : ofNode? anchors depth n left = some (d, left')) : Says anchors n d := by
  induction depth generalizing n d left left' with
  | zero =>
    obtain ⟨m, mid, hm, h⟩ := bind_eq_some.mp h
    apply says_of_target hm
    cases m with
    | scalar anchor tag text plain => exact .scalar (lift_eq_some h)
    | _ => exact absurd h nofun
  | succ depth ih =>
    obtain ⟨m, mid, hm, h⟩ := bind_eq_some.mp h
    apply says_of_target hm
    exact says_of_ofContent? (fun _ _ _ _ hn => ih hn) h

theorem says_of_ofDocument? {n : Node} (h : ofDocument? n = some d) : Says n.anchored n d := by
  obtain ⟨⟨d, left⟩, hread, rfl⟩ := Option.map_eq_some_iff.mp h
  exact says_of_ofNode? hread

end Datum

/-- What stands before the cut stays at its place. -/
theorem Stream.getElem?_of_untilNone {α : Type} {items : List (Option α)} {i : Nat} {a : α}
    (h : (untilNone items)[i]? = some (some a)) : items[i]? = some (some a) := by
  induction items generalizing i with
  | nil => simp [untilNone] at h
  | cons item rest ih =>
    cases item with
    | none => cases i <;> simp [untilNone] at h
    | some b =>
      cases i with
      | zero => simpa [untilNone] using h
      | succ i => exact ih (by simpa [untilNone] using h)

/-- A value that a text holds is the value of a datum, which the tree at the same place says. -/
theorem exists_says_of_documents {text : String} {i : Nat} {v : Value}
    (h : (documents text)[i]? = some (some v)) :
    ∃ n d, (nodes text)[i]? = some (some n) ∧ (data text)[i]? = some (some d) ∧
      Datum.Says n.anchored n d ∧ d.toValue = v := by
  rw [documents, List.getElem?_map] at h
  obtain ⟨o, hdata, ho⟩ := Option.map_eq_some_iff.mp h
  obtain ⟨d, rfl, rfl⟩ := Option.map_eq_some_iff.mp ho
  have hread := Stream.getElem?_of_untilNone hdata
  rw [List.getElem?_map] at hread
  obtain ⟨tree, htree, hd⟩ := Option.map_eq_some_iff.mp hread
  obtain ⟨n, rfl, hn⟩ := Option.bind_eq_some_iff.mp hd
  exact ⟨n, d, htree, hdata, Datum.says_of_ofDocument? hn, rfl⟩

end ServiceMaps.Yaml
