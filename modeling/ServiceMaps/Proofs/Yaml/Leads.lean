import ServiceMaps.Proofs.Yaml.Places

/-!
Reading tokens step by step. `Leads` says that reading goes on from one layout and source as from
another. It composes, so that what one part of a text adds to the tokens is shown by itself: a step
that takes a token, a passage to the next line, the loss of a key that can no longer be one, and
the end of a block collection.
-/
namespace ServiceMaps.Yaml.Layout

/-- Reading from one layout and source goes on as from another. The steps between are at most as
many as the characters passed over, so that the fuel of one character each suffices. -/
def Leads (l : Layout) (s : Source) (l' : Layout) (s' : Source) : Prop :=
  ∃ n, n + s'.length ≤ s.length ∧ ∀ fuel, l.run (fuel + n + 1) s = l'.run (fuel + 1) s'

theorem Leads.refl (l : Layout) (s : Source) : Leads l s l s := ⟨0, by omega, fun _ => rfl⟩

theorem Leads.trans {l₁ l₂ l₃ : Layout} {s₁ s₂ s₃ : Source} (h : Leads l₁ s₁ l₂ s₂)
    (h' : Leads l₂ s₂ l₃ s₃) : Leads l₁ s₁ l₃ s₃ := by
  obtain ⟨n, hn, hr⟩ := h
  obtain ⟨m, hm, hr'⟩ := h'
  refine ⟨m + n, by omega, fun fuel => ?_⟩
  rw [← hr' fuel, ← hr (fuel + m), Nat.add_assoc fuel m n]

/-- Where nothing is left, the tokens are those of the layout reached. -/
theorem Leads.run_eq {l l' : Layout} {s : Source} (h : Leads l s l' []) :
    l.run (s.length + 1) s = (l'.allowKey l'.keyAllowed).finish := by
  obtain ⟨n, hn, hr⟩ := h
  have hs : s.length = (s.length - n) + n := by simp only [List.length_nil] at hn; omega
  rw [hs, hr]
  rfl

/-- What follows once blanks and comments are passed over. -/
def next (fuel : Nat) (l : Layout) : Source → List Token
  | [] => l.finish
  | p :: rest =>
    match (l.expire? p).map (unroll p.column) with
    | none => l.broken
    | some l =>
      match l.step p rest with
      | none => l.broken
      | some (l, s) => run fuel l s

theorem run_succ (fuel : Nat) (l : Layout) (s : Source) :
    l.run (fuel + 1) s = next fuel (l.allowKey (skipToToken l.inFlow false l.keyAllowed s).1)
      (skipToToken l.inFlow false l.keyAllowed s).2 := by
  rw [run]
  rcases skipToToken l.inFlow false l.keyAllowed s with ⟨a, _ | ⟨p, rest⟩⟩ <;> rfl

theorem skipToToken_start (flow allowed : Bool) {p : Placed} (h : StartsToken p.char)
    (rest : Source) : skipToToken flow false allowed (p :: rest) = (allowed, p :: rest) := by
  obtain ⟨hbreak, hblank, hmark, horder⟩ := h
  simp only [isBlank, Bool.or_eq_false_iff, decide_eq_false_iff_not] at hblank
  simp [skipToToken, hbreak, hblank, hmark, horder]

theorem run_start {l : Layout} {p : Placed} (h : StartsToken p.char) (fuel : Nat) (rest : Source) :
    l.run (fuel + 1) (p :: rest) = next fuel l (p :: rest) := by
  rw [run_succ, skipToToken_start _ _ h]
  rfl

/-- One token is read. -/
theorem leads_step {l l₁ l₂ : Layout} {p : Placed} {rest s : Source} (h : StartsToken p.char)
    (he : l.expire? p = some l₁) (hs : (l₁.unroll p.column).step p rest = some (l₂, s))
    (hl : s.length ≤ rest.length) : Leads l (p :: rest) l₂ s := by
  refine ⟨1, by rw [List.length_cons]; omega, fun fuel => ?_⟩
  rw [run_start h, next, he]
  simp only [Option.map_some, hs]

theorem skipToToken_space (allowed : Bool) (line column : Nat) (rest : Source) :
    skipToToken false false allowed (⟨' ', line, column⟩ :: rest) =
      skipToToken false false allowed rest := by
  have hspace : isBreak ' ' = false := by decide
  simp [skipToToken, hspace]

theorem skipToToken_break {c : Char} (h : isBreak c = true) (allowed : Bool) (line column : Nat)
    (rest : Source) : skipToToken false false allowed (⟨c, line, column⟩ :: rest) =
      skipToToken false false true rest := by
  simp [skipToToken, h]

theorem skipToToken_spaces (allowed : Bool) (line column n : Nat) (cs : List Char) :
    skipToToken false false allowed (spread line column (Style.spaces n ++ cs)) =
      skipToToken false false allowed (spread line (column + n) cs) := by
  induction n generalizing column with
  | zero => rfl
  | succ n ih =>
    have hspace : isBreak ' ' = false := by decide
    rw [Style.spaces, List.replicate_succ, List.cons_append, spread_text hspace,
      skipToToken_space, ← Style.spaces, ih, Nat.add_assoc, Nat.add_comm 1]

/-- From the start of a line reading comes to the next token. -/
theorem skipToToken_line {limit line : Nat} {rest : List Char} (h : NextWithin limit rest) :
    skipToToken false false true (spread line 0 rest) = (true, land line rest) := by
  rcases h with rfl | ⟨column, c, more, rfl, -, hc⟩
  · rfl
  · rw [skipToToken_spaces, Nat.zero_add, spread_text hc.1, skipToToken_start _ _ hc,
      land_spaces _ _ hc, spread_text hc.1]

theorem skipToToken_land {limit line : Nat} {rest : List Char} (h : NextWithin limit rest) :
    skipToToken false false true (land line rest) = (true, land line rest) := by
  rcases h with rfl | ⟨column, c, more, rfl, -, hc⟩
  · rfl
  · rw [land_spaces _ _ hc, spread_text hc.1, skipToToken_start _ _ hc]

theorem skipToToken_ending {limit line : Nat} {extra rest : List Char} (he : Ending extra)
    (h : NextWithin limit rest) : skipToToken false false true (spread line 0 (extra ++ rest)) =
      (true, land (line + extra.length) rest) := by
  rcases he with rfl | rfl
  · exact skipToToken_line h
  · have hbreak : isBreak '\n' = true := by decide
    rw [List.singleton_append, spread_break hbreak, skipToToken_break hbreak, skipToToken_line h]
    rfl

variable {emitted : List Token} {columns : List Nat} {key : Option PossibleKey} {allowed : Bool}

/-- At the end of a line reading passes to the next token. -/
theorem leads_newline {limit : Nat} (line column : Nat) {extra rest : List Char} (he : Ending extra)
    (h : NextWithin limit rest) :
    Leads ⟨emitted, columns, key, [], allowed⟩ (spread line column ('\n' :: extra ++ rest))
      ⟨emitted, columns, key, [], true⟩ (land (line + 1 + extra.length) rest) := by
  have hbreak : isBreak '\n' = true := by decide
  have hlen := length_land_le (line + 1 + extra.length) rest
  refine ⟨0, by simp; omega, fun fuel => ?_⟩
  rw [run_succ, run_succ]
  simp only [inFlow, List.isEmpty_nil, Bool.not_true]
  rw [List.cons_append, spread_break hbreak, skipToToken_break hbreak, skipToToken_ending he h,
    skipToToken_land h]
  rfl

/-- A key that may be one cannot be one any more on a later line. -/
def Stale (key : Option PossibleKey) (line : Nat) : Prop :=
  ∀ k ∈ key, k.required = false ∧ k.line < line

theorem leads_drop {limit line : Nat} {rest : List Char} (hk : Stale key line)
    (h : NextWithin limit rest) :
    Leads ⟨emitted, columns, key, [], true⟩ (land line rest)
      ⟨emitted, columns, none, [], true⟩ (land line rest) := by
  refine ⟨0, by omega, fun fuel => ?_⟩
  cases key with
  | none => rfl
  | some k =>
    obtain ⟨hr, hl⟩ := hk k rfl
    rcases h with rfl | ⟨column, c, more, rfl, -, hc⟩
    · rw [land_nil, run_succ, run_succ]
      simp [skipToToken, allowKey, next, finish, dropKey?, hr]
    · rw [land_spaces _ _ hc, spread_text hc.1, run_start hc, run_start hc]
      simp [next, expire?, PossibleKey.expired, hr, hl, Option.filter]

/-- A block collection ends before a token that stands to the left of it. -/
theorem leads_close {limit line column : Nat} {rest : List Char} (h : NextWithin limit rest)
    (hc : limit < column) :
    Leads ⟨emitted, column :: columns, none, [], true⟩ (land line rest)
      ⟨.blockEnd :: emitted, columns, none, [], true⟩ (land line rest) := by
  refine ⟨0, by omega, fun fuel => ?_⟩
  rcases h with rfl | ⟨k, c, more, rfl, hk, hstart⟩
  · rw [land_nil, run_succ, run_succ]
    have hneg : (-1 : Int) < column := by omega
    simp [skipToToken, allowKey, next, finish, dropKey?, unroll, inFlow, closeColumns, hneg]
  · rw [land_spaces _ _ hstart, spread_text hstart.1, run_start hstart, run_start hstart]
    have hlt : k < column := by omega
    simp [next, expire?, unroll, inFlow, closeColumns, hlt]

end ServiceMaps.Yaml.Layout
