import ServiceMaps.ServiceMap.Fresh
import ServiceMaps.Proofs.Identifiers
import ServiceMaps.Proofs.Lineage

/-!
Adding a new outcome document to a blueprint. It switches on the checks of references from and to
outcome documents. Its own references are answered or unset, so that all it brings to the reports
are the enablement outcomes that work towards another indicator; they stand at the end since that
check comes last. As long as the success factor shows in no task, no indicator has a lineage.
-/
namespace ServiceMaps

variable {σ : Type}

namespace References

variable {o : Outcome}

theorem withinOutcome_of_linked (hgoal : o.factor.goal = o.goal.id)
    (hfactor : o.indicator.factor = o.factor.id) : withinOutcome o = [] := by
  simp [withinOutcome, unresolved, hgoal, hfactor]

theorem factorSource_of_unset (h : pointsTo? o.factor.source = none) (b : Blueprint) :
    factorSource o b = [] := by
  simp [factorSource, unresolvedSet, h]

/-- The enablement outcomes that are reported are those with a reference to another indicator. -/
theorem outcomeSources_eq (e : EnablementMap) (o : Outcome) :
    outcomeSources e o =
      (e.outcomes.filter fun u => u.source ≠ "" ∧ u.source ≠ o.indicator.id).map fun u =>
        .otherIndicator u.id u.source o.indicator.id := by
  rw [outcomeSources]
  induction e.outcomes with
  | nil => rfl
  | cons u rest ih =>
    rw [List.flatMap_cons, ih, List.filter_cons]
    by_cases hunset : u.source = ""
    · simp [pointsTo?_eq_none_iff.mpr, hunset]
    · rw [pointsTo?_some hunset]
      by_cases hcurrent : u.source = o.indicator.id
      · simp [hcurrent]
      · simp [hunset, hcurrent]

end References

namespace ServiceMap

open References

variable {m : ServiceMap} {o : Outcome}

/-! ### A map without an outcome document gets one -/

/-- An outcome document whose own references are in order adds no missing reference inside the
documents. -/
theorem missingWithin_withOutcome (h : m.outcome = none) (hwithin : withinOutcome o = []) :
    missingWithin { m with outcome := some o } = m.missingWithin := by
  simp [missingWithin, each, h, hwithin]

/-- If its success factor is unset, what the other documents do not answer to it is all that is
added to the references between documents. -/
theorem faultsAcross_withOutcome (h : m.outcome = none)
    (hsource : pointsTo? o.factor.source = none) :
    faultsAcross { m with outcome := some o } =
      m.faultsAcross ++ m.enablement.toList.flatMap (outcomeSources · o) := by
  obtain ⟨j, b, _, e⟩ := m
  subst h
  have hfactor : both factorSource (some o) b = [] := by
    cases b with
    | none => rfl
    | some b => exact factorSource_of_unset hsource b
  simp only [faultsAcross, hfactor, List.append_nil, List.append_assoc]
  cases e <;> simp [both]

theorem lineage?_of_unset (ho : m.outcome = some o) (hsource : pointsTo? o.factor.source = none)
    (indicator : String) : m.lineage? indicator = none := by
  obtain ⟨j, b, _, e⟩ := m
  subst ho
  cases j <;> cases b <;> cases e <;> simp [lineage?, Blueprint.factorTask?, hsource]

/-! ### The new outcome document -/

theorem ensureOutcome_of_present (ids : IdSource σ) (settings : Settings) (s : σ)
    (h : m.blueprint = none ∨ m.outcome ≠ none) :
    m.ensureOutcome ids settings s = (m, s) := by
  have hcond : (m.blueprint.isNone || m.outcome.isSome) = true := by
    simpa [Option.isSome_iff_ne_none] using h
  rw [ensureOutcome, if_pos hcond]

theorem ensureOutcome_of_absent (ids : IdSource σ) (settings : Settings) (s : σ)
    (hb : m.blueprint ≠ none) (ho : m.outcome = none) :
    m.ensureOutcome ids settings s =
      ({ m with outcome := some (Outcome.fresh ids settings s).1 },
        (Outcome.fresh ids settings s).2) := by
  have hcond : ¬ (m.blueprint.isNone || m.outcome.isSome) = true := by
    simpa [ho] using hb
  rw [ensureOutcome, if_neg hcond]
  rfl

/-- What a new outcome document changes. Nothing happens to a map that has no blueprint or already
has an outcome document, and no identifier is drawn. Every other map gets an outcome document and
keeps its other documents. Four identifiers are drawn for it. The missing references inside the
documents stay the same; those between documents stay where they are, and behind them stand the
enablement outcomes, in their order, whose reference is set and is not the new indicator. No
indicator has a lineage then, and doing the same again changes and draws nothing. -/
theorem ensureOutcome_effect (ids : IdSource σ) (settings : Settings) (m : ServiceMap) (s : σ) :
    (m.blueprint = none ∨ m.outcome ≠ none → m.ensureOutcome ids settings s = (m, s)) ∧
    (m.blueprint ≠ none → m.outcome = none → ∃ o m' s',
      m.ensureOutcome ids settings s = (m', s') ∧ m' = { m with outcome := some o } ∧
      m.ensureOutcome ids.recorded settings (s, []) =
        (m', s', [o.indicator.id, o.id, o.factor.id, o.goal.id]) ∧
      m'.checkWithin.faults.filter (·.kindText = "missing_reference") =
        m.checkWithin.faults.filter (·.kindText = "missing_reference") ∧
      m'.checkAcross.faults = m.checkAcross.faults ++
        (((m.enablement.toList.flatMap (·.outcomes)).filter fun u =>
          u.source ≠ "" ∧ u.source ≠ o.indicator.id).map fun u =>
            Fault.otherIndicator u.id u.source o.indicator.id) ∧
      (∀ indicator, m'.lineage? indicator = none) ∧
      ∀ others, m'.ensureOutcome ids others s' = (m', s')) := by
  refine ⟨ensureOutcome_of_present ids settings s, fun hb ho => ?_⟩
  let o := (Outcome.fresh ids settings s).1
  have hsource : pointsTo? o.factor.source = none := rfl
  refine ⟨o, { m with outcome := some o }, (Outcome.fresh ids settings s).2,
    ensureOutcome_of_absent ids settings s hb ho, rfl,
    ensureOutcome_of_absent ids.recorded settings (s, []) hb ho, ?_, ?_,
    lineage?_of_unset rfl hsource,
    fun others => ensureOutcome_of_present ids others _ (.inr (Option.some_ne_none o))⟩
  · simp only [checkWithin, Verdict.ofFaults, filter_missing_faultsWithin]
    exact missingWithin_withOutcome ho (withinOutcome_of_linked rfl rfl)
  · simp only [checkAcross, Verdict.ofFaults, faultsAcross_withOutcome ho hsource,
      outcomeSources_eq]
    cases m.enablement <;> simp

/-- Of three enablement outcomes one is unset, one already names the new indicator and one works
towards another. -/
theorem ensureOutcome_effect_stray :
    let e : EnablementMap := ⟨"1.0", "e", [⟨"u", ""⟩, ⟨"v", "k"⟩, ⟨"w", "outcome:kpi:t-3"⟩],
      [⟨"m", "M", "x"⟩], [], [], [], []⟩
    let m : ServiceMap := ⟨none, some ⟨"1.0", "b", [], [], []⟩, none, some e⟩
    let made := m.ensureOutcome IdSequence.source .standard (.start "t")
    m.faultsAcross = [.missing .actionSource "m" "M" "x"] ∧
      made.1.faultsAcross =
        [.missing .actionSource "m" "M" "x", .otherIndicator "v" "k" "outcome:kpi:t-3"] ∧
      (∀ indicator, made.1.lineage? indicator = none) ∧
      made.1.ensureOutcome IdSequence.source .standard made.2 = made := by
  intro e m made
  obtain ⟨o, m', s', hmade, -, hdrawn, -, hacross, hlineage, hagain⟩ :=
    (ensureOutcome_effect IdSequence.source .standard m (.start "t")).2 (by decide) rfl
  have hid : o.indicator.id = "outcome:kpi:t-3" := by
    have hhead := congrArg (·.2.2.head?) hdrawn
    exact (Option.some.inj hhead).symm
  have hmade' : made = (m', s') := hmade
  rw [hmade']
  refine ⟨by decide +kernel, ?_, hlineage, hagain .standard⟩
  refine Eq.trans hacross ?_
  rw [hid]
  decide +kernel

end ServiceMap

end ServiceMaps
