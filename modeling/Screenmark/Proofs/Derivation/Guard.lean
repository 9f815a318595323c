/-
  Screenmark — conversion rules under their guard.

  Where the guard of a conversion rule is false, its result shows nothing. Each operation
  has its own way to see to that: a formula does not count there, the runs of the guard and
  the runs of operands cut by it cover only frames at which it is true, and guard and target
  are only true together where the guard is (`respectsGuard_of_derive`).
-/
import Screenmark.Proofs.Derivation.Reads

namespace Screenmark

namespace Derivation

variable {ts : Tracks} {r : Rule} {frames f : Nat} {threshold : Single} {d : Derived}
  {guard on : List Bool} {g : String}

theorem isNeutralAt_indicatorTrack (h : on[f]? = some false) :
    (indicatorTrack on).series.IsNeutralAt f := by
  refine Series.isNeutralAt_numbers_iff.2 ?_
  rw [List.getElem?_toArray, List.getElem?_map, h, Option.map_some, indicator,
    if_neg Bool.false_ne_true]

/-! ## Guards -/

/-- The guard of a rule is the gate of its only dependency. -/
theorem guardOf_eq_ok (htest : r.test = some .during) (hdep : r.dependencies = [g])
    (h : guardOf ts r frames = .ok guard) :
    ∃ s, ts.series? g = some s ∧ guard = s.gate ts.threshold frames := by
  rw [guardOf, htest, hdep] at h
  obtain ⟨s, hseries, rfl⟩ := exists_of_map_eq_ok h
  unfold seriesOf at hseries
  split at hseries
  · next s' hs' =>
    cases hseries
    exact ⟨s, hs', rfl⟩
  · cases hseries

/-- A result shows nothing where the guard is false. -/
def RespectsGuard (ts : Tracks) (r : Rule) (frames : Nat) (d : Derived) : Prop :=
  ∃ guard, guardOf ts r frames = .ok guard ∧
    ∀ f < frames, guard[f]? = some false → d.track.series.IsNeutralAt f

/-! ## Formulas -/

theorem respectsGuard_of_eval {warnings : List String}
    (h : eval ts r frames threshold = .ok (d, warnings)) : RespectsGuard ts r frames d := by
  obtain ⟨name, guard, -, hguard, heq⟩ := exists_of_eval h
  cases heq
  refine ⟨guard, hguard, fun f _ hf => isNeutralAt_indicatorTrack ?_⟩
  rw [List.getElem?_map, getElem?_outcomesFrom, hf]
  rfl

/-! ## First values -/

/-- The segments of first values cover only frames at which the guard is true. -/
theorem true_of_mem_valueSegments {s : Series} {segment : Segment}
    (h : segment ∈ valueSegments s threshold guard)
    (hf : segment.start ≤ f ∧ f < segment.stop) : guard[f]? = some true := by
  obtain ⟨span, first, hspan, -, rfl⟩ := mem_valueSegments_iff.1 h
  exact true_of_mem_trueRuns hspan (Span.contains_iff.2 hf)

theorem respectsGuard_of_matchFirstValueOf (h : matchFirstValueOf ts r frames = .ok d) :
    RespectsGuard ts r frames d := by
  obtain ⟨name, guard, s, -, hguard, -, rfl⟩ := exists_of_matchFirstValueOf h
  refine ⟨guard, hguard, fun f hlt hf => (sample?_firstValued hlt).trans ?_⟩
  have hblank : labelAt (valueSegments s ts.threshold guard) f = Text.blank :=
    labelAt_eq_blank fun segment hmem hcovers => by
      rw [true_of_mem_valueSegments hmem hcovers] at hf
      cases hf
  rw [hblank]
  rfl

/-! ## Pulses -/

/-- A pulse is one of the frames that are true. -/
theorem pulsesFrom_of_false : ∀ {bs : List Bool} {previous : Bool} {f : Nat},
    bs[f]? = some false → (pulsesFrom previous bs)[f]? = some false := by
  intro bs
  induction bs with
  | nil => intro previous f h; cases h
  | cons b bs ih =>
    rintro previous (_ | f) h
    · cases h
      rfl
    · exact ih h

theorem respectsGuard_of_triggerBySegmentsOf (h : triggerBySegmentsOf ts r frames = .ok d) :
    RespectsGuard ts r frames d := by
  obtain ⟨name, guard, s, -, hguard, -, rfl⟩ := exists_of_triggerBySegmentsOf h
  refine ⟨guard, hguard, fun f hlt hf => isNeutralAt_indicatorTrack (pulsesFrom_of_false ?_)⟩
  rw [List.getElem?_zipWith, hf, Series.getElem?_gate hlt]
  rfl

/-! ## Nested runs -/

theorem respectsGuard_of_nestByLastVariable {nested : Nested}
    (h : nestByLastVariable ts r frames = .ok nested) :
    RespectsGuard ts r frames nested.derived := by
  obtain ⟨name, guard, ss, -, hguard, rfl⟩ := exists_of_nestByLastVariable h
  refine ⟨guard, hguard, fun f hlt hf => isNeutralAt_indicatorTrack ?_⟩
  rw [getElem?_map_range_eq_some_iff, List.any_eq_false]
  refine ⟨hlt, fun v hv hcontains => ?_⟩
  obtain ⟨s, hs⟩ := exists_of_mem_lastRuns hv
  rw [true_of_mem_runsOf hs hcontains] at hf
  cases hf

/-! ## All operations -/

/-- **Where its guard is false, a conversion rule shows nothing.** -/
theorem respectsGuard_of_derive {nested : Option Nested} {warnings : List String}
    (h : derive ts threshold r frames = .ok (d, nested, warnings)) :
    RespectsGuard ts r frames d := by
  unfold derive at h
  split at h
  · obtain ⟨⟨d, ws⟩, heval, heq⟩ := exists_of_map_eq_ok h
    cases heq
    exact respectsGuard_of_eval heval
  · obtain ⟨d, hfirst, heq⟩ := exists_of_map_eq_ok h
    cases heq
    exact respectsGuard_of_matchFirstValueOf hfirst
  · obtain ⟨d, htrigger, heq⟩ := exists_of_map_eq_ok h
    cases heq
    exact respectsGuard_of_triggerBySegmentsOf htrigger
  · obtain ⟨nested, hnest, heq⟩ := exists_of_map_eq_ok h
    cases heq
    exact respectsGuard_of_nestByLastVariable hnest
  · cases h

end Derivation

end Screenmark
