/-
  Screenmark — the segments of conversion rules.

  A conversion rule works on the frames of the session: its guard has one value for each of
  them, whatever the lengths of the series are that it reads. So all segments that it gives
  lie within these frames (`isWithin_of_derive`): they are runs of lists that are as long as
  the guard, or spans between pulses that are closed behind the last frame at the latest.
-/
import Screenmark.Derivation.Run
import Screenmark.Proofs.Derivation.Formulas
import Screenmark.Proofs.Derivation.Nesting
import Screenmark.Proofs.Derivation.Pulses
import Screenmark.Proofs.Derivation.Values

namespace Screenmark

namespace Derivation

variable {ts : Tracks} {r : Rule} {frames : Nat} {threshold : Single} {d : Derived}

/-! ## Segments -/

theorem length_outcomesFrom (ts : Tracks) (threshold : Single)
    (parsed : Except Formula.Fault Formula) (guard : List Bool) :
    ∀ frame, (outcomesFrom ts threshold parsed frame guard).length = guard.length := by
  induction guard with
  | nil => exact fun _ => rfl
  | cons g guard ih => exact fun frame => congrArg (· + 1) (ih (frame + 1))

theorem isWithin_of_eval {warnings : List String}
    (h : eval ts r frames threshold = .ok (d, warnings)) : ∀ s ∈ d.segments, s.IsWithin frames := by
  obtain ⟨name, guard, -, hguard, heq⟩ := exists_of_eval h
  cases heq
  intro s hs
  obtain ⟨span, hspan, rfl⟩ := List.mem_map.1 hs
  have hwithin : (Segment.ofRun name span).IsWithin _ := isWithin_of_mem_trueRuns hspan
  rwa [List.length_map, length_outcomesFrom, length_guardOf hguard] at hwithin

theorem isWithin_of_matchFirstValueOf (h : matchFirstValueOf ts r frames = .ok d) :
    ∀ s ∈ d.segments, s.IsWithin frames := by
  obtain ⟨name, guard, series, -, hguard, -, rfl⟩ := exists_of_matchFirstValueOf h
  exact fun s hs => length_guardOf hguard ▸ isWithin_of_mem_valueSegments hs

theorem isWithin_of_triggerBySegmentsOf (h : triggerBySegmentsOf ts r frames = .ok d) :
    ∀ s ∈ d.segments, s.IsWithin frames := by
  obtain ⟨name, guard, series, -, hguard, -, rfl⟩ := exists_of_triggerBySegmentsOf h
  exact fun s hs => isWithin_of_mem_pulsed (length_guardOf hguard) hs

theorem isWithin_of_nestByLastVariable {nested : Nested}
    (h : nestByLastVariable ts r frames = .ok nested) :
    ∀ s ∈ nested.derived.segments, s.IsWithin frames := by
  obtain ⟨name, guard, ss, -, hguard, rfl⟩ := exists_of_nestByLastVariable h
  intro s hs
  obtain ⟨v, hv, rfl⟩ := List.mem_map.1 hs
  obtain ⟨series, hrun⟩ := exists_of_mem_lastRuns hv
  exact length_guardOf hguard ▸ isWithin_of_mem_runsOf hrun

/-- **The segments of a conversion rule lie within the frames of the session.** -/
theorem isWithin_of_derive {nested : Option Nested} {warnings : List String}
    (h : derive ts threshold r frames = .ok (d, nested, warnings)) :
    ∀ s ∈ d.segments, s.IsWithin frames := by
  unfold derive at h
  split at h
  · obtain ⟨⟨d, ws⟩, heval, heq⟩ := exists_of_map_eq_ok h
    cases heq
    exact isWithin_of_eval heval
  · obtain ⟨d, hfirst, heq⟩ := exists_of_map_eq_ok h
    cases heq
    exact isWithin_of_matchFirstValueOf hfirst
  · obtain ⟨d, htrigger, heq⟩ := exists_of_map_eq_ok h
    cases heq
    exact isWithin_of_triggerBySegmentsOf htrigger
  · obtain ⟨nested, hnest, heq⟩ := exists_of_map_eq_ok h
    cases heq
    exact isWithin_of_nestByLastVariable hnest
  · cases h

end Derivation

end Screenmark
