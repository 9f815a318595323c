/-
  Screenmark — runs that are aborted.

  A run is aborted exactly if its scan is told to stop in front of some frame. Then it
  leaves no track of a rule that comes behind the frames (`aborted_iff_of_run`). A run that
  is told to stop where its scan does not ask any more, in the last frame or without any
  target, is finished as if nothing had happened (`not_aborted_in_last_frame`).
-/
import Screenmark.Proofs.Scan.Stop
import Screenmark.Proofs.Session.Phases

namespace Screenmark

namespace Session

variable {σ : Type} {s s' : Session σ} {rules : List String} {w w' : Workspace σ}
  {m m' : Summary} {u : SetUp σ}

theorem aborted_of_finish {p : Plan} {o : Outlet} {sh : Shape}
    (h : s.finish p o sh m w = .ok m' w') : m'.aborted = m.aborted := by
  obtain ⟨w₁, hooks, w₂, report, w₃, -, -, -, -, rfl⟩ := exists_of_finish h
  rfl

theorem run_eq_ok (h : s.run rules = (.ok m, s')) : ∃ w, s.phases rules s.work = .ok m w ∧
    s'.work = { w with status := statusAfter (.ok m) w.status } := by
  unfold run after at h
  rcases hphases : s.phases rules s.work with ⟨m₁, w⟩ | ⟨e, w⟩
  · rw [hphases] at h
    cases h
    exact ⟨w, rfl, rfl⟩
  · rw [hphases] at h
    cases h

/-- A run that succeeds is set up and surveyed; it is finished unless it was aborted. -/
theorem exists_of_phases (h : s.phases rules w = .ok m w') :
    ∃ u w₁ m₀ w₂, s.setUp rules w = .ok u w₁ ∧ s.survey u w₁ = .ok m₀ w₂ ∧
      m.aborted = m₀.aborted ∧ (m.aborted = true → m = m₀ ∧ w' = w₂) := by
  rw [phases_eq] at h
  obtain ⟨u, w₁, hsetUp, hready⟩ := bind_eq_ok_iff.1 h
  obtain ⟨m₀, w₂, hsurvey, hend⟩ := bind_eq_ok_iff.1 hready
  refine ⟨u, w₁, m₀, w₂, hsetUp, hsurvey, ?_⟩
  split at hend
  · cases hend
    exact ⟨rfl, fun _ => ⟨rfl, rfl⟩⟩
  · next hgone =>
    have haborted := aborted_of_finish hend
    refine ⟨haborted, fun htrue => absurd (haborted.symm.trans htrue) hgone⟩

/-- **When a run is aborted, and what it leaves then.** A run that succeeds was aborted
    exactly if its scan came to some frame in a state in which the session was to stop; a
    session that was told to stop before is aborted exactly if there are targets and frames.
    A run that was aborted shows so, counts nothing behind the frames, and leaves the tracks
    that the rules for events and for complete series put out as they were; one that was not
    aborted is done. -/
theorem aborted_iff_of_run (h : s.run rules = (.ok m, s')) :
    ∃ u w, s.setUp rules s.work = .ok u w ∧ s.IsSetUp rules s.work u w ∧
      (m.aborted = true ↔ ∃ k < u.shape.frames, ∃ st,
        u.scan.Meets u.shape.frames (some u.outlet) w k st ∧ u.scan.IsTold st) ∧
      (s.stopped = true → (m.aborted = true ↔ u.scan.targets ≠ [] ∧ 0 < u.shape.frames)) ∧
      (m.aborted = true → s'.work.status.phase = .aborted ∧ m.hookSegments = 0 ∧
        m.derivation = Derivation.noReport ∧
        ∀ r ∈ u.scan.plan.rules, r.family.isPerFrame = false → ∀ n ∈ r.outputs,
          s'.work.tracks.find? n = s.work.tracks.find? n) ∧
      (m.aborted = false → s'.work.status.phase = .done) := by
  obtain ⟨w', hphases, hwork⟩ := run_eq_ok h
  obtain ⟨u, w, m₀, w₂, hsetUp, hsurvey, haborted, hsame⟩ := exists_of_phases hphases
  have hu := isSetUp_of_setUp hsetUp
  obtain ⟨report, w₁, hs⟩ := exists_isSurveyed_of_survey hsurvey
  have htold : m.aborted = true ↔ ∃ k < u.shape.frames, ∃ st,
      u.scan.Meets u.shape.frames (some u.outlet) w k st ∧ u.scan.IsTold st := by
    rw [haborted, hs.aborted]
    exact Scan.aborted_iff_exists_isTold hs.run
  refine ⟨u, w, hsetUp, hu, htold, fun hstopped => ?_, fun htrue => ?_, fun hfalse => ?_⟩
  · rw [htold]
    constructor
    · rintro ⟨k, hk, st, ⟨hne, -⟩, -⟩
      exact ⟨hne, by omega⟩
    · rintro ⟨hne, hframes⟩
      obtain ⟨st, hmeets⟩ := Scan.exists_meets_zero hs.run hne
      exact ⟨0, hframes, st, hmeets, .inl (hu.stopped.trans hstopped)⟩
  · obtain ⟨rfl, rfl⟩ := hsame htrue
    refine ⟨?_, hs.hookSegments, hs.derivation, fun r hr hf n hn => ?_⟩
    · rw [hwork, statusAfter, htrue]
      rfl
    · have hc := Plan.isCompiled_of_compile hu.compiled
      rw [hwork, hs.find?_eq hc fun t ht => hc.name_ne hr hf hn ht, hu.tracks]
  · rw [hwork, statusAfter, hfalse]
    rfl

/-- A recording whose session is told to stop as soon as the screen is looked at; `on` was
    logged at every frame. -/
def interrupted (frames : Nat) : Session Bool where
  settings := { Settings.default with fps := some Binary.one, outputs := .none }
  dataFolder := "data"
  stem := "rec"
  instruments := { Instruments.none with
    snapshots := some fun _ _ => (none, true)
    poll := fun w => (w, w) }
  firstMinute := none
  stopped := false
  work := ⟨false, .empty, (Tracks.empty Settings.defaultThreshold).insert "on"
    (.ofSeries (.numbers (Array.replicate frames .one)) .logged), .initial⟩

/-- Of two frames the first one is worked out only, and nothing is derived. -/
theorem aborted_iff_of_run_of_interrupted : ∃ m s' u w,
    (interrupted 2).run ["accessibilityHover(h)", "x=eval(on)"] = (.ok m, s') ∧
    (interrupted 2).setUp ["accessibilityHover(h)", "x=eval(on)"] (interrupted 2).work = .ok u w ∧
    m.aborted = true ∧ (∃ k < u.shape.frames, ∃ st,
      u.scan.Meets u.shape.frames (some u.outlet) w k st ∧ u.scan.IsTold st) ∧
    s'.work.status.phase = .aborted ∧ s'.work.tracks.find? "x" = none := by
  have hrun : (match (interrupted 2).run ["accessibilityHover(h)", "x=eval(on)"] with
      | (.ok m, _) => m.aborted
      | (.error _, _) => false) = true := by decide +kernel
  have hx : ((Plan.compile ["accessibilityHover(h)", "x=eval(on)"]
      (interrupted 2).work.tracks.loggedNames).toOption.any fun p => p.rules.any fun r =>
        r.family.isPerFrame = false ∧ "x" ∈ r.outputs) = true := by decide +kernel
  obtain ⟨p, hp, hx⟩ := Plan.exists_of_any_toOption hx
  obtain ⟨r, hr, hx⟩ := List.any_eq_true.1 hx
  obtain ⟨hf, hn⟩ := of_decide_eq_true hx
  split at hrun
  · next m s' hs' =>
    obtain ⟨u, w, hsetUp, hu, htold, -, hafter, -⟩ := aborted_iff_of_run hs'
    obtain ⟨hphase, -, -, htracks⟩ := hafter hrun
    have hplan := hu.compiled
    rw [hp] at hplan
    cases hplan
    refine ⟨m, s', u, w, hs', hsetUp, hrun, htold.1 hrun, hphase, ?_⟩
    rw [htracks r hr hf "x" hn]
    decide +kernel
  · cases hrun

/-- **A session that is told to stop in its last frame goes on.** It is told so while its
    only frame is worked out, and yet it is done in the end, and has derived a series. -/
theorem not_aborted_in_last_frame : ∃ m s',
    (interrupted 1).run ["accessibilityHover(h)", "x=eval(on)"] = (.ok m, s') ∧
    (interrupted 1).work.world = false ∧ s'.work.world = true ∧ m.frames = 1 ∧
    m.aborted = false ∧ m.derivation.rules = 1 ∧ s'.work.status.phase = .done ∧
    s'.work.tracks.series? "x" = some (.numbers #[.one]) := by
  have hrun : (match (interrupted 1).run ["accessibilityHover(h)", "x=eval(on)"] with
      | (.ok m, s') => decide (s'.work.world = true ∧ m.frames = 1 ∧ m.aborted = false ∧
          m.derivation.rules = 1 ∧ s'.work.status.phase = .done ∧
          s'.work.tracks.series? "x" = some (.numbers #[.one]))
      | (.error _, _) => false) = true := by decide +kernel
  split at hrun
  · next m s' hs' => exact ⟨m, s', hs', rfl, of_decide_eq_true hrun⟩
  · cases hrun

end Session

end Screenmark
