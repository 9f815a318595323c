/-
  Screenmark — rules under their guard.

  The rules that come behind the frames may have a guard. What such a rule puts out shows
  nothing where the guard is false, with one exception: a typed word is only asked where it
  begins, so one that begins while the guard is true is shown to its end, whatever the
  guard is by then (`isNeutralAt_iff_of_applied`).
-/
import Screenmark.Proofs.Derivation.Guard
import Screenmark.Proofs.Events.Placement
import Screenmark.Proofs.Plan.Coherence
import Screenmark.Proofs.Session.Hooks
import Screenmark.Session.Run

namespace Screenmark

namespace Events

variable {c : Clock} {frames f : Nat} {allowed allowed' : Nat → Bool} {w : TypedWord}

theorem runsOn_congr (h : ∀ f < frames, allowed f = allowed' f) :
    RunsOn c frames allowed w f ↔ RunsOn c frames allowed' w f := by
  have hstart : ∀ {start}, frameOf? c frames w.start = some start →
      allowed start = allowed' start := fun hstart =>
    h _ (of_decide_eq_true (Option.filter_eq_some_iff.1 hstart).2)
  constructor
  · rintro ⟨start, hlt, hframe, hallowed, hstop⟩
    exact ⟨start, hlt, hframe, (hstart hframe).symm.trans hallowed, hstop⟩
  · rintro ⟨start, hlt, hframe, hallowed, hstop⟩
    exact ⟨start, hlt, hframe, (hstart hframe).trans hallowed, hstop⟩

end Events

namespace Session

variable {σ : Type} {s : Session σ} {es : List Event} {c : Clock} {frames f : Nat} {r : Rule}
  {w w' : Workspace σ} {threshold : Single} {g n : String} {guard : Series}

/-! ## Applying a rule -/

/-- A rule is applied behind the frames, to complete series or to events; its guard is true
    above the threshold. -/
inductive Applied (s : Session σ) (es : List Event) (c : Clock) (frames : Nat) (r : Rule)
    (w w' : Workspace σ) : Single → Prop
  | derived {o : Option Outlet} {report report' : DerivationReport} :
      Derivation.apply s.settings o frames report r w = .ok report' w' →
      Applied s es c frames r w w' w.tracks.threshold
  | hooked {o : Outlet} {width height : Nat} {done done' : Nat × List String} : o.clock = c →
      s.applyHook o frames width height es done r w = .ok done' w' →
      Applied s es c frames r w w' s.settings.threshold

/-- What a rule may show outside of its guard: typed words that run on. -/
def ShowsOn (es : List Event) (c : Clock) (frames : Nat) (r : Rule) (allowed : Nat → Bool)
    (frame : Nat) : Prop :=
  r.action = .typedWords ∧ ∃ word ∈ typedWords es, Events.RunsOn c frames allowed word frame

/-- What was put in shows nothing outside of the guard, but for what runs on. -/
structure Puts (es : List Event) (c : Clock) (frames : Nat) (r : Rule) (threshold : Single)
    (g : String) (w w' : Workspace σ) (track : Track) (guard : Series) : Prop where
  found : w.tracks.series? g = some guard
  outputs : ∃ n, r.outputs = [n] ∧ w'.tracks = w.tracks.insert n track
  neutral : ∀ f < frames, guard.isTrueAt threshold f = false →
    (track.series.IsNeutralAt f ↔ ¬ ShowsOn es c frames r (guard.isTrueAt threshold) f)

theorem exists_puts_of_apply {o : Option Outlet} {report report' : DerivationReport}
    (htest : r.test = some .during) (hdep : r.dependencies = [g])
    (h : Derivation.apply s.settings o frames report r w = .ok report' w') :
    ∃ track guard, Puts es c frames r w.tracks.threshold g w w' track guard := by
  obtain ⟨d, nested, warnings, hderive, -, htracks, -⟩ := Derivation.exists_of_apply h
  obtain ⟨gate, hgate, hneutral⟩ := Derivation.respectsGuard_of_derive hderive
  obtain ⟨guard, hguard, rfl⟩ := Derivation.guardOf_eq_ok htest hdep hgate
  have hact : r.action ≠ .typedWords := by
    intro hact
    rw [Derivation.derive, hact] at hderive
    cases hderive
  refine ⟨d.track, guard, hguard, ⟨d.name, Derivation.outputs_of_derive hderive, htracks⟩,
    fun f hf hfalse => iff_of_true (hneutral f hf ?_) fun hshows => hact hshows.1⟩
  rw [Series.getElem?_gate hf, hfalse]

theorem exists_puts_of_applyHook {source : String} {o : Outlet} {width height : Nat}
    {done done' : Nat × List String} (hread : Rule.read source = .ok r)
    (htest : r.test = some .during) (hdep : r.dependencies = [g])
    (h : s.applyHook o frames width height es done r w = .ok done' w') :
    ∃ track guard, Puts es o.clock frames r s.settings.threshold g w w' track guard := by
  obtain ⟨gate, track, segments, hgate, htrack, htracks⟩ := exists_of_applyHook h
  obtain ⟨guard, hguard, rfl⟩ := exists_of_hookGate htest hdep hgate
  have hallows : ∀ f < frames, allows (some (guard.gate s.settings.threshold frames)) f =
      guard.isTrueAt s.settings.threshold f := fun f hf => allows_gate hf
  have hfamily := (Rule.isSound_of_read hread).family_eq
  unfold hookTrack at htrack
  split at htrack
  · next hact =>
    rw [hact] at hfamily
    cases htrack
    refine ⟨_, guard, hguard, ⟨_, Rule.outputs_of_read_of_inputHook hread hfamily, htracks⟩,
      fun f hf hfalse => ?_⟩
    refine (Events.isNeutralAt_typedTrack_iff hf ((hallows f hf).trans hfalse)).trans ?_
    constructor
    · rintro hnone ⟨-, word, hword, hruns⟩
      exact hnone word hword ((Events.runsOn_congr hallows).2 hruns)
    · intro hnone word hword hruns
      exact hnone ⟨hact, word, hword, (Events.runsOn_congr hallows).1 hruns⟩
  · next hact =>
    rw [hact] at hfamily
    cases htrack
    refine ⟨_, guard, hguard, ⟨_, Rule.outputs_of_read_of_inputHook hread hfamily, htracks⟩,
      fun f hf hfalse => iff_of_true ?_ ?_⟩
    · exact Events.isNeutralAt_clickTrack hf ((hallows f hf).trans hfalse)
    · rintro ⟨htyped, -⟩
      rw [hact] at htyped
      cases htyped
  · cases htrack

/-! ## Guards -/

/-- **Where its guard is false, a rule shows nothing but words that run on.** A rule of a
    plan with a guard is applied behind the frames. Then its guard has a series, before and
    afterwards; and at a frame at which that is false, or that lies behind its end, what the
    rule puts out shows nothing, unless the rule is one for typed words, and one of the
    words begins at an earlier frame at which the guard is true and is typed on. -/
theorem isNeutralAt_iff_of_applied {sources logged : List String} {p : Plan}
    (hp : Plan.compile sources logged = .ok p) (hr : r ∈ p.rules) (htest : r.test = some .during)
    (h : s.Applied es c frames r w w' threshold) :
    ∃ n g series guard, r.outputs = [n] ∧ r.dependencies = [g] ∧
      w.tracks.series? g = some guard ∧ w'.tracks.series? g = some guard ∧
      w'.tracks.series? n = some series ∧
      ∀ f < frames, guard.isTrueAt threshold f = false →
        (series.IsNeutralAt f ↔ ¬ ShowsOn es c frames r (guard.isTrueAt threshold) f) := by
  have hc := Plan.isCompiled_of_compile hp
  obtain ⟨source, -, hread⟩ := Plan.exists_read_of_compile hp hr
  obtain ⟨g, hdep⟩ := (hc.sound r hr).dependencies_of_during htest
  have hputs : ∃ track guard, Puts es c frames r threshold g w w' track guard := by
    cases h with
    | derived happly => exact exists_puts_of_apply htest hdep happly
    | hooked hclock happly =>
      rw [← hclock]
      exact exists_puts_of_applyHook hread htest hdep happly
  obtain ⟨track, guard, hguard, ⟨n, houtputs, htracks⟩, hneutral⟩ := hputs
  have hne : n ≠ g := by
    rintro rfl
    have hnamed : n ∈ r.namedDependencies := by
      rw [Rule.namedDependencies_of_ne (by rw [htest]; decide), hdep]
      exact List.mem_singleton_self n
    refine Plan.not_mem_outputs_of_dependencyFault? (hc.met r hr n hnamed) ?_
    rw [houtputs]
    exact List.mem_singleton_self n
  refine ⟨n, g, track.series, guard, houtputs, hdep, hguard, ?_, ?_, hneutral⟩
  · rw [htracks, Tracks.series?, Tracks.find?_insert, if_neg hne]
    exact hguard
  · rw [htracks, Tracks.series?, Tracks.find?_insert, if_pos rfl]
    rfl

/-- A greeting is typed, a character a second. -/
def greeting : List Event :=
  [⟨.ofMicros 1577836800000000, .keyDown 35⟩, ⟨.ofMicros 1577836800000000, .typed 'h'⟩,
    ⟨.ofMicros 1577836801000000, .typed 'i'⟩]

/-- A recording of a frame a second in which a greeting is typed; the logged series `on` is true
    at the first of three frames only. -/
def typing : Session Unit where
  settings := { Settings.default with fps := some Binary.one, outputs := .none }
  dataFolder := "data"
  stem := "rec-2020-01-01-00-00-00"
  instruments := { Instruments.none with events := some fun _ w => (.ok greeting, w) }
  firstMinute := none
  stopped := false
  work := ⟨(), .empty, (Tracks.empty Settings.defaultThreshold).insert "on"
    (.ofSeries (.numbers #[.one, .zero, .zero]) .logged), .initial⟩

/-- The greeting runs on into the second frame, and not into the third one. -/
theorem isNeutralAt_iff_of_applied_of_typing : ∃ p r w' guard,
    Plan.compile ["during(on)\x7btypedWords(word)\x7d"] ["on"] = .ok p ∧ r ∈ p.rules ∧
    r.test = some .during ∧
    typing.Applied greeting (typing.clock .one) 3 r typing.work w' typing.settings.threshold ∧
    typing.work.tracks.series? "on" = some guard ∧
    w'.tracks.series? "word" = some (.texts #["hi", "hi", " "]) ∧
    ShowsOn greeting (typing.clock .one) 3 r (guard.isTrueAt typing.settings.threshold) 1 ∧
    ¬ ShowsOn greeting (typing.clock .one) 3 r (guard.isTrueAt typing.settings.threshold) 2 := by
  have hrun : ((Plan.compile ["during(on)\x7btypedWords(word)\x7d"] ["on"]).toOption.any fun p =>
      p.rules.any fun r => decide (r.test = some .during ∧ r.outputs = ["word"] ∧
        r.dependencies = ["on"]) &&
        match typing.applyHook (typing.outlet .one) 3 0 0 greeting (0, []) r typing.work with
        | .ok _ w' => w'.tracks.series? "word" = some (.texts #["hi", "hi", " "])
        | .error _ _ => false) = true := by decide +kernel
  obtain ⟨p, hp, hrun⟩ := Plan.exists_of_any_toOption hrun
  obtain ⟨r, hr, hrun⟩ := List.any_eq_true.1 hrun
  obtain ⟨hrule, hrun⟩ := Bool.and_eq_true_iff.1 hrun
  obtain ⟨htest, houtputs, hdep⟩ := of_decide_eq_true hrule
  split at hrun
  · next done' w' happly =>
    have hword := of_decide_eq_true hrun
    have happlied : typing.Applied greeting (typing.clock .one) 3 r typing.work w'
        typing.settings.threshold := .hooked rfl happly
    obtain ⟨n, g, series, guard, houtputs', hdep', hguard, -, hseries, hneutral⟩ :=
      isNeutralAt_iff_of_applied hp hr htest happlied
    rw [houtputs] at houtputs'
    rw [hdep] at hdep'
    cases houtputs'
    cases hdep'
    rw [hword] at hseries
    cases hseries
    have hon : typing.work.tracks.series? "on" = some (.numbers #[.one, .zero, .zero]) := by
      decide +kernel
    rw [hon] at hguard
    cases hguard
    refine ⟨p, r, w', _, hp, hr, htest, happlied, hon, hword, ?_, ?_⟩
    · refine Classical.byContradiction fun hshows => ?_
      have hone := (hneutral 1 (by decide) (by decide +kernel)).2 hshows
      exact absurd hone (by decide +kernel)
    · exact (hneutral 2 (by decide) (by decide +kernel)).1 (by decide +kernel)
  · cases hrun

/-- **A word may be shown where the guard is false.** At the second frame `on` is false, but the
    rule that only works during it has put out the greeting there. -/
theorem shows_greeting_after_guard : ∃ m s', typing.run ["during(on)\x7btypedWords(word)\x7d"] =
    (.ok m, s') ∧ m.frames = 3 ∧
    s'.work.tracks.isTrueAt "on" 1 = some false ∧
    s'.work.tracks.series? "word" = some (.texts #["hi", "hi", " "]) ∧
    ¬ (Series.texts #["hi", "hi", " "]).IsNeutralAt 1 := by
  have hrun : (match typing.run ["during(on)\x7btypedWords(word)\x7d"] with
      | (.ok m, s') => decide (m.frames = 3 ∧ s'.work.tracks.isTrueAt "on" 1 = some false ∧
          s'.work.tracks.series? "word" = some (.texts #["hi", "hi", " "]))
      | (.error _, _) => false) = true := by decide +kernel
  split at hrun
  · next m s' hs' =>
    obtain ⟨hframes, hon, hword⟩ := of_decide_eq_true hrun
    exact ⟨m, s', hs', hframes, hon, hword, by decide +kernel⟩
  · cases hrun

end Session

end Screenmark
