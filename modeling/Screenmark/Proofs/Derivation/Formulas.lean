/-
  Screenmark — series derived from formulas.

  A rule with a formula always gives a result if its guard has a track: no two runs start at
  one frame, so none is refused (`segmentsFrom_eq`), and a formula that has no value counts as
  false. The result is about the frames at which the guard holds and the formula is true
  (`Rule.IsOn`): its series is one there and zero elsewhere, and its segments are their runs.

  Whether a formula has a value is the same at every frame (`Rule.IsUnread`): it can be read or
  not, and its names have tracks or not. So it fails at all frames of the guard or at none.
-/
import Screenmark.Proofs.Derivation.Operands
import Screenmark.Proofs.Formula.Meaning

namespace Screenmark

/-! ## What a rule with a formula is about -/

namespace Rule

/-- The formula of a rule. -/
def formula (r : Rule) : String := r.operands.headD ""

/-- The frame counts for the rule: its guard holds, and its formula is true. -/
def IsOn (r : Rule) (ts : Tracks) (threshold : Single) (frames f : Nat) : Prop :=
  f < frames ∧ r.GuardHolds ts f ∧
    Formula.holds .standard threshold (ts.resolve f) r.formula = .ok true

/-- The formula cannot be read, or has a name without a track. -/
def IsUnread (r : Rule) (ts : Tracks) : Prop :=
  ∀ e, Formula.parse .standard r.formula = .ok e → ∃ n ∈ e.names, ts.find? n = none

end Rule

namespace Derivation

variable {ts : Tracks} {r : Rule} {frames f : Nat} {threshold : Single} {d : Derived}
  {name source : String} {guard : List Bool} {guarded : Bool} {warnings : List String}
  {parsed : Except Formula.Fault Formula}

/-! ## What is computed -/

/-- What a rule gives over a guard, with the warnings. -/
def evaluated (ts : Tracks) (r : Rule) (threshold : Single) (name : String) (guard : List Bool) :
    Derived × List String :=
  let parsed := Formula.parse .standard r.formula
  let outcomes := outcomesFrom ts threshold parsed 0 guard
  let on := outcomes.map Outcome.isTrue
  let unread := match parsed with
    | .error f => [f.message]
    | .ok _ => []
  ({
    name := name
    track := indicatorTrack on
    segments := (trueRuns on).map (Segment.ofRun name)
    failures := outcomes.countP Outcome.isFailed }, unread ++ outcomes.filterMap Outcome.told)

/-- Spans with gaps between them all become segments. -/
theorem segmentsFrom_eq {spans : List Span} (hgaps : spans.Pairwise fun a b => a.stop < b.start)
    (hne : ∀ s ∈ spans, s.start < s.stop) : ∀ {starts : List Nat},
      (∀ s ∈ spans, s.start ∉ starts) →
        segmentsFrom r name starts spans = .ok (spans.map (Segment.ofRun name)) := by
  induction hgaps with
  | nil => exact fun _ => rfl
  | @cons s spans hhead _ ih =>
    intro starts hfresh
    rw [List.forall_mem_cons] at hfresh hne
    have hlater : ∀ t ∈ spans, t.start ∉ s.start :: starts := by
      intro t ht hmem
      rcases List.mem_cons.1 hmem with heq | hmem
      · have hgap : s.stop < t.start := hhead t ht
        have hlt := hne.1
        omega
      · exact hfresh.2 t ht hmem
    rw [segmentsFrom, if_neg hfresh.1, ih hne.2 hlater]
    rfl

/-- **No two segments of a formula start at one frame.** -/
theorem segmentsFrom_trueRuns (on : List Bool) :
    segmentsFrom r name [] (trueRuns on) = .ok ((trueRuns on).map (Segment.ofRun name)) :=
  segmentsFrom_eq (pairwise_trueRunsFrom 0 on) (fun _ => start_lt_stop_of_mem_trueRunsFrom)
    (by simp)

theorem eval_eq (hname : nameOf r = .ok name) (hguard : guardOf ts r frames = .ok guard) :
    eval ts r frames threshold = .ok (evaluated ts r threshold name guard) := by
  unfold eval
  simp only [hname, hguard, segmentsFrom_trueRuns, bind, Except.bind]
  rfl

/-- What a formula gives is computed from the guard. -/
theorem exists_of_eval (h : eval ts r frames threshold = .ok (d, warnings)) :
    ∃ name guard, nameOf r = .ok name ∧ guardOf ts r frames = .ok guard ∧
      (d, warnings) = evaluated ts r threshold name guard := by
  obtain ⟨name, hname, hrest⟩ := exists_of_bind_eq_ok h
  obtain ⟨guard, hguard, -⟩ := exists_of_bind_eq_ok hrest
  rw [eval_eq hname hguard] at h
  exact ⟨name, guard, hname, hguard, (Except.ok.inj h).symm⟩

/-! ## What a formula gives at a frame -/

theorem getElem?_outcomesFrom :
    ∀ {guard : List Bool} {k i : Nat}, (outcomesFrom ts threshold parsed k guard)[i]? =
      guard[i]?.map (outcomeAt ts threshold parsed (k + i)) := by
  intro guard
  induction guard with
  | nil => intro k i; rfl
  | cons g guard ih =>
    rintro k (_ | i)
    · rfl
    · rw [outcomesFrom, List.getElem?_cons_succ, List.getElem?_cons_succ, ih,
        Nat.add_right_comm k 1 i, Nat.add_assoc]

theorem outcomesFrom_range (g : Nat → Bool) :
    outcomesFrom ts threshold parsed 0 ((List.range frames).map g) =
      (List.range frames).map fun f => outcomeAt ts threshold parsed f (g f) := by
  refine List.ext_getElem? fun f => ?_
  rw [getElem?_outcomesFrom, List.getElem?_map, List.getElem?_map, Option.map_map, Nat.zero_add]
  rcases hf : (List.range frames)[f]? with _ | f'
  · rfl
  · obtain ⟨hlt, rfl⟩ := List.getElem?_eq_some_iff.1 hf
    rw [List.getElem_range]
    rfl

theorem isTrue_outcomeAt : (outcomeAt ts threshold (Formula.parse .standard source) f
    guarded).isTrue = true ↔
      guarded = true ∧ Formula.holds .standard threshold (ts.resolve f) source = .ok true := by
  unfold outcomeAt Formula.holds
  rcases guarded with _ | _
  · simp [Outcome.isTrue]
  · rcases Formula.parse .standard source with fault | e
    · simp [Outcome.isTrue]
    · rcases he : e.eval threshold (ts.resolve f) with fault | v
      · simp [he, Outcome.isTrue, Except.map]
      · simp [he, Outcome.isTrue, Except.map]

/-- A name has a value at a frame just if it has a track, however short. -/
theorem resolve_eq_none_iff {n : String} : ts.resolve f n = none ↔ ts.find? n = none := by
  rw [Tracks.resolve, Option.map_eq_none_iff, Tracks.series?, Option.map_eq_none_iff]

/-- A formula without a value has a name without a track; the frame does not count. -/
theorem exists_find?_eq_none {e : Formula} {fault : Formula.Fault}
    (h : e.eval threshold (ts.resolve f) = .error fault) : ∃ n ∈ e.names, ts.find? n = none := by
  obtain ⟨n, hn, -⟩ := Formula.eval_eq_error_iff.1 h
  have hnone := List.find?_some hn
  rw [Option.isNone_iff_eq_none] at hnone
  exact ⟨n, List.mem_of_find?_eq_some hn, resolve_eq_none_iff.1 hnone⟩

/-- One with a value has none. -/
theorem not_exists_find?_eq_none {e : Formula} {v : Value}
    (h : e.eval threshold (ts.resolve f) = .ok v) : ¬ ∃ n ∈ e.names, ts.find? n = none := by
  rintro ⟨n, hn, hnone⟩
  rcases hfind : e.names.find? (fun n => (ts.resolve f n).isNone) with _ | m
  · have hsome := List.find?_eq_none.1 hfind n hn
    rw [resolve_eq_none_iff.2 hnone] at hsome
    exact hsome rfl
  · rw [Formula.eval_eq_error_iff.2 ⟨m, hfind, rfl⟩] at h
    cases h

theorem isFailed_outcomeAt : (outcomeAt ts threshold (Formula.parse .standard r.formula) f
    guarded).isFailed = true ↔ guarded = true ∧ r.IsUnread ts := by
  unfold outcomeAt Rule.IsUnread
  rcases guarded with _ | _
  · simp [Outcome.isFailed]
  · rcases Formula.parse .standard r.formula with fault | e
    · simp [Outcome.isFailed]
    · rcases he : e.eval threshold (ts.resolve f) with fault | v
      · simpa [he, Outcome.isFailed] using exists_find?_eq_none he
      · simpa [he, Outcome.isFailed] using not_exists_find?_eq_none he

/-! ## What a formula gives -/

/-- What a rule with a formula is to give. -/
structure IsEvaluated (ts : Tracks) (r : Rule) (frames : Nat) (threshold : Single) (d : Derived) :
    Prop where
  name : r.name = some d.name
  size : d.track.size = frames
  one : ∀ f, r.IsOn ts threshold frames f → d.track.series.sample? f = some (.number .one)
  zero : ∀ f < frames, ¬ r.IsOn ts threshold frames f →
    d.track.series.sample? f = some (.number .zero)
  /-- The segments are the runs of the frames that count, in order. -/
  segment : ∀ s, s ∈ d.segments ↔
    s.label = d.name ∧ (⟨s.start, s.stop⟩ : Span).IsRun (r.IsOn ts threshold frames)
  order : d.segments.Pairwise fun a b => a.stop < b.start
  covers : ∀ f, d.Covers f ↔ r.IsOn ts threshold frames f
  /-- It fails at all frames of the guard. -/
  unread : r.IsUnread ts → d.segments = [] ∧
    d.failures = (List.range frames).countP fun f => r.GuardHolds ts f
  /-- It fails at no frame. -/
  read : ¬ r.IsUnread ts → d.failures = 0

/-- What the formula of a rule gives at each frame, under the guard of the rule. -/
def outcomesOf (ts : Tracks) (r : Rule) (frames : Nat) (threshold : Single) : List Outcome :=
  (List.range frames).map fun f =>
    outcomeAt ts threshold (Formula.parse .standard r.formula) f (decide (r.GuardHolds ts f))

/-- The frames at which the formula comes out true are those that count. -/
theorem true_iff_isOn : ((outcomesOf ts r frames threshold).map Outcome.isTrue)[f]? = some true ↔
    r.IsOn ts threshold frames f := by
  rw [outcomesOf, List.map_map, getElem?_map_range_eq_some_iff, Function.comp_apply,
    isTrue_outcomeAt, decide_eq_true_eq, Rule.IsOn]

theorem countP_isFailed_of_isUnread (h : r.IsUnread ts) :
    (outcomesOf ts r frames threshold).countP Outcome.isFailed =
      (List.range frames).countP fun f => r.GuardHolds ts f := by
  rw [outcomesOf, List.countP_map]
  refine List.countP_congr fun f _ => ?_
  rw [Function.comp_apply, isFailed_outcomeAt]
  exact and_iff_left h

theorem countP_isFailed_of_not (h : ¬ r.IsUnread ts) :
    (outcomesOf ts r frames threshold).countP Outcome.isFailed = 0 := by
  rw [outcomesOf, List.countP_map, List.countP_eq_zero]
  intro f _
  rw [Function.comp_apply, isFailed_outcomeAt]
  exact fun hfailed => h hfailed.2

theorem not_isUnread_of_isOn (h : r.IsOn ts threshold frames f) : ¬ r.IsUnread ts := by
  obtain ⟨-, -, hholds⟩ := h
  unfold Formula.holds at hholds
  split at hholds
  · cases hholds
  · next e he =>
    obtain ⟨v, hv, -⟩ := exists_of_map_eq_ok hholds
    exact fun hunread => not_exists_find?_eq_none hv (hunread e he)

theorem mem_map_ofRun_iff {spans : List Span} {s : Segment} :
    s ∈ spans.map (Segment.ofRun name) ↔ s.label = name ∧ ⟨s.start, s.stop⟩ ∈ spans := by
  rw [List.mem_map]
  constructor
  · rintro ⟨span, hspan, rfl⟩
    exact ⟨rfl, hspan⟩
  · rintro ⟨rfl, hspan⟩
    exact ⟨_, hspan, rfl⟩

theorem isEvaluated_evaluated (hname : r.name = some name) :
    IsEvaluated ts r frames threshold (evaluated ts r threshold name
      ((List.range frames).map fun f => decide (r.GuardHolds ts f))).1 := by
  have houtcomes : outcomesFrom ts threshold (Formula.parse .standard r.formula) 0
      ((List.range frames).map fun f => decide (r.GuardHolds ts f)) =
        outcomesOf ts r frames threshold := outcomesFrom_range _
  have hlength : ((outcomesOf ts r frames threshold).map Outcome.isTrue).length = frames := by
    simp [outcomesOf]
  have hmarks := marks_indicatorTrack hlength fun f => true_iff_isOn
  have hruns : ∀ span : Span, span ∈ trueRuns ((outcomesOf ts r frames threshold).map
      Outcome.isTrue) ↔ span.IsRun (r.IsOn ts threshold frames) := fun span => by
    simp only [mem_trueRuns_iff, true_iff_isOn]
  unfold evaluated
  dsimp only
  rw [houtcomes]
  exact
    { name := hname
      size := hmarks.size
      one := hmarks.one
      zero := hmarks.zero
      segment := fun s => by
        rw [mem_map_ofRun_iff, hruns]
      order := List.pairwise_map.2 (pairwise_trueRunsFrom 0 _)
      covers := fun f => by
        rw [← true_iff_isOn, ← exists_mem_trueRuns_iff]
        constructor
        · rintro ⟨s, hs, hf⟩
          obtain ⟨span, hspan, rfl⟩ := List.mem_map.1 hs
          exact ⟨span, hspan, Span.contains_iff.2 hf⟩
        · rintro ⟨span, hspan, hf⟩
          exact ⟨_, List.mem_map_of_mem hspan, Span.contains_iff.1 hf⟩
      unread := fun h => ⟨by
        rw [List.map_eq_nil_iff, List.eq_nil_iff_forall_not_mem]
        intro span hspan
        have hrun := (hruns span).1 hspan
        exact not_isUnread_of_isOn (hrun.inside _ (Span.contains_start hrun.start_lt_stop)) h,
        countP_isFailed_of_isUnread h⟩
      read := countP_isFailed_of_not }

theorem exists_isEvaluated (hsound : r.IsSound) (haction : r.action = .eval)
    (hname : r.name = some name) (hguard : ∀ g ∈ r.dependencies, (ts.find? g).isSome = true)
    (frames : Nat) (threshold : Single) : ∃ d warnings,
      eval ts r frames threshold = .ok (d, warnings) ∧ IsEvaluated ts r frames threshold d := by
  have hnameOf : nameOf r = .ok name := by rw [nameOf, hname]
  have hfamily : r.action.family = .conversion := by rw [haction]; rfl
  exact ⟨_, _, eval_eq hnameOf (guardOf_eq hsound hfamily hguard), isEvaluated_evaluated hname⟩

/-- **A rule with a formula always gives a result**, whatever the formula is, if its guard has a
    track. -/
theorem exists_isEvaluated_of_read (hread : Rule.read source = .ok r) (haction : r.action = .eval)
    (ts : Tracks) (hguard : ∀ g ∈ r.dependencies, (ts.find? g).isSome = true) (frames : Nat)
    (threshold : Single) : ∃ d warnings, eval ts r frames threshold = .ok (d, warnings) ∧
      IsEvaluated ts r frames threshold d := by
  have hsound := Rule.isSound_of_read hread
  obtain ⟨name, hname⟩ := Rule.exists_name_of_read hread (hsound.family_eq.trans (haction ▸ rfl))
  exact exists_isEvaluated hsound haction hname hguard frames threshold

/-- A menu for two of three frames, with a logo that is only known for the first. -/
def menuWithLogo : Tracks :=
  ((Tracks.empty .zero).insert "menu" (.ofSeries (.numbers #[.one, .one, .zero]) .extracted)).insert
    "logo" (.ofSeries (.numbers #[.one]) .extracted)

/-- The menu without the logo. -/
def bareMenu : Rule :=
  ⟨"during(menu)\x7bbare=eval(!logo)\x7d", .conversion, some "bare", some .during, ["menu"], .eval,
    ["!logo"]⟩

/-- The logo counts as absent past the end of its series, and the menu as a guard ends the
    segment. -/
theorem exists_isEvaluated_of_bareMenu : Rule.read bareMenu.source = .ok bareMenu ∧
    (∀ g ∈ bareMenu.dependencies, (menuWithLogo.find? g).isSome = true) ∧
    ∃ d warnings, eval menuWithLogo bareMenu 3 .zero = .ok (d, warnings) ∧
      IsEvaluated menuWithLogo bareMenu 3 .zero d ∧ d.segments = [⟨1, 2, "bare"⟩] := by
  have hread : Rule.read bareMenu.source = .ok bareMenu :=
    Rule.eq_ok_of_toOption (by decide +kernel)
  have hguard : ∀ g ∈ bareMenu.dependencies, (menuWithLogo.find? g).isSome = true := by
    decide +kernel
  obtain ⟨d, warnings, heval, hd⟩ := exists_isEvaluated_of_read hread rfl menuWithLogo hguard 3 .zero
  have hsegments : ((eval menuWithLogo bareMenu 3 .zero).toOption.any fun p =>
      decide (p.1.segments = [⟨1, 2, "bare"⟩])) = true := by decide +kernel
  rw [heval] at hsegments
  exact ⟨hread, hguard, d, warnings, heval, hd, of_decide_eq_true hsegments⟩

end Derivation

end Screenmark
