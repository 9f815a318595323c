/-
  Screenmark — pulses.

  A rule with `triggerBySegmentsOf` marks the frames at which its guard and its operand become
  true together, the *pulses* (`Rule.IsPulse`), and gives a segment for each of them. A segment
  ends at the next pulse or with the run of the guard that it started in.

  * `isPulseSpan_of_mem` : where the entries are read one by one, a span starts at a pulse and
    goes on as long as the guard holds and no other pulse comes. A span that is open has no
    part in the later ones (`pulseSpansFrom_some`), so it is enough to look at none open;
  * `exists_isPulsed_of_read` : so there is a segment for each pulse, in order, and it ends where
    it should.
-/
import Screenmark.Proofs.Derivation.Operands
import Screenmark.Proofs.Output.Marks

namespace Screenmark

/-- A frame at which the guard of a rule and a series become true together: the first one of a
    run of both. -/
def Rule.IsPulse (r : Rule) (ts : Tracks) (frames : Nat) (s : Series) (f : Nat) : Prop :=
  ∃ span : Span, span.start = f ∧
    span.IsRun fun k => r.IsGuarded ts frames k ∧ s.isTrueAt ts.threshold k = true

namespace Derivation

variable {ts : Tracks} {r : Rule} {frames frame f i : Nat} {name source : String}
  {guard on bs : List Bool} {previous g : Bool} {span : Span} {s : Series}
  {entries : List (Bool × Bool)}

/-! ## The first frames of runs -/

theorem length_pulsesFrom (bs : List Bool) :
    ∀ previous, (pulsesFrom previous bs).length = bs.length := by
  induction bs with
  | nil => exact fun _ => rfl
  | cons b bs ih => exact fun previous => congrArg (· + 1) (ih b)

/-- A pulse is true, and the entry before it is not. -/
theorem pulsesFrom_eq_true_iff : (pulsesFrom previous bs)[f]? = some true ↔
    bs[f]? = some true ∧ (f = 0 → previous = false) ∧ ∀ k, k + 1 = f → bs[k]? ≠ some true := by
  induction bs generalizing previous f with
  | nil => simp [pulsesFrom]
  | cons b bs ih =>
    rw [pulsesFrom]
    rcases f with _ | f
    · simp
    · rw [List.getElem?_cons_succ, List.getElem?_cons_succ, ih]
      have hbefore : (∀ k, k + 1 = f + 1 → (b :: bs)[k]? ≠ some true) ↔
          (f = 0 → b = false) ∧ ∀ k, k + 1 = f → bs[k]? ≠ some true := by
        rcases f with _ | f
        · simp
        · simp
      rw [hbefore]
      simp

/-- The pulses of a list are the first entries of its runs. -/
theorem pulsesFrom_iff_exists :
    (pulsesFrom false on)[f]? = some true ↔ ∃ span ∈ trueRuns on, span.start = f := by
  rw [pulsesFrom_eq_true_iff]
  constructor
  · rintro ⟨htrue, -, hbefore⟩
    obtain ⟨span, hspan, hf⟩ := exists_mem_trueRuns_iff.2 htrue
    refine ⟨span, hspan, Nat.le_antisymm (Span.contains_iff.1 hf).1 (Nat.le_of_not_lt fun hlt => ?_)⟩
    -- The run would cover the frame before.
    rw [Span.contains_iff] at hf
    refine hbefore (f - 1) (by omega) (true_of_mem_trueRuns hspan (Span.contains_iff.2 ?_))
    omega
  · rintro ⟨span, hspan, rfl⟩
    have hrun := mem_trueRuns_iff.1 hspan
    exact ⟨hrun.inside _ (Span.contains_start hrun.start_lt_stop), fun _ => rfl, hrun.before⟩

theorem zipWith_and_eq_true_iff {as : List Bool} : (List.zipWith (· && ·) as bs)[f]? = some true ↔
    as[f]? = some true ∧ bs[f]? = some true := by
  rw [List.getElem?_zipWith]
  rcases as[f]? with _ | a
  · simp
  · rcases bs[f]? with _ | b
    · simp
    · simp

/-! ## Spans between pulses -/

/-- The frame from which on a span does not go on: the next pulse, the end of the guard, or the
    end of the entries. -/
def endFrom (frame : Nat) : List (Bool × Bool) → Nat
  | [] => frame
  | (true, _) :: _ => frame
  | (false, false) :: _ => frame
  | (false, true) :: rest => endFrom (frame + 1) rest

theorem exists_endFrom_eq (frame : Nat) (entries : List (Bool × Bool)) :
    ∃ j, endFrom frame entries = frame + j ∧ (∀ k < j, entries[k]? = some (false, true)) ∧
      entries[j]? ≠ some (false, true) := by
  induction entries generalizing frame with
  | nil => exact ⟨0, rfl, by simp, by simp⟩
  | cons entry entries ih =>
    rcases entry with ⟨_ | _, _ | _⟩
    · exact ⟨0, rfl, by simp, by simp⟩
    · obtain ⟨j, hj, hbetween, hstop⟩ := ih (frame + 1)
      refine ⟨j + 1, hj.trans (by omega), fun k hk => ?_, hstop⟩
      rcases k with _ | k
      · rfl
      · exact hbetween k (by omega)
    · exact ⟨0, rfl, by simp, by simp⟩
    · exact ⟨0, rfl, by simp, by simp⟩

/-- A span that is open is closed, and has no part in the later ones. -/
theorem pulseSpansFrom_some (start : Nat) : pulseSpansFrom frame (some start) entries =
    ⟨start, endFrom frame entries⟩ :: pulseSpansFrom frame none entries := by
  induction entries generalizing frame with
  | nil => rfl
  | cons entry entries ih =>
    rcases entry with ⟨_ | _, _ | _⟩
    · rfl
    · exact ih
    · rfl
    · rfl

theorem pulseSpansFrom_cons_pulse : pulseSpansFrom frame none ((true, g) :: entries) =
    ⟨frame, endFrom (frame + 1) entries⟩ :: pulseSpansFrom (frame + 1) none entries :=
  pulseSpansFrom_some frame

theorem pulseSpansFrom_cons : pulseSpansFrom frame none ((false, g) :: entries) =
    pulseSpansFrom (frame + 1) none entries := by
  cases g <;> rfl

/-- A span starts at a pulse and goes on while the guard holds and there is no pulse. -/
structure IsPulseSpan (entries : List (Bool × Bool)) (i j : Nat) : Prop where
  lt : i < j
  pulse : ∃ g, entries[i]? = some (true, g)
  between : ∀ k, i < k → k < j → entries[k]? = some (false, true)
  stop : entries[j]? ≠ some (false, true)

theorem IsPulseSpan.cons {entry : Bool × Bool} {j : Nat} (h : IsPulseSpan entries i j) :
    IsPulseSpan (entry :: entries) (i + 1) (j + 1) where
  lt := Nat.succ_lt_succ h.lt
  pulse := h.pulse
  between k hk hlt := by
    rcases k with _ | k
    · omega
    · exact h.between k (by omega) (by omega)
  stop := h.stop

theorem IsPulseSpan.stop_le {j : Nat} (h : IsPulseSpan entries i j) : j ≤ entries.length := by
  obtain ⟨g, hpulse⟩ := h.pulse
  have hi := (List.getElem?_eq_some_iff.1 hpulse).1
  refine Nat.le_of_not_lt fun hlt => ?_
  have hlast := h.between entries.length hi hlt
  rw [List.getElem?_eq_none (Nat.le_refl _)] at hlast
  cases hlast

theorem exists_isPulseSpan_of_mem (h : span ∈ pulseSpansFrom frame none entries) :
    ∃ i j, span = ⟨frame + i, frame + j⟩ ∧ IsPulseSpan entries i j := by
  induction entries generalizing frame with
  | nil => cases h
  | cons entry entries ih =>
    have hlater : span ∈ pulseSpansFrom (frame + 1) none entries →
        ∃ i j, span = ⟨frame + i, frame + j⟩ ∧ IsPulseSpan (entry :: entries) i j := by
      intro hspan
      obtain ⟨i, j, rfl, hij⟩ := ih hspan
      refine ⟨i + 1, j + 1, ?_, hij.cons⟩
      rw [Span.mk.injEq]
      omega
    rcases entry with ⟨_ | _, g⟩
    · rw [pulseSpansFrom_cons] at h
      exact hlater h
    · rw [pulseSpansFrom_cons_pulse] at h
      rcases List.mem_cons.1 h with rfl | hspan
      · obtain ⟨j, hj, hbetween, hstop⟩ := exists_endFrom_eq (frame + 1) entries
        refine ⟨0, j + 1, by rw [hj, Span.mk.injEq]; omega, by omega, ⟨g, rfl⟩, ?_, hstop⟩
        rintro (_ | k) hk hlt
        · omega
        · exact hbetween k (by omega)
      · exact hlater hspan

/-- Every pulse opens a span. -/
theorem exists_mem_pulseSpansFrom (h : entries[i]? = some (true, g)) :
    ∃ span ∈ pulseSpansFrom frame none entries, span.start = frame + i := by
  induction entries generalizing frame i with
  | nil => cases h
  | cons entry entries ih =>
    rcases i with _ | i
    · obtain rfl : entry = (true, g) := Option.some.inj h
      rw [pulseSpansFrom_cons_pulse]
      exact ⟨_, List.mem_cons_self, rfl⟩
    · have hlater : ∃ span ∈ pulseSpansFrom (frame + 1) none entries, span.start = frame + 1 + i :=
        ih h
      obtain ⟨span, hspan, hstart⟩ := hlater
      rcases entry with ⟨_ | _, g'⟩
      · rw [pulseSpansFrom_cons]
        exact ⟨span, hspan, by omega⟩
      · rw [pulseSpansFrom_cons_pulse]
        exact ⟨span, List.mem_cons_of_mem _ hspan, by omega⟩

/-- The spans are in the order of their pulses. -/
theorem pairwise_start_pulseSpansFrom (frame : Nat) (entries : List (Bool × Bool)) :
    (pulseSpansFrom frame none entries).Pairwise fun a b => a.start < b.start := by
  induction entries generalizing frame with
  | nil => exact .nil
  | cons entry entries ih =>
    rcases entry with ⟨_ | _, g⟩
    · rw [pulseSpansFrom_cons]
      exact ih (frame + 1)
    · rw [pulseSpansFrom_cons_pulse]
      refine List.pairwise_cons.2 ⟨fun span hspan => ?_, ih (frame + 1)⟩
      obtain ⟨i, j, rfl, -⟩ := exists_isPulseSpan_of_mem hspan
      dsimp only
      omega

theorem isPulseSpan_of_mem (h : span ∈ pulseSpansFrom 0 none entries) :
    IsPulseSpan entries span.start span.stop := by
  obtain ⟨i, j, rfl, hij⟩ := exists_isPulseSpan_of_mem h
  simpa using hij

/-- There is a span for each pulse. -/
theorem exists_start_eq_iff : (∃ span ∈ pulseSpansFrom 0 none entries, span.start = f) ↔
    ∃ g, entries[f]? = some (true, g) := by
  constructor
  · rintro ⟨span, hspan, rfl⟩
    exact (isPulseSpan_of_mem hspan).pulse
  · rintro ⟨g, hpulse⟩
    have hspan : ∃ span ∈ pulseSpansFrom 0 none entries, span.start = 0 + f :=
      exists_mem_pulseSpansFrom hpulse
    rwa [Nat.zero_add] at hspan

/-- A span ends before the next one starts. -/
theorem pairwise_pulseSpansFrom (entries : List (Bool × Bool)) :
    (pulseSpansFrom 0 none entries).Pairwise fun a b => a.stop ≤ b.start := by
  refine (pairwise_start_pulseSpansFrom 0 entries).imp_of_mem fun {a b} ha hb hlt => ?_
  refine Nat.le_of_not_lt fun hover => ?_
  obtain ⟨g, hpulse⟩ := (isPulseSpan_of_mem hb).pulse
  rw [(isPulseSpan_of_mem ha).between b.start hlt hover] at hpulse
  cases hpulse

/-! ## Numbered segments -/

theorem map_span_numberedFrom (name : String) (n : Nat) (spans : List Span) :
    ((numberedFrom name n spans).map fun s => (⟨s.start, s.stop⟩ : Span)) = spans := by
  induction spans generalizing n with
  | nil => rfl
  | cons span spans ih => exact congrArg (span :: ·) (ih (n + 1))

theorem exists_start_numberedFrom {spans : List Span} {n : Nat} :
    (∃ s ∈ numberedFrom name n spans, s.start = f) ↔ ∃ span ∈ spans, span.start = f := by
  induction spans generalizing n with
  | nil => simp [numberedFrom]
  | cons span spans ih => simp [numberedFrom, ih, Segment.ofRun]

theorem getElem?_numberedFrom {spans : List Span} {n : Nat} : (numberedFrom name n spans)[i]? =
    spans[i]?.map (Segment.ofRun (name ++ " #" ++ toString (n + i))) := by
  induction spans generalizing n i with
  | nil => rfl
  | cons span spans ih =>
    rw [numberedFrom]
    rcases i with _ | i
    · rfl
    · rw [List.getElem?_cons_succ, List.getElem?_cons_succ, ih, Nat.add_right_comm, Nat.add_assoc]

/-! ## The result -/

/-- Where guard and series become true together. -/
def pulsesOf (s : Series) (threshold : Single) (frames : Nat) (guard : List Bool) : List Bool :=
  pulsesFrom false (List.zipWith (· && ·) guard (s.gate threshold frames))

/-- What a rule gives over a guard. -/
def pulsed (s : Series) (threshold : Single) (frames : Nat) (name : String)
    (guard : List Bool) : Derived where
  name := name
  track := indicatorTrack (pulsesOf s threshold frames guard)
  segments := numberedFrom name 1
    (pulseSpansFrom 0 none ((pulsesOf s threshold frames guard).zip guard))
  failures := 0

theorem triggerBySegmentsOf_eq (hname : nameOf r = .ok name)
    (hguard : guardOf ts r frames = .ok guard) (htarget : targetOf ts r = .ok s) :
    triggerBySegmentsOf ts r frames = .ok (pulsed s ts.threshold frames name guard) := by
  unfold triggerBySegmentsOf
  rw [hname, hguard, htarget]
  rfl

theorem exists_of_triggerBySegmentsOf {d : Derived} (h : triggerBySegmentsOf ts r frames = .ok d) :
    ∃ name guard s, nameOf r = .ok name ∧ guardOf ts r frames = .ok guard ∧
      targetOf ts r = .ok s ∧ d = pulsed s ts.threshold frames name guard := by
  obtain ⟨name, hname, hrest⟩ := exists_of_bind_eq_ok h
  obtain ⟨guard, hguard, hrest⟩ := exists_of_bind_eq_ok hrest
  obtain ⟨s, htarget, -⟩ := exists_of_bind_eq_ok hrest
  rw [triggerBySegmentsOf_eq hname hguard htarget] at h
  exact ⟨name, guard, s, hname, hguard, htarget, (Except.ok.inj h).symm⟩

theorem length_pulsesOf (hlength : guard.length = frames) (s : Series) (threshold : Single) :
    (pulsesOf s threshold frames guard).length = frames := by
  rw [pulsesOf, length_pulsesFrom, List.length_zipWith, Series.length_gate, hlength, Nat.min_self]

/-- But for their labels, the segments are the spans between pulses. -/
theorem isPulseSpan_of_mem_pulsed {threshold : Single} {segment : Segment}
    (h : segment ∈ (pulsed s threshold frames name guard).segments) :
    IsPulseSpan ((pulsesOf s threshold frames guard).zip guard) segment.start segment.stop := by
  have hspan := List.mem_map_of_mem (f := fun s => (⟨s.start, s.stop⟩ : Span)) h
  rw [pulsed, map_span_numberedFrom] at hspan
  exact isPulseSpan_of_mem hspan

theorem isWithin_of_mem_pulsed {threshold : Single} {segment : Segment}
    (hlength : guard.length = frames)
    (h : segment ∈ (pulsed s threshold frames name guard).segments) : segment.IsWithin frames := by
  have hspan := isPulseSpan_of_mem_pulsed h
  have hstop := hspan.stop_le
  rw [List.length_zip, length_pulsesOf hlength, hlength, Nat.min_self] at hstop
  exact ⟨hspan.lt, hstop⟩

theorem pulsesOf_eq_true_iff (hguard : ∀ f, guard[f]? = some true ↔ r.IsGuarded ts frames f) :
    (pulsesOf s ts.threshold frames guard)[f]? = some true ↔ r.IsPulse ts frames s f := by
  have hboth : ∀ k, (List.zipWith (· && ·) guard (s.gate ts.threshold frames))[k]? = some true ↔
      r.IsGuarded ts frames k ∧ s.isTrueAt ts.threshold k = true := by
    intro k
    rw [zipWith_and_eq_true_iff, hguard]
    refine and_congr_right fun hk => ?_
    rw [Series.getElem?_gate hk.1, Option.some.injEq]
  rw [pulsesOf, pulsesFrom_iff_exists]
  simp only [mem_trueRuns_iff, hboth, Rule.IsPulse, and_comm]

/-- What a rule with `triggerBySegmentsOf` is to give for an operand with the series `s`. -/
structure IsPulsed (ts : Tracks) (r : Rule) (frames : Nat) (s : Series) (d : Derived) : Prop where
  name : r.name = some d.name
  marks : d.track.Marks frames (r.IsPulse ts frames s)
  /-- Each pulse starts a segment, and nothing else does. -/
  start : ∀ f, r.IsPulse ts frames s f ↔ ∃ segment ∈ d.segments, segment.start = f
  /-- The segments are in the order of their pulses, and share no frame. -/
  order : d.segments.Pairwise fun a b => a.stop ≤ b.start
  label : ∀ i segment, d.segments[i]? = some segment →
    segment.label = d.name ++ " #" ++ toString (i + 1)
  within : ∀ segment ∈ d.segments, segment.IsWithin frames
  /-- A segment ends with the run of the guard that it starts in, or at the next pulse if that
      comes first. -/
  stop : ∀ segment ∈ d.segments, ∃ run : Span, run.IsRun (r.IsGuarded ts frames) ∧
    run.contains segment.start = true ∧ segment.stop ≤ run.stop ∧
      (∀ f, segment.start < f → f < segment.stop → ¬ r.IsPulse ts frames s f) ∧
        (segment.stop = run.stop ∨ r.IsPulse ts frames s segment.stop)

/-- A span lies in a run of the guard, and ends with it or at the next pulse. -/
theorem exists_run_of_isPulseSpan {j : Nat} (hlength : guard.length = frames)
    (hguard : ∀ f, guard[f]? = some true ↔ r.IsGuarded ts frames f)
    (h : IsPulseSpan ((pulsesOf s ts.threshold frames guard).zip guard) i j) :
    ∃ run : Span, run.IsRun (r.IsGuarded ts frames) ∧ run.contains i = true ∧ j ≤ run.stop ∧
      (∀ f, i < f → f < j → ¬ r.IsPulse ts frames s f) ∧
        (j = run.stop ∨ r.IsPulse ts frames s j) := by
  have hentry : ∀ {k p g}, ((pulsesOf s ts.threshold frames guard).zip guard)[k]? = some (p, g) ↔
      (pulsesOf s ts.threshold frames guard)[k]? = some p ∧ guard[k]? = some g :=
    List.getElem?_zip_eq_some
  obtain ⟨g, hpulse⟩ := h.pulse
  -- A pulse is a frame of the guard, which is in one of its runs.
  obtain ⟨first, rfl, hfirst⟩ := (pulsesOf_eq_true_iff hguard).1 (hentry.1 hpulse).1
  have hstart := (hfirst.inside _ (Span.contains_start hfirst.start_lt_stop)).1
  obtain ⟨run, hrun, hin⟩ := exists_mem_trueRuns_iff.2 ((hguard _).2 hstart)
  rw [mem_trueRuns_iff] at hrun
  have hle : j ≤ run.stop := Nat.le_of_not_lt fun hlt =>
    hrun.behind (hentry.1 (h.between _ (Span.contains_iff.1 hin).2 hlt)).2
  refine ⟨run, by simpa only [hguard] using hrun, hin, hle, fun f hlt hgt hf => ?_, ?_⟩
  · have hquiet := (hentry.1 (h.between f hlt hgt)).1
    rw [(pulsesOf_eq_true_iff hguard).2 hf] at hquiet
    cases hquiet
  · rcases Nat.eq_or_lt_of_le hle with heq | hlt
    · exact .inl heq
    · -- The guard goes on, so that the span ends at a pulse.
      have hon : guard[j]? = some true :=
        hrun.inside j (Span.contains_iff.2
          ⟨Nat.le_of_lt (Nat.lt_of_le_of_lt (Span.contains_iff.1 hin).1 h.lt), hlt⟩)
      have hj : j < (pulsesOf s ts.threshold frames guard).length := by
        rw [length_pulsesOf hlength]
        exact ((hguard j).1 hon).1
      rcases hp : (pulsesOf s ts.threshold frames guard)[j] with _ | _
      · exact absurd (hentry.2 ⟨List.getElem?_eq_some_iff.2 ⟨hj, hp⟩, hon⟩) h.stop
      · exact .inr ((pulsesOf_eq_true_iff hguard).1 (List.getElem?_eq_some_iff.2 ⟨hj, hp⟩))

theorem isPulsed_pulsed (hname : r.name = some name) (hlength : guard.length = frames)
    (hguard : ∀ f, guard[f]? = some true ↔ r.IsGuarded ts frames f) :
    IsPulsed ts r frames s (pulsed s ts.threshold frames name guard) := by
  exact
    { name := hname
      marks := marks_indicatorTrack (length_pulsesOf hlength s ts.threshold)
        fun f => pulsesOf_eq_true_iff hguard
      start := by
        intro f
        rw [← pulsesOf_eq_true_iff hguard]
        refine Iff.trans ?_ (exists_start_numberedFrom.trans exists_start_eq_iff).symm
        constructor
        · intro hf
          have hlt : f < guard.length := by
            rw [hlength, ← length_pulsesOf hlength s ts.threshold]
            exact (List.getElem?_eq_some_iff.1 hf).1
          exact ⟨guard[f], List.getElem?_zip_eq_some.2 ⟨hf, List.getElem?_eq_getElem hlt⟩⟩
        · rintro ⟨g, hpulse⟩
          exact (List.getElem?_zip_eq_some.1 hpulse).1
      order := by
        have horder := pairwise_pulseSpansFrom ((pulsesOf s ts.threshold frames guard).zip guard)
        rw [← map_span_numberedFrom name 1 (pulseSpansFrom _ _ _), List.pairwise_map] at horder
        exact horder
      label := by
        intro i segment h
        change (numberedFrom name 1 _)[i]? = some segment at h
        rw [getElem?_numberedFrom, Option.map_eq_some_iff] at h
        obtain ⟨span, -, rfl⟩ := h
        rw [Nat.add_comm]
        rfl
      within := fun segment h => isWithin_of_mem_pulsed hlength h
      stop := fun segment h =>
        exists_run_of_isPulseSpan hlength hguard (isPulseSpan_of_mem_pulsed h) }

/-- **A rule with `triggerBySegmentsOf` marks the pulses of its operand**, and numbers the
    segments between them, whatever guard and operand are, as long as they have tracks. -/
theorem exists_isPulsed_of_read (hread : Rule.read source = .ok r)
    (haction : r.action = .triggerBySegmentsOf) (hknown : r.IsKnown ts) (frames : Nat) :
    ∃ n s d, r.operands = [n] ∧ ts.series? n = some s ∧ triggerBySegmentsOf ts r frames = .ok d ∧
      IsPulsed ts r frames s d := by
  have hfamily : r.action.family = .conversion := by rw [haction]; rfl
  obtain ⟨name, hname, hnameOf⟩ := exists_nameOf hread hfamily
  obtain ⟨guard, hguard, hlength, htrue⟩ := exists_guardOf hread hfamily hknown frames
  obtain ⟨n, s, hn, hs, htarget⟩ := exists_targetOf hread (by rw [haction]; rfl) hknown
  exact ⟨n, s, _, hn, hs, triggerBySegmentsOf_eq hnameOf hguard htarget,
    isPulsed_pulsed hname hlength htrue⟩

/-- Two slides, in which someone clicks; the second click of the first one goes on, but for one
    frame, until the slide ends. -/
def slidesWithClicks : Tracks :=
  ((Tracks.empty .zero).insert "slide"
    (.ofSeries (.numbers #[.one, .one, .one, .one, .one, .zero, .one, .one]) .extracted)).insert
      "click" (.ofSeries (.numbers #[.zero, .one, .one, .zero, .one, .one, .one]) .extracted)

/-- The clicks of each slide. -/
def clickStep : Rule :=
  ⟨"during(slide)\x7bstep=triggerBySegmentsOf(click)\x7d", .conversion, some "step",
    some .during, ["slide"], .triggerBySegmentsOf, ["click"]⟩

/-- A step ends with the next one or with the slide. -/
theorem exists_isPulsed_of_clickStep : Rule.read clickStep.source = .ok clickStep ∧
    clickStep.IsKnown slidesWithClicks ∧ ∃ n s d, clickStep.operands = [n] ∧
      slidesWithClicks.series? n = some s ∧
      triggerBySegmentsOf slidesWithClicks clickStep 8 = .ok d ∧
      IsPulsed slidesWithClicks clickStep 8 s d ∧
      d.segments = [⟨1, 4, "step #1"⟩, ⟨4, 5, "step #2"⟩, ⟨6, 8, "step #3"⟩] := by
  have hread : Rule.read clickStep.source = .ok clickStep :=
    Rule.eq_ok_of_toOption (by decide +kernel)
  have hknown : clickStep.IsKnown slidesWithClicks := by decide +kernel
  obtain ⟨n, s, d, hn, hs, htrigger, hd⟩ := exists_isPulsed_of_read hread rfl hknown 8
  have hsegments : ((triggerBySegmentsOf slidesWithClicks clickStep 8).toOption.any fun d =>
      decide (d.segments = [⟨1, 4, "step #1"⟩, ⟨4, 5, "step #2"⟩, ⟨6, 8, "step #3"⟩])) = true := by
    decide +kernel
  rw [htrigger] at hsegments
  exact ⟨hread, hknown, n, s, d, hn, hs, htrigger, hd, of_decide_eq_true hsegments⟩

end Derivation

end Screenmark
