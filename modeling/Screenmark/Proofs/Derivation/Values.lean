/-
  Screenmark — first values.

  A rule with `matchFirstValueOf` shows, over each run of its guard, the first value that its
  operand has in it (`Series.IsFirstIn`), and gives a segment for it. A run in which the operand
  has no value shows nothing and gives none.

  * `textRuns_labelAt` : texts that show the labels of segments have just these segments as
    their runs, if no two segments of one label touch and every label shows something;
  * `exists_isFirstValued_of_read` : so the segments can be had back from the series. They are
    runs of the guard, with gaps between them, and a first value always shows something.
-/
import Mathlib.Data.List.Sort
import Screenmark.Proofs.Derivation.Operands
import Screenmark.Proofs.Output.Marks

namespace Screenmark

/-! ## First frames -/

/-- The first frame of a span at which a series is true. -/
structure Series.IsFirstIn (s : Series) (threshold : Single) (span : Span) (f : Nat) : Prop where
  inside : span.contains f = true
  isTrue : s.isTrueAt threshold f = true
  before : ∀ k, span.start ≤ k → k < f → s.isTrueAt threshold k = false

/-- What is true has a label that shows something. -/
theorem Series.isBlank_labelAt {s : Series} {threshold : Single} {f : Nat}
    (h : s.isTrueAt threshold f = true) : Text.isBlank (s.labelAt threshold f) = false := by
  rcases s with xs | ss
  · rw [labelAt, if_pos h]
    decide
  · rw [isTrueAt, sample?] at h
    rw [labelAt]
    rcases hs : ss[f]? with _ | text
    · rw [hs] at h
      cases h
    · rw [hs] at h
      simpa [gateOf] using h

namespace Derivation

variable {ts : Tracks} {r : Rule} {frames f : Nat} {threshold : Single} {name source label : String}
  {guard : List Bool} {span : Span} {s : Series} {segment : Segment} {segments : List Segment}

theorem firstTrue?_eq_some_iff : firstTrue? s threshold span = some f ↔
    s.IsFirstIn threshold span f := by
  rw [firstTrue?, List.find?_map, Option.map_eq_some_iff]
  constructor
  · rintro ⟨i, hi, rfl⟩
    obtain ⟨htrue, hmem, hbefore⟩ := List.find?_range_eq_some.1 hi
    rw [List.mem_range] at hmem
    refine ⟨Span.contains_iff.2 (by omega), htrue, fun k hk hlt => ?_⟩
    have hfalse := hbefore (k - span.start) (by omega)
    rw [Function.comp_apply, Nat.add_sub_cancel' hk, Bool.not_eq_true'] at hfalse
    exact hfalse
  · rintro ⟨hinside, htrue, hbefore⟩
    rw [Span.contains_iff] at hinside
    refine ⟨f - span.start, List.find?_range_eq_some.2 ⟨?_, ?_, fun j hj => ?_⟩, by omega⟩
    · rwa [Function.comp_apply, Nat.add_sub_cancel' hinside.1]
    · rw [List.mem_range]
      omega
    · rw [Function.comp_apply, hbefore (span.start + j) (by omega) (by omega)]
      rfl

theorem exists_isFirstIn (hinside : span.contains f = true)
    (htrue : s.isTrueAt threshold f = true) : ∃ k, s.IsFirstIn threshold span k := by
  rcases hfirst : firstTrue? s threshold span with _ | k
  · rw [firstTrue?, List.find?_map, Option.map_eq_none_iff, List.find?_eq_none] at hfirst
    rw [Span.contains_iff] at hinside
    refine absurd ?_ (hfirst (f - span.start) (List.mem_range.2 (by omega)))
    rwa [Function.comp_apply, Nat.add_sub_cancel' hinside.1]
  · exact ⟨k, firstTrue?_eq_some_iff.1 hfirst⟩

/-! ## Segments of first values -/

/-- The segments of the runs of a guard in which a series has a value. -/
def valueSegments (s : Series) (threshold : Single) (guard : List Bool) : List Segment :=
  (trueRuns guard).filterMap (valueSegment? s threshold)

theorem valueSegment?_eq_some_iff : valueSegment? s threshold span = some segment ↔
    ∃ f, s.IsFirstIn threshold span f ∧ Segment.ofRun (s.labelAt threshold f) span = segment := by
  simp only [valueSegment?, Option.map_eq_some_iff, firstTrue?_eq_some_iff]

theorem mem_valueSegments_iff : segment ∈ valueSegments s threshold guard ↔
    ∃ span f, span ∈ trueRuns guard ∧ s.IsFirstIn threshold span f ∧
      Segment.ofRun (s.labelAt threshold f) span = segment := by
  simp only [valueSegments, List.mem_filterMap, valueSegment?_eq_some_iff]
  constructor
  · rintro ⟨span, hspan, f, hfirst, hsegment⟩
    exact ⟨span, f, hspan, hfirst, hsegment⟩
  · rintro ⟨span, f, hspan, hfirst, hsegment⟩
    exact ⟨span, hspan, f, hfirst, hsegment⟩

/-- The segments have gaps between them, as the runs of the guard do. -/
theorem pairwise_valueSegments (s : Series) (threshold : Single) (guard : List Bool) :
    (valueSegments s threshold guard).Pairwise fun a b => a.stop < b.start := by
  rw [valueSegments, List.pairwise_filterMap]
  refine (pairwise_trueRunsFrom 0 guard).imp fun {a b} hgap x hx y hy => ?_
  obtain ⟨-, -, rfl⟩ := valueSegment?_eq_some_iff.1 hx
  obtain ⟨-, -, rfl⟩ := valueSegment?_eq_some_iff.1 hy
  exact hgap

/-! ## Labels as texts -/

/-- The label of a segment shows on all of it, if no two segments share a frame. -/
theorem labelAt_of_mem (hapart : segments.Pairwise fun a b => a.stop ≤ b.start)
    (h : segment ∈ segments) (hf : segment.start ≤ f ∧ f < segment.stop) :
    labelAt segments f = segment.label := by
  rw [labelAt]
  rcases hfind : segments.find? (fun s => s.start ≤ f && f < s.stop) with _ | other
  · refine absurd ?_ (List.find?_eq_none.1 hfind segment h)
    simpa using hf
  · have hother : other.start ≤ f ∧ f < other.stop := by
      simpa using List.find?_some hfind
    have hsame : other = segment := by
      rcases eq_or_rel_of_pairwise hapart (List.mem_of_find?_eq_some hfind) h with heq | hle | hle
      · exact heq
      · omega
      · omega
    rw [hfind, hsame]
    rfl

/-- Where there is no segment, nothing shows. -/
theorem labelAt_eq_blank (h : ∀ s ∈ segments, ¬ (s.start ≤ f ∧ f < s.stop)) :
    labelAt segments f = Text.blank := by
  have hfind : segments.find? (fun s => s.start ≤ f && f < s.stop) = none :=
    List.find?_eq_none.2 fun s hs => by simpa using h s hs
  rw [labelAt, hfind]
  rfl

/-- A text shows at a frame just if a segment with this label covers it. -/
theorem getElem?_labels_iff_exists {text : String}
    (hapart : segments.Pairwise fun a b => a.stop ≤ b.start)
    (hwithin : ∀ s ∈ segments, s.IsWithin frames) (htext : Text.isBlank text = false) :
    ((List.range frames).map (labelAt segments))[f]? = some text ↔
      ∃ s ∈ segments, s.label = text ∧ s.start ≤ f ∧ f < s.stop := by
  rw [getElem?_map_range_eq_some_iff]
  constructor
  · rintro ⟨-, rfl⟩
    by_cases hcover : ∃ s ∈ segments, s.start ≤ f ∧ f < s.stop
    · obtain ⟨s, hs, hf⟩ := hcover
      exact ⟨s, hs, (labelAt_of_mem hapart hs hf).symm, hf⟩
    · rw [labelAt_eq_blank fun s hs hf => hcover ⟨s, hs, hf⟩, Text.isBlank_blank] at htext
      cases htext
  · rintro ⟨s, hs, rfl, hf⟩
    exact ⟨Nat.lt_of_lt_of_le hf.2 (hwithin s hs).2, labelAt_of_mem hapart hs hf⟩

/-- **Texts that show the labels of segments have the segments as their runs.** -/
theorem textRuns_labelAt
    (horder : segments.Pairwise fun a b =>
      a.stop ≤ b.start ∧ (a.label = b.label → a.stop < b.start))
    (hwithin : ∀ s ∈ segments, s.IsWithin frames)
    (hshown : ∀ s ∈ segments, Text.isBlank s.label = false) :
    textRuns ((List.range frames).map (labelAt segments)) =
      segments.map fun s => ((⟨s.start, s.stop⟩ : Span), s.label) := by
  have hapart : segments.Pairwise fun a b => a.stop ≤ b.start := horder.imp And.left
  let earlier (a b : Span × String) : Prop := a.1.start < b.1.start
  have hirrefl : Std.Irrefl earlier := ⟨fun a => Nat.lt_irrefl _⟩
  have hantisymm : Std.Antisymm earlier := ⟨fun a b hab hba => (Nat.lt_asymm hab hba).elim⟩
  -- Both lists are in order, so it is enough that they have the same members.
  refine List.Pairwise.eq_of_mem_iff (r := earlier) ?_ ?_ ?_
  · refine (pairwise_textRunsFrom 0 _).imp_of_mem fun {a b} ha _ hab => ?_
    exact Nat.lt_of_lt_of_le (start_lt_stop_of_mem_textRunsFrom ha) hab.1
  · rw [List.pairwise_map]
    exact hapart.imp_of_mem fun {a b} ha _ hab => Nat.lt_of_lt_of_le (hwithin a ha).1 hab
  · rintro ⟨span, text⟩
    have hmap : (span, text) ∈ segments.map (fun s => ((⟨s.start, s.stop⟩ : Span), s.label)) ↔
        span ∈ (segments.filter (·.label = text)).map fun s => (⟨s.start, s.stop⟩ : Span) := by
      simp only [List.mem_map, List.mem_filter, decide_eq_true_eq, Prod.mk.injEq]
      constructor
      · rintro ⟨s, hs, hspan, htext⟩
        exact ⟨s, ⟨hs, htext⟩, hspan⟩
      · rintro ⟨s, ⟨hs, htext⟩, hspan⟩
        exact ⟨s, hs, hspan, htext⟩
    rw [mem_textRuns_iff]
    by_cases htext : Text.isBlank text = false
    · rw [and_iff_right htext, hmap]
      symm
      refine Span.mem_iff_isRun ?_ ?_ fun f => ?_
      · intro t ht
        obtain ⟨s, hs, rfl⟩ := List.mem_map.1 ht
        exact (hwithin s (List.mem_filter.1 hs).1).1
      · rw [List.pairwise_map, List.pairwise_filter]
        refine horder.imp fun {a b} hab ha hb => hab.2 ?_
        exact (of_decide_eq_true ha).trans (of_decide_eq_true hb).symm
      · rw [getElem?_labels_iff_exists hapart hwithin htext]
        simp [Span.contains_iff, and_assoc]
    · refine iff_of_false (fun h => htext h.1) fun h => htext ?_
      obtain ⟨s, hs, heq⟩ := List.mem_map.1 h
      cases heq
      exact hshown s hs

/-! ## The result -/

/-- What a rule gives over a guard. -/
def firstValued (s : Series) (threshold : Single) (frames : Nat) (name : String)
    (guard : List Bool) : Derived where
  name := name
  track := .ofSeries
    (.texts ((Array.range frames).map (labelAt (valueSegments s threshold guard)))) .derived
  segments := valueSegments s threshold guard
  failures := 0

theorem matchFirstValueOf_eq (hname : nameOf r = .ok name)
    (hguard : guardOf ts r frames = .ok guard) (htarget : targetOf ts r = .ok s) :
    matchFirstValueOf ts r frames = .ok (firstValued s ts.threshold frames name guard) := by
  unfold matchFirstValueOf
  rw [hname, hguard, htarget]
  rfl

theorem exists_of_matchFirstValueOf {d : Derived} (h : matchFirstValueOf ts r frames = .ok d) :
    ∃ name guard s, nameOf r = .ok name ∧ guardOf ts r frames = .ok guard ∧
      targetOf ts r = .ok s ∧ d = firstValued s ts.threshold frames name guard := by
  obtain ⟨name, hname, hrest⟩ := exists_of_bind_eq_ok h
  obtain ⟨guard, hguard, hrest⟩ := exists_of_bind_eq_ok hrest
  obtain ⟨s, htarget, -⟩ := exists_of_bind_eq_ok hrest
  rw [matchFirstValueOf_eq hname hguard htarget] at h
  exact ⟨name, guard, s, hname, hguard, htarget, (Except.ok.inj h).symm⟩

theorem sample?_firstValued (hf : f < frames) :
    (firstValued s threshold frames name guard).track.series.sample? f =
      some (.text (labelAt (valueSegments s threshold guard) f)) := by
  rw [firstValued, Track.ofSeries, Series.sample?, Array.getElem?_map, Array.getElem?_range,
    if_pos hf]
  rfl

theorem isWithin_of_mem_valueSegments (h : segment ∈ valueSegments s threshold guard) :
    segment.IsWithin guard.length := by
  obtain ⟨span, f, hspan, -, rfl⟩ := mem_valueSegments_iff.1 h
  exact isWithin_of_mem_trueRuns hspan

theorem isBlank_of_mem_valueSegments (h : segment ∈ valueSegments s threshold guard) :
    Text.isBlank segment.label = false := by
  obtain ⟨span, f, -, hfirst, rfl⟩ := mem_valueSegments_iff.1 h
  exact Series.isBlank_labelAt hfirst.isTrue

/-- The segments can be had back from the series. -/
theorem segments_firstValued (hlength : guard.length = frames) (threshold' : Single) :
    (firstValued s threshold frames name guard).track.segments threshold' label =
      (firstValued s threshold frames name guard).segments := by
  have hgaps := pairwise_valueSegments s threshold guard
  have hwithin : ∀ segment ∈ valueSegments s threshold guard, segment.IsWithin frames :=
    fun segment h => hlength ▸ isWithin_of_mem_valueSegments h
  have hruns := textRuns_labelAt (hgaps.imp fun hgap => ⟨Nat.le_of_lt hgap, fun _ => hgap⟩)
    hwithin fun segment h => isBlank_of_mem_valueSegments h
  change (textRuns ((Array.range frames).map _).toList).map _ = valueSegments s threshold guard
  rw [Array.toList_map, Array.toList_range, hruns, List.map_map]
  exact List.map_id _

/-- What a rule with `matchFirstValueOf` is to give for an operand with the series `s`. -/
structure IsFirstValued (ts : Tracks) (r : Rule) (frames : Nat) (s : Series) (d : Derived) :
    Prop where
  name : r.name = some d.name
  size : d.track.size = frames
  /-- A run of the guard in which the operand is true shows the label of the first frame at
      which it is, and is a segment with this label. -/
  shown : ∀ span : Span, span.IsRun (r.IsGuarded ts frames) →
    (∃ f, span.contains f = true ∧ s.isTrueAt ts.threshold f = true) →
      ∃ f, s.IsFirstIn ts.threshold span f ∧
        Segment.ofRun (s.labelAt ts.threshold f) span ∈ d.segments ∧
        ∀ k, span.contains k = true →
          d.track.series.sample? k = some (.text (s.labelAt ts.threshold f))
  /-- A run in which it is not shows nothing, and has no segment. -/
  blank : ∀ span : Span, span.IsRun (r.IsGuarded ts frames) →
    (∀ f, span.contains f = true → s.isTrueAt ts.threshold f = false) →
      ∀ k, span.contains k = true →
        d.track.series.sample? k = some (.text Text.blank) ∧ ¬ d.Covers k
  outside : ∀ f < frames, ¬ r.GuardHolds ts f →
    d.track.series.sample? f = some (.text Text.blank) ∧ ¬ d.Covers f
  /-- There are no segments but runs of the guard, and they are in order. -/
  segment : ∀ s ∈ d.segments, (⟨s.start, s.stop⟩ : Span).IsRun (r.IsGuarded ts frames)
  order : d.segments.Pairwise fun a b => a.stop < b.start
  /-- The segments of the series are those of the rule. -/
  again : ∀ threshold label, d.track.segments threshold label = d.segments

theorem isFirstValued_firstValued (hname : r.name = some name) (hlength : guard.length = frames)
    (hguard : ∀ f, guard[f]? = some true ↔ r.IsGuarded ts frames f) :
    IsFirstValued ts r frames s (firstValued s ts.threshold frames name guard) := by
  have hruns : ∀ span : Span, span ∈ trueRuns guard ↔ span.IsRun (r.IsGuarded ts frames) :=
    fun span => by simp only [mem_trueRuns_iff, hguard]
  have hapart : (valueSegments s ts.threshold guard).Pairwise fun a b => a.stop ≤ b.start :=
    (pairwise_valueSegments s ts.threshold guard).imp Nat.le_of_lt
  -- Where no segment is, nothing shows.
  have hnone : ∀ f < frames, ¬ (firstValued s ts.threshold frames name guard).Covers f →
      (firstValued s ts.threshold frames name guard).track.series.sample? f =
        some (.text Text.blank) := by
    intro f hf hcover
    have hblank : labelAt (valueSegments s ts.threshold guard) f = Text.blank :=
      labelAt_eq_blank fun segment h hf => hcover ⟨segment, h, hf⟩
    rw [sample?_firstValued hf, hblank]
  -- A segment that covers a frame of a run is of that run, in which the operand is true.
  have hcovers : ∀ f, (firstValued s ts.threshold frames name guard).Covers f →
      r.IsGuarded ts frames f ∧ ∀ span : Span, span.IsRun (r.IsGuarded ts frames) →
        span.contains f = true → ∃ k, s.IsFirstIn ts.threshold span k := by
    rintro f ⟨segment, h, hf⟩
    obtain ⟨span, k, hspan, hfirst, rfl⟩ := mem_valueSegments_iff.1 h
    have hrun := (hruns span).1 hspan
    have hin : span.contains f = true := Span.contains_iff.2 hf
    refine ⟨hrun.inside f hin, fun span' hrun' hin' => ⟨k, ?_⟩⟩
    rwa [hrun'.unique hrun hin' hin]
  exact
    { name := hname
      size := by simp [firstValued, Track.ofSeries, Track.size, Series.size]
      shown := by
        rintro span hrun ⟨f, hin, htrue⟩
        obtain ⟨k, hfirst⟩ := exists_isFirstIn hin htrue
        have hmem : Segment.ofRun (s.labelAt ts.threshold k) span ∈
            valueSegments s ts.threshold guard :=
          mem_valueSegments_iff.2 ⟨span, k, (hruns span).2 hrun, hfirst, rfl⟩
        refine ⟨k, hfirst, hmem, fun j hj => ?_⟩
        rw [sample?_firstValued (hrun.inside j hj).1,
          labelAt_of_mem hapart hmem (Span.contains_iff.1 hj)]
        rfl
      blank := by
        intro span hrun hfalse k hk
        have hcover : ¬ (firstValued s ts.threshold frames name guard).Covers k := by
          intro hcover
          obtain ⟨j, hfirst⟩ := (hcovers k hcover).2 span hrun hk
          exact Bool.false_ne_true ((hfalse j hfirst.inside).symm.trans hfirst.isTrue)
        exact ⟨hnone k (hrun.inside k hk).1 hcover, hcover⟩
      outside := by
        intro f hf hholds
        have hcover : ¬ (firstValued s ts.threshold frames name guard).Covers f :=
          fun hcover => hholds (hcovers f hcover).1.2
        exact ⟨hnone f hf hcover, hcover⟩
      segment := by
        intro segment h
        obtain ⟨span, k, hspan, -, rfl⟩ := mem_valueSegments_iff.1 h
        exact (hruns span).1 hspan
      order := pairwise_valueSegments s ts.threshold guard
      again := fun threshold label => segments_firstValued hlength threshold }

/-- **A rule with `matchFirstValueOf` shows the first values of its operand**, whatever guard and
    operand are, as long as they have tracks. -/
theorem exists_isFirstValued_of_read (hread : Rule.read source = .ok r)
    (haction : r.action = .matchFirstValueOf) (hknown : r.IsKnown ts) (frames : Nat) :
    ∃ n s d, r.operands = [n] ∧ ts.series? n = some s ∧ matchFirstValueOf ts r frames = .ok d ∧
      IsFirstValued ts r frames s d := by
  have hfamily : r.action.family = .conversion := by rw [haction]; rfl
  obtain ⟨name, hname, hnameOf⟩ := exists_nameOf hread hfamily
  obtain ⟨guard, hguard, hlength, htrue⟩ := exists_guardOf hread hfamily hknown frames
  obtain ⟨n, s, hn, hs, htarget⟩ := exists_targetOf hread (by rw [haction]; rfl) hknown
  exact ⟨n, s, _, hn, hs, matchFirstValueOf_eq hnameOf hguard htarget,
    isFirstValued_firstValued hname hlength htrue⟩

/-- Two slides, of which the title is only read in the first one, after its first frame, and the
    reading ends early. -/
def slidesWithTitle : Tracks :=
  ((Tracks.empty .zero).insert "slide"
    (.ofSeries (.numbers #[.one, .one, .zero, .one]) .extracted)).insert "title"
      (.ofSeries (.texts #[" ", "Intro"]) .extracted)

/-- The title of each slide. -/
def heading : Rule :=
  ⟨"during(slide)\x7bheading=matchFirstValueOf(title)\x7d", .conversion, some "heading",
    some .during, ["slide"], .matchFirstValueOf, ["title"]⟩

/-- The first slide has its title from its first frame on, and the second one has none. -/
theorem exists_isFirstValued_of_heading : Rule.read heading.source = .ok heading ∧
    heading.IsKnown slidesWithTitle ∧ ∃ n s d, heading.operands = [n] ∧
      slidesWithTitle.series? n = some s ∧ matchFirstValueOf slidesWithTitle heading 4 = .ok d ∧
      IsFirstValued slidesWithTitle heading 4 s d ∧ d.segments = [⟨0, 2, "Intro"⟩] := by
  have hread : Rule.read heading.source = .ok heading := Rule.eq_ok_of_toOption (by decide +kernel)
  have hknown : heading.IsKnown slidesWithTitle := by decide +kernel
  obtain ⟨n, s, d, hn, hs, hfirst, hd⟩ := exists_isFirstValued_of_read hread rfl hknown 4
  have hsegments : ((matchFirstValueOf slidesWithTitle heading 4).toOption.any fun d =>
      decide (d.segments = [⟨0, 2, "Intro"⟩])) = true := by decide +kernel
  rw [hfirst] at hsegments
  exact ⟨hread, hknown, n, s, d, hn, hs, hfirst, hd, of_decide_eq_true hsegments⟩

end Derivation

end Screenmark
