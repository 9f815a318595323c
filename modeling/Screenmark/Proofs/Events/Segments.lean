/-
  Screenmark — the segments of typed words.

  A word that starts at an allowed frame of the session has a segment, from the frame of its
  first stroke to that of its last one, or to the end of the session. Events in the order of time
  have their words in that order (`pairwise_typedWords`), and so the segments come in order as
  well. But two words may meet on a frame: the earlier one ends on the frame with
  which the later one begins. Such a frame is one of both segments, and the series shows the
  later word there.

  * `wordSegment?_eq_some_iff_isSegmentOf` : which segment a word has, and when;
  * `pairwise_segments` : two segments have no more than that one frame in common;
  * `getElem?_foldl_shownOn_eq` : a frame shows the last segment that has it;
  * `pairwise_segments_iff` : they have none in common exactly if no word begins with the frame
    on which an earlier one ends.
-/
import Screenmark.Proofs.Events.Placement
import Screenmark.Proofs.Events.Typing
import Screenmark.Proofs.Time.Clock

namespace Screenmark

/-! ## Words in the order of time -/

/-- The events are in the order of time. -/
def InOrder (es : List Event) : Prop := es.Pairwise fun a b => a.time.micros ≤ b.time.micros

variable {es : List Event} {e : Event} {active : Bool} {s : Stroke} {ms : List Mark} {b : Block}
  {w : TypedWord}

theorem InOrder.le {i j : Nat} {t u : Moment} (h : InOrder es) (hij : i ≤ j)
    (ht : es[i]?.map (·.time) = some t) (hu : es[j]?.map (·.time) = some u) :
    t.micros ≤ u.micros := by
  obtain ⟨a, ha, rfl⟩ := Option.map_eq_some_iff.1 ht
  obtain ⟨b, hb, rfl⟩ := Option.map_eq_some_iff.1 hu
  rcases Nat.eq_or_lt_of_le hij with rfl | hlt
  · cases ha.symm.trans hb
    exact Int.le_refl _
  · obtain ⟨hi, rfl⟩ := List.getElem?_eq_some_iff.1 ha
    obtain ⟨hj, rfl⟩ := List.getElem?_eq_some_iff.1 hb
    exact List.pairwise_iff_getElem.1 h i j hi hj hlt

/-- A stroke has the time of its event. -/
theorem time_of_stroke {i : Nat} (h : (marks es)[i]? = some (.stroke s)) :
    es[i]?.map (·.time) = some s.time := by
  rw [marks_eq, getElem?_marksFrom] at h
  obtain ⟨e, he, hmark⟩ := Option.map_eq_some_iff.1 h
  rw [he, (stroke_of_mark hmark).1]
  rfl

theorem head?_strokesOf (hle : b.first ≤ b.last) (h : ms[b.first]? = some (.stroke s)) :
    (strokesOf ms b).head? = some s := by
  have hlength : b.last + 1 - b.first = b.last - b.first + 1 := by omega
  simp [strokesOf, hlength, List.range'_succ, h, Mark.stroke?]

theorem getLast?_strokesOf (hle : b.first ≤ b.last) (h : ms[b.last]? = some (.stroke s)) :
    (strokesOf ms b).getLast? = some s := by
  have hlength : b.last + 1 - b.first = b.last - b.first + 1 := by omega
  have hend : b.first + (b.last - b.first) = b.last := by omega
  simp [strokesOf, hlength, List.range'_1_concat, hend, h, Mark.stroke?]

/-- The word of a block starts with the first event of the block and stops with the last one. -/
theorem times_of_ofStrokes? (hb : IsBlock (marks es) b)
    (h : TypedWord.ofStrokes? (strokesOf (marks es) b) = some w) :
    es[b.first]?.map (·.time) = some w.start ∧ es[b.last]?.map (·.time) = some w.stop := by
  obtain ⟨first, hfirst⟩ := hb.first
  obtain ⟨last, hlast⟩ := hb.last
  have hword := h
  rw [TypedWord.ofStrokes?, head?_strokesOf hb.le hfirst, getLast?_strokesOf hb.le hlast] at hword
  dsimp only at hword
  split at hword
  · cases hword
  · cases hword
    exact ⟨time_of_stroke hfirst, time_of_stroke hlast⟩

/-- **A word has stopped when a later one starts.** -/
theorem pairwise_typedWords (h : InOrder es) :
    (typedWords es).Pairwise fun v w => v.stop.micros ≤ w.start.micros := by
  rw [typedWords_eq, List.pairwise_filterMap]
  refine (pairwise_blocks (marks es)).imp_of_mem fun ha hb hlt v hv w hw => ?_
  exact h.le (Nat.le_of_lt hlt) (times_of_ofStrokes? (mem_blocks_iff.1 ha) hv).2
    (times_of_ofStrokes? (mem_blocks_iff.1 hb) hw).1

theorem start_le_stop_of_mem_typedWords (h : InOrder es) (hw : w ∈ typedWords es) :
    w.start.micros ≤ w.stop.micros := by
  rw [typedWords_eq] at hw
  obtain ⟨b, hb, hword⟩ := List.mem_filterMap.1 hw
  have hblock := mem_blocks_iff.1 hb
  obtain ⟨hstart, hstop⟩ := times_of_ofStrokes? hblock hword
  exact h.le hblock.le hstart hstop

/-! ## Frames of words -/

namespace Events

variable {c : Clock} {frames f g : Nat} {allowed : Nat → Bool} {v : TypedWord}
  {segments : List Segment} {x y : Segment} {t u : Moment}

/-- A moment between two that have a frame has one as well, and it is between theirs. -/
theorem frameOf?_between {r : Moment} (htu : t.micros ≤ u.micros) (hur : u.micros ≤ r.micros)
    (ht : frameOf? c frames t = some f) (hr : frameOf? c frames r = some g) :
    ∃ k, frameOf? c frames u = some k ∧ f ≤ k ∧ k ≤ g := by
  obtain ⟨ht, -⟩ := frameOf?_eq_some_iff.1 ht
  obtain ⟨hr, hg⟩ := frameOf?_eq_some_iff.1 hr
  obtain ⟨k, hk, hfk⟩ := c.frameAt_mono htu ht
  obtain ⟨g', hg', hkg⟩ := c.frameAt_mono hur hk
  obtain rfl := Option.some.inj (hg'.symm.trans hr)
  exact ⟨k, frameOf?_eq_some_iff.2 ⟨hk, Nat.lt_of_le_of_lt hkg hg⟩, hfk, hkg⟩

/-- A word is shown if it starts at a frame that is allowed. -/
def IsShown (c : Clock) (frames : Nat) (allowed : Nat → Bool) (w : TypedWord) : Prop :=
  ∃ f, frameOf? c frames w.start = some f ∧ allowed f = true

theorem start_of_wordSegment? (h : wordSegment? c frames allowed w = some x) :
    frameOf? c frames w.start = some x.start := (wordSegment?_eq_some_iff.1 h).1

theorem exists_wordSegment?_iff :
    (∃ x, wordSegment? c frames allowed w = some x) ↔ IsShown c frames allowed w := by
  constructor
  · rintro ⟨x, hx⟩
    obtain ⟨hstart, hallowed, -⟩ := wordSegment?_eq_some_iff.1 hx
    exact ⟨x.start, hstart, hallowed⟩
  · rintro ⟨start, hstart, hallowed⟩
    obtain ⟨x, hx, -⟩ := exists_wordSegment? hstart hallowed
    exact ⟨x, hx⟩

/-- The segment of a word that does not stop before it starts ends with the frame of its stop. -/
theorem stop_of_wordSegment? (hle : w.start.micros ≤ w.stop.micros)
    (h : wordSegment? c frames allowed w = some x) (hf : frameOf? c frames w.stop = some f) :
    x.stop = f + 1 := by
  obtain ⟨hstart, -, hstop, -⟩ := wordSegment?_eq_some_iff.1 h
  obtain ⟨k, hk, hxk, hkf⟩ := frameOf?_between (Int.le_refl _) hle hstart hf
  rw [hstop, hf]
  exact Nat.max_eq_left (Nat.succ_le_succ (Nat.le_trans hxk hkf))

/-- The segment is that of a word: it begins at the frame of the first stroke, and its last frame
    is that of the last stroke, or the last one of the session if that stroke is on none. -/
structure IsSegmentOf (c : Clock) (frames : Nat) (w : TypedWord) (x : Segment) : Prop where
  start : frameOf? c frames w.start = some x.start
  stop : ∀ f, frameOf? c frames w.stop = some f → x.stop = f + 1
  outlasts : frameOf? c frames w.stop = none → x.stop = frames
  label : x.label = w.text

theorem IsSegmentOf.unique (hx : IsSegmentOf c frames w x) (hy : IsSegmentOf c frames w y) :
    x = y := by
  obtain ⟨start, stop, label⟩ := x
  obtain ⟨start', stop', label'⟩ := y
  obtain rfl := Option.some.inj (hx.start.symm.trans hy.start)
  obtain rfl := hx.label.trans hy.label.symm
  obtain rfl : stop = stop' := by
    cases hf : frameOf? c frames w.stop with
    | some f => exact (hx.stop f hf).trans (hy.stop f hf).symm
    | none => exact (hx.outlasts hf).trans (hy.outlasts hf).symm
  rfl

theorem isSegmentOf_of_wordSegment? (hle : w.start.micros ≤ w.stop.micros)
    (h : wordSegment? c frames allowed w = some x) : IsSegmentOf c frames w x := by
  obtain ⟨hstart, -, hstop, hlabel⟩ := wordSegment?_eq_some_iff.1 h
  refine ⟨hstart, fun f hf => stop_of_wordSegment? hle h hf, fun hnone => ?_, hlabel⟩
  rw [hstop, hnone]
  exact Nat.max_eq_left (lt_of_frameOf? hstart)

/-- **The segment of a word.** A word that does not stop before it starts has its segment exactly
    if it starts at an allowed frame of the session. -/
theorem wordSegment?_eq_some_iff_isSegmentOf (hle : w.start.micros ≤ w.stop.micros) :
    wordSegment? c frames allowed w = some x ↔
      IsSegmentOf c frames w x ∧ allowed x.start = true := by
  constructor
  · intro h
    exact ⟨isSegmentOf_of_wordSegment? hle h, (wordSegment?_eq_some_iff.1 h).2.1⟩
  · rintro ⟨hsegment, hallowed⟩
    obtain ⟨y, hy⟩ := exists_wordSegment?_iff.2 ⟨x.start, hsegment.start, hallowed⟩
    rwa [hsegment.unique (isSegmentOf_of_wordSegment? hle hy)]

/-- When a later word is shown, the frame of the stop of the earlier one is the last one of its
    segment, and no frame of the later one is before it. -/
theorem frameOf?_stop_of_wordSegment? (hv : v.start.micros ≤ v.stop.micros)
    (hvw : v.stop.micros ≤ w.start.micros) (hx : wordSegment? c frames allowed v = some x)
    (hy : wordSegment? c frames allowed w = some y) :
    ∃ f, frameOf? c frames v.stop = some f ∧ x.start ≤ f ∧ x.stop = f + 1 ∧ f ≤ y.start := by
  obtain ⟨f, hf, hxf, hfy⟩ :=
    frameOf?_between hv hvw (start_of_wordSegment? hx) (start_of_wordSegment? hy)
  exact ⟨f, hf, hxf, stop_of_wordSegment? hv hx hf, hfy⟩

/-! ## Segments in order -/

/-- **Segments come in order**, and two of them have no more in common than the last frame of
    the one and the first frame of the other. -/
theorem pairwise_segments (h : InOrder es) :
    (typedTrack es c frames allowed).2.Pairwise fun x y =>
      x.start ≤ y.start ∧ x.stop ≤ y.start + 1 := by
  refine List.pairwise_filterMap.2 ((pairwise_typedWords h).imp_of_mem
    fun hv _ hvw x hx y hy => ?_)
  obtain ⟨f, -, hxf, hstop, hfy⟩ :=
    frameOf?_stop_of_wordSegment? (start_le_stop_of_mem_typedWords h hv) hvw hx hy
  omega

/-- No word that is shown begins with the frame on which an earlier one ends. -/
def AreApart (es : List Event) (c : Clock) (frames : Nat) (allowed : Nat → Bool) : Prop :=
  (typedWords es).Pairwise fun v w => IsShown c frames allowed v → IsShown c frames allowed w →
    frameOf? c frames v.stop ≠ frameOf? c frames w.start

/-- Segments have no frame in common exactly if the words are apart. -/
theorem pairwise_segments_iff (h : InOrder es) :
    ((typedTrack es c frames allowed).2.Pairwise fun x y =>
      x.start < y.start ∧ x.stop ≤ y.start) ↔ AreApart es c frames allowed := by
  have hwords : (typedWords es).Pairwise fun v w =>
      v.start.micros ≤ v.stop.micros ∧ v.stop.micros ≤ w.start.micros :=
    (pairwise_typedWords h).imp_of_mem fun hv _ hvw =>
      ⟨start_le_stop_of_mem_typedWords h hv, hvw⟩
  refine List.pairwise_filterMap.trans ⟨fun hsegments => ?_, fun hapart => ?_⟩
  · refine hsegments.imp₂ (fun v w hdisjoint hvw hv hw heq => ?_) hwords
    obtain ⟨x, hx⟩ := exists_wordSegment?_iff.2 hv
    obtain ⟨y, hy⟩ := exists_wordSegment?_iff.2 hw
    obtain ⟨f, hf, -, hstop, -⟩ := frameOf?_stop_of_wordSegment? hvw.1 hvw.2 hx hy
    rw [hf, start_of_wordSegment? hy, Option.some.injEq] at heq
    have := (hdisjoint x hx y hy).2
    omega
  · refine hapart.imp₂ (fun v w hne hvw x hx y hy => ?_) hwords
    obtain ⟨f, hf, hxf, hstop, hfy⟩ := frameOf?_stop_of_wordSegment? hvw.1 hvw.2 hx hy
    have hne : f ≠ y.start := by
      have := hne (exists_wordSegment?_iff.1 ⟨x, hx⟩) (exists_wordSegment?_iff.1 ⟨y, hy⟩)
      rwa [hf, start_of_wordSegment? hy, ne_eq, Option.some.injEq] at this
    omega

/-! ## Segments and what is shown -/

/-- The segments come in order and are apart, and a track shows each of them on all its frames. -/
structure IsFaithful (t : Track) (segments : List Segment) : Prop where
  apart : segments.Pairwise fun x y => x.start < y.start ∧ x.stop ≤ y.start
  shown : ∀ x ∈ segments, ∀ f, x.Covers f → t.series.sample? f = some (.text x.label)

/-- Segments that are apart are told by a frame. -/
theorem eq_of_covers (h : segments.Pairwise fun x y => x.start < y.start ∧ x.stop ≤ y.start)
    (hx : x ∈ segments) (hy : y ∈ segments) (hfx : x.Covers f) (hfy : y.Covers f) : x = y := by
  induction h with
  | nil => cases hx
  | cons hlater _ ih =>
    rcases List.mem_cons.1 hx with rfl | hxs <;> rcases List.mem_cons.1 hy with rfl | hys
    · rfl
    · exact absurd (Nat.lt_of_lt_of_le hfx.2 (hlater y hys).2) (Nat.not_lt.2 hfy.1)
    · exact absurd (Nat.lt_of_lt_of_le hfy.2 (hlater x hxs).2) (Nat.not_lt.2 hfx.1)
    · exact ih hxs hys

theorem lastAt?_of_covers (h : segments.Pairwise fun x y => x.start < y.start ∧ x.stop ≤ y.start)
    (hx : x ∈ segments) (hf : x.Covers f) : lastAt? segments f = some x := by
  cases hlast : lastAt? segments f with
  | none => exact absurd hf (lastAt?_eq_none_iff.1 hlast x hx)
  | some y =>
    obtain ⟨hy, hfy⟩ := mem_of_lastAt? hlast
    rw [eq_of_covers h hx hy hf hfy]

/-- **A frame shows the last word that has it.** -/
theorem sample?_typedTrack (hf : f < frames) :
    (typedTrack es c frames allowed).1.series.sample? f = some (.text
      (((lastAt? (typedTrack es c frames allowed).2 f).map (·.label)).getD Text.blank)) := by
  have hblank : (Array.replicate frames Text.blank)[f]? = some Text.blank := by
    rw [Array.getElem?_replicate, if_pos hf]
  exact congrArg (Option.map Sample.text) (getElem?_foldl_shownOn_eq _ hblank)

/-- **The segments of words.** Each word that starts at an allowed frame of the session has its
    segment, and no other word has one. The segments come in order, and two of them have no more in
    common than the last frame of the one and the first frame of the other; a frame shows the last
    word that has it. So they are apart and shown as they are exactly if no word that is shown
    begins with the frame on which an earlier one ends. -/
theorem isFaithful_iff (h : InOrder es) (c : Clock) (frames : Nat) (allowed : Nat → Bool) :
    (typedTrack es c frames allowed).2 =
        (typedWords es).filterMap (wordSegment? c frames allowed) ∧
      (∀ w ∈ typedWords es, ∀ x, wordSegment? c frames allowed w = some x ↔
        IsSegmentOf c frames w x ∧ allowed x.start = true) ∧
      ((typedTrack es c frames allowed).2.Pairwise fun x y =>
        x.start ≤ y.start ∧ x.stop ≤ y.start + 1) ∧
      (∀ f < frames, (typedTrack es c frames allowed).1.series.sample? f = some (.text
        (((lastAt? (typedTrack es c frames allowed).2 f).map (·.label)).getD Text.blank))) ∧
      (IsFaithful (typedTrack es c frames allowed).1 (typedTrack es c frames allowed).2 ↔
        AreApart es c frames allowed) := by
  refine ⟨rfl, fun w hw x => ?_, pairwise_segments h, fun f hf => sample?_typedTrack hf,
    fun hfaithful => (pairwise_segments_iff h).1 hfaithful.apart, fun hapart => ?_⟩
  · exact wordSegment?_eq_some_iff_isSegmentOf (start_le_stop_of_mem_typedWords h hw)
  have hsegments := (pairwise_segments_iff h).2 hapart
  refine ⟨hsegments, fun x hx f hf => ?_⟩
  have hlt : f < frames := Nat.lt_of_lt_of_le hf.2 (isWithin_of_mem_typedTrack hx).2
  rw [sample?_typedTrack hlt, lastAt?_of_covers hsegments hx hf]
  rfl

/-- A number of thousandths of a second after the start of a recording. -/
def afterMillis (millis : Int) : Moment := .ofMicros (1577836800000000 + millis * 1000)

/-- A clock of a frame a second. -/
def everySecond : Clock := ⟨.one, some (afterMillis 0)⟩

/-- Two words, where the second one begins a number of thousandths of a second after the
    recording. -/
def twoWords (millis : Int) : List Event :=
  [⟨afterMillis 0, .keyDown 35⟩, ⟨afterMillis 0, .typed 'h'⟩, ⟨afterMillis 1000, .typed 'i'⟩,
    ⟨afterMillis 1200, .typed ' '⟩, ⟨afterMillis millis, .typed 'y'⟩,
    ⟨afterMillis (millis + 600), .typed 'o'⟩]

/-- The words are apart when the second one waits for the next frame. -/
theorem isFaithful_of_waiting : InOrder (twoWords 2400) ∧
    (typedTrack (twoWords 2400) everySecond 4 fun _ => true).2 =
      [⟨0, 2, "hi"⟩, ⟨2, 4, "yo"⟩] ∧
    IsFaithful (typedTrack (twoWords 2400) everySecond 4 fun _ => true).1
      (typedTrack (twoWords 2400) everySecond 4 fun _ => true).2 := by
  have horder : InOrder (twoWords 2400) := by unfold InOrder; decide +kernel
  obtain ⟨-, -, -, -, hfaithful⟩ := isFaithful_iff horder everySecond 4 fun _ => true
  have hsegments : (typedTrack (twoWords 2400) everySecond 4 fun _ => true).2 =
      [⟨0, 2, "hi"⟩, ⟨2, 4, "yo"⟩] := by decide +kernel
  refine ⟨horder, hsegments, hfaithful.2 ((pairwise_segments_iff horder).1 ?_)⟩
  rw [hsegments]
  decide

/-- **Two words may meet on a frame.** The frame is one of both segments, and it does not show
    the first word. -/
theorem not_isFaithful_of_meeting : InOrder (twoWords 1400) ∧ everySecond.start.isSome ∧
    (typedTrack (twoWords 1400) everySecond 3 fun _ => true).2 =
      [⟨0, 2, "hi"⟩, ⟨1, 3, "yo"⟩] ∧
    (typedTrack (twoWords 1400) everySecond 3 fun _ => true).1.series =
      .texts #["hi", "yo", "yo"] ∧
    ¬ IsFaithful (typedTrack (twoWords 1400) everySecond 3 fun _ => true).1
      (typedTrack (twoWords 1400) everySecond 3 fun _ => true).2 := by
  have hsegments : (typedTrack (twoWords 1400) everySecond 3 fun _ => true).2 =
      [⟨0, 2, "hi"⟩, ⟨1, 3, "yo"⟩] := by decide +kernel
  refine ⟨by unfold InOrder; decide +kernel, rfl, hsegments, by decide +kernel,
    fun hfaithful => ?_⟩
  have hapart := hfaithful.apart
  rw [hsegments] at hapart
  exact absurd hapart (by decide)

end Events

end Screenmark
