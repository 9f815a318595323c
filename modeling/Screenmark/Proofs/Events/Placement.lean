/-
  Screenmark — events and the frames that are allowed.

  A click is marked only at frames that are allowed (`isNeutralAt_clickTrack`). A word is
  another matter: only its first frame is asked for (`wordSegment?_eq_some_iff`), and from there
  it shows up to its last one. So at a frame that is not allowed nothing shows exactly if no word
  that began earlier runs on (`isNeutralAt_typedTrack_iff`). No word is shown behind the frames
  of the session (`isWithin_of_mem_typedTrack`), and where words share a frame the last one of
  them shows (`getElem?_foldl_shownOn_eq`).
-/
import Screenmark.Events.Placement
import Screenmark.Proofs.Output.Marks
import Screenmark.Proofs.Text.Compact

namespace Screenmark

/-! ## Typed words show something -/

theorem Text.isBlank_of_trim {cs : List Char} (h : Text.trim cs ≠ []) :
    Text.isBlank (String.ofList (Text.trim cs)) = false := by
  refine Bool.eq_false_iff.2 fun hblank => ?_
  rw [Text.isBlank, String.toList_ofList, List.all_eq_true] at hblank
  have hwhite := hblank _ (List.getLast_mem h)
  rw [Text.isWhite_of_getLast?_trim (List.getLast?_eq_some_getLast h)] at hwhite
  cases hwhite

theorem OpenWord.isBlank_of_close? {w : OpenWord} {word : TypedWord} (h : w.close? = some word) :
    Text.isBlank word.text = false := by
  unfold OpenWord.close? at h
  split at h
  · cases h
  · next hne =>
    cases h
    exact Text.isBlank_of_trim hne

theorem isBlank_of_mem_close? {w : Option OpenWord} {word : TypedWord}
    (h : word ∈ (w.bind OpenWord.close?).toList) : Text.isBlank word.text = false := by
  obtain ⟨w, -, hclose⟩ := Option.bind_eq_some_iff.1 (Option.mem_toList.1 h)
  exact OpenWord.isBlank_of_close? hclose

theorem isBlank_of_mem_typedWordsFrom {es : List Event} {active : Bool} {w : Option OpenWord}
    {word : TypedWord} (h : word ∈ typedWordsFrom active w es) :
    Text.isBlank word.text = false := by
  induction es generalizing active w with
  | nil => exact isBlank_of_mem_close? h
  | cons e es ih =>
    rw [typedWordsFrom] at h
    split at h
    · split at h
      · exact ih h
      · exact (List.mem_append.1 h).elim isBlank_of_mem_close? ih
    · split at h
      · exact ih h
      · split at h
        · exact (List.mem_append.1 h).elim isBlank_of_mem_close? ih
        · exact ih h
    · exact ih h
    · exact (List.mem_append.1 h).elim isBlank_of_mem_close? ih

/-- A typed word is not blank. -/
theorem isBlank_of_mem_typedWords {es : List Event} {word : TypedWord}
    (h : word ∈ typedWords es) : Text.isBlank word.text = false :=
  isBlank_of_mem_typedWordsFrom h

/-! ## Segments on frames -/

/-- The segment has the frame. -/
def Segment.Covers (s : Segment) (frame : Nat) : Prop := s.start ≤ frame ∧ frame < s.stop

namespace Events

variable {c : Clock} {frames f : Nat} {allowed : Nat → Bool} {es : List Event} {w : TypedWord}
  {texts : Array String} {t : String} {s : Segment} {segments : List Segment}

theorem getElem?_shownOn (h : texts[f]? = some t) :
    (shownOn texts s)[f]? = some (if s.start ≤ f ∧ f < s.stop then s.label else t) := by
  rw [shownOn, Array.getElem?_mapIdx, h]
  rfl

/-- The last one of the segments that has the frame. -/
def lastAt? (segments : List Segment) (frame : Nat) : Option Segment :=
  segments.reverse.find? fun s => s.start ≤ frame ∧ frame < s.stop

theorem lastAt?_cons (s : Segment) (segments : List Segment) (frame : Nat) :
    lastAt? (s :: segments) frame =
      (lastAt? segments frame).or (if s.start ≤ frame ∧ frame < s.stop then some s else none) := by
  rw [lastAt?, List.reverse_cons, List.find?_append, List.find?_singleton]
  simp only [lastAt?, decide_eq_true_eq]

theorem mem_of_lastAt? {x : Segment} (h : lastAt? segments f = some x) :
    x ∈ segments ∧ x.Covers f :=
  ⟨List.mem_reverse.1 (List.mem_of_find?_eq_some h),
    by simpa [Segment.Covers] using List.find?_some h⟩

theorem lastAt?_eq_none_iff : lastAt? segments f = none ↔ ∀ s ∈ segments, ¬ s.Covers f := by
  rw [lastAt?, List.find?_eq_none]
  simp [Segment.Covers]

/-- A frame shows the label of the last segment that has it; if none has, it stays as it is. -/
theorem getElem?_foldl_shownOn_eq (segments : List Segment) (h : texts[f]? = some t) :
    (segments.foldl shownOn texts)[f]? =
      some (((lastAt? segments f).map (·.label)).getD t) := by
  induction segments generalizing texts t with
  | nil => exact h
  | cons s segments ih =>
    rw [List.foldl_cons, ih (getElem?_shownOn (s := s) h), lastAt?_cons]
    cases lastAt? segments f with
    | some x => rfl
    | none => split <;> rfl

/-- A frame shows the label of a segment that has it; if none has, it stays as it is. -/
theorem getElem?_foldl_shownOn (segments : List Segment) (h : texts[f]? = some t) :
    ∃ u, (segments.foldl shownOn texts)[f]? = some u ∧
      ((∀ s ∈ segments, ¬ s.Covers f) ∧ u = t ∨ ∃ s ∈ segments, s.Covers f ∧ u = s.label) := by
  refine ⟨_, getElem?_foldl_shownOn_eq segments h, ?_⟩
  cases hlast : lastAt? segments f with
  | none => exact .inl ⟨lastAt?_eq_none_iff.1 hlast, rfl⟩
  | some x => exact .inr ⟨x, (mem_of_lastAt? hlast).1, (mem_of_lastAt? hlast).2, rfl⟩

/-! ## Typed words -/

/-- The word begins at an earlier frame that is allowed, and its end is not before the
    frame, or at none of the session. -/
def RunsOn (c : Clock) (frames : Nat) (allowed : Nat → Bool) (w : TypedWord) (frame : Nat) : Prop :=
  ∃ start < frame, frameOf? c frames w.start = some start ∧ allowed start = true ∧
    ∀ stop, frameOf? c frames w.stop = some stop → frame ≤ stop

theorem frameOf?_eq_some_iff {m : Moment} :
    frameOf? c frames m = some f ↔ c.frameAt m = some f ∧ f < frames := by
  rw [frameOf?, Option.filter_eq_some_iff, decide_eq_true_iff]

theorem lt_of_frameOf? {m : Moment} (h : frameOf? c frames m = some f) : f < frames :=
  (frameOf?_eq_some_iff.1 h).2

/-- What the segment of a word is. -/
theorem wordSegment?_eq_some_iff : wordSegment? c frames allowed w = some s ↔
    frameOf? c frames w.start = some s.start ∧ allowed s.start = true ∧
      s.stop = max ((frameOf? c frames w.stop).elim frames (· + 1)) (s.start + 1) ∧
      s.label = w.text := by
  obtain ⟨start, stop, label⟩ := s
  unfold wordSegment?
  cases frameOf? c frames w.start with
  | none => simp
  | some first =>
    by_cases hallowed : allowed first = true
    · simp only [if_pos hallowed, Option.some.injEq, Segment.mk.injEq]
      constructor
      · rintro ⟨rfl, rfl, rfl⟩
        exact ⟨rfl, hallowed, by cases frameOf? c frames w.stop <;> rfl, rfl⟩
      · rintro ⟨rfl, -, rfl, rfl⟩
        exact ⟨rfl, by cases frameOf? c frames w.stop <;> rfl, rfl⟩
    · simp only [if_neg hallowed, reduceCtorEq, false_iff]
      rintro ⟨heq, htrue, -⟩
      cases heq
      exact hallowed htrue

/-- A word that starts at a frame that is allowed has a segment. -/
theorem exists_wordSegment? (hstart : frameOf? c frames w.start = some f)
    (hallowed : allowed f = true) : ∃ s, wordSegment? c frames allowed w = some s ∧ s.start = f :=
  ⟨⟨f, max ((frameOf? c frames w.stop).elim frames (· + 1)) (f + 1), w.text⟩,
    wordSegment?_eq_some_iff.2 ⟨hstart, hallowed, rfl, rfl⟩, rfl⟩

theorem label_of_wordSegment? (h : wordSegment? c frames allowed w = some s) :
    s.label = w.text := (wordSegment?_eq_some_iff.1 h).2.2.2

/-- The segment of a word ends with the session at the latest. -/
theorem isWithin_of_wordSegment? (h : wordSegment? c frames allowed w = some s) :
    s.IsWithin frames := by
  obtain ⟨hstart, -, hstop, -⟩ := wordSegment?_eq_some_iff.1 h
  have hlt := lt_of_frameOf? hstart
  have hle : (frameOf? c frames w.stop).elim frames (· + 1) ≤ frames := by
    cases hlast : frameOf? c frames w.stop with
    | none => exact Nat.le_refl frames
    | some f => exact lt_of_frameOf? hlast
  rw [Segment.IsWithin, hstop]
  omega

theorem isWithin_of_mem_typedTrack (h : s ∈ (typedTrack es c frames allowed).2) :
    s.IsWithin frames := by
  obtain ⟨w, -, hw⟩ := List.mem_filterMap.1 h
  exact isWithin_of_wordSegment? hw

/-- At a frame that is not allowed, only a word that runs on is shown. -/
theorem covers_wordSegment?_iff (hlt : f < frames) (hf : allowed f = false) :
    (∃ s, wordSegment? c frames allowed w = some s ∧ s.Covers f) ↔ RunsOn c frames allowed w f := by
  have hstop : f < (frameOf? c frames w.stop).elim frames (· + 1) ↔
      ∀ stop, frameOf? c frames w.stop = some stop → f ≤ stop := by
    cases frameOf? c frames w.stop with
    | none => simpa using hlt
    | some stop =>
      refine ⟨fun h last hlast => ?_, fun h => Nat.lt_succ_of_le (h stop rfl)⟩
      cases hlast
      exact Nat.le_of_lt_succ h
  constructor
  · rintro ⟨s, hs, hle, hcovers⟩
    obtain ⟨hstart, hallowed, hend, -⟩ := wordSegment?_eq_some_iff.1 hs
    have hne : s.start ≠ f := fun heq => by simp [heq, hf] at hallowed
    exact ⟨s.start, by omega, hstart, hallowed, hstop.1 (by omega)⟩
  · rintro ⟨start, hbefore, hstart, hallowed, hlast⟩
    obtain ⟨s, hs, rfl⟩ := exists_wordSegment? hstart hallowed
    obtain ⟨-, -, hend, -⟩ := wordSegment?_eq_some_iff.1 hs
    exact ⟨s, hs, Nat.le_of_lt hbefore,
      hend ▸ Nat.lt_of_lt_of_le (hstop.2 hlast) (Nat.le_max_left _ _)⟩

/-- **What typed words show outside of the frames that are allowed.** At a frame that is
    not allowed nothing shows exactly if no word runs on from an earlier one. -/
theorem isNeutralAt_typedTrack_iff (hlt : f < frames) (hf : allowed f = false) :
    (typedTrack es c frames allowed).1.series.IsNeutralAt f ↔
      ∀ w ∈ typedWords es, ¬ RunsOn c frames allowed w f := by
  have hblank : (Array.replicate frames Text.blank)[f]? = some Text.blank := by
    rw [Array.getElem?_replicate, if_pos hlt]
  obtain ⟨u, hu, hshown⟩ := getElem?_foldl_shownOn
    ((typedWords es).filterMap (wordSegment? c frames allowed)) hblank
  have hneutral : (typedTrack es c frames allowed).1.series.IsNeutralAt f ↔ u = Text.blank := by
    refine Series.isNeutralAt_texts_iff.trans ?_
    rw [hu, Option.some.injEq]
  rw [hneutral]
  rcases hshown with ⟨hnone, rfl⟩ | ⟨s, hs, hcovers, rfl⟩
  · refine iff_of_true rfl fun w hw hruns => ?_
    obtain ⟨s, hs, hcovers⟩ := (covers_wordSegment?_iff hlt hf).2 hruns
    exact hnone s (List.mem_filterMap.2 ⟨w, hw, hs⟩) hcovers
  · obtain ⟨w, hw, hsegment⟩ := List.mem_filterMap.1 hs
    refine iff_of_false (fun hlabel => ?_) fun h =>
      h w hw ((covers_wordSegment?_iff hlt hf).1 ⟨s, hsegment, hcovers⟩)
    have hword := isBlank_of_mem_typedWords hw
    rw [← label_of_wordSegment? hsegment, hlabel, Text.isBlank_blank] at hword
    cases hword

/-! ## Clicks -/

theorem size_clickTrack (es : List Event) (c : Clock) (frames : Nat) (allowed : Nat → Bool) :
    (clickTrack es c frames allowed).size = frames := by
  simp [clickTrack, Track.size, Series.size]

theorem allowed_of_click? {e : Event} {k : Nat × Single × Single}
    (h : click? c frames allowed e = some k) : allowed k.1 = true := by
  unfold click? at h
  split at h
  · obtain ⟨frame, hframe, rfl⟩ := Option.map_eq_some_iff.1 h
    exact (Option.filter_eq_some_iff.1 hframe).2
  · cases h

/-- **No click is marked outside of the frames that are allowed.** -/
theorem isNeutralAt_clickTrack (hlt : f < frames) (hf : allowed f = false) :
    (clickTrack es c frames allowed).series.IsNeutralAt f := by
  have hnone :
      (es.filterMap (click? c frames allowed)).reverse.find? (fun k => k.1 = f) = none := by
    refine List.find?_eq_none.2 fun k hk hframe => ?_
    obtain ⟨e, -, hclick⟩ := List.mem_filterMap.1 (List.mem_reverse.1 hk)
    have hallowed := allowed_of_click? hclick
    rw [of_decide_eq_true hframe, hf] at hallowed
    cases hallowed
  refine Series.isNeutralAt_numbers_iff.2 ?_
  rw [Array.getElem?_map, Array.getElem?_map, Array.getElem?_range, if_pos hlt, Option.map_some,
    Option.map_some, clickAt?, hnone]
  simp

end Events

end Screenmark
