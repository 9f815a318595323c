/-
  Screenmark — marks within the frames of a run.

  A timeline is about the frames from the first up to a last one, and its entries should lie
  within them (`Entries.IsWithin`). The entries that a track gives lie within as many frames
  as one likes, as long as the track is not true behind them; and if it is, some entry lies
  outside (`Track.isWithin_segments_iff`, `Track.isWithin_overlays_iff`).
-/
import Screenmark.Output.Timeline
import Screenmark.Proofs.Series.Growth
import Screenmark.Proofs.Series.Runs

namespace Screenmark

variable {frames width height f : Nat} {label : String} {threshold : Single}

/-! ## Entries -/

/-- The segment is not empty and ends within the first frames. -/
def Segment.IsWithin (frames : Nat) (s : Segment) : Prop := s.start < s.stop ∧ s.stop ≤ frames

instance (frames : Nat) (s : Segment) : Decidable (s.IsWithin frames) :=
  inferInstanceAs (Decidable (s.start < s.stop ∧ s.stop ≤ frames))

namespace Entries

/-- The entries lie within the first frames. -/
def IsWithin (frames : Nat) : Entries → Prop
  | segments es => ∀ s ∈ es, s.IsWithin frames
  | overlays os => ∀ o ∈ os, o.frame < frames

instance (frames : Nat) : (es : Entries) → Decidable (es.IsWithin frames)
  | segments es => inferInstanceAs (Decidable (∀ s ∈ es, s.IsWithin frames))
  | overlays os => inferInstanceAs (Decidable (∀ o ∈ os, o.frame < frames))

theorem isWithin_of_size_eq_zero {es : Entries} (h : es.size = 0) : es.IsWithin frames := by
  cases es with
  | segments es =>
    obtain rfl : es = [] := List.length_eq_zero_iff.1 h
    exact fun s hs => by cases hs
  | overlays os =>
    obtain rfl : os = [] := List.length_eq_zero_iff.1 h
    exact fun o ho => by cases ho

end Entries

/-! ## Spans that cover what is true -/

/-- Spans that cover just some frames lie within the first frames just if those do. -/
theorem Span.forall_stop_le_iff (frames : Nat) {spans : List Span} {P : Nat → Prop}
    (hne : ∀ r ∈ spans, r.start < r.stop)
    (hcover : ∀ f, (∃ r ∈ spans, r.contains f = true) ↔ P f) :
    (∀ r ∈ spans, r.stop ≤ frames) ↔ ∀ f, P f → f < frames := by
  constructor
  · intro hstop f hf
    obtain ⟨r, hr, hcontains⟩ := (hcover f).2 hf
    exact Nat.lt_of_lt_of_le (Span.contains_iff.1 hcontains).2 (hstop r hr)
  · intro hlt r hr
    have hstart := hne r hr
    have hlast := hlt (r.stop - 1) ((hcover _).1 ⟨r, hr, Span.contains_iff.2 ⟨by omega, by omega⟩⟩)
    omega

/-- The runs of a gate lie within its frames. -/
theorem isWithin_of_mem_trueRuns {on : List Bool} {r : Span} (h : r ∈ trueRuns on) :
    (Segment.ofRun label r).IsWithin on.length := by
  refine ⟨start_lt_stop_of_mem_trueRunsFrom h, ?_⟩
  have hstops := Span.forall_stop_le_iff on.length
    (fun r (hr : r ∈ trueRuns on) => start_lt_stop_of_mem_trueRunsFrom hr)
    fun f => exists_mem_trueRuns_iff
  exact hstops.2 (fun f hf => (List.getElem?_eq_some_iff.1 hf).1) r h

/-! ## The marks of a track -/

namespace Track

variable {t : Track}

/-- The track is true at a frame behind the first ones. -/
def IsTrueBehind (t : Track) (threshold : Single) (frames : Nat) : Prop :=
  ∃ f, frames ≤ f ∧ t.series.isTrueAt threshold f = true

theorem lt_size_of_isTrueAt (h : t.series.isTrueAt threshold f = true) : f < t.size := by
  rw [Series.isTrueAt, Option.any_eq_true] at h
  obtain ⟨x, hx, -⟩ := h
  exact Series.lt_size_of_sample? hx

/-- A track is not true behind its end. -/
theorem not_isTrueBehind (h : t.size ≤ frames) : ¬ t.IsTrueBehind threshold frames := by
  rintro ⟨f, hle, hf⟩
  have hlt := lt_size_of_isTrueAt hf
  omega

theorem not_isTrueBehind_iff : ¬ t.IsTrueBehind threshold frames ↔
    ∀ f, t.series.isTrueAt threshold f = true → f < frames := by
  constructor
  · intro hno f hf
    exact Nat.lt_of_not_le fun hle => hno ⟨f, hle, hf⟩
  · rintro h ⟨f, hle, hf⟩
    exact absurd (h f hf) (Nat.not_lt.2 hle)

/-- The runs of a track: they are not empty, and cover the frames at which it is true. -/
theorem exists_spans_segments (t : Track) (threshold : Single) (label : String) :
    ∃ spans : List Span, (∀ r ∈ spans, r.start < r.stop) ∧
      (∀ f, (∃ r ∈ spans, r.contains f = true) ↔ t.series.isTrueAt threshold f = true) ∧
      (t.segments threshold label).map (fun s => (⟨s.start, s.stop⟩ : Span)) = spans := by
  obtain ⟨series, x, y, origin, template⟩ := t
  cases series with
  | texts ss =>
    refine ⟨(textRuns ss.toList).map (·.1), fun r hr => ?_, fun f => ?_, ?_⟩
    · obtain ⟨p, hp, rfl⟩ := List.mem_map.1 hr
      exact start_lt_stop_of_mem_textRunsFrom hp
    · have hshown : (∃ r ∈ (textRuns ss.toList).map (·.1), r.contains f = true) ↔
          ∃ p ∈ textRuns ss.toList, p.1.contains f = true := by simp
      rw [hshown, exists_mem_textRuns_iff, Series.isTrueAt, Series.sample?, Array.getElem?_toList]
      rcases ss[f]? with _ | s
      · simp
      · simp [Series.gateOf]
    · simp [segments, Segment.ofRun, Function.comp_def]
  | numbers xs =>
    refine ⟨trueRuns ((Series.numbers xs).gate threshold xs.size),
      fun r hr => start_lt_stop_of_mem_trueRunsFrom hr, fun f => ?_, ?_⟩
    · rw [exists_mem_trueRuns_iff]
      by_cases hf : f < xs.size
      · rw [Series.getElem?_gate hf, Option.some.injEq]
      · refine iff_of_false (fun h => hf ?_) fun h => hf ?_
        · simpa using (List.getElem?_eq_some_iff.1 h).1
        · exact lt_size_of_isTrueAt (t := ⟨.numbers xs, x, y, origin, template⟩) h
    · simp [segments, Segment.ofRun, Function.comp_def, size, Series.size]

/-- **The segments of a track lie within the first frames just if it is not true behind
    them.** -/
theorem isWithin_segments_iff :
    (Entries.segments (t.segments threshold label)).IsWithin frames ↔
      ¬ t.IsTrueBehind threshold frames := by
  obtain ⟨spans, hne, hcover, hspans⟩ := exists_spans_segments t threshold label
  rw [not_isTrueBehind_iff, ← Span.forall_stop_le_iff frames hne hcover]
  rw [← hspans] at hne ⊢
  rw [List.forall_mem_map] at hne ⊢
  exact ⟨fun h s hs => (h s hs).2, fun h s hs => ⟨hne s hs, h s hs⟩⟩

/-- The overlays of a track mark the frames at which it is true, in order. -/
theorem map_frame_overlays (hsize : ¬ (width = 0 ∨ height = 0)) (t : Track) (threshold : Single)
    (label : String) : (t.overlays threshold width height label).map (·.frame) =
      (List.range t.size).filter (t.series.isTrueAt threshold) := by
  rw [overlays, if_neg hsize, List.map_map]
  refine (List.map_congr_left fun f _ => ?_).trans (List.map_id' _)
  rw [Function.comp, overlayAt]
  rcases t.template <;> rfl

theorem mem_map_frame_overlays_iff (hsize : ¬ (width = 0 ∨ height = 0)) (label : String) :
    f ∈ (t.overlays threshold width height label).map (·.frame) ↔
      t.series.isTrueAt threshold f = true := by
  rw [map_frame_overlays hsize, List.mem_filter, List.mem_range]
  exact and_iff_right_of_imp lt_size_of_isTrueAt

/-- The overlays of a track lie within the first frames just if it is not true behind them,
    or the frames have no size. -/
theorem isWithin_overlays_iff :
    (Entries.overlays (t.overlays threshold width height label)).IsWithin frames ↔
      (t.IsTrueBehind threshold frames → t.overlays threshold width height label = []) := by
  by_cases hsize : width = 0 ∨ height = 0
  · have hnil : t.overlays threshold width height label = [] := if_pos hsize
    rw [hnil]
    exact iff_of_true (Entries.isWithin_of_size_eq_zero rfl) fun _ => rfl
  have hwithin : (Entries.overlays (t.overlays threshold width height label)).IsWithin frames ↔
      ¬ t.IsTrueBehind threshold frames := by
    rw [not_isTrueBehind_iff]
    simp only [← mem_map_frame_overlays_iff hsize label]
    exact (List.forall_mem_map (P := (· < frames))).symm
  rw [hwithin]
  refine ⟨fun hno hbehind => absurd hbehind hno, fun h hbehind => ?_⟩
  exact absurd hbehind (hwithin.1 (by rw [h hbehind]; exact Entries.isWithin_of_size_eq_zero rfl))

/-- The segments of a track that is true behind the first frames are not missing. -/
theorem segments_ne_nil (h : t.IsTrueBehind threshold frames) :
    t.segments threshold label ≠ [] := by
  intro hnil
  have hwithin : (Entries.segments (t.segments threshold label)).IsWithin frames := by
    rw [hnil]
    exact Entries.isWithin_of_size_eq_zero rfl
  exact isWithin_segments_iff.1 hwithin h

end Track

end Screenmark
