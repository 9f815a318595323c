/-
  Screenmark — tracks of events, write by write.

  The tracks of typed words and of clicks are written into arrays of fixed sizes: a word fills a
  slice of the texts, a click sets an entry of the series and one of either place. Here every
  write is refused that is out of bounds (`fillSlice?`, `setAt?`), and none ever is
  (`typedTrack?_eq`, `clickTrack?_eq`), in whatever order the events come.

  * `clickTrack_cases` : a click is marked at just the frames of the clicks that are allowed, at
    the place of the last one;
  * `hasFrames_typedTrack`, `hasFrames_clickTrack` : both tracks have every frame.
-/
import Screenmark.Proofs.Events.Placement

namespace Screenmark

/-- The series and the places have so many frames. -/
def Track.HasFrames (t : Track) (frames : Nat) : Prop :=
  t.series.size = frames ∧ t.x.size = frames ∧ t.y.size = frames

/-- What a track of numbers has at a frame: the number and the place. -/
def Track.HasAt (t : Track) (frame : Nat) (number x y : Single) : Prop :=
  t.series.sample? frame = some (.number number) ∧ t.x[frame]? = some x ∧ t.y[frame]? = some y

theorem Track.hasFrames_ofSeries (series : Series) (origin : Origin) :
    (ofSeries series origin).HasFrames series.size := by simp [HasFrames, ofSeries]

namespace Events

/-! ## Writes that are refused out of bounds -/

section

variable {α : Type} {xs : Array α}

/-- An array with one entry in all places of a slice. -/
def fillSlice? (xs : Array α) (start stop : Nat) (a : α) : Option (Array α) :=
  if start ≤ stop ∧ stop ≤ xs.size then
    some (xs.extract 0 start ++ Array.replicate (stop - start) a ++ xs.extract stop xs.size)
  else none

/-- An array with another entry in a place. -/
def setAt? (xs : Array α) (i : Nat) (a : α) : Option (Array α) :=
  if i < xs.size then some (xs.setIfInBounds i a) else none

/-- What is in the places of an array with a slice filled. -/
theorem getElem?_fillSlice? {start stop : Nat} (h : start ≤ stop) (hstop : stop ≤ xs.size)
    (a : α) : ∃ ys, fillSlice? xs start stop a = some ys ∧
      ∀ i : Nat, ys[i]? = if start ≤ i ∧ i < stop then some a else xs[i]? := by
  refine ⟨_, if_pos ⟨h, hstop⟩, fun i => ?_⟩
  simp only [Array.getElem?_append, Array.getElem?_extract, Array.getElem?_replicate]
  grind

end

/-! ## Typed words -/

variable {c : Clock} {frames f : Nat} {allowed : Nat → Bool} {es : List Event} {e : Event}
  {texts : Array String} {s : Segment} {x y : Single}

/-- The texts and segments after one more word, where the texts are filled by slices. -/
def writeWord? (c : Clock) (frames : Nat) (allowed : Nat → Bool)
    (written : Array String × List Segment) (w : TypedWord) :
    Option (Array String × List Segment) :=
  match wordSegment? c frames allowed w with
  | none => some written
  | some s => (fillSlice? written.1 s.start s.stop s.label).map (·, written.2 ++ [s])

/-- The track of typed words and their segments, unless a write is refused. -/
def typedTrack? (es : List Event) (c : Clock) (frames : Nat) (allowed : Nat → Bool) :
    Option (Track × List Segment) :=
  ((typedWords es).foldlM (writeWord? c frames allowed)
    (Array.replicate frames Text.blank, [])).map fun written =>
      (.ofSeries (.texts written.1) .extracted, written.2)

@[simp] theorem size_shownOn (texts : Array String) (s : Segment) :
    (shownOn texts s).size = texts.size := by simp [shownOn]

/-- A segment within the texts is a slice of them. -/
theorem fillSlice?_eq (h : s.IsWithin texts.size) :
    fillSlice? texts s.start s.stop s.label = some (shownOn texts s) := by
  obtain ⟨ys, hys, hat⟩ := getElem?_fillSlice? (Nat.le_of_lt h.1) h.2 s.label
  rw [hys, Option.some.injEq]
  refine Array.ext_getElem? fun i => ?_
  rw [hat, shownOn, Array.getElem?_mapIdx]
  by_cases hi : i < texts.size
  · rw [Array.getElem?_eq_getElem hi]
    split <;> rfl
  · have hnot : ¬ (s.start ≤ i ∧ i < s.stop) := fun hcovers =>
      hi (Nat.lt_of_lt_of_le hcovers.2 h.2)
    rw [if_neg hnot, Array.getElem?_eq_none (Nat.not_lt.1 hi)]
    rfl

theorem foldlM_writeWord? (ws : List TypedWord) (segments : List Segment)
    (h : texts.size = frames) : ws.foldlM (writeWord? c frames allowed) (texts, segments) =
      some ((ws.filterMap (wordSegment? c frames allowed)).foldl shownOn texts,
        segments ++ ws.filterMap (wordSegment? c frames allowed)) := by
  induction ws generalizing texts segments with
  | nil => simp
  | cons w ws ih =>
    rw [List.foldlM_cons, writeWord?]
    cases hs : wordSegment? c frames allowed w with
    | none => simp [hs, ih segments h]
    | some s =>
      have hwithin : s.IsWithin texts.size := h ▸ isWithin_of_wordSegment? hs
      have hlater := ih (segments ++ [s]) ((size_shownOn texts s).trans h)
      simp [hs, fillSlice?_eq hwithin, hlater]

/-- **No write of a word is refused.** -/
theorem typedTrack?_eq (es : List Event) (c : Clock) (frames : Nat) (allowed : Nat → Bool) :
    typedTrack? es c frames allowed = some (typedTrack es c frames allowed) := by
  rw [typedTrack?, foldlM_writeWord? _ _ Array.size_replicate]
  rfl

theorem size_foldl_shownOn (segments : List Segment) (texts : Array String) :
    (segments.foldl shownOn texts).size = texts.size := by
  induction segments generalizing texts with
  | nil => rfl
  | cons s segments ih => rw [List.foldl_cons, ih, size_shownOn]

theorem hasFrames_typedTrack (es : List Event) (c : Clock) (frames : Nat)
    (allowed : Nat → Bool) : (typedTrack es c frames allowed).1.HasFrames frames := by
  have hsize : (((typedWords es).filterMap (wordSegment? c frames allowed)).foldl shownOn
      (Array.replicate frames Text.blank)).size = frames := by
    rw [size_foldl_shownOn, Array.size_replicate]
  have hframes := Track.hasFrames_ofSeries (.texts (((typedWords es).filterMap
    (wordSegment? c frames allowed)).foldl shownOn (Array.replicate frames Text.blank))) .extracted
  rwa [Series.size, hsize] at hframes

/-! ## Clicks -/

/-- The track after one more event, where the entries of a click are set one by one. -/
def writeClick? (c : Clock) (frames : Nat) (allowed : Nat → Bool) (t : Track) (e : Event) :
    Option Track :=
  match click? c frames allowed e with
  | none => some t
  | some (f, x, y) => do
    let series ← match t.series with
      | .numbers ns => (setAt? ns f .one).map Series.numbers
      | .texts ss => some (.texts ss)
    let xs ← setAt? t.x f x
    let ys ← setAt? t.y f y
    some { t with series := series, x := xs, y := ys }

/-- The track of clicks, unless a write is refused. -/
def clickTrack? (es : List Event) (c : Clock) (frames : Nat) (allowed : Nat → Bool) :
    Option Track :=
  es.foldlM (writeClick? c frames allowed)
    (.ofSeries (.numbers (Array.replicate frames .zero)) .extracted)

theorem clickAt?_concat (clicks : List (Nat × Single × Single)) (k : Nat × Single × Single)
    (frame : Nat) : clickAt? (clicks ++ [k]) frame =
      if k.1 = frame then some k.2 else clickAt? clicks frame := by
  rw [clickAt?, List.reverse_append, List.reverse_singleton, List.singleton_append,
    List.find?_cons]
  by_cases h : k.1 = frame <;> simp [h, clickAt?]

theorem lt_of_click? {k : Nat × Single × Single} (h : click? c frames allowed e = some k) :
    k.1 < frames := by
  unfold click? at h
  split at h
  · obtain ⟨frame, hframe, rfl⟩ := Option.map_eq_some_iff.1 h
    exact lt_of_frameOf? (Option.filter_eq_some_iff.1 hframe).1
  · cases h

/-- One more click changes the place at its frame. -/
theorem map_clickAt?_concat (clicks : List (Nat × Single × Single)) (k : Nat × Single × Single) :
    (Array.range frames).map (clickAt? (clicks ++ [k])) =
      ((Array.range frames).map (clickAt? clicks)).setIfInBounds k.1 (some k.2) := by
  refine Array.ext_getElem? fun i => ?_
  rw [Array.getElem?_setIfInBounds, Array.getElem?_map, Array.getElem?_map, Array.size_map,
    Array.size_range]
  by_cases hi : i < frames
  · rw [Array.getElem?_range, if_pos hi, Option.map_some, clickAt?_concat]
    by_cases h : k.1 = i <;> simp [h, hi]
  · have hle : k.1 = i → frames ≤ k.1 := fun h => h ▸ Nat.not_lt.1 hi
    simpa [hi] using hle

/-- The track of clicks takes one more event as it takes its writes. -/
theorem writeClick?_clickTrack (es : List Event) (e : Event) :
    writeClick? c frames allowed (clickTrack es c frames allowed) e =
      some (clickTrack (es ++ [e]) c frames allowed) := by
  unfold writeClick?
  cases hclick : click? c frames allowed e with
  | none => simp [clickTrack, List.filterMap_append, hclick]
  | some k =>
    have hk := lt_of_click? hclick
    simp [clickTrack, List.filterMap_append, hclick, map_clickAt?_concat, setAt?, hk]

theorem clickTrack_nil (c : Clock) (frames : Nat) (allowed : Nat → Bool) :
    clickTrack [] c frames allowed =
      .ofSeries (.numbers (Array.replicate frames .zero)) .extracted := by
  have hplaces : (Array.range frames).map (clickAt? []) = Array.replicate frames none := by
    refine Array.ext_getElem? fun i => ?_
    by_cases hi : i < frames <;> simp [hi, clickAt?]
  simp [clickTrack, hplaces, Track.ofSeries, Series.size]

/-- **No write of a click is refused.** -/
theorem clickTrack?_eq (es : List Event) (c : Clock) (frames : Nat) (allowed : Nat → Bool) :
    clickTrack? es c frames allowed = some (clickTrack es c frames allowed) := by
  have hwrites : ∀ done : List Event,
      es.foldlM (writeClick? c frames allowed) (clickTrack done c frames allowed) =
        some (clickTrack (done ++ es) c frames allowed) := by
    induction es with
    | nil => simp
    | cons e es ih =>
      intro done
      rw [List.foldlM_cons, writeClick?_clickTrack]
      exact (ih (done ++ [e])).trans (by rw [List.append_assoc, List.singleton_append])
  rw [clickTrack?, ← clickTrack_nil c frames allowed]
  exact hwrites []

/-- The event is a click at a place, on a frame that is allowed. -/
def IsClickAt (c : Clock) (allowed : Nat → Bool) (frame : Nat) (x y : Single) (e : Event) :
    Prop :=
  (∃ button, e.kind = .click x y button) ∧ c.frameAt e.time = some frame ∧ allowed frame = true

/-- The last one of the clicks on a frame that is allowed is at a place. -/
def IsLastClickAt (es : List Event) (c : Clock) (allowed : Nat → Bool) (frame : Nat)
    (x y : Single) : Prop :=
  ∃ before e later, es = before ++ e :: later ∧ IsClickAt c allowed frame x y e ∧
    ∀ e' ∈ later, ∀ x' y', ¬ IsClickAt c allowed frame x' y' e'

theorem click?_eq_some_iff (hf : f < frames) :
    click? c frames allowed e = some (f, x, y) ↔ IsClickAt c allowed f x y e := by
  unfold click? IsClickAt
  split
  · next x' y' button hkind =>
    simp only [Option.map_eq_some_iff, Option.filter_eq_some_iff, frameOf?_eq_some_iff, hkind]
    constructor
    · rintro ⟨frame, ⟨⟨hframe, -⟩, hallowed⟩, heq⟩
      cases heq
      exact ⟨⟨button, rfl⟩, hframe, hallowed⟩
    · rintro ⟨⟨_, heq⟩, hframe, hallowed⟩
      cases heq
      exact ⟨f, ⟨⟨hframe, hf⟩, hallowed⟩, rfl⟩
  · next hkind => exact iff_of_false nofun fun ⟨⟨button, h⟩, _⟩ => hkind x y button h

theorem clickAt?_cons (k : Nat × Single × Single) (clicks : List (Nat × Single × Single))
    (frame : Nat) : clickAt? (k :: clicks) frame =
      (clickAt? clicks frame).or (if k.1 = frame then some k.2 else none) := by
  rw [clickAt?, List.reverse_cons, List.find?_append, List.find?_singleton]
  cases h : clicks.reverse.find? (fun k => k.1 = frame) <;>
    by_cases hk : k.1 = frame <;> simp [clickAt?, h, hk]

/-- The place of the last click on a frame is found, and nothing if there is no click. -/
theorem clickAt?_cases (es : List Event) (c : Clock) (allowed : Nat → Bool) (hf : f < frames) :
    (∃ x y, clickAt? (es.filterMap (click? c frames allowed)) f = some (x, y) ∧
        IsLastClickAt es c allowed f x y) ∨
      clickAt? (es.filterMap (click? c frames allowed)) f = none ∧
        ∀ e ∈ es, ∀ x y, ¬ IsClickAt c allowed f x y e := by
  induction es with
  | nil => exact .inr ⟨rfl, fun e he => absurd he List.not_mem_nil⟩
  | cons e es ih =>
    have hcons : clickAt? ((e :: es).filterMap (click? c frames allowed)) f =
        (clickAt? (es.filterMap (click? c frames allowed)) f).or
          (((click? c frames allowed e).filter (·.1 = f)).map (·.2)) := by
      cases hclick : click? c frames allowed e with
      | none => simp [hclick]
      | some k =>
        rw [List.filterMap_cons_some hclick, clickAt?_cons]
        by_cases hk : k.1 = f <;> simp [hk, Option.filter]
    rw [hcons]
    rcases ih with ⟨x, y, hat, before, e', later, rfl, hlast, hlater⟩ | ⟨hat, hnone⟩
    · exact .inl ⟨x, y, by rw [hat]; rfl, e :: before, e', later, rfl, hlast, hlater⟩
    · rw [hat]
      by_cases hclick : ∃ x y, IsClickAt c allowed f x y e
      · obtain ⟨x, y, hclick⟩ := hclick
        refine .inl ⟨x, y, ?_, [], e, es, rfl, hclick, hnone⟩
        rw [(click?_eq_some_iff hf).2 hclick]
        simp [Option.filter]
      · have hother : (click? c frames allowed e).filter (·.1 = f) = none := by
          refine Option.filter_eq_none_iff.2 fun ⟨frame, x, y⟩ hk hframe => hclick ⟨x, y, ?_⟩
          obtain rfl := of_decide_eq_true hframe
          exact (click?_eq_some_iff hf).1 hk
        rw [hother]
        exact .inr ⟨rfl, List.forall_mem_cons.2 ⟨fun x y h => hclick ⟨x, y, h⟩, hnone⟩⟩

/-- **The clicks on the frames.** A frame is marked, at the place of the last click, if there is
    a click on it and it is allowed; every other frame is not. -/
theorem clickTrack_cases (es : List Event) (c : Clock) (allowed : Nat → Bool) (hf : f < frames) :
    (∃ x y, IsLastClickAt es c allowed f x y ∧
        (clickTrack es c frames allowed).HasAt f .one x y) ∨
      (∀ e ∈ es, ∀ x y, ¬ IsClickAt c allowed f x y e) ∧
        (clickTrack es c frames allowed).HasAt f .zero .zero .zero := by
  rcases clickAt?_cases es c allowed hf with ⟨x, y, hat, hlast⟩ | ⟨hat, hnone⟩
  · exact .inl ⟨x, y, hlast, by simp [Track.HasAt, clickTrack, Series.sample?, hf, hat]⟩
  · exact .inr ⟨hnone, by simp [Track.HasAt, clickTrack, Series.sample?, hf, hat]⟩

theorem hasFrames_clickTrack (es : List Event) (c : Clock) (frames : Nat)
    (allowed : Nat → Bool) : (clickTrack es c frames allowed).HasFrames frames := by
  simp [Track.HasFrames, clickTrack, Series.size]

/-- **The tracks of events.** In whatever order the events come, no write of either track is
    refused, both have every frame, and no segment of a word is empty or ends behind them; a
    frame has a click exactly if there is one on it and it is allowed, and then it is at the
    place of the last one. -/
theorem tracks_of_events (es : List Event) (c : Clock) (frames : Nat) (allowed : Nat → Bool) :
    (typedTrack? es c frames allowed = some (typedTrack es c frames allowed) ∧
        clickTrack? es c frames allowed = some (clickTrack es c frames allowed)) ∧
      (typedTrack es c frames allowed).1.HasFrames frames ∧
      (clickTrack es c frames allowed).HasFrames frames ∧
      (∀ s ∈ (typedTrack es c frames allowed).2, s.start < s.stop ∧ s.stop ≤ frames) ∧
      ∀ f < frames,
        (∃ x y, IsLastClickAt es c allowed f x y ∧
            (clickTrack es c frames allowed).HasAt f .one x y) ∨
          (∀ e ∈ es, ∀ x y, ¬ IsClickAt c allowed f x y e) ∧
            (clickTrack es c frames allowed).HasAt f .zero .zero .zero :=
  ⟨⟨typedTrack?_eq es c frames allowed, clickTrack?_eq es c frames allowed⟩,
    hasFrames_typedTrack es c frames allowed, hasFrames_clickTrack es c frames allowed,
    fun _ hs => isWithin_of_mem_typedTrack hs, fun _ hf => clickTrack_cases es c allowed hf⟩

end Events

end Screenmark
