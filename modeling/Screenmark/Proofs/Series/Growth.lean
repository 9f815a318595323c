/-
  Screenmark — tracks that grow.

  While frames are worked on, observations are only added at the ends of tracks.
  `Tracks.Grown` says that this is all that happened between two collections of
  tracks, and `Tracks.HasRows` that a track has so many observations of a kind.

  * `exists_append` : a track with rows of the kind of an observation takes it, and
    has one row more;
  * `grown_of_append` : other tracks, and the rows that were there, stay;
  * `isTrueAt_of_lt` : a gate of a row that is there stays as it is.
-/
import Screenmark.Series.Tracks

namespace Screenmark

theorem Series.lt_size_of_sample? {s : Series} {frame : Nat} {x : Sample}
    (h : s.sample? frame = some x) : frame < s.size := by
  cases s with
  | numbers xs =>
    obtain ⟨a, ha, -⟩ := Option.map_eq_some_iff.1 h
    exact (Array.getElem?_eq_some_iff.1 ha).1
  | texts ss =>
    obtain ⟨a, ha, -⟩ := Option.map_eq_some_iff.1 h
    exact (Array.getElem?_eq_some_iff.1 ha).1

namespace Track

/-- One track has all rows of another one, and perhaps further ones. -/
structure Extends (t u : Track) : Prop where
  kind : u.series.kind = t.series.kind
  size : t.size ≤ u.size
  samples : ∀ frame < t.size, u.series.sample? frame = t.series.sample? frame

variable {t u v : Track} {o : Observation}

theorem push?_eq_none_iff : t.push? o = none ↔ o.sample.kind ≠ t.series.kind := by
  rw [push?, Option.map_eq_none_iff, Series.push?_eq_none_iff]

theorem Extends.refl (t : Track) : t.Extends t := ⟨rfl, Nat.le_refl _, fun _ _ => rfl⟩

theorem Extends.trans (h : t.Extends u) (h' : u.Extends v) : t.Extends v where
  kind := h'.kind.trans h.kind
  size := Nat.le_trans h.size h'.size
  samples frame hf := by
    rw [h'.samples frame (Nat.lt_of_lt_of_le hf h.size), h.samples frame hf]

theorem extends_of_push? (h : t.push? o = some u) : t.Extends u := by
  simp only [push?, Option.map_eq_some_iff] at h
  obtain ⟨s, hs, rfl⟩ := h
  refine ⟨Series.kind_of_push? hs, ?_, fun frame hf => ?_⟩
  · have := Series.size_of_push? hs
    simp only [size]
    omega
  · exact (Series.sample?_of_push? hs frame).trans (if_neg (Nat.ne_of_lt hf))

end Track

namespace Tracks

variable {ts us vs : Tracks} {n m : String} {o : Observation} {frame : Nat} {b : Bool}

/-! ## Growth -/

/-- One collection has all tracks of another one, each with all its rows. -/
structure Grown (ts us : Tracks) : Prop where
  threshold : us.threshold = ts.threshold
  tracks : ∀ n t, ts.find? n = some t → ∃ u, us.find? n = some u ∧ t.Extends u

theorem Grown.refl (ts : Tracks) : ts.Grown ts :=
  ⟨rfl, fun _ t ht => ⟨t, ht, .refl t⟩⟩

theorem Grown.trans (h : ts.Grown us) (h' : us.Grown vs) : ts.Grown vs where
  threshold := h'.threshold.trans h.threshold
  tracks n t ht := by
    obtain ⟨u, hu, htu⟩ := h.tracks n t ht
    obtain ⟨v, hv, huv⟩ := h'.tracks n u hu
    exact ⟨v, hv, htu.trans huv⟩

/-- A track that is there already may be put in again. -/
theorem insert_eq_self {t : Track} (h : ts.find? n = some t) : ts.insert n t = ts := by
  have hentries : ts.byName.insert n t = ts.byName := by
    refine NameMap.ext_find? fun k => ?_
    rw [NameMap.find?_insert]
    split
    · next hk =>
      rw [← hk]
      exact h.symm
    · rfl
  simp only [insert, hentries]

/-! ## Adding an observation -/

variable {e : Failure}

/-- An observation goes to a track that is there and can take it. -/
theorem append_eq_ok_iff : ts.append n o = .ok us ↔
    ∃ t u, ts.find? n = some t ∧ t.push? o = some u ∧ us = ts.insert n u := by
  unfold append
  rcases ts.find? n with _ | t
  · simp
  · rcases hu : t.push? o with _ | u
    · simp [hu]
    · simp [hu, eq_comm]

/-- An observation is refused for want of a track, or if it is of the other kind. -/
theorem append_eq_error_iff : ts.append n o = .error e ↔
    (ts.find? n = none ∧ e = .consistency (.unknown n)) ∨
      ∃ t, ts.find? n = some t ∧ o.sample.kind ≠ t.series.kind ∧
        e = .consistency (.wrongKind o.sample t.series.kind n) := by
  unfold append
  rcases ts.find? n with _ | t
  · simp [eq_comm]
  · rcases hu : t.push? o with _ | u
    · simp [← Track.push?_eq_none_iff, hu, eq_comm]
    · simp [← Track.push?_eq_none_iff, hu]

theorem threshold_of_append (h : ts.append n o = .ok us) : us.threshold = ts.threshold := by
  obtain ⟨_, _, -, -, rfl⟩ := append_eq_ok_iff.1 h
  rfl

/-- A track takes an observation only if it can. -/
theorem exists_push?_of_append (h : ts.append n o = .ok us) :
    ∃ t u, ts.find? n = some t ∧ t.push? o = some u ∧ us.find? n = some u := by
  obtain ⟨t, u, ht, hu, rfl⟩ := append_eq_ok_iff.1 h
  exact ⟨t, u, ht, hu, (find?_insert ..).trans (if_pos rfl)⟩

theorem grown_of_append (h : ts.append n o = .ok us) : ts.Grown us where
  threshold := threshold_of_append h
  tracks m v hv := by
    obtain ⟨t, u, ht, hu, -⟩ := exists_push?_of_append h
    rw [find?_of_append h m]
    by_cases hnm : n = m
    · subst hnm
      rw [ht] at hv
      cases hv
      rw [if_pos rfl, ht]
      exact ⟨u, hu, Track.extends_of_push? hu⟩
    · rw [if_neg hnm]
      exact ⟨v, hv, .refl v⟩

/-! ## Gates -/

theorem isTrueAt_eq_some_iff : ts.isTrueAt n frame = some b ↔
    ∃ t, ts.find? n = some t ∧ t.series.isTrueAt ts.threshold frame = b := by
  simp [isTrueAt, series?]

/-- A gate past the end of a track is false. -/
theorem lt_of_isTrueAt {t : Track} (ht : ts.find? n = some t)
    (h : ts.isTrueAt n frame = some true) : frame < t.size := by
  simp only [isTrueAt, series?, ht, Option.map_some, Option.some.injEq, Series.isTrueAt] at h
  obtain ⟨x, hx, -⟩ := (Option.any_eq_true _ _).1 h
  exact Series.lt_size_of_sample? hx

/-- The gate of a row that is there does not change. -/
theorem isTrueAt_of_lt {t : Track} (h : ts.Grown us) (ht : ts.find? n = some t)
    (hf : frame < t.size) : us.isTrueAt n frame = ts.isTrueAt n frame := by
  obtain ⟨u, hu, htu⟩ := h.tracks n t ht
  simp only [isTrueAt, series?, ht, hu, Option.map_some, Series.isTrueAt, htu.samples frame hf,
    h.threshold]

/-- The same track has the same gate. -/
theorem isTrueAt_congr (ht : us.threshold = ts.threshold) (h : us.find? n = ts.find? n) :
    us.isTrueAt n frame = ts.isTrueAt n frame := by
  simp [isTrueAt, series?, h, ht]

/-! ## Rows -/

/-- The track of a name has so many rows of a kind. -/
def HasRows (ts : Tracks) (n : String) (kind : SeriesKind) (rows : Nat) : Prop :=
  ∃ t, ts.find? n = some t ∧ t.series.kind = kind ∧
    t.series.size = rows ∧ t.x.size = rows ∧ t.y.size = rows

variable {kind : SeriesKind} {rows : Nat}

theorem HasRows.congr (h : ts.HasRows n kind rows) (heq : us.find? n = ts.find? n) :
    us.HasRows n kind rows := by
  obtain ⟨t, ht, hrows⟩ := h
  exact ⟨t, heq.trans ht, hrows⟩

theorem HasRows.sizeOf_eq (h : ts.HasRows n kind rows) : ts.sizeOf n = rows := by
  obtain ⟨t, ht, -, hs, -⟩ := h
  simp [sizeOf, ht, Track.size, hs]

/-- A gate past the last row is false. -/
theorem HasRows.isTrueAt_self (h : ts.HasRows n kind rows) :
    ts.isTrueAt n rows = some false := by
  obtain ⟨t, ht, -, hs, -⟩ := h
  rcases hb : t.series.isTrueAt ts.threshold rows
  · exact isTrueAt_eq_some_iff.2 ⟨t, ht, hb⟩
  · have := lt_of_isTrueAt ht (isTrueAt_eq_some_iff.2 ⟨t, ht, hb⟩)
    simp only [Track.size] at this
    omega

/-- **An observation of the right kind is one row more.** -/
theorem HasRows.exists_append (h : ts.HasRows n kind rows) (ho : o.sample.kind = kind) :
    ∃ us, ts.append n o = .ok us ∧ us.HasRows n kind (rows + 1) := by
  obtain ⟨t, ht, hk, hs, hx, hy⟩ := h
  rcases hp : t.series.push? o.sample with _ | s
  · rw [Series.push?_eq_none_iff, ho, hk] at hp
    exact absurd rfl hp
  · refine ⟨ts.insert n { t with series := s, x := t.x.push o.x, y := t.y.push o.y }, ?_, ?_⟩
    · simp [append, ht, Track.push?, hp]
    · refine ⟨_, (find?_insert ..).trans (if_pos rfl), ?_⟩
      have hsize := Series.size_of_push? hp
      refine ⟨(Series.kind_of_push? hp).trans hk, ?_, ?_, ?_⟩
      · exact hsize.trans (congrArg (· + 1) hs)
      · rw [Array.size_push, hx]
      · rw [Array.size_push, hy]

/-- An observation changes no other track. -/
theorem find?_of_append_of_ne (h : ts.append n o = .ok us) (hne : n ≠ m) :
    us.find? m = ts.find? m := by
  rw [find?_of_append h, if_neg hne]

/-- Tracks with so many rows are in step. -/
theorem checkInStep_of_hasRows {names : List String} (h : ∀ n ∈ names, ts.sizeOf n = rows) :
    ts.checkInStep names rows = .ok () := by
  have hnone : names.find? (fun n => ts.sizeOf n ≠ rows) = none := by
    refine List.find?_eq_none.2 fun n hn => ?_
    simp [h n hn]
  unfold checkInStep
  rw [hnone]

end Tracks

end Screenmark
