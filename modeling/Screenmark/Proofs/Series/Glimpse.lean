/-
  Screenmark — what a track shows at a frame.

  At one frame a track shows a sample, a place and the size of its template: its
  `Glimpse`. A track that gets a row shows it from then on, and tracks that only grow
  keep their rows and their templates (`Tracks.Keeps`).
-/
import Screenmark.Proofs.Series.Growth

namespace Screenmark

/-- What can be seen of a track at one frame. -/
structure Glimpse where
  sample : Option Sample
  place : Single × Single
  template : Option (Nat × Nat)

/-- What a track shows at a frame. -/
def Track.glimpse (t : Track) (frame : Nat) : Glimpse :=
  ⟨t.series.sample? frame, t.positionAt frame, t.template⟩

/-- What the track of a name shows at a frame. -/
def Tracks.glimpse (ts : Tracks) (n : String) (frame : Nat) : Option Glimpse :=
  (ts.find? n).map (·.glimpse frame)

/-- Tracks that show the same of some names at a frame. -/
structure Tracks.Alike (P : String → Prop) (frame : Nat) (ts us : Tracks) : Prop where
  threshold : us.threshold = ts.threshold
  glimpse : ∀ n, P n → us.glimpse n frame = ts.glimpse n frame

namespace Tracks

variable {P Q : String → Prop} {ts us : Tracks} {frame : Nat} {n : String}

theorem Alike.mono (h : Alike P frame ts us) (hQ : ∀ n, Q n → P n) : Alike Q frame ts us :=
  ⟨h.threshold, fun n hn => h.glimpse n (hQ n hn)⟩

theorem alike_of_find? (hthreshold : us.threshold = ts.threshold)
    (h : ∀ n, P n → us.find? n = ts.find? n) : Alike P frame ts us :=
  ⟨hthreshold, fun n hn => by rw [glimpse, glimpse, h n hn]⟩

theorem isTrueAt_eq_glimpse : ts.isTrueAt n frame =
    (ts.glimpse n frame).map fun g => g.sample.any (Series.gateOf ts.threshold) := by
  simp [isTrueAt, series?, glimpse, Track.glimpse, Series.isTrueAt, Function.comp_def]

theorem Alike.isTrueAt_eq (h : Alike P frame ts us) (hn : P n) :
    us.isTrueAt n frame = ts.isTrueAt n frame := by
  rw [isTrueAt_eq_glimpse, isTrueAt_eq_glimpse, h.glimpse n hn, h.threshold]

end Tracks

/-! ## Rows -/

theorem Series.exists_sample? {s : Series} {frame : Nat} (h : frame < s.size) :
    ∃ x, s.sample? frame = some x := by
  cases s with
  | numbers xs => exact ⟨_, congrArg (Option.map _) (Array.getElem?_eq_getElem h)⟩
  | texts ss => exact ⟨_, congrArg (Option.map _) (Array.getElem?_eq_getElem h)⟩

/-- The row of a track at a frame, if its series and its places reach so far. -/
def Track.row? (t : Track) (frame : Nat) : Option Observation := do
  return ⟨← t.x[frame]?, ← t.y[frame]?, ← t.series.sample? frame⟩

/-- The row of the track of a name at a frame. -/
def Tracks.row? (ts : Tracks) (n : String) (frame : Nat) : Option Observation :=
  (ts.find? n).bind (·.row? frame)

namespace Track

variable {t u : Track} {o r : Observation} {frame : Nat}

theorem row?_eq_some_iff : t.row? frame = some r ↔
    t.x[frame]? = some r.x ∧ t.y[frame]? = some r.y ∧ t.series.sample? frame = some r.sample := by
  obtain ⟨x, y, sample⟩ := r
  simp only [row?, Option.bind_eq_bind, Option.bind_eq_some_iff, Option.pure_def,
    Option.some.injEq, Observation.mk.injEq]
  constructor
  · rintro ⟨x, hx, y, hy, sample, hs, rfl, rfl, rfl⟩
    exact ⟨hx, hy, hs⟩
  · rintro ⟨hx, hy, hs⟩
    exact ⟨x, hx, y, hy, sample, hs, rfl, rfl, rfl⟩

theorem push?_eq_some_iff : t.push? o = some u ↔ ∃ s, t.series.push? o.sample = some s ∧
    u = { t with series := s, x := t.x.push o.x, y := t.y.push o.y } := by
  rw [push?, Option.map_eq_some_iff]
  simp only [eq_comm]

/-- The rows that are there stay. -/
theorem row?_of_push? (h : t.push? o = some u) (hr : t.row? frame = some r) :
    u.row? frame = some r := by
  obtain ⟨s, hs, rfl⟩ := push?_eq_some_iff.1 h
  obtain ⟨hx, hy, hsample⟩ := row?_eq_some_iff.1 hr
  have hxlt := (Array.getElem?_eq_some_iff.1 hx).1
  have hylt := (Array.getElem?_eq_some_iff.1 hy).1
  refine row?_eq_some_iff.2 ⟨?_, ?_, ?_⟩
  · rw [Array.getElem?_push, if_neg (Nat.ne_of_lt hxlt), hx]
  · rw [Array.getElem?_push, if_neg (Nat.ne_of_lt hylt), hy]
  · rw [Series.sample?_of_push? hs,
      if_neg (Nat.ne_of_lt (Series.lt_size_of_sample? hsample)), hsample]

/-- A track whose places go as far as its series has a row at each of its frames. -/
theorem exists_row? (h : t.IsRectangular) (hf : frame < t.size) : ∃ r, t.row? frame = some r := by
  obtain ⟨sample, hsample⟩ := Series.exists_sample? hf
  have hx : frame < t.x.size := h.1.symm ▸ hf
  have hy : frame < t.y.size := h.2.symm ▸ hf
  exact ⟨⟨t.x[frame], t.y[frame], sample⟩, row?_eq_some_iff.2
    ⟨Array.getElem?_eq_getElem hx, Array.getElem?_eq_getElem hy, hsample⟩⟩

/-- The new row stands behind those that are there. -/
theorem row?_size_of_push? (ht : t.IsRectangular) (h : t.push? o = some u) :
    u.row? t.size = some o := by
  obtain ⟨s, hs, rfl⟩ := push?_eq_some_iff.1 h
  have hx : (t.x.push o.x)[t.series.size]? = some o.x := by
    rw [← ht.1, Array.getElem?_push_size]
  have hy : (t.y.push o.y)[t.series.size]? = some o.y := by
    rw [← ht.2, Array.getElem?_push_size]
  have hsample : s.sample? t.series.size = some o.sample := by
    rw [Series.sample?_of_push? hs, if_pos rfl]
  exact row?_eq_some_iff.2 ⟨hx, hy, hsample⟩

end Track

namespace Tracks

variable {ts us vs : Tracks} {n m : String} {o r : Observation} {frame rows : Nat}
  {kind : SeriesKind}

theorem HasRows.exists_isRectangular (h : ts.HasRows n kind rows) :
    ∃ t, ts.find? n = some t ∧ t.IsRectangular ∧ t.size = rows := by
  obtain ⟨t, ht, -, hs, hx, hy⟩ := h
  exact ⟨t, ht, ⟨hx.trans hs.symm, hy.trans hs.symm⟩, hs⟩

/-- What a track of so many rows shows behind them. -/
theorem HasRows.glimpse_self (h : ts.HasRows n kind rows) : ts.glimpse n rows =
    (ts.find? n).map fun t => ⟨none, (.zero, .zero), t.template⟩ := by
  obtain ⟨t, ht, -, hs, hx, hy⟩ := h
  have hsample : t.series.sample? rows = none := by
    rcases hsample : t.series.sample? rows with _ | x
    · rfl
    · have := Series.lt_size_of_sample? hsample
      omega
  simp [glimpse, ht, Track.glimpse, Track.positionAt, hsample, hx, hy]

/-- The row that a track gets stands behind those that it has. -/
theorem HasRows.exists_last_of_append (h : ts.HasRows n kind rows) (ha : ts.append n o = .ok us) :
    ∃ t u, ts.find? n = some t ∧ us.find? n = some u ∧ u.template = t.template ∧
      u.row? rows = some o := by
  obtain ⟨t, ht, hrect, rfl⟩ := h.exists_isRectangular
  obtain ⟨t', u, ht', hu, hfind⟩ := exists_push?_of_append ha
  obtain rfl : t = t' := Option.some.inj (ht.symm.trans ht')
  have hrow := Track.row?_size_of_push? hrect hu
  obtain ⟨s, -, rfl⟩ := Track.push?_eq_some_iff.1 hu
  exact ⟨t, _, ht, hfind, rfl, hrow⟩

theorem HasRows.row?_of_append (h : ts.HasRows n kind rows) (ha : ts.append n o = .ok us) :
    us.row? n rows = some o := by
  obtain ⟨t, u, -, hu, -, hrow⟩ := h.exists_last_of_append ha
  rw [row?, hu, Option.bind_some, hrow]

/-- What a track shows of the row that it got. -/
theorem HasRows.glimpse_of_append (h : ts.HasRows n kind rows) (ha : ts.append n o = .ok us) :
    us.glimpse n rows =
      (ts.glimpse n rows).map fun g => ⟨some o.sample, (o.x, o.y), g.template⟩ := by
  obtain ⟨t, u, ht, hu, htemplate, hrow⟩ := h.exists_last_of_append ha
  obtain ⟨hx, hy, hsample⟩ := Track.row?_eq_some_iff.1 hrow
  simp [glimpse, ht, hu, Track.glimpse, Track.positionAt, hx, hy, hsample, htemplate]

/-- Tracks that get the same row show the same again. -/
theorem Alike.append {P : String → Prop} {ts' us' : Tracks} {kind' : SeriesKind}
    (h : Alike P rows ts us) (hts : ts.HasRows n kind rows) (hus : us.HasRows n kind' rows)
    (ha : ts.append n o = .ok ts') (ha' : us.append n o = .ok us') : Alike P rows ts' us' where
  threshold := by rw [threshold_of_append ha, threshold_of_append ha', h.threshold]
  glimpse m hm := by
    by_cases hnm : n = m
    · subst hnm
      rw [hts.glimpse_of_append ha, hus.glimpse_of_append ha', h.glimpse n hm]
    · rw [Tracks.glimpse, Tracks.glimpse, find?_of_append_of_ne ha hnm,
        find?_of_append_of_ne ha' hnm]
      exact h.glimpse m hm

/-- The last row of a track is what the track shows of it. -/
theorem HasRows.row?_eq_glimpse (h : ts.HasRows n kind (rows + 1)) : ts.row? n rows =
    (ts.glimpse n rows).bind fun g => g.sample.map fun x => ⟨g.place.1, g.place.2, x⟩ := by
  obtain ⟨t, ht, -, hs, hx, hy⟩ := h
  have hxlt : rows < t.x.size := by omega
  have hylt : rows < t.y.size := by omega
  simp only [row?, glimpse, ht, Option.bind_some, Option.map_some, Track.row?, Track.glimpse,
    Track.positionAt, Array.getElem?_eq_getElem hxlt, Array.getElem?_eq_getElem hylt,
    Option.getD_some]
  cases t.series.sample? rows <;> rfl

theorem HasRows.exists_row? (h : ts.HasRows n kind rows) (hf : frame < rows) :
    ∃ r, ts.row? n frame = some r := by
  obtain ⟨t, ht, hrect, rfl⟩ := h.exists_isRectangular
  rw [row?, ht]
  exact Track.exists_row? hrect hf

/-- Tracks that keep the threshold, their templates and their rows. -/
structure Keeps (ts us : Tracks) : Prop where
  threshold : us.threshold = ts.threshold
  template : ∀ n, (us.find? n).map (·.template) = (ts.find? n).map (·.template)
  row : ∀ n frame r, ts.row? n frame = some r → us.row? n frame = some r

theorem Keeps.refl (ts : Tracks) : ts.Keeps ts := ⟨rfl, fun _ => rfl, fun _ _ _ h => h⟩

theorem Keeps.trans (h : ts.Keeps us) (h' : us.Keeps vs) : ts.Keeps vs where
  threshold := h'.threshold.trans h.threshold
  template n := (h'.template n).trans (h.template n)
  row n f r hr := h'.row n f r (h.row n f r hr)

theorem keeps_of_append (h : ts.append n o = .ok us) : ts.Keeps us := by
  obtain ⟨t, u, ht, hu, hself⟩ := exists_push?_of_append h
  refine ⟨threshold_of_append h, fun m => ?_, fun m frame r hr => ?_⟩ <;> by_cases hnm : n = m
  · subst hnm
    obtain ⟨s, -, rfl⟩ := Track.push?_eq_some_iff.1 hu
    rw [hself, ht]
    rfl
  · rw [find?_of_append_of_ne h hnm]
  · subst hnm
    rw [row?, ht] at hr
    rw [row?, hself]
    exact Track.row?_of_push? hu hr
  · rwa [row?, find?_of_append_of_ne h hnm]

end Tracks

end Screenmark
