/-
  Screenmark — the first rows.

  Tracks and sheets are only ever added to. So one that came from another by this *begins*
  with it: `Track.Begins`, `Sheet.Begins`, and the same for all tracks and for the sheets of
  a scan. What a track or a sheet begins with are its first rows (`Track.first`,
  `Sheet.first`), as many as were there.

  * `Tracks.Begins.find?_eq` : a track that had `k` rows is the first `k` rows of what it
    became;
  * `Sheets.Begins.all_eq` : and so is a sheet that had `k` records.
-/
import Screenmark.Proofs.Series.Growth
import Screenmark.Proofs.Workspace
import Screenmark.Scan.State

namespace Screenmark

/-! ## Related options -/

section

variable {α : Type} {r : α → α → Prop} {x y z : Option α}

theorem rel_refl (h : ∀ a, r a a) : ∀ x, Option.Rel r x x
  | none => .none
  | some a => .some (h a)

theorem rel_trans (h : ∀ a b c, r a b → r b c → r a c) (hxy : Option.Rel r x y)
    (hyz : Option.Rel r y z) : Option.Rel r x z := by
  cases hxy with
  | none => exact hyz
  | some hab =>
    cases hyz with
    | some hbc => exact .some (h _ _ _ hab hbc)

end

/-! ## Tracks -/

/-- The first `k` samples. -/
def Series.first (k : Nat) : Series → Series
  | .numbers xs => .numbers (xs.extract 0 k)
  | .texts ss => .texts (ss.extract 0 k)

/-- The track with its first `k` rows only. -/
def Track.first (k : Nat) (t : Track) : Track :=
  { t with series := t.series.first k, x := t.x.extract 0 k, y := t.y.extract 0 k }

namespace Series

variable {s s' : Series} {x : Sample} {k : Nat}

theorem first_eq_self (h : s.size = k) : s.first k = s := by
  cases s with
  | numbers xs => exact congrArg _ (Array.extract_eq_self_of_le (Nat.le_of_eq h))
  | texts ss => exact congrArg _ (Array.extract_eq_self_of_le (Nat.le_of_eq h))

theorem first_of_push? (h : s.push? x = some s') (hk : k ≤ s.size) : s'.first k = s.first k := by
  cases s with
  | numbers xs =>
    cases x <;> simp [push?] at h
    subst h
    exact congrArg numbers (Array.extract_push.trans (if_pos hk))
  | texts ss =>
    cases x <;> simp [push?] at h
    subst h
    exact congrArg texts (Array.extract_push.trans (if_pos hk))

end Series

namespace Track

variable {t u v : Track} {o : Observation} {k : Nat}

/-- The track with some rows added, or none. -/
inductive Begins (t : Track) : Track → Prop
  | self : Begins t t
  | push {u v : Track} {o : Observation} : Begins t u → u.push? o = some v → Begins t v

theorem Begins.trans (h : t.Begins u) (h' : u.Begins v) : t.Begins v := by
  induction h' with
  | self => exact h
  | push _ hpush ih => exact .push ih hpush

/-- The track reaches at least to frame `k`. -/
structure Spans (k : Nat) (t : Track) : Prop where
  series : k ≤ t.series.size
  x : k ≤ t.x.size
  y : k ≤ t.y.size

theorem first_of_push? (h : t.push? o = some u) (hk : t.Spans k) :
    u.first k = t.first k ∧ u.Spans k := by
  simp only [push?, Option.map_eq_some_iff] at h
  obtain ⟨s, hs, rfl⟩ := h
  have hsize := Series.size_of_push? hs
  obtain ⟨hseries, hx, hy⟩ := hk
  constructor
  · simp only [first, Series.first_of_push? hs hseries, Array.extract_push, if_pos hx, if_pos hy]
  · exact ⟨by simp only; omega, by simp only [Array.size_push]; omega,
      by simp only [Array.size_push]; omega⟩

/-- **What rows are added to stays as the first rows.** -/
theorem Begins.first_eq (h : t.Begins u) (hk : t.Spans k) : u.first k = t.first k ∧ u.Spans k := by
  induction h with
  | self => exact ⟨rfl, hk⟩
  | push _ hpush ih =>
    obtain ⟨hfirst, hspans⟩ := first_of_push? hpush ih.2
    exact ⟨hfirst.trans ih.1, hspans⟩

end Track

namespace Tracks

variable {ts us vs : Tracks} {n : String} {o : Observation} {kind : SeriesKind} {k : Nat}

/-- The tracks with rows added to some of them. -/
def Begins (ts us : Tracks) : Prop := ∀ n, Option.Rel Track.Begins (ts.find? n) (us.find? n)

theorem Begins.refl (ts : Tracks) : ts.Begins ts := fun _ => rel_refl (fun _ => .self) _

theorem Begins.trans (h : ts.Begins us) (h' : us.Begins vs) : ts.Begins vs := fun n =>
  rel_trans (fun _ _ _ => .trans) (h n) (h' n)

theorem begins_of_append (h : ts.append n o = .ok us) : ts.Begins us := fun m => by
  obtain ⟨t, u, ht, hu, hself⟩ := exists_push?_of_append h
  by_cases hnm : n = m
  · subst hnm
    rw [ht, hself]
    exact .some (.push .self hu)
  · rw [find?_of_append_of_ne h hnm]
    exact rel_refl (fun _ => .self) _

/-- **A track that had `k` rows is the first `k` rows of what it became.** -/
theorem Begins.find?_eq (h : ts.Begins us) (hrows : ts.HasRows n kind k) :
    ∃ u, us.find? n = some u ∧ ts.find? n = some (u.first k) := by
  obtain ⟨t, ht, -, hs, hx, hy⟩ := hrows
  have hn := h n
  rw [ht] at hn
  rcases hu : us.find? n with _ | u
  · rw [hu] at hn
    cases hn
  · rw [hu] at hn
    cases hn with
    | some hbegins =>
      refine ⟨u, rfl, ?_⟩
      rw [(hbegins.first_eq ⟨Nat.le_of_eq hs.symm, Nat.le_of_eq hx.symm,
        Nat.le_of_eq hy.symm⟩).1, ht, Track.first, Series.first_eq_self hs,
        Array.extract_eq_self_of_le (Nat.le_of_eq hx), Array.extract_eq_self_of_le (Nat.le_of_eq hy)]

end Tracks

/-! ## Sheets -/

/-- The sheet with its first `k` records only. -/
def Sheet.first (k : Nat) (x : Sheet) : Sheet :=
  { x with latest := (x.records.take k).reverse }

namespace Sheet

variable {x y z : Sheet} {record : List String} {k : Nat}

/-- The sheet with some records added, or none. -/
structure Begins (x y : Sheet) : Prop where
  path : x.path = y.path
  columns : x.columns = y.columns
  latest : x.latest <:+ y.latest

theorem Begins.refl (x : Sheet) : x.Begins x := ⟨rfl, rfl, List.suffix_refl _⟩

theorem Begins.trans (h : x.Begins y) (h' : y.Begins z) : x.Begins z :=
  ⟨h.path.trans h'.path, h.columns.trans h'.columns, h.latest.trans h'.latest⟩

theorem begins_of_write (h : x.write record = .ok y) : x.Begins y := by
  unfold write at h
  split at h
  · cases h
    exact ⟨rfl, rfl, List.suffix_cons _ _⟩
  · cases h

theorem map_path_first (k : Nat) (xs : List Sheet) :
    (xs.map (first k)).map (·.path) = xs.map (·.path) := by
  rw [List.map_map]
  rfl

/-- What records are added to stays as the first records. -/
theorem Begins.first_eq (h : x.Begins y) (hk : x.latest.length = k) : x = y.first k := by
  obtain ⟨path, columns, latest⟩ := x
  obtain ⟨path', columns', latest'⟩ := y
  obtain ⟨rfl, rfl, a, rfl⟩ := h
  simp only [first, records, List.reverse_append]
  rw [List.take_append_of_le_length (by simp [← hk]), List.take_of_length_le (by simp [← hk]),
    List.reverse_reverse]

end Sheet

namespace Sheets

variable {xs ys zs : Sheets} {frame k : Nat} {row : List Observation}

/-- The sheets with records added to them. -/
structure Begins (xs ys : Sheets) : Prop where
  combined : xs.combined.Begins ys.combined
  own : ∀ i : Nat, Option.Rel Sheet.Begins xs.own[i]? ys.own[i]?

theorem Begins.refl (xs : Sheets) : xs.Begins xs :=
  ⟨.refl _, fun _ => rel_refl Sheet.Begins.refl _⟩

theorem Begins.trans (h : xs.Begins ys) (h' : ys.Begins zs) : xs.Begins zs :=
  ⟨h.combined.trans h'.combined, fun i => rel_trans (fun _ _ _ => .trans) (h.own i) (h'.own i)⟩

theorem begins_of_writeOwn : ∀ {ss ss' : List Sheet} {row : List Observation},
    writeOwn frame ss row = .ok ss' → ∀ i : Nat, Option.Rel Sheet.Begins ss[i]? ss'[i]?
  | [], ss', row, h, i => by
    rw [writeOwn] at h
    · cases h
      exact .none
    · exact fun _ _ _ _ hss _ => by cases hss
  | s :: ss, ss', [], h, i => by
    rw [writeOwn] at h
    · cases h
      exact rel_refl Sheet.Begins.refl _
    · exact fun _ _ _ _ _ hrow => by cases hrow
  | s :: ss, ss', o :: os, h, i => by
    rw [writeOwn] at h
    obtain ⟨s', hs, h⟩ := exists_of_bind_eq_ok h
    obtain ⟨rest, hrest, h⟩ := exists_of_bind_eq_ok h
    cases h
    rcases i with _ | i
    · exact .some (Sheet.begins_of_write hs)
    · exact begins_of_writeOwn hrest i

theorem begins_of_write (h : xs.write frame row = .ok ys) : xs.Begins ys := by
  obtain ⟨combined, hcombined, h⟩ := exists_of_bind_eq_ok h
  obtain ⟨own, hown, h⟩ := exists_of_bind_eq_ok h
  cases h
  exact ⟨Sheet.begins_of_write hcombined, begins_of_writeOwn hown⟩

/-- The paths of all sheets. -/
def paths (xs : Sheets) : List String := xs.all.map (·.path)

theorem Begins.paths_eq (h : xs.Begins ys) : ys.paths = xs.paths := by
  rw [paths, paths, all, all, List.map_cons, List.map_cons, h.combined.path]
  refine congrArg _ (List.ext_getElem? fun i => ?_)
  rw [List.getElem?_map, List.getElem?_map]
  generalize ys.own[i]? = y, xs.own[i]? = x, h.own i = hi
  cases hi with
  | none => rfl
  | some hbegins => exact congrArg some hbegins.path.symm

/-- **Sheets that had `k` records are the first `k` records of what they became.** -/
theorem Begins.all_eq (h : xs.Begins ys) (hk : ∀ x ∈ xs.all, x.latest.length = k) :
    xs.all = ys.all.map (Sheet.first k) := by
  rw [all, List.forall_mem_cons] at hk
  rw [all, all, List.map_cons, h.combined.first_eq hk.1]
  refine congrArg _ (List.ext_getElem? fun i => ?_)
  rw [List.getElem?_map]
  have hi := h.own i
  rcases hx : xs.own[i]? with _ | x
  · rw [hx] at hi
    generalize ys.own[i]? = y at hi
    cases hi
    rfl
  · rw [hx] at hi
    generalize ys.own[i]? = y at hi
    cases hi with
    | some hbegins =>
      rw [Option.map_some, ← hbegins.first_eq (hk.2 x (List.mem_of_getElem? hx))]

end Sheets

end Screenmark
