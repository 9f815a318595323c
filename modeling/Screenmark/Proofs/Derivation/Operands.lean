/-
  Screenmark — the guard and the operands of conversion rules.

  A conversion rule that was read has a guard or none, and works on the frames of the session
  at which the guard holds (`Rule.IsGuarded`). If the series that it names have tracks
  (`Rule.IsKnown`), its guard and its operands are found (`exists_guardOf`,
  `exists_mapM_seriesOf`). The runs of an operand are those among the frames at which the guard
  holds (`Series.HasRun`, `mem_runsOf_iff`).

  The result of most rules tells frames apart: its series is one at some frames of the session
  and zero at the others (`Track.Marks`).
-/
import Screenmark.Derivation.Basic
import Screenmark.Proofs.Rule.Shown
import Screenmark.Proofs.Series.Runs
import Screenmark.Proofs.Workspace

namespace Screenmark

/-! ## What a rule names -/

namespace Rule

/-- The series that the rule depends on are true at the frame. -/
def GuardHolds (r : Rule) (ts : Tracks) (f : Nat) : Prop :=
  ∀ g ∈ r.dependencies, ts.isTrueAt g f = some true

instance (r : Rule) (ts : Tracks) (f : Nat) : Decidable (r.GuardHolds ts f) :=
  inferInstanceAs (Decidable (∀ g ∈ r.dependencies, ts.isTrueAt g f = some true))

/-- A frame of the session at which the guard holds. -/
def IsGuarded (r : Rule) (ts : Tracks) (frames f : Nat) : Prop := f < frames ∧ r.GuardHolds ts f

instance (r : Rule) (ts : Tracks) (frames f : Nat) : Decidable (r.IsGuarded ts frames f) :=
  inferInstanceAs (Decidable (f < frames ∧ r.GuardHolds ts f))

/-- All series that the rule names have tracks. -/
def IsKnown (r : Rule) (ts : Tracks) : Prop :=
  ∀ n ∈ r.dependencies ++ r.operands, (ts.find? n).isSome = true

instance (r : Rule) (ts : Tracks) : Decidable (r.IsKnown ts) :=
  inferInstanceAs (Decidable (∀ n ∈ r.dependencies ++ r.operands, (ts.find? n).isSome = true))

end Rule

/-- What a list with an entry for each frame of a session has at a frame. -/
theorem getElem?_map_range_eq_some_iff {α : Type} {g : Nat → α} {frames f : Nat} {a : α} :
    ((List.range frames).map g)[f]? = some a ↔ f < frames ∧ g f = a := by
  rw [List.getElem?_map]
  by_cases hf : f < frames
  · rw [List.getElem?_range hf, Option.map_some, Option.some.injEq, and_iff_right hf]
  · simp [hf]

namespace Derivation

variable {ts : Tracks} {r : Rule} {frames f : Nat} {name n source : String} {s : Series}
  {guard : List Bool}

/-! ## Names and guards -/

theorem exists_nameOf (hread : Rule.read source = .ok r)
    (hfamily : r.action.family = .conversion) : ∃ name, r.name = some name ∧ nameOf r = .ok name := by
  obtain ⟨name, hname⟩ := Rule.exists_name_of_read hread
    ((Rule.isSound_of_read hread).family_eq.trans hfamily)
  exact ⟨name, hname, by rw [nameOf, hname]⟩

/-- A conversion rule has a test just if it has a dependency, which is its guard. -/
theorem dependencies_eq (hsound : r.IsSound) (hfamily : r.action.family = .conversion) :
    r.test = none ∧ r.dependencies = [] ∨ ∃ g, r.test = some .during ∧ r.dependencies = [g] := by
  rcases htest : r.test with _ | t
  · exact .inl ⟨rfl, hsound.noTest htest⟩
  · have haccepts := hsound.accepts
    rw [hsound.family_eq, hfamily, htest] at haccepts
    have ht : t = .during := by
      simp only [Family.accepts, Bool.and_eq_true] at haccepts
      cases t <;> first | rfl | cases haccepts.2
    obtain ⟨g, hg⟩ := hsound.dependencies_of_during (ht ▸ htest)
    exact .inr ⟨g, ht ▸ rfl, hg⟩

/-- The guard of a rule whose dependencies have tracks is true where they are. -/
theorem guardOf_eq (hsound : r.IsSound) (hfamily : r.action.family = .conversion)
    (hguard : ∀ g ∈ r.dependencies, (ts.find? g).isSome = true) :
    guardOf ts r frames = .ok ((List.range frames).map fun f => decide (r.GuardHolds ts f)) := by
  rcases dependencies_eq hsound hfamily with ⟨htest, hdep⟩ | ⟨g, htest, hdep⟩
  · have hholds : ∀ f, r.GuardHolds ts f := fun f g hg => by
      rw [hdep] at hg
      cases hg
    rw [guardOf, htest]
    simp [hholds, List.map_const']
  · obtain ⟨t, ht⟩ := Option.isSome_iff_exists.1 (hguard g (hdep ▸ List.mem_singleton_self g))
    have hholds : ∀ f, decide (r.GuardHolds ts f) = t.series.isTrueAt ts.threshold f := fun f => by
      simp [Rule.GuardHolds, hdep, Tracks.isTrueAt, Tracks.series?, ht]
    rw [guardOf, htest, hdep]
    simp only [seriesOf, Tracks.series?, ht, hholds]
    rfl

/-- The guard of a rule that was read is true at the frames of the session at which it holds. -/
theorem exists_guardOf (hread : Rule.read source = .ok r) (hfamily : r.action.family = .conversion)
    (hknown : r.IsKnown ts) (frames : Nat) : ∃ guard, guardOf ts r frames = .ok guard ∧
      guard.length = frames ∧ ∀ f, guard[f]? = some true ↔ r.IsGuarded ts frames f := by
  refine ⟨_, guardOf_eq (Rule.isSound_of_read hread) hfamily fun g hg =>
    hknown g (List.mem_append_left _ hg), by simp, fun f => ?_⟩
  rw [getElem?_map_range_eq_some_iff, decide_eq_true_eq, Rule.IsGuarded]

theorem length_guardOf (h : guardOf ts r frames = .ok guard) : guard.length = frames := by
  unfold guardOf at h
  split at h
  · obtain ⟨series, -, rfl⟩ := exists_of_map_eq_ok h
    exact Series.length_gate _ _ _
  · cases h
    exact List.length_replicate

/-! ## Operands -/

theorem seriesOf_eq (h : ts.series? n = some s) : seriesOf ts r n = .ok s := by
  rw [seriesOf, h]

theorem exists_series (h : (ts.find? n).isSome = true) : ∃ s, ts.series? n = some s := by
  obtain ⟨t, ht⟩ := Option.isSome_iff_exists.1 h
  exact ⟨t.series, by rw [Tracks.series?, ht]; rfl⟩

/-- A rule with one operand finds its series. -/
theorem exists_targetOf (hread : Rule.read source = .ok r)
    (harity : Rule.actionArity r.action = .exactly 1) (hknown : r.IsKnown ts) :
    ∃ n s, r.operands = [n] ∧ ts.series? n = some s ∧ targetOf ts r = .ok s := by
  have hadmits := Rule.admits_of_read hread
  rw [harity] at hadmits
  obtain ⟨n, hn⟩ := Rule.eq_singleton_of_admits hadmits
  obtain ⟨s, hs⟩ := exists_series (hknown n (by simp [hn]))
  refine ⟨n, s, hn, hs, ?_⟩
  rw [targetOf, hn]
  exact seriesOf_eq hs

/-- The series of operands that have tracks are found, one for each. -/
theorem exists_mapM_seriesOf (r : Rule) {ns : List String}
    (h : ∀ n ∈ ns, (ts.find? n).isSome = true) :
    ∃ ss, ns.mapM (seriesOf ts r) = .ok ss ∧ ns.map ts.series? = ss.map some := by
  induction ns with
  | nil => exact ⟨[], rfl, rfl⟩
  | cons n ns ih =>
    rw [List.forall_mem_cons] at h
    obtain ⟨s, hs⟩ := exists_series h.1
    obtain ⟨ss, hss, hmap⟩ := ih h.2
    refine ⟨s :: ss, ?_, by rw [List.map_cons, List.map_cons, hs, hmap]⟩
    rw [List.mapM_cons, seriesOf_eq hs, hss]
    rfl

end Derivation

/-! ## Runs of operands -/

/-- A run of a series among the frames with a property: of numbers, a run of the frames at which
    it is true; of texts, a run of the frames at which the text shows that is its value. -/
def Series.HasRun (s : Series) (threshold : Single) (P : Nat → Prop)
    (v : Derivation.VariableRun) : Prop :=
  match s with
  | .numbers _ => v.value = none ∧ v.span.IsRun fun f => P f ∧ s.isTrueAt threshold f = true
  | .texts ss => ∃ text, v.value = some text ∧ Text.isBlank text = false ∧
      v.span.IsRun fun f => P f ∧ ss[f]? = some text

theorem Series.HasRun.isRun {s : Series} {threshold : Single} {P : Nat → Prop}
    {v : Derivation.VariableRun} (h : s.HasRun threshold P v) :
    ∃ Q : Nat → Prop, v.span.IsRun Q ∧ ∀ f, Q f → P f := by
  rcases s with xs | ss
  · exact ⟨_, h.2, fun f => And.left⟩
  · obtain ⟨text, -, -, hrun⟩ := h
    exact ⟨_, hrun, fun f => And.left⟩

namespace Derivation

variable {threshold : Single} {guard : List Bool} {s : Series} {v : VariableRun} {f : Nat}
  {text : String}

/-- Where a series is true and the guard holds. -/
def truthsOf (s : Series) (threshold : Single) (guard : List Bool) : List Bool :=
  guard.zipIdx.map fun p => p.1 && s.isTrueAt threshold p.2

/-- The texts of frames at which the guard holds. -/
def textsOf (ss : Array String) (guard : List Bool) : List String :=
  guard.zipIdx.map fun p => if p.1 then ss[p.2]?.getD Text.blank else Text.blank

theorem runsOf_numbers (xs : Array Single) (threshold : Single) (guard : List Bool) :
    runsOf (.numbers xs) threshold guard =
      (trueRuns (truthsOf (.numbers xs) threshold guard)).map (⟨·, none⟩) := rfl

theorem runsOf_texts (ss : Array String) (threshold : Single) (guard : List Bool) :
    runsOf (.texts ss) threshold guard =
      (textRuns (textsOf ss guard)).map fun p => ⟨p.1, some p.2⟩ := rfl

theorem truthsOf_eq_true_iff : (truthsOf s threshold guard)[f]? = some true ↔
    guard[f]? = some true ∧ s.isTrueAt threshold f = true := by
  rw [truthsOf, List.getElem?_map, List.getElem?_zipIdx]
  rcases guard[f]? with _ | _ | _ <;> simp

theorem textsOf_eq_some_iff {ss : Array String} (htext : Text.isBlank text = false) :
    (textsOf ss guard)[f]? = some text ↔ guard[f]? = some true ∧ ss[f]? = some text := by
  have hblank : Text.blank ≠ text := by
    rintro rfl
    cases Text.isBlank_blank.symm.trans htext
  rw [textsOf, List.getElem?_map, List.getElem?_zipIdx]
  rcases guard[f]? with _ | _ | _
  · simp
  · simp [hblank]
  · rcases hshown : ss[f]? with _ | t
    · simp [hshown, hblank]
    · simp [hshown]

/-- **The runs of an operand are those among the frames at which the guard holds.** -/
theorem mem_runsOf_iff : v ∈ runsOf s threshold guard ↔
    s.HasRun threshold (fun f => guard[f]? = some true) v := by
  rcases s with xs | ss
  · rw [runsOf_numbers, List.mem_map]
    simp only [mem_trueRuns_iff, truthsOf_eq_true_iff]
    constructor
    · rintro ⟨span, hrun, rfl⟩
      exact ⟨rfl, hrun⟩
    · rintro ⟨hnone, hrun⟩
      exact ⟨v.span, hrun, by rw [← hnone]⟩
  · rw [runsOf_texts, List.mem_map]
    constructor
    · rintro ⟨⟨span, text⟩, hmem, rfl⟩
      obtain ⟨htext, hrun⟩ := mem_textRuns_iff.1 hmem
      simp only [textsOf_eq_some_iff htext] at hrun
      exact ⟨text, rfl, htext, hrun⟩
    · rintro ⟨text, hvalue, htext, hrun⟩
      refine ⟨(v.span, text), mem_textRuns_iff.2 ⟨htext, ?_⟩, by rw [← hvalue]⟩
      simpa only [textsOf_eq_some_iff htext] using hrun

/-- The runs of an operand cover only frames at which the guard is true. -/
theorem true_of_mem_runsOf (h : v ∈ runsOf s threshold guard) (hf : v.span.contains f = true) :
    guard[f]? = some true := by
  obtain ⟨Q, hrun, hguard⟩ := (mem_runsOf_iff.1 h).isRun
  exact hguard f (hrun.inside f hf)

theorem isWithin_of_mem_runsOf (h : v ∈ runsOf s threshold guard) : v.span.start < v.span.stop ∧
      v.span.stop ≤ guard.length := by
  obtain ⟨P, hrun, hguard⟩ := (mem_runsOf_iff.1 h).isRun
  refine ⟨hrun.start_lt_stop, hrun.stop_le fun f hf => ?_⟩
  exact (List.getElem?_eq_some_iff.1 (hguard f hf)).1

theorem pairwise_runsOf (s : Series) (threshold : Single) (guard : List Bool) :
    (runsOf s threshold guard).Pairwise fun a b => a.span.stop ≤ b.span.start := by
  rcases s with xs | ss
  · rw [runsOf_numbers, List.pairwise_map]
    exact (pairwise_trueRunsFrom 0 _).imp Nat.le_of_lt
  · rw [runsOf_texts, List.pairwise_map]
    exact (pairwise_textRunsFrom 0 _).imp And.left

end Derivation

/-! ## Frames told apart -/

/-- A segment covers the frame. -/
def Derived.Covers (d : Derived) (f : Nat) : Prop := ∃ s ∈ d.segments, s.start ≤ f ∧ f < s.stop

instance (d : Derived) (f : Nat) : Decidable (d.Covers f) :=
  inferInstanceAs (Decidable (∃ s ∈ d.segments, s.start ≤ f ∧ f < s.stop))

/-- The series of the track is one at the frames with a property, and zero at the others of the
    session. -/
structure Track.Marks (t : Track) (frames : Nat) (P : Nat → Prop) : Prop where
  size : t.size = frames
  one : ∀ f, P f → t.series.sample? f = some (.number .one)
  zero : ∀ f < frames, ¬ P f → t.series.sample? f = some (.number .zero)

namespace Derivation

variable {on : List Bool} {P : Nat → Prop} {frames : Nat}

theorem sample?_indicatorTrack (on : List Bool) (f : Nat) :
    (indicatorTrack on).series.sample? f = on[f]?.map fun b => .number (indicator b) := by
  rw [indicatorTrack, Track.ofSeries, Series.sample?, List.getElem?_toArray, List.getElem?_map,
    Option.map_map]
  rfl

theorem marks_indicatorTrack (hlength : on.length = frames)
    (hon : ∀ f, on[f]? = some true ↔ P f) : (indicatorTrack on).Marks frames P where
  size := by simpa [indicatorTrack, Track.ofSeries, Track.size, Series.size] using hlength
  one f hf := by
    rw [sample?_indicatorTrack, (hon f).2 hf, Option.map_some, indicator, if_pos rfl]
  zero f hlt hf := by
    rw [← hon] at hf
    rw [sample?_indicatorTrack]
    rcases hbit : on[f]? with _ | _ | _
    · rw [List.getElem?_eq_none_iff, hlength] at hbit
      omega
    · rw [Option.map_some, indicator, if_neg Bool.false_ne_true]
    · exact absurd hbit hf

end Derivation

end Screenmark
