/-
  Screenmark — results of formulas as guards.

  A formula gives truth values, but its series holds ones and zeros, and whatever reads the
  series compares them with the threshold again. From a threshold that a configuration may
  have, zero is never above it, and one is unless the threshold is one itself. So later rules
  see the result as true on just its segments if the threshold is below one, or if there are
  none (`exists_isChainable_iff`).
-/
import Screenmark.Command.Config
import Screenmark.Proofs.Binary.Widening
import Screenmark.Proofs.Derivation.Formulas

namespace Screenmark

namespace Derivation

variable {ts : Tracks} {r : Rule} {frames f : Nat} {threshold : Single} {d : Derived}
  {source : String}

/-- Whatever reads the series of a result sees it as true on just the segments. -/
structure IsChainable (ts : Tracks) (frames : Nat) (d : Derived) : Prop where
  gate : d.track.series.gate ts.threshold frames =
    (List.range frames).map fun f => decide (d.Covers f)
  /-- A rule that has it as its guard. -/
  guard : ∀ r : Rule, r.test = some .during → r.dependencies = [d.name] →
    guardOf (ts.insert d.name d.track) r frames =
      .ok ((List.range frames).map fun f => decide (d.Covers f))
  /-- A formula in which its name stands. -/
  leaf : ∀ f < frames, (Formula.Leaf.name d.name).IsTrue ts.threshold
    ((ts.insert d.name d.track).resolve f) ↔ d.Covers f

theorem series?_insert_self (ts : Tracks) (n : String) (t : Track) :
    (ts.insert n t).series? n = some t.series := by
  rw [Tracks.series?, Tracks.find?_insert, if_pos rfl, Option.map_some]

/-- One is above the threshold just if the threshold is less, and zero is not. -/
theorem isTrueAt_iff (hd : IsEvaluated ts r frames threshold d) (hzero : .zero ≤ threshold)
    (hf : f < frames) :
    d.track.series.isTrueAt threshold f = true ↔ d.Covers f ∧ threshold < .one := by
  rw [hd.covers, Series.isTrueAt]
  by_cases hon : r.IsOn ts threshold frames f
  · rw [hd.one f hon]
    simp [hon, Series.gateOf]
  · rw [hd.zero f hf hon]
    simp [hon, Series.gateOf, Binary.not_lt_of_le hzero]

/-- So it is for a formula, which compares numbers of the wider format. -/
theorem isTrue_leaf_iff (hd : IsEvaluated ts r frames threshold d) (hzero : .zero ≤ threshold)
    (hf : f < frames) : (Formula.Leaf.name d.name).IsTrue threshold
      ((ts.insert d.name d.track).resolve f) ↔ d.Covers f ∧ threshold < .one := by
  have hvalue : ∀ x : Single, d.track.series.sample? f = some (.number x) →
      ((Formula.Leaf.name d.name).IsTrue threshold ((ts.insert d.name d.track).resolve f) ↔
        threshold < x) := by
    intro x hx
    simp only [Formula.Leaf.IsTrue, Tracks.resolve, series?_insert_self, Option.map_some, hx,
      Option.getD_some, Tracks.valueOf, Option.some.injEq, exists_eq_left', Value.truthy,
      decide_eq_true_eq, Binary.toDouble_lt_iff]
  rw [hd.covers]
  by_cases hon : r.IsOn ts threshold frames f
  · rw [hvalue _ (hd.one f hon)]
    simp [hon]
  · rw [hvalue _ (hd.zero f hf hon)]
    simp [hon, Binary.not_lt_of_le hzero]

theorem isChainable_iff (hd : IsEvaluated ts r frames ts.threshold d)
    (hzero : .zero ≤ ts.threshold) :
    IsChainable ts frames d ↔ ts.threshold < .one ∨ d.segments = [] := by
  constructor
  · intro h
    refine Decidable.or_iff_not_imp_left.2 fun hone => List.eq_nil_iff_forall_not_mem.2 fun s hs => ?_
    have hlt := ((hd.segment s).1 hs).2.start_lt_stop
    have hcovers : d.Covers s.start := ⟨s, hs, Nat.le_refl _, hlt⟩
    have hf : s.start < frames := ((hd.covers s.start).1 hcovers).1
    exact hone ((isTrue_leaf_iff hd hzero hf).1 ((h.leaf s.start hf).2 hcovers)).2
  · intro h
    have hcovers : ∀ f, d.Covers f ∧ ts.threshold < .one ↔ d.Covers f := fun f => by
      rcases h with hone | hnil
      · exact and_iff_left hone
      · simp [Derived.Covers, hnil]
    have hgate : d.track.series.gate ts.threshold frames =
        (List.range frames).map fun f => decide (d.Covers f) := by
      refine List.map_congr_left fun f hf => ?_
      rw [Bool.eq_iff_iff, isTrueAt_iff hd hzero (List.mem_range.1 hf), hcovers, decide_eq_true_eq]
    refine ⟨hgate, fun r' htest hdep => ?_, fun f hf => ?_⟩
    · rw [guardOf, htest, hdep]
      simp only [seriesOf, series?_insert_self]
      exact congrArg Except.ok hgate
    · rw [isTrue_leaf_iff hd hzero hf, hcovers]

/-- **Results of formulas can be used as guards below the greatest threshold**, whatever the
    tracks and the rule are. At a threshold of one a result is never seen as true. -/
theorem exists_isChainable_iff {c : Command.Config} (hvalid : c.isValid = true)
    (hread : Rule.read source = .ok r) (haction : r.action = .eval)
    (hthreshold : ts.threshold = c.settings.threshold)
    (hguard : ∀ g ∈ r.dependencies, (ts.find? g).isSome = true) (frames : Nat) :
    ∃ d warnings, eval ts r frames c.settings.threshold = .ok (d, warnings) ∧
      (IsChainable ts frames d ↔ c.settings.threshold < .one ∨ d.segments = []) := by
  have hsound := Rule.isSound_of_read hread
  obtain ⟨name, hname⟩ := Rule.exists_name_of_read hread (hsound.family_eq.trans (haction ▸ rfl))
  obtain ⟨d, warnings, heval, hd⟩ :=
    exists_isEvaluated hsound haction hname hguard frames c.settings.threshold
  refine ⟨d, warnings, heval, ?_⟩
  have hzero : .zero ≤ c.settings.threshold :=
    of_decide_eq_true (Bool.and_eq_true_iff.1 hvalid).1
  rw [← hthreshold] at hd hzero ⊢
  exact isChainable_iff hd hzero

/-- The configuration with a threshold. -/
def withThreshold (x : Single) : Command.Config :=
  { Command.Config.default with settings := { Settings.default with threshold := x } }

theorem threshold_withThreshold (x : Single) : (withThreshold x).settings.threshold = x := rfl

theorem threshold_empty (x : Single) : (Tracks.empty x).threshold = x := rfl

theorem threshold_insert (ts : Tracks) (n : String) (t : Track) :
    (ts.insert n t).threshold = ts.threshold := rfl

/-- The least threshold is as good as any but the greatest. -/
theorem exists_isChainable_of_bareMenu : (withThreshold .zero).isValid = true ∧
    Rule.read bareMenu.source = .ok bareMenu ∧
    ∃ d warnings, eval menuWithLogo bareMenu 3 .zero = .ok (d, warnings) ∧
      IsChainable menuWithLogo 3 d := by
  have hvalid : (withThreshold .zero).isValid = true := by decide +kernel
  have hread : Rule.read bareMenu.source = .ok bareMenu :=
    Rule.eq_ok_of_toOption (by decide +kernel)
  have hguard : ∀ g ∈ bareMenu.dependencies, (menuWithLogo.find? g).isSome = true := by
    decide +kernel
  have hthreshold : menuWithLogo.threshold = (withThreshold .zero).settings.threshold := by
    rw [menuWithLogo, threshold_insert, threshold_insert, threshold_empty, threshold_withThreshold]
  obtain ⟨d, warnings, heval, hiff⟩ :=
    exists_isChainable_iff hvalid hread rfl hthreshold hguard 3
  rw [threshold_withThreshold] at heval hiff
  exact ⟨hvalid, hread, d, warnings, heval, hiff.2 (.inl (by decide +kernel))⟩

/-- A rule that is true everywhere. -/
def everywhere : Rule :=
  ⟨"x=eval(True)", .conversion, some "x", none, [], .eval, ["True"]⟩

/-- **At the greatest threshold of a configuration the segments of a formula are not seen.** -/
theorem not_isChainable_of_everywhere : (withThreshold .one).isValid = true ∧
    Rule.read everywhere.source = .ok everywhere ∧
    ∃ d warnings, eval (.empty .one) everywhere 1 .one = .ok (d, warnings) ∧
      d.segments = [⟨0, 1, "x"⟩] ∧ d.track.series.gate .one 1 = [false] ∧
      ¬ IsChainable (.empty .one) 1 d := by
  have hvalid : (withThreshold .one).isValid = true := by decide +kernel
  have hread : Rule.read everywhere.source = .ok everywhere :=
    Rule.eq_ok_of_toOption (by decide +kernel)
  have heval : (match eval (.empty .one) everywhere 1 .one with
      | .ok (d, _) => decide (d.segments = [⟨0, 1, "x"⟩] ∧ d.track.series.gate .one 1 = [false])
      | .error _ => false) = true := by decide +kernel
  split at heval
  · next d warnings hd =>
    obtain ⟨hsegments, hgate⟩ := of_decide_eq_true heval
    refine ⟨hvalid, hread, d, warnings, hd, hsegments, hgate, fun h => ?_⟩
    have htrue := h.gate
    rw [threshold_empty, hgate] at htrue
    simp [Derived.Covers, hsegments] at htrue
  · cases heval

end Derivation

end Screenmark
