/-
  Screenmark — a name as a formula and a name as a guard.

  Whether a series is true is worked out in two ways. The gate of a guard compares the number
  at a frame with the threshold, and is closed behind the end of the series. A formula that
  is a name alone is cut and parsed; behind the end it takes the sample where nothing was
  seen, it widens numbers to 64 bits, and only then compares. At a threshold that is not below
  zero both come to the same (`Tracks.holds_of_series`), so that `eval(n)` and `during(n)`
  choose the same frames (`eval_name_selects`).
-/
import Screenmark.Proofs.Binary.Widening
import Screenmark.Proofs.Derivation.Formulas
import Screenmark.Proofs.Formula.Spelling
import Screenmark.Proofs.Session.Hooks

namespace Screenmark

variable {n : String} {ts : Tracks} {s : Series}

/-! ## A name as a formula -/

/-- A name that is no word for a truth value is a formula. -/
theorem Formula.parse_name (hname : IsName n) (hword : n ≠ "True" ∧ n ≠ "False") :
    parse .standard n = .ok (.name n) := by
  have hleaves : ∀ l ∈ (Formula.name n).leaves, l.IsSpellable :=
    List.forall_mem_singleton.2 ⟨hname, hword⟩
  exact (parse_spelled .name hleaves).2 n (.name hname (keyword?_eq_none_iff.2 hword))

/-- A sample is as true to a formula as to a gate: widening keeps the order. -/
theorem Tracks.truthy_valueOf (threshold : Single) (x : Sample) :
    (valueOf x).truthy threshold = Series.gateOf threshold x := by
  cases x with
  | number x => exact decide_eq_decide.2 Binary.toDouble_lt_iff
  | text s => rfl

/-- Where nothing was seen, a gate is closed. -/
theorem Series.gateOf_neutral {threshold : Single} (hzero : .zero ≤ threshold) (k : SeriesKind) :
    gateOf threshold (.neutral k) = false := by
  cases k with
  | numeric => exact decide_eq_false (Binary.not_lt_of_le hzero)
  | text => exact congrArg (!·) Text.isBlank_blank

/-- The sample that a formula takes at a frame is true just if the gate is open, behind the
    end of the series as well. -/
theorem Series.gateOf_getD {threshold : Single} (hzero : .zero ≤ threshold) (frame : Nat) :
    gateOf threshold ((s.sample? frame).getD (.neutral s.kind)) = s.isTrueAt threshold frame := by
  unfold isTrueAt
  rcases s.sample? frame with _ | x
  · exact gateOf_neutral hzero s.kind
  · rfl

namespace Tracks

/-- **A name with a track is true at a frame just if its gate is open there.** -/
theorem holds_of_series (hzero : .zero ≤ ts.threshold) (hname : Formula.IsName n)
    (hword : n ≠ "True" ∧ n ≠ "False") (hs : ts.series? n = some s) (frame : Nat) :
    ts.holds frame n = .ok (s.isTrueAt ts.threshold frame) := by
  have hvalue : ts.resolve frame n =
      some (valueOf ((s.sample? frame).getD (.neutral s.kind))) := by
    rw [resolve, hs]
    rfl
  rw [holds, Formula.holds, Formula.parse_name hname hword]
  simp only [Formula.eval, hvalue, Except.map, truthy_valueOf, Series.gateOf_getD hzero]

/-- A name without a track has no value at any frame. -/
theorem holds_of_none (hname : Formula.IsName n) (hword : n ≠ "True" ∧ n ≠ "False")
    (hnone : ts.find? n = none) (frame : Nat) :
    ts.holds frame n = .error (.unresolved n) := by
  rw [holds, Formula.holds, Formula.parse_name hname hword]
  simp only [Formula.eval, Derivation.resolve_eq_none_iff.2 hnone, Except.map]

theorem isTrueAt_of_series (hs : ts.series? n = some s) (frame : Nat) :
    ts.isTrueAt n frame = some (s.isTrueAt ts.threshold frame) := by
  rw [isTrueAt, hs]
  rfl

theorem series?_eq_none_iff : ts.series? n = none ↔ ts.find? n = none := by
  rw [series?, Option.map_eq_none_iff]

theorem holds_eq_ok_iff (hzero : .zero ≤ ts.threshold) (hname : Formula.IsName n)
    (hword : n ≠ "True" ∧ n ≠ "False") (frame : Nat) (b : Bool) :
    ts.holds frame n = .ok b ↔ ts.isTrueAt n frame = some b := by
  rcases hs : ts.series? n with _ | s
  · rw [holds_of_none hname hword (series?_eq_none_iff.1 hs), isTrueAt, hs]
    exact iff_of_false (fun h => by cases h) (fun h => by cases h)
  · rw [holds_of_series hzero hname hword hs, isTrueAt_of_series hs, Except.ok.injEq,
      Option.some.injEq]

theorem holds_eq_unresolved_iff (hzero : .zero ≤ ts.threshold) (hname : Formula.IsName n)
    (hword : n ≠ "True" ∧ n ≠ "False") (frame : Nat) :
    ts.holds frame n = .error (.unresolved n) ↔ ts.find? n = none := by
  refine ⟨fun h => ?_, fun hnone => holds_of_none hname hword hnone frame⟩
  rcases hs : ts.series? n with _ | s
  · exact series?_eq_none_iff.1 hs
  · rw [holds_of_series hzero hname hword hs] at h
    cases h

end Tracks

/-! ## A name as a guard -/

variable {σ : Type} {g : Rule} {frames f : Nat}

/-- The guard of a conversion rule can be asked, and lets the rule work at the frame. -/
def Derivation.Opens (ts : Tracks) (g : Rule) (frames f : Nat) : Prop :=
  ∃ guard, guardOf ts g frames = .ok guard ∧ guard[f]? = some true

/-- So for a rule that is applied to recorded events. -/
def Session.Opens (session : Session σ) (ts : Tracks) (g : Rule) (frames f : Nat) : Prop :=
  ∃ gate, session.hookGate ts frames g = .ok gate ∧ f < frames ∧ allows gate f = true

theorem Derivation.opens_iff (htest : g.test = some .during) (hdep : g.dependencies = [n]) :
    Opens ts g frames f ↔ f < frames ∧ ts.isTrueAt n f = some true := by
  unfold Opens
  rcases hs : ts.series? n with _ | s
  · have hguard : guardOf ts g frames = .error (.unresolved g.source n) := by
      rw [guardOf, htest, hdep]
      simp only [seriesOf, hs, Except.map]
    rw [hguard, Tracks.isTrueAt, hs]
    refine iff_of_false ?_ fun h => by cases h.2
    rintro ⟨guard, hok, -⟩
    cases hok
  · have hguard : guardOf ts g frames = .ok (s.gate ts.threshold frames) := by
      rw [guardOf, htest, hdep]
      simp only [seriesOf, hs, Except.map]
    rw [hguard, Tracks.isTrueAt_of_series hs, Option.some.injEq,
      ← getElem?_map_range_eq_some_iff]
    constructor
    · rintro ⟨guard, hok, hf⟩
      cases hok
      exact hf
    · exact fun hf => ⟨_, rfl, hf⟩

theorem Session.opens_iff {session : Session σ} (hthreshold : session.settings.threshold =
    ts.threshold) (htest : g.test = some .during) (hdep : g.dependencies = [n]) :
    session.Opens ts g frames f ↔ f < frames ∧ ts.isTrueAt n f = some true := by
  unfold Opens
  rcases hs : ts.series? n with _ | s
  · rw [hookGate_of_none htest hdep hs, Tracks.isTrueAt, hs]
    refine iff_of_false ?_ fun h => by cases h.2
    rintro ⟨gate, hok, -⟩
    cases hok
  · rw [hookGate_of_some htest hdep hs, Tracks.isTrueAt_of_series hs, Option.some.injEq,
      hthreshold]
    constructor
    · rintro ⟨gate, hok, hf, hallows⟩
      cases hok
      exact ⟨hf, (allows_gate hf).symm.trans hallows⟩
    · rintro ⟨hf, htrue⟩
      exact ⟨_, rfl, hf, (allows_gate hf).trans htrue⟩

/-! ## Both choose the same frames -/

/-- The frames of a rule with a name as its formula and no guard. -/
theorem Rule.isOn_name_iff {r : Rule} (hzero : .zero ≤ ts.threshold) (hname : Formula.IsName n)
    (hword : n ≠ "True" ∧ n ≠ "False") (hdep : r.dependencies = []) (hoperands : r.operands = [n]) :
    r.IsOn ts ts.threshold frames f ↔ f < frames ∧ ts.isTrueAt n f = some true := by
  have hguard : r.GuardHolds ts f := fun g hg => by
    rw [hdep] at hg
    cases hg
  have hformula : r.formula = n := by
    rw [formula, hoperands]
    rfl
  rw [IsOn, and_iff_right hguard, hformula]
  exact and_congr_right fun _ => Tracks.holds_eq_ok_iff hzero hname hword f true

/-- **Guards and formulas agree on every series.** A name is true as a formula just if its gate
    is open, behind the end of its series as well, and has no value just if it has no track. So
    a rule `eval(n)` always gives a result, and covers the frames at which a guard `during(n)`
    is open, of a conversion rule and of one for events. -/
theorem eval_name_selects (hzero : .zero ≤ ts.threshold) (hname : Formula.IsName n)
    (hword : n ≠ "True" ∧ n ≠ "False") :
    (∀ frame b, ts.holds frame n = .ok b ↔ ts.isTrueAt n frame = some b) ∧
    (∀ frame, ts.holds frame n = .error (.unresolved n) ↔ ts.find? n = none) ∧
    ∀ (frames : Nat) (source : String) (r : Rule), Rule.read source = .ok r → r.action = .eval →
      r.test = none → r.operands = [n] →
      ∃ d warnings, Derivation.eval ts r frames ts.threshold = .ok (d, warnings) ∧
        ∀ g : Rule, g.test = some .during → g.dependencies = [n] →
          (∀ f, d.Covers f ↔ Derivation.Opens ts g frames f) ∧
          ∀ (σ : Type) (session : Session σ), session.settings.threshold = ts.threshold →
            ∀ f, d.Covers f ↔ session.Opens ts g frames f := by
  refine ⟨Tracks.holds_eq_ok_iff hzero hname hword,
    Tracks.holds_eq_unresolved_iff hzero hname hword, ?_⟩
  intro frames source r hread haction htest hoperands
  have hdep : r.dependencies = [] := (Rule.isSound_of_read hread).noTest htest
  have hnoGuard : ∀ g ∈ r.dependencies, (ts.find? g).isSome = true := by
    rw [hdep]
    exact List.forall_mem_nil _
  obtain ⟨d, warnings, heval, hd⟩ :=
    Derivation.exists_isEvaluated_of_read hread haction ts hnoGuard frames ts.threshold
  have hcovers : ∀ f, d.Covers f ↔ f < frames ∧ ts.isTrueAt n f = some true := fun f =>
    (hd.covers f).trans (Rule.isOn_name_iff hzero hname hword hdep hoperands)
  refine ⟨d, warnings, heval, fun g htest hdep => ⟨fun f => ?_, fun σ session hthreshold f => ?_⟩⟩
  · exact (hcovers f).trans (Derivation.opens_iff htest hdep).symm
  · exact (hcovers f).trans (Session.opens_iff hthreshold htest hdep).symm

/-- A logo as a formula. -/
def logoAlone : Rule :=
  ⟨"on=eval(logo)", .conversion, some "on", none, [], .eval, ["logo"]⟩

/-- The same logo as a guard. -/
def duringLogo : Rule :=
  ⟨"during(logo)\x7bbare=eval(!menu)\x7d", .conversion, some "bare", some .during, ["logo"], .eval,
    ["!menu"]⟩

/-- A logo that is known for the first of three frames only counts as absent behind its end. -/
theorem eval_name_selects_of_logo :
    ((.zero : Single) ≤ Derivation.menuWithLogo.threshold ∧ Formula.IsName "logo" ∧
      ("logo" ≠ "True" ∧ "logo" ≠ "False") ∧ Rule.read logoAlone.source = .ok logoAlone) ∧
    Derivation.menuWithLogo.holds 0 "logo" = .ok true ∧
    Derivation.menuWithLogo.holds 2 "logo" = .ok false ∧
    ∃ d warnings, Derivation.eval Derivation.menuWithLogo logoAlone 3
        Derivation.menuWithLogo.threshold = .ok (d, warnings) ∧
      ∀ f, d.Covers f ↔ Derivation.Opens Derivation.menuWithLogo duringLogo 3 f := by
  have hzero : (.zero : Single) ≤ Derivation.menuWithLogo.threshold := by decide +kernel
  have hword : "logo" ≠ "True" ∧ "logo" ≠ "False" := by decide
  have hread : Rule.read logoAlone.source = .ok logoAlone :=
    Rule.eq_ok_of_toOption (by decide +kernel)
  obtain ⟨hholds, -, hselects⟩ := eval_name_selects hzero Formula.isName_logo hword
  obtain ⟨d, warnings, heval, hcovers⟩ := hselects 3 _ logoAlone hread rfl rfl rfl
  exact ⟨⟨hzero, Formula.isName_logo, hword, hread⟩, (hholds 0 true).2 (by decide +kernel),
    (hholds 2 false).2 (by decide +kernel), d, warnings, heval, (hcovers duringLogo rfl rfl).1⟩

end Screenmark
