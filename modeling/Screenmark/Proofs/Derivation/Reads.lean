/-
  Screenmark — what a conversion rule reads.

  A conversion rule reads its guard and what its action looks at: the names in a
  formula, the series whose values or segments it takes, or the runs that it nests. It
  gives the same result over tracks that agree on the series it reads
  (`derive_congr`), and puts it under its only output (`outputs_of_derive`).
-/
import Screenmark.Derivation.Run
import Screenmark.Proofs.Derivation.Formulas
import Screenmark.Proofs.Derivation.Nesting
import Screenmark.Proofs.Derivation.Pulses
import Screenmark.Proofs.Derivation.Values

namespace Screenmark

/-! ## Reads -/

namespace Rule

/-- The series that the guard of a rule reads. -/
def guardReads (r : Rule) : List String :=
  match r.test, r.dependencies with
  | some .during, name :: _ => [name]
  | _, _ => []

/-- The names in the formula of a rule; one that cannot be read has none. -/
def formulaReads (r : Rule) : List String :=
  match Formula.parse .standard (r.operands.headD "") with
  | .ok e => e.names
  | .error _ => []

/-- The series that the action of a rule reads. -/
def actionReads (r : Rule) : List String :=
  match r.action with
  | .eval => r.formulaReads
  | .matchFirstValueOf | .triggerBySegmentsOf => [r.operands.headD ""]
  | .nestByLastVariable => r.operands
  | _ => []

/-- The series that a conversion rule reads. -/
def reads (r : Rule) : List String := r.guardReads ++ r.actionReads

/-- A rule reads what the other one puts out. -/
def ReadsFrom (a b : Rule) : Prop := ∃ n ∈ b.outputs, n ∈ a.reads

instance (a b : Rule) : Decidable (a.ReadsFrom b) :=
  inferInstanceAs (Decidable (∃ n ∈ b.outputs, n ∈ a.reads))

end Rule

/-! ## Tracks that agree -/

namespace Tracks

variable {ts ts' : Tracks} {n : String} {ns ms : List String} {frame : Nat}

/-- The tracks have the same threshold and the same series under some names. -/
structure Agree (ns : List String) (ts ts' : Tracks) : Prop where
  threshold : ts.threshold = ts'.threshold
  series : ∀ n ∈ ns, ts.series? n = ts'.series? n

theorem Agree.mono (h : Agree ns ts ts') (hsub : ms ⊆ ns) : Agree ms ts ts' :=
  ⟨h.threshold, fun n hn => h.series n (hsub hn)⟩

theorem Agree.symm (h : Agree ns ts ts') : Agree ns ts' ts :=
  ⟨h.threshold.symm, fun n hn => (h.series n hn).symm⟩

theorem resolve_congr (h : ts.series? n = ts'.series? n) :
    ts.resolve frame n = ts'.resolve frame n := by
  rw [resolve, resolve, h]

/-- A track that is put in leaves the series of the other names. -/
theorem agree_insert {t : Track} (h : n ∉ ns) : Agree ns (ts.insert n t) ts := by
  refine ⟨rfl, fun m hm => ?_⟩
  have hne : n ≠ m := by
    rintro rfl
    exact h hm
  rw [series?, series?, find?_insert, if_neg hne]

/-- Tracks of different names may be put in in either order. -/
theorem insert_comm {m : String} {t u : Track} (h : n ≠ m) :
    (ts.insert n t).insert m u = (ts.insert m u).insert n t := by
  have hentries : (ts.byName.insert n t).insert m u = (ts.byName.insert m u).insert n t := by
    refine NameMap.ext_find? fun k => ?_
    rw [NameMap.find?_insert, NameMap.find?_insert, NameMap.find?_insert, NameMap.find?_insert]
    split
    · next hm =>
      rw [if_neg]
      rintro rfl
      exact h hm.symm
    · rfl
  simp only [insert, hentries]

end Tracks

/-! ## Results depend on what is read -/

namespace Derivation

variable {ts ts' : Tracks} {r : Rule} {frames : Nat} {threshold : Single} {n : String}

theorem seriesOf_congr (h : ts.series? n = ts'.series? n) :
    seriesOf ts r n = seriesOf ts' r n := by
  rw [seriesOf, seriesOf, h]

theorem guardOf_congr (h : Tracks.Agree r.guardReads ts ts') :
    guardOf ts r frames = guardOf ts' r frames := by
  unfold guardOf
  split
  · next name _ htest hdep =>
    have hmem : name ∈ r.guardReads := by
      rw [Rule.guardReads, htest, hdep]
      exact List.mem_singleton_self name
    rw [seriesOf_congr (h.series name hmem), h.threshold]
  · rfl

theorem outcomeAt_congr {parsed : Except Formula.Fault Formula} {frame : Nat} {guarded : Bool}
    (h : ∀ e, parsed = .ok e → ∀ n ∈ e.names, ts.series? n = ts'.series? n) :
    outcomeAt ts threshold parsed frame guarded = outcomeAt ts' threshold parsed frame guarded := by
  unfold outcomeAt
  rcases parsed with f | e
  · rfl
  · dsimp only
    rw [Formula.eval_congr fun n hn => Tracks.resolve_congr (h e rfl n hn)]

theorem outcomesFrom_congr {parsed : Except Formula.Fault Formula} {guard : List Bool}
    (h : ∀ e, parsed = .ok e → ∀ n ∈ e.names, ts.series? n = ts'.series? n) : ∀ frame,
    outcomesFrom ts threshold parsed frame guard =
      outcomesFrom ts' threshold parsed frame guard := by
  induction guard with
  | nil =>
    intro frame
    rfl
  | cons g guard ih =>
    intro frame
    rw [outcomesFrom, outcomesFrom, outcomeAt_congr h, ih]

theorem eval_congr (hguard : guardOf ts r frames = guardOf ts' r frames)
    (h : ∀ n ∈ r.formulaReads, ts.series? n = ts'.series? n) :
    eval ts r frames threshold = eval ts' r frames threshold := by
  have hnames : ∀ e, Formula.parse .standard (r.operands.headD "") = .ok e →
      ∀ n ∈ e.names, ts.series? n = ts'.series? n := by
    intro e he n hn
    refine h n ?_
    rw [Rule.formulaReads, he]
    exact hn
  unfold eval
  simp only [hguard, outcomesFrom_congr hnames]

theorem matchFirstValueOf_congr (hguard : guardOf ts r frames = guardOf ts' r frames)
    (hthreshold : ts.threshold = ts'.threshold)
    (h : ts.series? (r.operands.headD "") = ts'.series? (r.operands.headD "")) :
    matchFirstValueOf ts r frames = matchFirstValueOf ts' r frames := by
  have htarget : targetOf ts r = targetOf ts' r := seriesOf_congr h
  unfold matchFirstValueOf
  rw [hguard, htarget, hthreshold]

theorem triggerBySegmentsOf_congr (hguard : guardOf ts r frames = guardOf ts' r frames)
    (hthreshold : ts.threshold = ts'.threshold)
    (h : ts.series? (r.operands.headD "") = ts'.series? (r.operands.headD "")) :
    triggerBySegmentsOf ts r frames = triggerBySegmentsOf ts' r frames := by
  have htarget : targetOf ts r = targetOf ts' r := seriesOf_congr h
  unfold triggerBySegmentsOf
  rw [hguard, htarget, hthreshold]

theorem mapM_seriesOf_congr {ns : List String} (h : ∀ n ∈ ns, ts.series? n = ts'.series? n) :
    ns.mapM (seriesOf ts r) = ns.mapM (seriesOf ts' r) := by
  induction ns with
  | nil => rfl
  | cons n ns ih =>
    rw [List.forall_mem_cons] at h
    rw [List.mapM_cons, List.mapM_cons, seriesOf_congr h.1, ih h.2]

theorem nestByLastVariable_congr (hguard : guardOf ts r frames = guardOf ts' r frames)
    (hthreshold : ts.threshold = ts'.threshold)
    (h : ∀ n ∈ r.operands, ts.series? n = ts'.series? n) :
    nestByLastVariable ts r frames = nestByLastVariable ts' r frames := by
  unfold nestByLastVariable
  rw [hguard, mapM_seriesOf_congr h, hthreshold]

/-- **A rule gives the same over tracks that agree on what it reads.** -/
theorem derive_congr (h : Tracks.Agree r.reads ts ts') :
    derive ts threshold r frames = derive ts' threshold r frames := by
  have hguard : guardOf ts r frames = guardOf ts' r frames :=
    guardOf_congr (h.mono (List.subset_append_left _ _))
  have haction : ∀ n ∈ r.actionReads, ts.series? n = ts'.series? n :=
    fun n hn => h.series n (List.mem_append_right _ hn)
  unfold Rule.actionReads at haction
  unfold derive
  split
  · next hact =>
    rw [hact] at haction
    rw [eval_congr hguard haction]
  · next hact =>
    rw [hact] at haction
    rw [matchFirstValueOf_congr hguard h.threshold (haction _ (List.mem_singleton_self _))]
  · next hact =>
    rw [hact] at haction
    rw [triggerBySegmentsOf_congr hguard h.threshold (haction _ (List.mem_singleton_self _))]
  · next hact =>
    rw [hact] at haction
    rw [nestByLastVariable_congr hguard h.threshold haction]
  · rfl

/-! ## Outputs -/

theorem name_of_nameOf (h : nameOf r = .ok n) : r.name = some n := by
  unfold nameOf at h
  split at h
  · next m hm =>
    cases h
    exact hm
  · cases h

theorem name_of_eval {d : Derived} {warnings : List String}
    (h : eval ts r frames threshold = .ok (d, warnings)) : r.name = some d.name := by
  obtain ⟨name, guard, hname, -, heq⟩ := exists_of_eval h
  cases heq
  exact name_of_nameOf hname

theorem name_of_matchFirstValueOf {d : Derived} (h : matchFirstValueOf ts r frames = .ok d) :
    r.name = some d.name := by
  obtain ⟨name, guard, s, hname, -, -, rfl⟩ := exists_of_matchFirstValueOf h
  exact name_of_nameOf hname

theorem name_of_triggerBySegmentsOf {d : Derived} (h : triggerBySegmentsOf ts r frames = .ok d) :
    r.name = some d.name := by
  obtain ⟨name, guard, s, hname, -, -, rfl⟩ := exists_of_triggerBySegmentsOf h
  exact name_of_nameOf hname

theorem name_of_nestByLastVariable {nested : Nested}
    (h : nestByLastVariable ts r frames = .ok nested) : r.name = some nested.derived.name := by
  obtain ⟨name, guard, ss, hname, -, rfl⟩ := exists_of_nestByLastVariable h
  exact name_of_nameOf hname

/-- The result of a rule stands under its only output. -/
theorem outputs_of_derive {d : Derived} {nested : Option Nested} {warnings : List String}
    (h : derive ts threshold r frames = .ok (d, nested, warnings)) : r.outputs = [d.name] := by
  unfold derive at h
  unfold Rule.outputs
  split at h
  · next hact =>
    obtain ⟨⟨d, ws⟩, heval, heq⟩ := exists_of_map_eq_ok h
    cases heq
    rw [hact]
    dsimp only
    rw [name_of_eval heval]
    rfl
  · next hact =>
    obtain ⟨d, hfirst, heq⟩ := exists_of_map_eq_ok h
    cases heq
    rw [hact]
    dsimp only
    rw [name_of_matchFirstValueOf hfirst]
    rfl
  · next hact =>
    obtain ⟨d, htrigger, heq⟩ := exists_of_map_eq_ok h
    cases heq
    rw [hact]
    dsimp only
    rw [name_of_triggerBySegmentsOf htrigger]
    rfl
  · next hact =>
    obtain ⟨nested, hnest, heq⟩ := exists_of_map_eq_ok h
    cases heq
    rw [hact]
    dsimp only
    rw [name_of_nestByLastVariable hnest]
    rfl
  · cases h

end Derivation

end Screenmark
