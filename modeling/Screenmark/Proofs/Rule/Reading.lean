/-
  Screenmark — rules that were read.

  A rule that comes out of a text fits together: its action belongs to its family,
  its test may stand before the action, and there are as many dependencies as the
  test asks for (`isSound_of_read`).
-/
import Screenmark.Rule.Reading

namespace Screenmark

namespace Rule

variable {r : Rule} {source : String}

/-- A rule whose parts fit together. -/
structure IsSound (r : Rule) : Prop where
  accepts : r.family.accepts r.test r.action = true
  dependencies : ∀ t, r.test = some t → (testArity t).admits r.dependencies.length = true
  noTest : r.test = none → r.dependencies = []

theorem checked_eq_ok {s : Rule} (h : checked r = .ok s) : r = s ∧ r.testFault? = none := by
  unfold checked at h
  rcases ht : r.testFault? with _ | f
  · rw [ht, Option.none_or] at h
    split at h
    · cases h
    · exact ⟨Except.ok.inj h, rfl⟩
  · rw [ht] at h
    cases h

theorem admits_of_testFault? (h : r.testFault? = none) {t : Test} (ht : r.test = some t) :
    (testArity t).admits r.dependencies.length = true := by
  unfold testFault? at h
  simp only [ht] at h
  rcases hadm : (testArity t).admits r.dependencies.length
  · simp [hadm] at h
  · rfl

theorem isSound_of_checked {s : Rule} (h : checked r = .ok s)
    (hacc : r.family.accepts r.test r.action = true) (hno : r.test = none → r.dependencies = []) :
    s.IsSound := by
  obtain ⟨rfl, ht⟩ := checked_eq_ok h
  exact ⟨hacc, fun t => admits_of_testFault? ht, hno⟩

/-- A rule put together from its test and its action clause. -/
theorem isSound_of_readAction {test : Option Test} {dependencies : List String} {cs : List Char}
    (hno : test = none → dependencies = [])
    (h : ((readAction source cs).bind fun (name, action, operands) =>
      if action.family.accepts test action then
        checked ⟨source, action.family, name, test, dependencies, action, operands⟩
      else .error (.unsupported source (statement test action))) = .ok r) : r.IsSound := by
  rcases ha : readAction source cs with f | ⟨name, action, operands⟩
  · rw [ha] at h
    cases h
  · rw [ha] at h
    simp only [Except.bind] at h
    split at h
    · next hacc => exact isSound_of_checked h hacc hno
    · cases h

/-- **A rule that is read fits together.** -/
theorem isSound_of_read (h : read source = .ok r) : r.IsSound := by
  unfold read at h
  rcases hc : splitClauses source (Text.trim source.toList) with f | ⟨_ | test, action⟩
  · rw [hc] at h
    cases h
  · rw [hc] at h
    exact isSound_of_readAction (fun _ => rfl) h
  · rw [hc] at h
    simp only [bind, Except.bind] at h
    rcases ht : readTest source test with f | ⟨t, dependencies⟩
    · rw [ht] at h
      cases h
    · have hno : some t = none → dependencies = [] := fun hnone => nomatch hnone
      rw [ht] at h
      exact isSound_of_readAction hno h

namespace IsSound

variable (h : r.IsSound)
include h

theorem family_eq : r.family = r.action.family := by
  have := h.accepts
  simp only [Family.accepts, Bool.and_eq_true, beq_iff_eq] at this
  exact this.1.symm

/-- A rule that works frame by frame produces its operands, unless it only defines
    a template. -/
theorem outputs_eq (hf : r.family.isPerFrame = true) (ha : r.action ≠ .template) :
    r.outputs = r.operands := by
  rw [h.family_eq] at hf
  unfold outputs
  cases hact : r.action <;> first | rfl | simp_all [Action.family, Family.isPerFrame]

end IsSound

theorem eq_singleton_of_admits {xs : List String} (h : (Arity.exactly 1).admits xs.length = true) :
    ∃ x, xs = [x] :=
  List.length_eq_one_iff.1 (beq_iff_eq.1 h)

/-- A rule with a guard depends on nothing else. -/
theorem IsSound.dependencies_of_during (h : r.IsSound) (htest : r.test = some .during) :
    ∃ g, r.dependencies = [g] :=
  eq_singleton_of_admits (h.dependencies .during htest)

theorem action_ne_template {n : String} (hn : n ∈ r.outputs) : r.action ≠ .template := by
  intro ha
  simp [outputs, ha] at hn

theorem namedDependencies_of_ne (h : r.test ≠ some .inRect) :
    r.namedDependencies = r.dependencies := by
  rw [namedDependencies, if_neg h]

end Rule

end Screenmark
