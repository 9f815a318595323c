/-
  Screenmark — the value of a formula.

  A formula is evaluated over the values of its names: every operand first, left
  before right, then the operator on them. No operator leaves an operand out, so
  the first name without a value is the fault (`eval_eq_error_iff`), whatever
  the operators are.
-/
import Screenmark.Formula.Parser

namespace Screenmark

namespace Formula

/-- The value of a formula where `value` gives the values of names. -/
def eval (threshold : Single) (value : String → Option Value) : Formula → Except Fault Value
  | .literal v => .ok v
  | .name n =>
    match value n with
    | some v => .ok v
    | none => .error (.unresolved n)
  | .prefixed op e | .postfixed op e =>
    match eval threshold value e with
    | .error f => .error f
    | .ok v => .ok (op.apply threshold v)
  | .joined op l r =>
    match eval threshold value l with
    | .error f => .error f
    | .ok a =>
      match eval threshold value r with
      | .error f => .error f
      | .ok b => .ok (op.apply threshold a b)

/-- Whether the formula that a text writes is true. -/
def holds (table : Table) (threshold : Single) (value : String → Option Value) (source : String) :
    Except Fault Bool :=
  match parse table source with
  | .error f => .error f
  | .ok e => (eval threshold value e).map (Value.truthy threshold)

/-- Evaluation fails exactly when some name has no value, and the fault is the
    first such name. -/
theorem eval_eq_error_iff {threshold : Single} {value : String → Option Value} {e : Formula}
    {f : Fault} : eval threshold value e = .error f ↔
      ∃ n, e.names.find? (fun n => (value n).isNone) = some n ∧ f = .unresolved n := by
  induction e generalizing f with
  | literal v => simp [eval, names]
  | name n => cases h : value n <;> simp [eval, names, h, eq_comm]
  | prefixed op e ih | postfixed op e ih =>
    simp only [names, ← ih]
    cases h : eval threshold value e <;> simp [eval, h]
  | joined op l r ihl ihr =>
    simp only [names, List.find?_append]
    cases hl : eval threshold value l with
    | error g =>
      obtain ⟨n, hn, rfl⟩ := ihl.1 hl
      simp [eval, hl, hn, eq_comm]
    | ok a =>
      have hnone : l.names.find? (fun n => (value n).isNone) = none := by
        cases hf : l.names.find? (fun n => (value n).isNone) with
        | none => rfl
        | some n => exact absurd (ihl.2 ⟨n, hf, rfl⟩) (by simp [hl])
      simp only [hnone, Option.none_or, ← ihr]
      cases hr : eval threshold value r <;> simp [eval, hl, hr]

end Formula

end Screenmark
