/-
  Screenmark — what formulas say.

  The leaves of a formula are its values and its names. Over the operators of rules
  a formula is a proposition about the truth of its leaves: `!` and `!=` negate, `&`
  and `&&` are conjunction, `||` is disjunction (`Formula.Says`).

  * `eval_congr` : the value depends on the values of the names only;
  * `eval_standard` : a formula over the operators of rules has a value exactly if
    all its names have one, and is true exactly if the proposition holds; otherwise
    the first name without a value is at fault.
-/
import Screenmark.Formula.Eval

namespace Screenmark

namespace Formula

variable {threshold : Single} {value value' : String → Option Value} {e : Formula} {v : Value}

/-! ## Leaves -/

/-- What stands at the end of the branches of a formula. -/
inductive Leaf where
  | value (v : Value)
  | name (n : String)
deriving DecidableEq

/-- The leaves from left to right. -/
def leaves : Formula → List Leaf
  | .literal v => [.value v]
  | .name n => [.name n]
  | .prefixed _ e | .postfixed _ e => e.leaves
  | .joined _ l r => l.leaves ++ r.leaves

/-- The name that a leaf is, if it is one. -/
def Leaf.name? : Leaf → Option String
  | .value _ => none
  | .name n => some n

theorem names_eq_leaves : e.names = e.leaves.filterMap Leaf.name? := by
  induction e with
  | literal v => rfl
  | name n => rfl
  | prefixed op e ih | postfixed op e ih => exact ih
  | joined op l r ihl ihr => rw [names, leaves, List.filterMap_append, ihl, ihr]

/-- A leaf is true if its value is; a name without a value is not. -/
def Leaf.IsTrue (threshold : Single) (value : String → Option Value) : Leaf → Prop
  | .value v => v.truthy threshold = true
  | .name n => ∃ v, value n = some v ∧ v.truthy threshold = true

/-! ## Evaluation depends on names -/

/-- **Values of other names do not count.** -/
theorem eval_congr (h : ∀ n ∈ e.names, value n = value' n) :
    eval threshold value e = eval threshold value' e := by
  induction e with
  | literal v => rfl
  | name n => rw [eval, eval, h n (List.mem_singleton_self n)]
  | prefixed op e ih | postfixed op e ih => rw [eval, eval, ih h]
  | joined op l r ihl ihr =>
    rw [names, List.forall_mem_append] at h
    rw [eval, eval, ihl h.1, ihr h.2]

/-- A formula has a value if every name has one. -/
theorem exists_eval (h : ∀ n ∈ e.names, (value n).isSome = true) :
    ∃ v, eval threshold value e = .ok v := by
  rcases he : eval threshold value e with f | v
  · obtain ⟨n, hn, -⟩ := eval_eq_error_iff.1 he
    have hnone := List.find?_some hn
    have hsome := h n (List.mem_of_find?_eq_some hn)
    rw [Option.isNone_iff_eq_none] at hnone
    rw [hnone] at hsome
    cases hsome
  · exact ⟨v, rfl⟩

/-! ## Formulas over a table -/

/-- All operators of the formula are in the table, in their positions. -/
inductive IsOver (table : Table) : Formula → Prop
  | literal {u : Value} : IsOver table (.literal u)
  | name {n : String} : IsOver table (.name n)
  | prefixed {s op} {a : Formula} : table.prefixOps.find? s = some op → IsOver table a →
      IsOver table (.prefixed op a)
  | postfixed {s op} {a : Formula} : table.postfixOps.find? s = some op → IsOver table a →
      IsOver table (.postfixed op a)
  | joined {s op} {a b : Formula} : table.infixOps.find? s = some op → IsOver table a →
      IsOver table b → IsOver table (.joined op a b)

/-- The proposition that a formula over the operators of rules writes, where `holds`
    are the leaves that are true. -/
def Says (holds : Leaf → Prop) : Formula → Prop
  | .literal v => holds (.value v)
  | .name n => holds (.name n)
  | .prefixed op e | .postfixed op e =>
    match op.symbol with
    | "!" | "!=" => ¬ e.Says holds
    | _ => False
  | .joined op l r =>
    match op.symbol with
    | "&" | "&&" => l.Says holds ∧ r.Says holds
    | "||" => l.Says holds ∨ r.Says holds
    | _ => False

theorem prefixOps_standard {s : String} {op : UnaryOp}
    (h : Table.standard.prefixOps.find? s = some op) :
    (op.symbol = "!" ∨ op.symbol = "!=") ∧ op.apply = negation := by
  simp only [Table.standard, Table.withPrefix, Table.withInfix, Table.empty,
    NameMap.find?_insert] at h
  split at h
  · cases h
    exact ⟨.inr rfl, rfl⟩
  · split at h
    · cases h
      exact ⟨.inl rfl, rfl⟩
    · cases h

theorem postfixOps_standard (s : String) : Table.standard.postfixOps.find? s = none := rfl

theorem infixOps_standard {s : String} {op : InfixOp}
    (h : Table.standard.infixOps.find? s = some op) :
    (op.symbol = "&" ∨ op.symbol = "&&") ∧ op.apply = conjunction ∨
      op.symbol = "||" ∧ op.apply = disjunction := by
  simp only [Table.standard, Table.withPrefix, Table.withInfix, Table.empty,
    NameMap.find?_insert] at h
  split at h
  · cases h
    exact .inr ⟨rfl, rfl⟩
  · split at h
    · cases h
      exact .inl ⟨.inr rfl, rfl⟩
    · split at h
      · cases h
        exact .inl ⟨.inl rfl, rfl⟩
      · cases h

/-! ## Truth -/

/-- **The value is true exactly if what the formula says holds.** -/
theorem truthy_iff_says (he : e.IsOver .standard) (h : eval threshold value e = .ok v) :
    v.truthy threshold = true ↔ e.Says (Leaf.IsTrue threshold value) := by
  induction he generalizing v with
  | @literal u =>
    cases h
    exact Iff.rfl
  | @name n =>
    rw [eval] at h
    split at h
    · next u hu =>
      cases h
      simp [Says, Leaf.IsTrue, hu]
    · cases h
  | @prefixed s op e hop _ ih =>
    obtain ⟨hsymbol, happly⟩ := prefixOps_standard hop
    rw [eval] at h
    split at h
    · cases h
    · next u hu =>
      cases h
      have hneg : (op.apply threshold u).truthy threshold = true ↔
          ¬ u.truthy threshold = true := by simp [happly, negation, Value.truthy]
      rw [hneg, ih hu]
      rcases hsymbol with hs | hs <;> simp [Says, hs]
  | @postfixed s op e hop _ ih =>
    rw [postfixOps_standard] at hop
    cases hop
  | @joined s op l r hop _ _ ihl ihr =>
    rw [eval] at h
    split at h
    · cases h
    · next a ha =>
      split at h
      · cases h
      · next b hb =>
        cases h
        rcases infixOps_standard hop with ⟨hsymbol, happly⟩ | ⟨hsymbol, happly⟩
        · have hand : (op.apply threshold a b).truthy threshold = true ↔
              a.truthy threshold = true ∧ b.truthy threshold = true := by
            simp [happly, conjunction, Value.truthy]
          rw [hand, ihl ha, ihr hb]
          rcases hsymbol with hs | hs <;> simp [Says, hs]
        · have hor : (op.apply threshold a b).truthy threshold = true ↔
              a.truthy threshold = true ∨ b.truthy threshold = true := by
            simp [happly, disjunction, Value.truthy]
          rw [hor, ihl ha, ihr hb]
          simp [Says, hsymbol]

/-- **Evaluation is propositional logic over gates.** A formula over the operators of
    rules fails exactly at its first name without a value; otherwise it is true
    exactly if the proposition about its leaves holds. Values of other names, and
    values at other frames, do not count. -/
theorem eval_standard (he : e.IsOver .standard) (threshold : Single)
    (resolve : Nat → String → Option Value) (frame : Nat) :
    (∀ n, eval threshold (resolve frame) e = .error (.unresolved n) ↔
      e.names.find? (fun n => (resolve frame n).isNone) = some n) ∧
    ((∀ n ∈ e.names, (resolve frame n).isSome = true) →
      ∃ v, eval threshold (resolve frame) e = .ok v ∧
        (v.truthy threshold = true ↔ e.Says (Leaf.IsTrue threshold (resolve frame)))) ∧
    ∀ resolve' : Nat → String → Option Value,
      (∀ n ∈ e.names, resolve' frame n = resolve frame n) →
        eval threshold (resolve' frame) e = eval threshold (resolve frame) e := by
  refine ⟨fun n => ?_, fun hsome => ?_, fun resolve' hagree => eval_congr hagree⟩
  · rw [eval_eq_error_iff]
    constructor
    · rintro ⟨m, hm, hmn⟩
      cases hmn
      exact hm
    · intro hn
      exact ⟨n, hn, rfl⟩
  · obtain ⟨v, hv⟩ := exists_eval hsome
    exact ⟨v, hv, truthy_iff_says he hv⟩

/-- `title && !logo || menu`. -/
def titleOrMenu : Formula :=
  .joined ⟨"||", ⟨14, by decide⟩, .left, disjunction⟩
    (.joined ⟨"&&", ⟨13, by decide⟩, .left, conjunction⟩ (.name "title")
      (.prefixed ⟨"!", ⟨3, by decide⟩, negation⟩ (.name "logo")))
    (.name "menu")

/-- Series of all kinds, of which one comes into being at the second frame. -/
def lateMenu (frame : Nat) (name : String) : Option Value :=
  if name = "title" then some (.text (if frame = 0 then "Level 1" else " "))
  else if name = "logo" then some (.number .zero)
  else if name = "menu" ∧ 0 < frame then some (.bool true)
  else none

/-- The menu is at fault in the first frame although what stands before it is true. -/
theorem eval_standard_of_lateMenu : titleOrMenu.IsOver .standard ∧
    eval .one (lateMenu 0) titleOrMenu = .error (.unresolved "menu") ∧
    ∃ v, eval .one (lateMenu 1) titleOrMenu = .ok v ∧
      (v.truthy .one = true ↔ titleOrMenu.Says (Leaf.IsTrue .one (lateMenu 1))) := by
  have he : titleOrMenu.IsOver .standard :=
    .joined (s := "||") rfl
      (.joined (s := "&&") rfl .name (.prefixed (s := "!") rfl .name)) .name
  refine ⟨he, ?_, ?_⟩
  · exact ((eval_standard he .one lateMenu 0).1 "menu").2 (by decide)
  · exact (eval_standard he .one lateMenu 1).2.1 (by decide)

end Formula

end Screenmark
