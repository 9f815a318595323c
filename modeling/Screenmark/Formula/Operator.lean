/-
  Screenmark — operators of formulas.

  An operator has a symbol, a precedence (a lower one binds tighter) and a
  meaning. A table holds the operators by position: before an operand, after
  one, or between two; one symbol may be in use in several positions.

  * `Table.standard` has `!` and its alias `!=` before an operand, and `&`,
    `&&` and `||` between two;
  * `Table.longestMatch` finds the longest symbol of the table at the start of
    a text, in any position (`longestMatch_isPrefix`, `length_le_longestMatch`).
-/
import Screenmark.Formula.Value
import Screenmark.Names

namespace Screenmark

namespace Formula

/-! ## Operators -/

/-- How operators of one precedence group. -/
inductive Associativity where
  | left
  | right
deriving DecidableEq

/-- An operator with one operand. -/
structure UnaryOp where
  symbol : String
  precedence : Fin 256
  /-- The meaning, given the threshold of truth values. -/
  apply : Single → Value → Value

/-- An operator between two operands. -/
structure InfixOp where
  symbol : String
  precedence : Fin 256
  associativity : Associativity
  /-- The meaning, given the threshold of truth values. -/
  apply : Single → Value → Value → Value

/-- How tightly the operator binds its operands. -/
def InfixOp.power (op : InfixOp) : Nat := 255 - op.precedence

/-! ## Meanings -/

/-- Not true. -/
def negation (threshold : Single) (a : Value) : Value := .bool !a.truthy threshold

/-- The operand as it is. -/
def identity (_ : Single) (a : Value) : Value := a

/-- Both true. -/
def conjunction (threshold : Single) (a b : Value) : Value :=
  .bool (a.truthy threshold && b.truthy threshold)

/-- At least one true. -/
def disjunction (threshold : Single) (a b : Value) : Value :=
  .bool (a.truthy threshold || b.truthy threshold)

/-- Exactly one true. -/
def difference (threshold : Single) (a b : Value) : Value :=
  .bool (a.truthy threshold != b.truthy threshold)

/-- The second true whenever the first is. -/
def implication (threshold : Single) (a b : Value) : Value :=
  .bool (!a.truthy threshold || b.truthy threshold)

/-- The second operand as it is. -/
def second (_ : Single) (_ b : Value) : Value := b

/-! ## Tables -/

/-- The operators that a formula may use, by position and symbol. -/
structure Table where
  prefixOps : NameMap UnaryOp
  infixOps : NameMap InfixOp
  postfixOps : NameMap UnaryOp

namespace Table

/-- The table without operators. -/
def empty : Table := ⟨.empty, .empty, .empty⟩

/-- The table with an operator before an operand. -/
def withPrefix (t : Table) (op : UnaryOp) : Table :=
  { t with prefixOps := t.prefixOps.insert op.symbol op }

/-- The table with an operator after an operand. -/
def withPostfix (t : Table) (op : UnaryOp) : Table :=
  { t with postfixOps := t.postfixOps.insert op.symbol op }

/-- The table with an operator between two operands. -/
def withInfix (t : Table) (op : InfixOp) : Table :=
  { t with infixOps := t.infixOps.insert op.symbol op }

/-- The operators of rules. -/
def standard : Table :=
  empty
    |>.withPrefix ⟨"!", 3, negation⟩
    |>.withPrefix ⟨"!=", 3, negation⟩
    |>.withInfix ⟨"&", 13, .left, conjunction⟩
    |>.withInfix ⟨"&&", 13, .left, conjunction⟩
    |>.withInfix ⟨"||", 14, .left, disjunction⟩

/-- The symbols of the table, in every position. -/
def symbols (t : Table) : List String := t.prefixOps.keys ++ t.infixOps.keys ++ t.postfixOps.keys

/-- The longer of two texts. -/
def longer (a b : List Char) : List Char := if a.length ≤ b.length then b else a

/-- The longest of the texts, if there is one. -/
def longest? : List (List Char) → Option (List Char)
  | [] => none
  | a :: as => some (as.foldl longer a)

/-- The longest symbol of the table that starts the text. -/
def longestMatch (t : Table) (cs : List Char) : Option (List Char) :=
  longest? ((t.symbols.map String.toList).filter (·.isPrefixOf cs))

theorem foldl_longer_mem (as : List (List Char)) (a : List Char) :
    as.foldl longer a ∈ a :: as := by
  induction as generalizing a with
  | nil => simp
  | cons b as ih =>
    have := ih (longer a b)
    rw [List.foldl_cons]
    rcases List.mem_cons.1 this with h | h
    · rw [h, longer]; split <;> simp
    · simp [h]

theorem length_le_foldl_longer (as : List (List Char)) (a : List Char) :
    ∀ b ∈ a :: as, b.length ≤ (as.foldl longer a).length := by
  induction as generalizing a with
  | nil => simp
  | cons c as ih =>
    intro b hb
    rw [List.foldl_cons]
    have hlong := ih (longer a c) (longer a c) (by simp)
    have hle : a.length ≤ (longer a c).length ∧ c.length ≤ (longer a c).length := by
      unfold longer; split <;> omega
    simp only [List.mem_cons] at hb
    rcases hb with rfl | rfl | hb
    · omega
    · omega
    · exact ih (longer a c) b (List.mem_cons_of_mem _ hb)

/-- The match is a symbol of the table and starts the text. -/
theorem longestMatch_isPrefix {t : Table} {cs s : List Char} (h : t.longestMatch cs = some s) :
    s ∈ t.symbols.map String.toList ∧ s.isPrefixOf cs = true := by
  unfold longestMatch at h
  cases hf : (t.symbols.map String.toList).filter (·.isPrefixOf cs) with
  | nil => rw [hf] at h; simp [longest?] at h
  | cons a as =>
    rw [hf, longest?, Option.some.injEq] at h
    have hm := foldl_longer_mem as a
    rw [h, ← hf, List.mem_filter] at hm
    exact hm

/-- No symbol of the table that starts the text is longer than the match. -/
theorem length_le_longestMatch {t : Table} {cs s u : List Char} (h : t.longestMatch cs = some s)
    (hu : u ∈ t.symbols.map String.toList) (hp : u.isPrefixOf cs = true) :
    u.length ≤ s.length := by
  have hmem : u ∈ (t.symbols.map String.toList).filter (·.isPrefixOf cs) :=
    List.mem_filter.2 ⟨hu, hp⟩
  unfold longestMatch at h
  cases hf : (t.symbols.map String.toList).filter (·.isPrefixOf cs) with
  | nil => rw [hf] at hmem; simp at hmem
  | cons a as =>
    rw [hf] at h hmem
    rw [longest?, Option.some.injEq] at h
    exact h ▸ length_le_foldl_longer as a u hmem

end Table

end Formula

end Screenmark
