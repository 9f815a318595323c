/-
  Screenmark — how operators between operands group.

  Operands with operators between them can be put together to a tree in many ways. A tree is
  *grouped* if each operator in it may stand above its neighbours: to the left it holds an
  operator that binds as tightly as itself or tighter, to the right one that binds tighter,
  and the associativity of the left one of the two decides between equally tight ones.

  For two operators of a chain it is always exactly one that may hold the other
  (`holdsRight_iff_not_holdsLeft`). So there is just one grouped tree over a chain:

  * `IsGrouped.unique` : grouped trees with the same chain are equal;
  * `exists_isGrouped` : every chain has one. It is built from the left, where the next
    operator goes down the right edge of the tree (`Tree.add`).
-/
import Screenmark.Formula.Parser

namespace Screenmark

namespace Formula

/-! ## Neighbours -/

namespace InfixOp

/-- The operator may have a tree with `l` on top as its left operand. -/
def HoldsLeft (op l : InfixOp) : Prop :=
  match l.associativity with
  | .left => op.power ≤ l.power
  | .right => op.power < l.power

/-- The operator may have a tree with `r` on top as its right operand. -/
def HoldsRight (op r : InfixOp) : Prop :=
  match op.associativity with
  | .left => op.power < r.power
  | .right => op.power ≤ r.power

/-- The power from which on an operator behind this one belongs to its right operand. -/
def next (op : InfixOp) : Nat :=
  match op.associativity with
  | .left => op.power + 1
  | .right => op.power

variable {op l r : InfixOp}

theorem holdsLeft_iff : op.HoldsLeft l ↔ op.power < l.next := by
  unfold HoldsLeft next
  cases l.associativity with
  | left => exact Nat.lt_succ_iff.symm
  | right => exact Iff.rfl

theorem holdsRight_iff : op.HoldsRight r ↔ op.next ≤ r.power := by
  unfold HoldsRight next
  cases op.associativity with
  | left => exact Iff.rfl
  | right => exact Iff.rfl

/-- **Of two operators exactly one may hold the other.** -/
theorem holdsRight_iff_not_holdsLeft : l.HoldsRight r ↔ ¬ r.HoldsLeft l := by
  rw [holdsRight_iff, holdsLeft_iff, Nat.not_lt]

theorem power_le_next (op : InfixOp) : op.power ≤ op.next := by
  unfold next
  cases op.associativity with
  | left => exact Nat.le_succ _
  | right => exact Nat.le_refl _

theorem next_le (op : InfixOp) : op.next ≤ op.power + 1 := by
  unfold next
  cases op.associativity with
  | left => exact Nat.le_refl _
  | right => exact Nat.le_succ _

end InfixOp

/-! ## Trees -/

/-- Operators above operands. An operand is a formula that stays as it is, whatever operators
    are in it. -/
inductive Tree where
  | operand (e : Formula)
  | node (op : InfixOp) (left right : Tree)

namespace Tree

variable {t u : Tree} {e : Formula} {o : InfixOp} {m : Nat}

/-- The formula that the tree stands for. -/
def formula : Tree → Formula
  | operand e => e
  | node op l r => .joined op l.formula r.formula

/-- The first operand. -/
def first : Tree → Formula
  | operand e => e
  | node _ l _ => l.first

/-- The operators from left to right, each with the operand behind it. -/
def later : Tree → List (InfixOp × Formula)
  | operand _ => []
  | node op l r => l.later ++ (op, r.first) :: r.later

/-- The tree read from left to right. -/
def chain (t : Tree) : Formula × List (InfixOp × Formula) := (t.first, t.later)

/-- The operator on top. -/
def root? : Tree → Option InfixOp
  | operand _ => none
  | node op _ _ => some op

/-- Every operator of the tree may hold those below it. -/
inductive IsGrouped : Tree → Prop
  | operand {e : Formula} : IsGrouped (operand e)
  | node {op : InfixOp} {l r : Tree} : IsGrouped l → IsGrouped r →
      (∀ o ∈ l.root?, op.HoldsLeft o) → (∀ o ∈ r.root?, op.HoldsRight o) →
      IsGrouped (node op l r)

/-! ## Uniqueness -/

/-- No operator of a grouped tree binds looser than the one on top. -/
theorem IsGrouped.le_power (h : t.IsGrouped) (hroot : ∀ o ∈ t.root?, m ≤ o.power) :
    ∀ q ∈ t.later, m ≤ q.1.power := by
  induction h with
  | operand =>
    intro q hq
    cases hq
  | @node op l r _ _ hleft hright ihl ihr =>
    have hop : m ≤ op.power := hroot op rfl
    have hl : ∀ o ∈ l.root?, m ≤ o.power := by
      intro o ho
      have hlt := InfixOp.holdsLeft_iff.1 (hleft o ho)
      have hnext := o.next_le
      omega
    have hr : ∀ o ∈ r.root?, m ≤ o.power := by
      intro o ho
      have hle := InfixOp.holdsRight_iff.1 (hright o ho)
      have hnext := op.power_le_next
      omega
    rw [later, List.forall_mem_append, List.forall_mem_cons]
    exact ⟨ihl hl, hop, ihr hr⟩

/-- What may stand above the operator on top of a grouped tree, to the right of it, may stand
    above all of its operators. -/
theorem IsGrouped.lt_next (h : t.IsGrouped) (hroot : ∀ o ∈ t.root?, m < o.next) :
    ∀ q ∈ t.later, m < q.1.next := by
  induction h with
  | operand =>
    intro q hq
    cases hq
  | @node op l r _ _ hleft hright ihl ihr =>
    have hop : m < op.next := hroot op rfl
    have hl : ∀ o ∈ l.root?, m < o.next := by
      intro o ho
      have hlt := InfixOp.holdsLeft_iff.1 (hleft o ho)
      have hnext := op.next_le
      omega
    have hr : ∀ o ∈ r.root?, m < o.next := by
      intro o ho
      have hle := InfixOp.holdsRight_iff.1 (hright o ho)
      have hnext := o.power_le_next
      omega
    rw [later, List.forall_mem_append, List.forall_mem_cons]
    exact ⟨ihl hl, hop, ihr hr⟩

/-- An operator on top of a grouped tree may hold all to the left of it and all to the
    right. -/
theorem IsGrouped.holds {op : InfixOp} {l r : Tree} (h : (Tree.node op l r).IsGrouped) :
    (∀ q ∈ l.later, op.HoldsLeft q.1) ∧ ∀ q ∈ r.later, op.HoldsRight q.1 := by
  cases h with
  | node hl hr hleft hright =>
    simp only [InfixOp.holdsLeft_iff, InfixOp.holdsRight_iff] at hleft hright ⊢
    exact ⟨hl.lt_next hleft, hr.le_power hright⟩

/-- Two operators of one chain are not both on top of a grouped tree over it. -/
theorem not_both_roots {l r l' r' : Tree} {op op' : InfixOp} {pieces : List (InfixOp × Formula)}
    (h : (Tree.node op l r).IsGrouped) (h' : (Tree.node op' l' r').IsGrouped)
    (hl' : l'.later = l.later ++ (op, r.first) :: pieces)
    (hr : r.later = pieces ++ (op', r'.first) :: r'.later) : False := by
  have hright : op.HoldsRight op' := h.holds.2 (op', r'.first) (by simp [hr])
  have hleft : op'.HoldsLeft op := h'.holds.1 (op, r.first) (by simp [hl'])
  exact InfixOp.holdsRight_iff_not_holdsLeft.1 hright hleft

/-- Two elements of one list stand at the same place, or one of them before the other. -/
theorem eq_or_before_or_behind {α : Type} {as as' bs bs' : List α} {a a' : α}
    (h : as ++ a :: bs = as' ++ a' :: bs') : (as = as' ∧ a = a' ∧ bs = bs') ∨
      (∃ cs, as' = as ++ a :: cs ∧ bs = cs ++ a' :: bs') ∨
      ∃ cs, as = as' ++ a' :: cs ∧ bs' = cs ++ a :: bs := by
  rcases List.append_eq_append_iff.1 h with ⟨cs, has, hbs⟩ | ⟨cs, has, hbs⟩
  · rcases List.cons_eq_append_iff.1 hbs with ⟨rfl, hsame⟩ | ⟨ds, rfl, hlater⟩
    · obtain ⟨rfl, rfl⟩ := List.cons.inj hsame
      exact .inl ⟨by rw [has, List.append_nil], rfl, rfl⟩
    · exact .inr (.inl ⟨ds, has, hlater⟩)
  · rcases List.cons_eq_append_iff.1 hbs with ⟨rfl, hsame⟩ | ⟨ds, rfl, hlater⟩
    · obtain ⟨rfl, rfl⟩ := List.cons.inj hsame
      exact .inl ⟨by rw [has, List.append_nil], rfl, rfl⟩
    · exact .inr (.inr ⟨ds, has, hlater⟩)

/-- **Grouped trees with the same chain are equal.** -/
theorem IsGrouped.unique (h : t.IsGrouped) (h' : u.IsGrouped) (hchain : t.chain = u.chain) :
    t = u := by
  obtain ⟨hfirst, hlater⟩ := Prod.mk.inj hchain
  clear hchain
  induction t generalizing u with
  | operand e =>
    cases u with
    | operand e' => exact congrArg Tree.operand hfirst
    | node op' l' r' => simp [later] at hlater
  | node op l r ihl ihr =>
    cases u with
    | operand e' => simp [later] at hlater
    | node op' l' r' =>
      simp only [later] at hlater
      rcases eq_or_before_or_behind hlater with ⟨hl, htop, hr⟩ | ⟨cs, hl, hr⟩ | ⟨cs, hl, hr⟩
      · obtain ⟨rfl, hrfirst⟩ := Prod.mk.inj htop
        cases h with
        | node hgl hgr _ _ =>
          cases h' with
          | node hgl' hgr' _ _ => rw [ihl hgl hgl' hfirst hl, ihr hgr hgr' hrfirst hr]
      · exact (not_both_roots h h' hl hr).elim
      · exact (not_both_roots h' h hl hr).elim

/-! ## Existence -/

/-- The tree with one more operator and operand behind it. The operator goes into the right
    operand of the one on top if that may hold it there, and else on top itself. -/
def add (o : InfixOp) (e : Formula) : Tree → Tree
  | operand a => .node o (.operand a) (.operand e)
  | node op l r =>
    if op.next ≤ o.power then .node op l (r.add o e) else .node o (.node op l r) (.operand e)

theorem chain_add (o : InfixOp) (e : Formula) (t : Tree) :
    (t.add o e).chain = (t.first, t.later ++ [(o, e)]) := by
  induction t with
  | operand a => rfl
  | node op l r _ ihr =>
    obtain ⟨hfirst, hlater⟩ := Prod.mk.inj ihr
    rw [add]
    split
    · rw [chain, first, later, hfirst, hlater]
      simp [first, later]
    · rfl

theorem root?_add (o : InfixOp) (e : Formula) (t : Tree) :
    (t.add o e).root? = t.root? ∨ (t.add o e).root? = some o := by
  cases t with
  | operand a => exact .inr rfl
  | node op l r =>
    rw [add]
    split
    · exact .inl rfl
    · exact .inr rfl

theorem IsGrouped.add (h : t.IsGrouped) (o : InfixOp) (e : Formula) : (t.add o e).IsGrouped := by
  have hnone : ∀ {op : InfixOp} {a : Formula}, ∀ o ∈ (Tree.operand a).root?, op.HoldsRight o := by
    intro op a o ho
    cases ho
  induction h with
  | operand => exact .node .operand .operand (fun o ho => by cases ho) hnone
  | @node op l r hl hr hleft hright _ ihr =>
    rw [Tree.add]
    split
    · next hle =>
      refine .node hl ihr hleft fun o' ho' => ?_
      rcases root?_add o e r with hsame | htop
      · exact hright o' (hsame ▸ ho')
      · rw [htop] at ho'
        cases ho'
        exact InfixOp.holdsRight_iff.2 hle
    · next hlt =>
      refine .node (.node hl hr hleft hright) .operand (fun o' ho' => ?_) hnone
      cases ho'
      exact InfixOp.holdsLeft_iff.2 (Nat.not_le.1 hlt)

/-- **Over every chain there is a grouped tree.** -/
theorem exists_isGrouped (a : Formula) (pieces : List (InfixOp × Formula)) :
    ∃ t : Tree, t.IsGrouped ∧ t.chain = (a, pieces) := by
  have hbuild : ∀ (pieces : List (InfixOp × Formula)) (t : Tree), t.IsGrouped →
      ∃ u : Tree, u.IsGrouped ∧ u.chain = (t.first, t.later ++ pieces) := by
    intro pieces
    induction pieces with
    | nil => exact fun t ht => ⟨t, ht, by rw [List.append_nil, chain]⟩
    | cons q pieces ih =>
      intro t ht
      obtain ⟨hfirst, hlater⟩ := Prod.mk.inj (chain_add q.1 q.2 t)
      obtain ⟨u, hu, hchain⟩ := ih (t.add q.1 q.2) (ht.add q.1 q.2)
      refine ⟨u, hu, ?_⟩
      rw [hchain, hfirst, hlater, List.append_assoc]
      rfl
  exact hbuild pieces (.operand a) .operand

end Tree

end Formula

end Screenmark
