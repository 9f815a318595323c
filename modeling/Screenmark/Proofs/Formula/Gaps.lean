/-
  Screenmark — formulas from left to right.

  The tokens of a formula can be gone through from left to right with little to remember:
  whether an operand or an operator comes next, and which groups and calls are open (`Gap`).
  So the place of every operator is known from the tokens in front of it, and the operators
  between operands come in the order in which they stand in the formula, a comma standing for
  the operator that is called (`passes_of_parse`). Two texts that begin alike up to an operator
  between operands, and have different ones there, are different formulas
  (`Passes.joints_ne`).
-/
import Screenmark.Proofs.Formula.Precedence

namespace Screenmark

namespace Formula

/-- The operators between operands, from left to right. -/
def joints : Formula → List InfixOp
  | .literal _ | .name _ => []
  | .prefixed _ e | .postfixed _ e => e.joints
  | .joined op l r => l.joints ++ op :: r.joints

/-! ## Gaps between tokens -/

/-- What comes next in a formula. -/
inductive Next where
  /-- an operand, or an operator before one -/
  | operand
  /-- the parenthesis of a call -/
  | call (op : InfixOp)
  /-- an operator behind an operand, or the end of a group, an argument or the formula -/
  | operator

/-- A gap between tokens: what comes next, and the groups and calls that are open, from the
    innermost one on. -/
structure Gap where
  next : Next
  opened : List (Option InfixOp)

section
variable (table : Table)

/-- A token leads from one gap to the next, and stands for the operators between operands. -/
inductive Step : Gap → Token → List InfixOp → Gap → Prop
  | number {opened : List (Option InfixOp)} {x : Double} :
      Step ⟨.operand, opened⟩ (.number x) [] ⟨.operator, opened⟩
  | name {opened : List (Option InfixOp)} {n : String} :
      Step ⟨.operand, opened⟩ (.ident n) [] ⟨.operator, opened⟩
  | before {opened : List (Option InfixOp)} {s : String} : table.infixOps.find? s = none →
      Step ⟨.operand, opened⟩ (.op s) [] ⟨.operand, opened⟩
  | calls {opened : List (Option InfixOp)} {s : String} {op : InfixOp} :
      table.infixOps.find? s = some op →
      Step ⟨.operand, opened⟩ (.op s) [] ⟨.call op, opened⟩
  | opens {opened : List (Option InfixOp)} :
      Step ⟨.operand, opened⟩ .lparen [] ⟨.operand, none :: opened⟩
  | opensCall {opened : List (Option InfixOp)} {op : InfixOp} :
      Step ⟨.call op, opened⟩ .lparen [] ⟨.operand, some op :: opened⟩
  | between {opened : List (Option InfixOp)} {s : String} {op : InfixOp} :
      table.infixOps.find? s = some op →
      Step ⟨.operator, opened⟩ (.op s) [op] ⟨.operand, opened⟩
  | after {opened : List (Option InfixOp)} {s : String} : table.infixOps.find? s = none →
      Step ⟨.operator, opened⟩ (.op s) [] ⟨.operator, opened⟩
  | closes {opened : List (Option InfixOp)} {o : Option InfixOp} :
      Step ⟨.operator, o :: opened⟩ .rparen [] ⟨.operator, opened⟩
  | comma {opened : List (Option InfixOp)} {op : InfixOp} :
      Step ⟨.operator, some op :: opened⟩ .comma [op] ⟨.operand, some op :: opened⟩

/-- The tokens lead from one gap to another. -/
inductive Passes : Gap → List Token → List InfixOp → Gap → Prop
  | nil {g : Gap} : Passes g [] [] g
  | cons {g g₁ g₂ : Gap} {t : Token} {ts : List Token} {ops ops₁ : List InfixOp} :
      Step table g t ops g₁ → Passes g₁ ts ops₁ g₂ → Passes g (t :: ts) (ops ++ ops₁) g₂

end

variable {table : Table} {g g₁ g₂ : Gap} {opened : List (Option InfixOp)} {t : Token}
  {ts us : List Token} {ops ops₁ ops₂ : List InfixOp} {s s' : String} {op op' : InfixOp}
  {e f : Formula}

/-- What a token leads to is settled by the gap. -/
theorem Step.unique (h : Step table g t ops g₁) (h' : Step table g t ops₁ g₂) :
    ops = ops₁ ∧ g₁ = g₂ := by
  cases h <;> cases h' <;> simp_all

/-- So is what several tokens lead to. -/
theorem Passes.unique (h : Passes table g ts ops g₁) (h' : Passes table g ts ops₁ g₂) :
    ops = ops₁ ∧ g₁ = g₂ := by
  induction h generalizing ops₁ with
  | nil =>
    cases h'
    exact ⟨rfl, rfl⟩
  | cons hstep _ ih =>
    cases h' with
    | cons hstep' hrest =>
      obtain ⟨rfl, rfl⟩ := hstep.unique hstep'
      obtain ⟨rfl, rfl⟩ := ih hrest
      exact ⟨rfl, rfl⟩

theorem passes_singleton (h : Step table g t ops g₁) : Passes table g [t] ops g₁ :=
  List.append_nil ops ▸ .cons h .nil

theorem Passes.append (h : Passes table g ts ops g₁) (h' : Passes table g₁ us ops₁ g₂) :
    Passes table g (ts ++ us) (ops ++ ops₁) g₂ := by
  induction h with
  | nil => exact h'
  | cons hstep _ ih =>
    rw [List.append_assoc]
    exact .cons hstep (ih h')

theorem Passes.exists_of_append (h : Passes table g (ts ++ us) ops g₂) : ∃ ops₁ ops₂ g₁,
    Passes table g ts ops₁ g₁ ∧ Passes table g₁ us ops₂ g₂ ∧ ops = ops₁ ++ ops₂ := by
  induction ts generalizing g ops with
  | nil => exact ⟨[], ops, g, .nil, h, rfl⟩
  | cons t ts ih =>
    cases h with
    | cons hstep hrest =>
      obtain ⟨ops₁, ops₂, g₁, hts, hus, rfl⟩ := ih hrest
      exact ⟨_, ops₂, g₁, .cons hstep hts, hus, (List.append_assoc ..).symm⟩

/-! ## Formulas -/

/-- The operators of a tree are those of its operands, with its own between them. -/
theorem joints_tree : ∀ t : Tree,
    t.formula.joints = t.first.joints ++ t.later.flatMap fun q => q.1 :: q.2.joints
  | .operand e => by simp [Tree.formula, Tree.first, Tree.later]
  | .node op l r => by
    simp only [Tree.formula, joints, Tree.first, Tree.later, joints_tree l, joints_tree r,
      List.flatMap_append, List.flatMap_cons, List.append_assoc, List.cons_append]

theorem joints_foldr_prefixed (before : List (String × UnaryOp)) (e : Formula) :
    (before.foldr (.prefixed ·.2 ·) e).joints = e.joints := by
  induction before with
  | nil => rfl
  | cons q before ih => exact ih

theorem joints_foldl_postfixed (after : List (String × UnaryOp)) (e : Formula) :
    (after.foldl (fun e q => .postfixed q.2 e) e).joints = e.joints := by
  induction after generalizing e with
  | nil => rfl
  | cons q after ih => exact ih (.postfixed q.2 e)

theorem joints_foldl_joined (op : InfixOp) (others : List Formula) (e : Formula) :
    (others.foldl (.joined op) e).joints =
      e.joints ++ others.flatMap fun f => op :: f.joints := by
  induction others generalizing e with
  | nil => exact (List.append_nil _).symm
  | cons f others ih =>
    rw [List.foldl_cons, ih, joints, List.append_assoc, List.flatMap_cons]

/-- Operators that keep a gap as it is. -/
theorem passes_map_op {qs : List (String × UnaryOp)}
    (h : ∀ q ∈ qs, Step table g (.op q.1) [] g) : Passes table g (qs.map (.op ·.1)) [] g := by
  induction qs with
  | nil => exact .nil
  | cons q qs ih =>
    rw [List.forall_mem_cons] at h
    exact .cons h.1 (ih h.2)

theorem passes_joins {links : List Link}
    (hops : ∀ k ∈ links, table.infixOps.find? k.symbol = some k.op)
    (h : ∀ k ∈ links, Passes table ⟨.operand, opened⟩ k.tokens k.operand.joints
      ⟨.operator, opened⟩) :
    Passes table ⟨.operator, opened⟩ (joins (links.map Link.source))
      ((links.map Link.piece).flatMap fun q => q.1 :: q.2.joints) ⟨.operator, opened⟩ := by
  induction links with
  | nil => exact .nil
  | cons k links ih =>
    rw [List.forall_mem_cons] at hops h
    have hall := Passes.cons (.between hops.1) (h.1.append (ih hops.2 h.2))
    rw [List.map_cons, List.map_cons, joins, List.flatMap_cons, List.flatMap_cons]
    exact hall

theorem passes_arguments {others : List (List Token × Formula)}
    (h : ∀ q ∈ others, Passes table ⟨.operand, some op :: opened⟩ q.1 q.2.joints
      ⟨.operator, some op :: opened⟩) :
    Passes table ⟨.operator, some op :: opened⟩ ((others.map (·.1)).flatMap (.comma :: ·))
      ((others.map (·.2)).flatMap fun f => op :: f.joints) ⟨.operator, some op :: opened⟩ := by
  induction others with
  | nil => exact .nil
  | cons q others ih =>
    rw [List.forall_mem_cons] at h
    have hall := Passes.cons .comma (h.1.append (ih h.2))
    rw [List.map_cons, List.map_cons, List.flatMap_cons, List.flatMap_cons]
    exact hall

/-- **What writes a formula leads behind it**, with its operators between operands in order. -/
theorem passes_of_writes (hapart : table.IsApart) {p : Phrase} (h : Writes table p ts e) :
    ∀ opened, Passes table ⟨.operand, opened⟩ ts e.joints ⟨.operator, opened⟩ := by
  induction h with
  | @formula u a links t _ hops _ _ hchain ihu ihlinks =>
    intro opened
    obtain ⟨hfirst, hlater⟩ := Prod.mk.inj hchain
    rw [joints_tree, hfirst, hlater]
    exact (ihu opened).append (passes_joins hops fun k hk => ihlinks k hk opened)
  | @unary before after ts a hbefore _ hafter ih =>
    intro opened
    have hbetween : ∀ q ∈ before, table.infixOps.find? q.1 = none := fun q hq =>
      NameMap.contains_eq_false_iff.1
        (hapart.before_between q.1 (NameMap.contains_iff.2 ⟨q.2, hbefore q hq⟩))
    have hbehind : ∀ q ∈ after, table.infixOps.find? q.1 = none := fun q hq => by
      refine NameMap.contains_eq_false_iff.1 (Bool.eq_false_iff.2 fun hinfix => ?_)
      have hno := hapart.between_after q.1 hinfix
      rw [NameMap.contains_iff.2 ⟨q.2, hafter q hq⟩] at hno
      cases hno
    rw [joints_foldr_prefixed, joints_foldl_postfixed]
    have hall := ((passes_map_op fun q hq => .before (hbetween q hq)).append (ih opened)).append
      (passes_map_op fun q hq => .after (hbehind q hq))
    rwa [List.nil_append, List.append_nil] at hall
  | number => exact fun opened => passes_singleton .number
  | word _ => exact fun opened => passes_singleton .name
  | name _ => exact fun opened => passes_singleton .name
  | group _ ih =>
    intro opened
    have hall := Passes.cons .opens ((ih (none :: opened)).append (passes_singleton .closes))
    rwa [List.nil_append, List.append_nil] at hall
  | @call s op first e others hop _ _ _ ihfirst ihothers =>
    intro opened
    have hinner := (ihfirst (some op :: opened)).append
      (passes_arguments fun q hq => ihothers q hq (some op :: opened))
    have hall := Passes.cons (.calls hop) (.cons .opensCall
      (hinner.append (passes_singleton .closes)))
    rw [List.nil_append, List.nil_append, List.append_nil] at hall
    rw [joints_foldl_joined]
    simpa only [List.cons_append, List.append_assoc] using hall

/-- The tokens of a text that is a formula write this formula. -/
theorem exists_writes_of_parse (hapart : table.IsApart) {source : String}
    (h : parse table source = .ok e) : ∃ ls, tokens table source.toList = .ok ls ∧
      Writes table .formula (ls.map Prod.snd) e := by
  rcases hls : tokens table source.toList with f | ls
  · unfold parse at h
    simp only [hls] at h
    cases h
  · obtain ⟨f, hf⟩ := exists_writes_of_derives
      ((parse_eq_ok_iff_derives hapart hls).1.1 ⟨e, h⟩)
    have hread := isRead_of_writes hapart hf (bytes source.toList) ls rfl
    rw [← parse_eq_ok_iff hls, h] at hread
    exact ⟨ls, rfl, Except.ok.inj hread ▸ hf⟩

/-- The tokens of a text that is a formula are gone through from left to right. -/
theorem passes_of_parse (hapart : table.IsApart) {source : String}
    (h : parse table source = .ok e) : ∃ ls, tokens table source.toList = .ok ls ∧
      Passes table ⟨.operand, []⟩ (ls.map Prod.snd) e.joints ⟨.operator, []⟩ := by
  obtain ⟨ls, hls, hwrites⟩ := exists_writes_of_parse hapart h
  exact ⟨ls, hls, passes_of_writes hapart hwrites []⟩

/-! ## Where two formulas part -/

/-- Behind an operand an operator of the table stands between it and the next one. -/
theorem Passes.exists_of_operator (hs : table.infixOps.find? s = some op)
    (h : Passes table ⟨.operator, opened⟩ (.op s :: ts) ops g) :
    ∃ ops', ops = op :: ops' ∧ Passes table ⟨.operand, opened⟩ ts ops' g := by
  cases h with
  | cons hstep hrest =>
    cases hstep with
    | between hop =>
      cases hs.symm.trans hop
      exact ⟨_, rfl, hrest⟩
    | after hnone => cases hs.symm.trans hnone

/-- Where an operator between operands is exchanged for another one, there is another formula,
    whatever stands behind it. -/
theorem Passes.joints_ne {pre post post' : List Token} (hs : table.infixOps.find? s = some op)
    (hs' : table.infixOps.find? s' = some op') (hne : op ≠ op')
    (hpre : Passes table g pre ops ⟨.operator, opened⟩)
    (h : Passes table g (pre ++ .op s :: post) ops₁ g₁)
    (h' : Passes table g (pre ++ .op s' :: post') ops₂ g₂) : ops₁ ≠ ops₂ := by
  obtain ⟨_, rest, _, hfront, hback, rfl⟩ := h.exists_of_append
  obtain ⟨rfl, rfl⟩ := hfront.unique hpre
  obtain ⟨_, rest', _, hfront', hback', rfl⟩ := h'.exists_of_append
  obtain ⟨rfl, rfl⟩ := hfront'.unique hpre
  obtain ⟨ops', rfl, -⟩ := hback.exists_of_operator hs
  obtain ⟨ops'', rfl, -⟩ := hback'.exists_of_operator hs'
  intro heq
  exact hne (List.cons.inj (List.append_cancel_left heq)).1

end Formula

end Screenmark
