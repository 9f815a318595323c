/-
  Screenmark — the grammar of formulas.

      formula := unary (infix unary)*
      unary   := prefix* atom postfix*
      atom    := number | name | '(' formula ')'
               | infix '(' formula (',' formula)+ ')'

  `Derives` is this grammar as a relation on tokens; precedences do not occur in it.
  What the parser takes off the tokens is always a phrase, and the formula that it
  makes of the phrase has the same leaves in the same order (`sound`).

  The induction is on the fuel, over all functions of the parser at once: `Sound`
  says what they give with a given fuel, and there is one lemma for each of them.
-/
import Screenmark.Proofs.Formula.Meaning

namespace Screenmark

namespace Formula

variable {table : Table} {stop fuel power : Nat} {ls rest : List Lexeme} {e lhs : Formula}

/-! ## Phrases -/

inductive Phrase where
  | formula
  | unary
  | atom

/-- Operators with the operands behind them. -/
def joins (rest : List (String × List Token)) : List Token :=
  rest.flatMap fun q => .op q.1 :: q.2

/-- The tokens make up a phrase. -/
inductive Derives (table : Table) : Phrase → List Token → Prop
  | formula {u : List Token} {rest : List (String × List Token)} :
      Derives table .unary u → (∀ q ∈ rest, table.infixOps.contains q.1 = true) →
      (∀ q ∈ rest, Derives table .unary q.2) → Derives table .formula (u ++ joins rest)
  | unary {before after : List String} {a : List Token} :
      (∀ s ∈ before, table.prefixOps.contains s = true) → Derives table .atom a →
      (∀ s ∈ after, table.postfixOps.contains s = true) →
      Derives table .unary (before.map .op ++ a ++ after.map .op)
  | number {x : Double} : Derives table .atom [.number x]
  | name {n : String} : Derives table .atom [.ident n]
  | group {ts : List Token} : Derives table .formula ts →
      Derives table .atom (.lparen :: ts ++ [.rparen])
  | call {s : String} {first : List Token} {others : List (List Token)} :
      table.infixOps.contains s = true → Derives table .formula first → others ≠ [] →
      (∀ ts ∈ others, Derives table .formula ts) →
      Derives table .atom (.op s :: .lparen :: first ++ others.flatMap (.comma :: ·) ++ [.rparen])

/-- No phrase is empty. -/
theorem Derives.length_pos {p : Phrase} {ts : List Token} (h : Derives table p ts) :
    0 < ts.length := by
  induction h with
  | formula _ _ _ ih _ =>
    rw [List.length_append]
    omega
  | unary _ _ _ ih =>
    rw [List.length_append, List.length_append]
    omega
  | number | name | group | call => simp

/-- The leaf that a token writes: a number, a literal written as a word, or a name. -/
def Token.leaf? : Token → Option Leaf
  | .number x => some (.value (.number x))
  | .ident n =>
    match Value.keyword? n with
    | some v => some (.value v)
    | none => some (.name n)
  | .op _ | .lparen | .rparen | .comma => none

/-- The name that a token writes, unless it is a word for a literal. -/
def Token.name? : Token → Option String
  | .ident n => if (Value.keyword? n).isNone then some n else none
  | .number _ | .op _ | .lparen | .rparen | .comma => none

theorem Token.name?_eq (t : Token) : t.leaf?.bind Leaf.name? = t.name? := by
  cases t with
  | ident n => cases h : Value.keyword? n <;> simp [leaf?, name?, Leaf.name?, h]
  | number x => rfl
  | op s => rfl
  | lparen => rfl
  | rparen => rfl
  | comma => rfl

/-- The leaves that tokens write. -/
def leavesOf (ts : List Token) : List Leaf := ts.filterMap Token.leaf?

@[simp] theorem leavesOf_append (ts us : List Token) :
    leavesOf (ts ++ us) = leavesOf ts ++ leavesOf us := List.filterMap_append

theorem leavesOf_op (s : String) (ts : List Token) : leavesOf (.op s :: ts) = leavesOf ts := rfl

theorem leavesOf_map_op (symbols : List String) : leavesOf (symbols.map .op) = [] := by
  induction symbols with
  | nil => rfl
  | cons s symbols ih => exact ih

theorem names_of_leaves {ts : List Token} (h : e.leaves = leavesOf ts) :
    e.names = ts.filterMap Token.name? := by
  rw [names_eq_leaves, h, leavesOf, List.filterMap_filterMap]
  exact congrArg (ts.filterMap ·) (funext Token.name?_eq)

/-! ## What the parser takes off -/

/-- A phrase in front of `rest` is read as the formula. -/
def Reads (table : Table) (p : Phrase) (ls rest : List Lexeme) (e : Formula) : Prop :=
  ∃ front, ls = front ++ rest ∧ Derives table p (front.map Prod.snd) ∧
    e.leaves = leavesOf (front.map Prod.snd)

/-- Operators with operands in front of `rest` carry on the formula `lhs`. -/
def GoesOn (table : Table) (ls rest : List Lexeme) (lhs e : Formula) : Prop :=
  ∃ front, ∃ joined : List (String × List Token), ls = front ++ rest ∧
    front.map Prod.snd = joins joined ∧ (∀ q ∈ joined, table.infixOps.contains q.1 = true) ∧
    (∀ q ∈ joined, Derives table .unary q.2) ∧
    e.leaves = lhs.leaves ++ leavesOf (front.map Prod.snd)

/-- Formulas behind commas in front of `rest` are read. -/
def Lists (table : Table) (ls rest : List Lexeme) (es : List Formula) : Prop :=
  ∃ front, ∃ pieces : List (List Token), ls = front ++ rest ∧
    front.map Prod.snd = pieces.flatMap (.comma :: ·) ∧ pieces.length = es.length ∧
    (∀ ts ∈ pieces, Derives table .formula ts) ∧
    es.flatMap leaves = leavesOf (front.map Prod.snd)

/-- Whether a parenthesis comes next. -/
def startsGroup : List Lexeme → Bool
  | (_, .lparen) :: _ => true
  | _ => false

theorem takePrefixes_op (p : Nat) (s : String) (ls : List Lexeme) :
    takePrefixes table ((p, .op s) :: ls) =
      match table.infixOps.contains s && startsGroup ls, table.prefixOps.find? s with
      | false, some op => (op :: (takePrefixes table ls).1, (takePrefixes table ls).2)
      | _, _ => ([], (p, .op s) :: ls) := by
  rcases ls with _ | ⟨⟨q, t⟩, ls⟩
  · rfl
  · cases t <;> rfl

theorem takePrefixes_spec (table : Table) : ∀ (ls : List Lexeme),
    ∃ front, ∃ before : List String, ls = front ++ (takePrefixes table ls).2 ∧
      front.map Prod.snd = before.map .op ∧ ∀ s ∈ before, table.prefixOps.contains s = true
  | [] => ⟨[], [], rfl, rfl, by simp⟩
  | (p, t) :: ls => by
    cases t with
    | op s =>
      rw [takePrefixes_op]
      split
      · next op _ hop =>
        obtain ⟨front, before, hfront, hbefore, hmem⟩ := takePrefixes_spec table ls
        refine ⟨(p, .op s) :: front, s :: before, ?_, ?_, ?_⟩
        · exact congrArg ((p, .op s) :: ·) hfront
        · rw [List.map_cons, List.map_cons, hbefore]
        · intro s' hs'
          rcases List.mem_cons.1 hs' with rfl | hs'
          · exact NameMap.contains_iff.2 ⟨op, hop⟩
          · exact hmem s' hs'
      · exact ⟨[], [], rfl, rfl, by simp⟩
    | number x => exact ⟨[], [], rfl, rfl, by simp⟩
    | ident n => exact ⟨[], [], rfl, rfl, by simp⟩
    | lparen => exact ⟨[], [], rfl, rfl, by simp⟩
    | rparen => exact ⟨[], [], rfl, rfl, by simp⟩
    | comma => exact ⟨[], [], rfl, rfl, by simp⟩

theorem takePostfixes_spec (table : Table) : ∀ (ls : List Lexeme) (e : Formula),
    ∃ front, ∃ after : List String, ls = front ++ (takePostfixes table e ls).2 ∧
      front.map Prod.snd = after.map .op ∧ (∀ s ∈ after, table.postfixOps.contains s = true) ∧
      (takePostfixes table e ls).1.leaves = e.leaves
  | [], e => ⟨[], [], rfl, rfl, by simp, rfl⟩
  | (p, t) :: ls, e => by
    cases t with
    | op s =>
      unfold takePostfixes
      split
      · next op hop =>
        obtain ⟨front, after, hfront, hafter, hmem, hleaves⟩ :=
          takePostfixes_spec table ls (.postfixed op e)
        refine ⟨(p, .op s) :: front, s :: after, ?_, ?_, ?_, hleaves⟩
        · exact congrArg ((p, .op s) :: ·) hfront
        · rw [List.map_cons, List.map_cons, hafter]
        · intro s' hs'
          rcases List.mem_cons.1 hs' with rfl | hs'
          · exact NameMap.contains_iff.2 ⟨op, hop⟩
          · exact hmem s' hs'
      · exact ⟨[], [], rfl, rfl, by simp, rfl⟩
    | number x => exact ⟨[], [], rfl, rfl, by simp, rfl⟩
    | ident n => exact ⟨[], [], rfl, rfl, by simp, rfl⟩
    | lparen => exact ⟨[], [], rfl, rfl, by simp, rfl⟩
    | rparen => exact ⟨[], [], rfl, rfl, by simp, rfl⟩
    | comma => exact ⟨[], [], rfl, rfl, by simp, rfl⟩

theorem leaves_foldr_prefixed (ops : List UnaryOp) (e : Formula) :
    (ops.foldr .prefixed e).leaves = e.leaves := by
  induction ops with
  | nil => rfl
  | cons op ops ih => exact ih

theorem leaves_foldl_joined (op : InfixOp) (es : List Formula) (e : Formula) :
    (es.foldl (.joined op) e).leaves = e.leaves ++ es.flatMap leaves := by
  induction es generalizing e with
  | nil => exact (List.append_nil _).symm
  | cons e' es ih =>
    rw [List.foldl_cons, ih, leaves, List.flatMap_cons, List.append_assoc]

theorem close_eq_ok {cause : SyntaxCause} (h : close stop cause ls = .ok rest) :
    ∃ p, ls = (p, .rparen) :: rest := by
  unfold close at h
  split at h
  · next p ls' =>
    cases h
    exact ⟨p, rfl⟩
  · cases h

/-- A formula between parentheses. -/
theorem Reads.group {p q : Nat} (h : Reads table .formula ls ((q, .rparen) :: rest) e) :
    Reads table .atom ((p, .lparen) :: ls) rest e := by
  obtain ⟨front, rfl, hderives, hleaves⟩ := h
  refine ⟨(p, .lparen) :: (front ++ [(q, .rparen)]), ?_, ?_, ?_⟩
  · simp
  · rw [List.map_cons, List.map_append]
    exact .group hderives
  · rw [hleaves, List.map_cons, List.map_append]
    simp [leavesOf, Token.leaf?, List.filterMap_cons]

/-- An operator in front of a list of two formulas or more. -/
theorem Reads.call {p q r : Nat} {s : String} {op : InfixOp} {ls₁ : List Lexeme}
    {others : List Formula} (hop : table.infixOps.find? s = some op)
    (h : Reads table .formula ls ls₁ e) (h' : Lists table ls₁ ((r, .rparen) :: rest) others)
    (hothers : others ≠ []) :
    Reads table .atom ((p, .op s) :: (q, .lparen) :: ls) rest (others.foldl (.joined op) e) := by
  obtain ⟨front, rfl, hderives, hleaves⟩ := h
  obtain ⟨front', pieces, rfl, hpieces, hlength, hformulas, hleaves'⟩ := h'
  have hne : pieces ≠ [] := by
    rintro rfl
    exact hothers (List.length_eq_zero_iff.1 hlength.symm)
  refine ⟨(p, .op s) :: (q, .lparen) :: (front ++ front' ++ [(r, .rparen)]), ?_, ?_, ?_⟩
  · simp
  · rw [List.map_cons, List.map_cons, List.map_append, List.map_append, hpieces]
    exact .call (NameMap.contains_iff.2 ⟨op, hop⟩) hderives hne hformulas
  · rw [leaves_foldl_joined, hleaves, hleaves', ← leavesOf_append]
    simp [leavesOf, Token.leaf?, List.filterMap_cons]

/-! ## Soundness -/

/-- What the functions of the parser give with some fuel. -/
structure Sound (table : Table) (stop fuel : Nat) : Prop where
  expression : ∀ {power ls e rest}, expression table stop fuel power ls = .ok (e, rest) →
    Reads table .formula ls rest e
  climb : ∀ {power lhs ls e rest}, climb table stop fuel power lhs ls = .ok (e, rest) →
    GoesOn table ls rest lhs e
  unary : ∀ {ls e rest}, unary table stop fuel ls = .ok (e, rest) → Reads table .unary ls rest e
  atom : ∀ {ls e rest}, atom table stop fuel ls = .ok (e, rest) → Reads table .atom ls rest e
  arguments : ∀ {ls es rest}, arguments table stop fuel ls = .ok (es, rest) →
    Lists table ls rest es

namespace Sound

variable (h : Sound table stop fuel)
include h

theorem expression_succ (he : Formula.expression table stop (fuel + 1) power ls = .ok (e, rest)) :
    Reads table .formula ls rest e := by
  unfold Formula.expression at he
  split at he
  · cases he
  · next lhs ls' hunary =>
    obtain ⟨front, rfl, hderives, hleaves⟩ := h.unary hunary
    obtain ⟨front', joined, rfl, hjoins, hsymbols, hoperands, hleaves'⟩ := h.climb he
    refine ⟨front ++ front', (List.append_assoc ..).symm, ?_, ?_⟩
    · rw [List.map_append, hjoins]
      exact .formula hderives hsymbols hoperands
    · rw [List.map_append, leavesOf_append, ← hleaves, hleaves']

theorem climb_succ
    (he : Formula.climb table stop (fuel + 1) power lhs ls = .ok (e, rest)) :
    GoesOn table ls rest lhs e := by
  have hstop : ∀ {ls : List Lexeme}, GoesOn table ls ls lhs lhs := fun {ls} =>
    ⟨[], [], rfl, rfl, by simp, by simp, (List.append_nil _).symm⟩
  unfold Formula.climb at he
  split at he
  · next p s ls =>
    split at he
    · cases he
    · next op hop =>
      split at he
      · cases he
        exact hstop
      · dsimp only at he
        split at he
        · cases he
        · next rhs ls' hexpression =>
          obtain ⟨front, rfl, hderives, hleaves⟩ := h.expression hexpression
          obtain ⟨front', joined', rfl, hjoins', hsymbols', hoperands', hleaves'⟩ := h.climb he
          -- The right operand brings operators of its own.
          generalize hts : front.map Prod.snd = ts at hderives
          cases hderives with
          | @formula u joined hu hsymbols hoperands =>
            refine ⟨(p, .op s) :: (front ++ front'), (s, u) :: (joined ++ joined'), ?_, ?_, ?_,
              ?_, ?_⟩
            · rw [List.cons_append, List.append_assoc]
            · rw [List.map_cons, List.map_append, hts, hjoins']
              simp [joins]
            · rw [List.forall_mem_cons, List.forall_mem_append]
              refine ⟨?_, hsymbols, hsymbols'⟩
              exact NameMap.contains_iff.2 ⟨op, hop⟩
            · rw [List.forall_mem_cons, List.forall_mem_append]
              exact ⟨hu, hoperands, hoperands'⟩
            · rw [List.map_cons, leavesOf_op, List.map_append, leavesOf_append, ← hleaves,
                hleaves', leaves, List.append_assoc]
  · cases he
    exact hstop

theorem unary_succ (he : Formula.unary table stop (fuel + 1) ls = .ok (e, rest)) :
    Reads table .unary ls rest e := by
  unfold Formula.unary at he
  dsimp only at he
  split at he
  · cases he
  · next operand ls' hatom =>
    obtain ⟨front, before, hfront, hbefore, hmem⟩ := takePrefixes_spec table ls
    obtain ⟨front', hfront', hderives, hleaves⟩ := h.atom hatom
    obtain ⟨front'', after, hfront'', hafter, hmem', hleaves'⟩ :=
      takePostfixes_spec table ls' operand
    cases he
    refine ⟨front ++ front' ++ front'', ?_, ?_, ?_⟩
    · rw [List.append_assoc, ← hfront'', List.append_assoc, ← hfront', ← hfront]
    · rw [List.map_append, List.map_append, hbefore, hafter]
      exact .unary hmem hderives hmem'
    · rw [leaves_foldr_prefixed, hleaves', hleaves, List.map_append, List.map_append, hbefore, hafter,
        leavesOf_append, leavesOf_append, leavesOf_map_op, leavesOf_map_op, List.nil_append,
        List.append_nil]

theorem arguments_succ {es : List Formula}
    (he : Formula.arguments table stop (fuel + 1) ls = .ok (es, rest)) :
    Lists table ls rest es := by
  unfold Formula.arguments at he
  split at he
  · next p ls =>
    split at he
    · cases he
    · next e ls' hexpression =>
      split at he
      · cases he
      · next es' ls'' harguments =>
        cases he
        obtain ⟨front, rfl, hderives, hleaves⟩ := h.expression hexpression
        obtain ⟨front', pieces, rfl, hpieces, hlength, hformulas, hleaves'⟩ :=
          h.arguments harguments
        refine ⟨(p, .comma) :: (front ++ front'), front.map Prod.snd :: pieces, ?_, ?_, ?_, ?_, ?_⟩
        · rw [List.cons_append, List.append_assoc]
        · rw [List.map_cons, List.map_append, hpieces]
          rfl
        · rw [List.length_cons, List.length_cons, hlength]
        · exact List.forall_mem_cons.2 ⟨hderives, hformulas⟩
        · rw [List.flatMap_cons, hleaves, hleaves', List.map_cons, List.map_append,
            ← leavesOf_append]
          rfl
  · cases he
    exact ⟨[], [], rfl, rfl, rfl, by simp, rfl⟩

theorem atom_succ (he : Formula.atom table stop (fuel + 1) ls = .ok (e, rest)) :
    Reads table .atom ls rest e := by
  unfold Formula.atom at he
  split at he
  · cases he
  · next p x ls =>
    cases he
    exact ⟨[(p, .number x)], rfl, .number, rfl⟩
  · next p n ls =>
    split at he
    · next v hv =>
      cases he
      refine ⟨[(p, .ident n)], rfl, .name, ?_⟩
      simp [leaves, leavesOf, Token.leaf?, hv]
    · next hv =>
      cases he
      refine ⟨[(p, .ident n)], rfl, .name, ?_⟩
      simp [leaves, leavesOf, Token.leaf?, hv]
  · next p ls =>
    split at he
    · cases he
    · next inner ls' hexpression =>
      split at he
      · cases he
      · next ls'' hclose =>
        cases he
        obtain ⟨q, rfl⟩ := close_eq_ok hclose
        exact (h.expression hexpression).group
  · next p s ls =>
    split at he
    · next op q ls' hop =>
      split at he
      · cases he
      · next first ls₁ hexpression =>
        split at he
        · cases he
        · next others ls₂ harguments =>
          split at he
          · cases he
          · next ls₃ hclose =>
            split at he
            · cases he
            · next hothers =>
              cases he
              obtain ⟨r, rfl⟩ := close_eq_ok hclose
              refine (h.expression hexpression).call hop (h.arguments harguments) ?_
              rintro rfl
              exact hothers rfl
    · cases he
  · cases he
  · cases he

end Sound

/-- **What the parser reads is a phrase with the leaves of its tokens.** -/
theorem sound (table : Table) (stop : Nat) : ∀ fuel, Sound table stop fuel
  | 0 =>
    { expression := fun h => by
        rw [expression] at h
        cases h
      climb := fun h => by
        rw [climb] at h
        cases h
      unary := fun h => by
        rw [unary] at h
        cases h
      atom := fun h => by
        rw [atom] at h
        cases h
      arguments := fun h => by
        rw [arguments] at h
        cases h }
  | fuel + 1 =>
    have ih := sound table stop fuel
    ⟨ih.expression_succ, ih.climb_succ, ih.unary_succ, ih.atom_succ, ih.arguments_succ⟩

end Formula

end Screenmark
