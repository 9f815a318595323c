/-
  Screenmark — the parser accepts the grammar.

  If no symbol is an operator in two positions, the parser reads every formula of the
  grammar: one token shows whether an operator stands before its operand, behind it or
  between two, or starts a call. The binding power only decides which of the nested
  loops takes an operator, so it rejects nothing, and what the loops build is the grouped
  tree (`climb_links`).

  * `gives_of_writes` : the parser takes a phrase off in front of any tokens that cannot
    carry it on, with four steps a token, and gives the formula that the phrase writes;
  * `accepts_of_derives` : so it takes off every phrase of the grammar;
  * `parse_eq_ok_iff_derives` : a text is a formula exactly if the grammar derives its
    tokens, and the leaves of the formula are those of the tokens in order.
-/
import Screenmark.Proofs.Formula.Writing

namespace Screenmark

namespace Formula

/-- No symbol is in use in two positions. -/
structure Table.IsApart (table : Table) : Prop where
  before_between : ∀ s, table.prefixOps.contains s = true → table.infixOps.contains s = false
  before_after : ∀ s, table.prefixOps.contains s = true → table.postfixOps.contains s = false
  between_after : ∀ s, table.infixOps.contains s = true → table.postfixOps.contains s = false

variable {table : Table} {stop fuel power : Nat} {ls la rest : List Lexeme} {ts : List Token}
  {e lhs : Formula} {joined : List (String × List Token)}

theorem mem_keys_of_contains {α : Type} {m : NameMap α} {s : String} (h : m.contains s = true) :
    s ∈ m.keys := by
  obtain ⟨v, hv⟩ := NameMap.contains_iff.1 h
  exact List.mem_map.2 ⟨(s, v), NameMap.mem_entries_iff.2 hv, rfl⟩

/-- Whether no symbol is in use in two positions can be seen from the symbols in use. -/
theorem Table.isApart_of_keys
    (hbefore : (table.prefixOps.keys.all fun s =>
      !table.infixOps.contains s && !table.postfixOps.contains s) = true)
    (hbetween : (table.infixOps.keys.all fun s => !table.postfixOps.contains s) = true) :
    table.IsApart := by
  simp only [List.all_eq_true, Bool.and_eq_true, Bool.not_eq_true'] at hbefore hbetween
  exact ⟨fun s hs => (hbefore s (mem_keys_of_contains hs)).1,
    fun s hs => (hbefore s (mem_keys_of_contains hs)).2,
    fun s hs => hbetween s (mem_keys_of_contains hs)⟩

/-! ## What cannot carry a phrase on -/

/-- The tokens do not start with an operator. -/
def Ends (ls : List Lexeme) : Prop := ∀ p s ls', ls ≠ (p, .op s) :: ls'

/-- The tokens do not start with an operator that stands behind its operand. -/
def EndsUnary (table : Table) (ls : List Lexeme) : Prop :=
  ∀ p s ls', ls = (p, .op s) :: ls' → table.postfixOps.contains s = false

theorem ends_nil : Ends [] := by
  intro p s ls' h
  cases h

theorem ends_rparen {p : Nat} : Ends ((p, .rparen) :: ls) := by
  intro q s ls' h
  cases h

theorem ends_comma {p : Nat} : Ends ((p, .comma) :: ls) := by
  intro q s ls' h
  cases h

theorem exists_lexeme_cons {t : Token} (h : ls.map Prod.snd = t :: ts) :
    ∃ p ls', ls = (p, t) :: ls' ∧ ls'.map Prod.snd = ts := by
  obtain ⟨⟨p, u⟩, ls', rfl, rfl, hls'⟩ := List.map_eq_cons_iff.1 h
  exact ⟨p, ls', rfl, hls'⟩

theorem exists_lexeme_singleton {t : Token} (h : ls.map Prod.snd = [t]) : ∃ p, ls = [(p, t)] := by
  obtain ⟨p, ls', rfl, hls'⟩ := exists_lexeme_cons h
  exact ⟨p, by rw [List.map_eq_nil_iff.1 hls']⟩

/-- A further operand can only follow an operator between two. -/
theorem endsUnary_joins (hapart : table.IsApart) (hrest : Ends rest)
    (hsymbols : ∀ q ∈ joined, table.infixOps.contains q.1 = true)
    (hls : ls.map Prod.snd = joins joined) : EndsUnary table (ls ++ rest) := by
  intro p s ls' heq
  rcases joined with _ | ⟨q, joined⟩
  · rw [List.map_eq_nil_iff.1 hls, List.nil_append] at heq
    exact absurd heq (hrest p s ls')
  · obtain ⟨p', ls₁, rfl, -⟩ := exists_lexeme_cons hls
    cases heq
    exact hapart.between_after _ (hsymbols q List.mem_cons_self)

/-! ## Operators before and after an operand -/

/-- An atom does not start with an operator before an operand. -/
theorem takePrefixes_atom (rest : List Lexeme) (ha : Derives table .atom ts)
    (hla : la.map Prod.snd = ts) : takePrefixes table (la ++ rest) = ([], la ++ rest) := by
  cases ha with
  | number | name | group =>
    obtain ⟨p, la', rfl, -⟩ := exists_lexeme_cons hla
    rfl
  | call hs _ _ _ =>
    obtain ⟨p, la', rfl, hla'⟩ := exists_lexeme_cons hla
    obtain ⟨q, la'', rfl, -⟩ := exists_lexeme_cons hla'
    rw [List.cons_append, takePrefixes_op, hs]
    rfl

theorem takePrefixes_map (hapart : table.IsApart) : ∀ {before : List (String × UnaryOp)}
    {lb : List Lexeme}, (∀ q ∈ before, table.prefixOps.find? q.1 = some q.2) →
      lb.map Prod.snd = before.map (.op ·.1) → takePrefixes table ls = ([], ls) →
        takePrefixes table (lb ++ ls) = (before.map (·.2), ls)
  | [], lb, _, hlb, hls => by
    obtain rfl := List.map_eq_nil_iff.1 hlb
    exact hls
  | q :: before, lb, hbefore, hlb, hls => by
    obtain ⟨p, lb', rfl, hlb'⟩ := exists_lexeme_cons hlb
    rw [List.forall_mem_cons] at hbefore
    have hbetween := hapart.before_between q.1 (NameMap.contains_iff.2 ⟨q.2, hbefore.1⟩)
    rw [List.cons_append, takePrefixes_op, hbetween, hbefore.1,
      takePrefixes_map hapart hbefore.2 hlb' hls]
    rfl

theorem takePostfixes_nil (hrest : EndsUnary table rest) :
    takePostfixes table e rest = (e, rest) := by
  unfold takePostfixes
  split
  · next p s ls =>
    rw [NameMap.contains_eq_false_iff.1 (hrest p s ls rfl)]
  · rfl

theorem takePostfixes_map (hrest : EndsUnary table rest) : ∀ {after : List (String × UnaryOp)}
    {lb : List Lexeme} (e : Formula), (∀ q ∈ after, table.postfixOps.find? q.1 = some q.2) →
      lb.map Prod.snd = after.map (.op ·.1) →
        takePostfixes table e (lb ++ rest) = (after.foldl (fun e q => .postfixed q.2 e) e, rest)
  | [], lb, e, _, hlb => by
    obtain rfl := List.map_eq_nil_iff.1 hlb
    exact takePostfixes_nil hrest
  | q :: after, lb, e, hafter, hlb => by
    obtain ⟨p, lb', rfl, hlb'⟩ := exists_lexeme_cons hlb
    rw [List.forall_mem_cons] at hafter
    rw [List.cons_append]
    unfold takePostfixes
    simp only [hafter.1]
    exact takePostfixes_map hrest (.postfixed q.2 e) hafter.2 hlb'

/-! ## Loops of the parser -/

/-- The parser takes the phrase off, in front of tokens that cannot carry it on, and gives the
    formula. -/
def Gives (table : Table) (stop : Nat) : Phrase → List Token → Formula → Prop
  | .formula, ts, e => ∀ fuel ls rest, ls.map Prod.snd = ts → 4 * ls.length ≤ fuel + 1 →
      Ends rest → expression table stop fuel 0 (ls ++ rest) = .ok (e, rest)
  | .unary, ts, e => ∀ fuel ls rest, ls.map Prod.snd = ts → 4 * ls.length ≤ fuel + 2 →
      EndsUnary table rest → unary table stop fuel (ls ++ rest) = .ok (e, rest)
  | .atom, ts, e => ∀ fuel ls rest, ls.map Prod.snd = ts → 4 * ls.length ≤ fuel + 3 →
      atom table stop fuel (ls ++ rest) = .ok (e, rest)

theorem expression_eq (hunary : unary table stop fuel ls = .ok (e, rest)) :
    expression table stop (fuel + 1) power ls = climb table stop fuel power e rest := by
  rw [expression, hunary]

theorem climb_op (stop fuel p : Nat) (lhs : Formula) (ls : List Lexeme) {s : String} {op : InfixOp}
    (hop : table.infixOps.find? s = some op) (hpower : ¬ op.power < power) {rhs : Formula}
    {ls' : List Lexeme} (hrhs : expression table stop fuel op.next ls = .ok (rhs, ls')) :
    climb table stop (fuel + 1) power lhs ((p, .op s) :: ls) =
      climb table stop fuel power (.joined op lhs rhs) ls' := by
  unfold InfixOp.next at hrhs
  cases hside : op.associativity with
  | left =>
    rw [hside] at hrhs
    conv => lhs; unfold climb
    simp only [hop, if_neg hpower, hside, hrhs]
  | right =>
    rw [hside] at hrhs
    conv => lhs; unfold climb
    simp only [hop, if_neg hpower, hside, hrhs]

/-- A loop with the given power has made `u` of `t`: it has taken some operators with their
    operands and left others. -/
structure Climbs (power : Nat) (t : Tree) (taken left : List Link) (u : Tree) : Prop where
  isGrouped : u.IsGrouped
  chain : u.chain = (t.first, t.later ++ taken.map Link.piece)
  root : ∀ o ∈ u.root?, o ∈ t.root? ∨ power ≤ o.power
  stops : ∀ k ∈ left.head?, k.op.power < power

/-- A loop that takes nothing. -/
theorem Climbs.nothing {t : Tree} {left : List Link} (ht : t.IsGrouped)
    (hstops : ∀ k ∈ left.head?, k.op.power < power) : Climbs power t [] left t :=
  ⟨ht, by rw [List.map_nil, List.append_nil, Tree.chain], fun _ ho => .inl ho, hstops⟩

/-- What a nested loop gives is the right operand of the operator in front of it. -/
theorem Climbs.isGrouped_node {k : Link} {t u : Tree} {taken left : List Link} (ht : t.IsGrouped)
    (hroot : ∀ o ∈ t.root?, k.op.HoldsLeft o)
    (h : Climbs k.op.next (.operand k.operand) taken left u) :
    (Tree.node k.op t u).IsGrouped := by
  refine .node ht h.isGrouped hroot fun o ho => ?_
  rcases h.root o ho with hnone | hpower
  · cases hnone
  · exact InfixOp.holdsRight_iff.2 hpower

/-- A loop goes on behind the operator that it has taken. -/
theorem Climbs.goesOn {k : Link} {t u v : Tree} {taken taken' left left' : List Link}
    (hpower : power ≤ k.op.power) (h : Climbs k.op.next (.operand k.operand) taken left u)
    (h' : Climbs power (.node k.op t u) taken' left' v) :
    Climbs power t (k :: (taken ++ taken')) left' v := by
  refine ⟨h'.isGrouped, ?_, fun o ho => ?_, h'.stops⟩
  · obtain ⟨hfirst, hlater⟩ := Prod.mk.inj h.chain
    rw [h'.chain, Tree.first, Tree.later, hfirst, hlater]
    simp [Tree.first, Tree.later, Link.piece]
  · rcases h'.root o ho with htop | hle
    · cases htop
      exact .inr hpower
    · exact .inr hle

theorem length_le_of_joins {left : List (String × List Token)} (hleft : left <:+ joined)
    (hls : ls.map Prod.snd = joins joined) (hla : la.map Prod.snd = joins left) :
    la.length ≤ ls.length := by
  obtain ⟨taken, rfl⟩ := hleft
  rw [joins, List.flatMap_append] at hls
  have hlength := congrArg List.length hls
  rw [List.length_map, List.length_append] at hlength
  rw [← List.length_map Prod.snd, hla, joins]
  omega

/-- **Nested loops build a grouped tree.** Each loop takes the operators that bind tightly
    enough for it; the one in front of it has taken its top only if the next operator may
    hold that. -/
theorem climb_links (hapart : table.IsApart) (hrest : Ends rest) :
    ∀ {links : List Link}, (∀ k ∈ links, table.infixOps.find? k.symbol = some k.op) →
      (∀ k ∈ links, Gives table stop .unary k.tokens k.operand) →
      ∀ (fuel power : Nat) (t : Tree) (ls : List Lexeme),
        ls.map Prod.snd = joins (links.map Link.source) → 4 * ls.length + 1 ≤ fuel →
        t.IsGrouped → (∀ k ∈ links.head?, ∀ o ∈ t.root?, k.op.HoldsLeft o) →
        ∃ taken left u ls', climb table stop fuel power t.formula (ls ++ rest) =
          .ok (u.formula, ls' ++ rest) ∧ links = taken ++ left ∧
            ls'.map Prod.snd = joins (left.map Link.source) ∧ Climbs power t taken left u
  | [], _, _, fuel + 1, power, t, ls, hls, _, ht, _ => by
    obtain rfl := List.map_eq_nil_iff.1 hls
    refine ⟨[], [], t, [], ?_, rfl, rfl, .nothing ht fun k hk => by cases hk⟩
    unfold climb
    split
    · next p s ls' heq =>
      exact absurd heq (hrest p s ls')
    · rfl
  | k :: later, hops, hoperands, fuel + 1, power, t, ls, hls, hfuel, ht, hroot => by
    obtain ⟨p, lr, rfl, hlr⟩ := exists_lexeme_cons hls
    obtain ⟨lu, lj, rfl, hlu, hlj⟩ := List.map_eq_append_iff.1 hlr
    have hops' := List.forall_mem_cons.1 hops
    have hoperands' := List.forall_mem_cons.1 hoperands
    rw [List.cons_append, List.append_assoc]
    by_cases hpower : k.op.power < power
    · refine ⟨[], k :: later, t, (p, .op k.symbol) :: (lu ++ lj), ?_, rfl, ?_,
        .nothing ht fun k' hk' => ?_⟩
      · unfold climb
        simp only [Link.source, hops'.1, if_pos hpower]
        rw [List.cons_append, List.append_assoc]
      · rw [List.map_cons, List.map_append, hlu, hlj]
        rfl
      · cases hk'
        exact hpower
    · simp only [List.length_cons, List.length_append] at hfuel
      obtain ⟨fuel', rfl⟩ : ∃ fuel', fuel = fuel' + 1 := ⟨fuel - 1, by omega⟩
      have hsymbols : ∀ q ∈ later.map Link.source, table.infixOps.contains q.1 = true := by
        intro q hq
        obtain ⟨k', hk', rfl⟩ := List.mem_map.1 hq
        exact NameMap.contains_iff.2 ⟨k'.op, hops'.2 k' hk'⟩
      have hoperand := hoperands'.1 fuel' lu (lj ++ rest) hlu (by omega)
        (endsUnary_joins hapart hrest hsymbols hlj)
      obtain ⟨taken, left, u, ls', hnested, rfl, hls', hclimbs⟩ :=
        climb_links hapart hrest hops'.2 hoperands'.2 fuel' k.op.next (.operand k.operand) lj hlj
          (by omega) .operand (fun k' _ o ho => by cases ho)
      -- The nested loop has left a part of the operators, which this one goes on with.
      have hlength := length_le_of_joins ((List.suffix_append taken left).map Link.source) hlj hls'
      have hdecreases : left.length < (taken ++ left).length + 1 := by
        rw [List.length_append]
        omega
      have hmem : ∀ {k'}, k' ∈ left → k' ∈ taken ++ left := List.mem_append_right taken
      obtain ⟨taken', left', v, ls'', hgoesOn, rfl, hls'', hclimbs'⟩ :=
        climb_links hapart hrest (fun k' hk' => hops'.2 k' (hmem hk'))
          (fun k' hk' => hoperands'.2 k' (hmem hk')) (fuel' + 1) power (.node k.op t u) ls' hls'
          (by omega) (hclimbs.isGrouped_node ht (hroot k rfl)) (fun k' hk' o ho => by
            cases ho
            exact InfixOp.holdsLeft_iff.2 (hclimbs.stops k' hk'))
      refine ⟨k :: (taken ++ taken'), left', v, ls'', ?_, ?_, hls'',
        hclimbs.goesOn (Nat.not_lt.1 hpower) hclimbs'⟩
      · exact (climb_op stop _ p t.formula _ hops'.1 hpower
          ((expression_eq hoperand).trans hnested)).trans hgoesOn
      · rw [List.cons_append, List.append_assoc]
termination_by links => links.length

/-! ## Acceptance -/

theorem ends_arguments {p : Nat} {others : List (List Token)}
    (hls : ls.map Prod.snd = others.flatMap (.comma :: ·)) :
    Ends (ls ++ (p, .rparen) :: rest) := by
  rcases others with _ | ⟨ts, others⟩
  · rw [List.map_eq_nil_iff.1 hls]
    exact ends_rparen
  · obtain ⟨q, ls', rfl, -⟩ := exists_lexeme_cons hls
    exact ends_comma

theorem arguments_flatMap (p : Nat) (rest : List Lexeme) : ∀ {others : List (List Token × Formula)},
    (∀ q ∈ others, Gives table stop .formula q.1 q.2) → ∀ (fuel : Nat) (ls : List Lexeme),
      ls.map Prod.snd = (others.map (·.1)).flatMap (.comma :: ·) → 4 * ls.length + 1 ≤ fuel →
        arguments table stop fuel (ls ++ (p, .rparen) :: rest) =
          .ok (others.map (·.2), (p, .rparen) :: rest)
  | [], _, fuel + 1, ls, hls, _ => by
    obtain rfl := List.map_eq_nil_iff.1 hls
    rw [List.nil_append, arguments]
    · rfl
    · simp
  | q :: others, hothers, fuel + 1, ls, hls, hfuel => by
    rw [List.map_cons, List.flatMap_cons, List.cons_append] at hls
    obtain ⟨p', lr, rfl, hlr⟩ := exists_lexeme_cons hls
    obtain ⟨lt, lo, rfl, hlt, hlo⟩ := List.map_eq_append_iff.1 hlr
    rw [List.forall_mem_cons] at hothers
    simp only [List.length_cons, List.length_append] at hfuel
    have he := hothers.1 fuel lt (lo ++ (p, .rparen) :: rest) hlt (by omega) (ends_arguments hlo)
    have hes := arguments_flatMap p rest hothers.2 fuel lo hlo (by omega)
    rw [List.cons_append, List.append_assoc]
    unfold arguments
    simp only [he, hes, List.map_cons]

theorem gives_formula (hapart : table.IsApart) {a : Formula} {links : List Link} {t : Tree}
    (hts : 0 < ts.length) (hunary : Gives table stop .unary ts a)
    (hops : ∀ k ∈ links, table.infixOps.find? k.symbol = some k.op)
    (hoperands : ∀ k ∈ links, Gives table stop .unary k.tokens k.operand)
    (ht : t.IsGrouped) (hchain : t.chain = (a, links.map Link.piece)) :
    Gives table stop .formula (ts ++ joins (links.map Link.source)) t.formula := by
  intro fuel ls rest hls hfuel hrest
  obtain ⟨lu, lj, rfl, hlu, hlj⟩ := List.map_eq_append_iff.1 hls
  rw [← hlu, List.length_map] at hts
  rw [List.length_append] at hfuel
  obtain ⟨fuel', rfl⟩ : ∃ fuel', fuel = fuel' + 1 := ⟨fuel - 1, by omega⟩
  have hsymbols : ∀ q ∈ links.map Link.source, table.infixOps.contains q.1 = true := by
    intro q hq
    obtain ⟨k, hk, rfl⟩ := List.mem_map.1 hq
    exact NameMap.contains_iff.2 ⟨k.op, hops k hk⟩
  have hfirst := hunary fuel' lu (lj ++ rest) hlu (by omega)
    (endsUnary_joins hapart hrest hsymbols hlj)
  obtain ⟨taken, left, u, ls', hclimb, rfl, hls', hclimbs⟩ :=
    climb_links hapart hrest hops hoperands fuel' 0 (.operand a) lj hlj (by omega) .operand
      (fun k _ o ho => by cases ho)
  -- No operator binds too loosely for the outermost loop.
  obtain rfl : left = [] := by
    cases left with
    | nil => rfl
    | cons k left => exact absurd (hclimbs.stops k rfl) (Nat.not_lt_zero _)
  obtain rfl := List.map_eq_nil_iff.1 hls'
  have hsame : u = t := by
    refine hclimbs.isGrouped.unique ht (hclimbs.chain.trans ?_)
    rw [hchain, List.append_nil]
    rfl
  rw [List.append_assoc, expression_eq hfirst, ← hsame]
  exact hclimb

theorem gives_unary (hapart : table.IsApart) {before after : List (String × UnaryOp)} {a : Formula}
    (hbefore : ∀ q ∈ before, table.prefixOps.find? q.1 = some q.2)
    (hafter : ∀ q ∈ after, table.postfixOps.find? q.1 = some q.2) (hts : Derives table .atom ts)
    (hatom : Gives table stop .atom ts a) :
    Gives table stop .unary (before.map (.op ·.1) ++ ts ++ after.map (.op ·.1))
      (before.foldr (.prefixed ·.2 ·) (after.foldl (fun e q => .postfixed q.2 e) a)) := by
  intro fuel ls rest hls hfuel hrest
  obtain ⟨lba, lafter, rfl, hlba, hlafter⟩ := List.map_eq_append_iff.1 hls
  obtain ⟨lbefore, la, rfl, hlbefore, hla⟩ := List.map_eq_append_iff.1 hlba
  simp only [List.length_append] at hfuel
  have hpos : 0 < la.length := by
    rw [← List.length_map Prod.snd, hla]
    exact hts.length_pos
  obtain ⟨fuel', rfl⟩ : ∃ fuel', fuel = fuel' + 1 := ⟨fuel - 1, by omega⟩
  have hops := takePrefixes_map hapart hbefore hlbefore
    (takePrefixes_atom (lafter ++ rest) hts hla)
  have hoperand := hatom fuel' la (lafter ++ rest) hla (by omega)
  have he := takePostfixes_map hrest a hafter hlafter
  unfold Formula.unary
  simp only [List.append_assoc, hops, hoperand, he, List.foldr_map]

theorem gives_number (x : Double) : Gives table stop .atom [.number x] (.literal (.number x)) := by
  intro fuel ls rest hls hfuel
  obtain ⟨p, rfl⟩ := exists_lexeme_singleton hls
  rw [List.length_singleton] at hfuel
  obtain ⟨fuel', rfl⟩ : ∃ fuel', fuel = fuel' + 1 := ⟨fuel - 1, by omega⟩
  rfl

/-- A word stands for its value, and any other name for itself. -/
theorem gives_ident {n : String} (h : (Value.keyword? n).elim (.name n) .literal = e) :
    Gives table stop .atom [.ident n] e := by
  intro fuel ls rest hls hfuel
  obtain ⟨p, rfl⟩ := exists_lexeme_singleton hls
  rw [List.length_singleton] at hfuel
  obtain ⟨fuel', rfl⟩ : ∃ fuel', fuel = fuel' + 1 := ⟨fuel - 1, by omega⟩
  unfold Formula.atom
  rcases hn : Value.keyword? n with _ | v
  · obtain rfl : Formula.name n = e := by rwa [hn] at h
    simp only [List.cons_append, List.nil_append, hn]
  · obtain rfl : Formula.literal v = e := by rwa [hn] at h
    simp only [List.cons_append, List.nil_append, hn]

theorem gives_group (hformula : Gives table stop .formula ts e) :
    Gives table stop .atom (.lparen :: ts ++ [.rparen]) e := by
  intro fuel ls rest hls hfuel
  rw [List.cons_append] at hls
  obtain ⟨p, lr, rfl, hlr⟩ := exists_lexeme_cons hls
  obtain ⟨lu, lc, rfl, hlu, hlc⟩ := List.map_eq_append_iff.1 hlr
  obtain ⟨q, rfl⟩ := exists_lexeme_singleton hlc
  simp only [List.length_cons, List.length_append, List.length_nil] at hfuel
  obtain ⟨fuel', rfl⟩ : ∃ fuel', fuel = fuel' + 1 := ⟨fuel - 1, by omega⟩
  have he := hformula fuel' lu ((q, .rparen) :: rest) hlu (by omega) ends_rparen
  unfold Formula.atom
  simp only [List.cons_append, List.append_assoc, List.nil_append, he]
  rfl

theorem gives_call {s : String} {op : InfixOp} {others : List (List Token × Formula)}
    (hop : table.infixOps.find? s = some op) (hne : others ≠ [])
    (hfirst : Gives table stop .formula ts e)
    (hothers : ∀ q ∈ others, Gives table stop .formula q.1 q.2) :
    Gives table stop .atom
      (.op s :: .lparen :: ts ++ (others.map (·.1)).flatMap (.comma :: ·) ++ [.rparen])
      ((others.map (·.2)).foldl (.joined op) e) := by
  intro fuel ls rest hls hfuel
  simp only [List.cons_append, List.append_assoc] at hls
  obtain ⟨p, lr, rfl, hlr⟩ := exists_lexeme_cons hls
  obtain ⟨q, lr', rfl, hlr'⟩ := exists_lexeme_cons hlr
  obtain ⟨lf, lo, rfl, hlf, hlo⟩ := List.map_eq_append_iff.1 hlr'
  obtain ⟨la, lc, rfl, hla, hlc⟩ := List.map_eq_append_iff.1 hlo
  obtain ⟨r, rfl⟩ := exists_lexeme_singleton hlc
  simp only [List.length_cons, List.length_append, List.length_nil] at hfuel
  obtain ⟨fuel', rfl⟩ : ∃ fuel', fuel = fuel' + 1 := ⟨fuel - 1, by omega⟩
  have he := hfirst fuel' lf (la ++ (r, .rparen) :: rest) hlf (by omega) (ends_arguments hla)
  have hes := arguments_flatMap r rest hothers fuel' la hla (by omega)
  have hisEmpty : (others.map (·.2)).isEmpty = false := by
    rcases others with _ | ⟨q, others⟩
    · exact absurd rfl hne
    · rfl
  unfold Formula.atom
  simp only [List.cons_append, List.append_assoc, List.nil_append, hop, he, hes, close, hisEmpty]
  rfl

/-- **The parser gives the formula that the tokens write.** -/
theorem gives_of_writes (hapart : table.IsApart) {p : Phrase} (h : Writes table p ts e) :
    Gives table stop p ts e := by
  induction h with
  | formula hu hops _ ht hchain ihu ihlinks =>
    exact gives_formula hapart hu.derives.length_pos ihu hops ihlinks ht hchain
  | unary hbefore ha hafter iha => exact gives_unary hapart hbefore hafter ha.derives iha
  | @number x => exact gives_number x
  | word hn => exact gives_ident (by rw [hn]; rfl)
  | name hn => exact gives_ident (by rw [hn]; rfl)
  | group _ ih => exact gives_group ih
  | call hop _ hne _ ihfirst ihothers => exact gives_call hop hne ihfirst ihothers

/-- The parser takes the phrase off, in front of tokens that cannot carry it on. -/
def Accepts (table : Table) (stop : Nat) : Phrase → List Token → Prop
  | .formula, ts => ∀ fuel ls rest, ls.map Prod.snd = ts → 4 * ls.length ≤ fuel + 1 → Ends rest →
      ∃ e, expression table stop fuel 0 (ls ++ rest) = .ok (e, rest)
  | .unary, ts => ∀ fuel ls rest, ls.map Prod.snd = ts → 4 * ls.length ≤ fuel + 2 →
      EndsUnary table rest → ∃ e, unary table stop fuel (ls ++ rest) = .ok (e, rest)
  | .atom, ts => ∀ fuel ls rest, ls.map Prod.snd = ts → 4 * ls.length ≤ fuel + 3 →
      ∃ e, atom table stop fuel (ls ++ rest) = .ok (e, rest)

theorem accepts_of_gives {p : Phrase} (h : Gives table stop p ts e) : Accepts table stop p ts := by
  cases p with
  | formula => exact fun fuel ls rest hls hfuel hrest => ⟨e, h fuel ls rest hls hfuel hrest⟩
  | unary => exact fun fuel ls rest hls hfuel hrest => ⟨e, h fuel ls rest hls hfuel hrest⟩
  | atom => exact fun fuel ls rest hls hfuel => ⟨e, h fuel ls rest hls hfuel⟩

/-- **The parser takes off every phrase of the grammar.** -/
theorem accepts_of_derives (hapart : table.IsApart) {p : Phrase} (h : Derives table p ts) :
    Accepts table stop p ts := by
  obtain ⟨e, he⟩ := exists_writes_of_derives h
  exact accepts_of_gives (gives_of_writes hapart he)

/-! ## Texts -/

theorem ofTokens?_eq_ok_iff {ls : List Lexeme} {e : Formula} : ofTokens? table stop ls = .ok e ↔
    expression table stop (4 * ls.length + 4) 0 ls = .ok (e, []) := by
  unfold ofTokens?
  split
  · next f hf => simp [hf]
  · next a ha => simp [ha]
  · next a p t later ha => simp [ha]

theorem parse_eq_ok_iff {source : String} (hls : tokens table source.toList = .ok ls) :
    parse table source = .ok e ↔ ofTokens? table (bytes source.toList) ls = .ok e := by
  unfold parse
  simp only [hls]
  split
  · next p cause hf => simp [hf]
  · next a ha => simp [ha]

/-- **A text is a formula exactly if the grammar derives its tokens**, whatever the
    precedences; no operand is lost, doubled or moved. -/
theorem parse_eq_ok_iff_derives (hapart : table.IsApart) {source : String}
    (hls : tokens table source.toList = .ok ls) :
    ((∃ e, parse table source = .ok e) ↔ Derives table .formula (ls.map Prod.snd)) ∧
    ∀ e, parse table source = .ok e →
      e.leaves = (ls.map Prod.snd).filterMap Token.leaf? ∧
      e.names = (ls.map Prod.snd).filterMap Token.name? := by
  have hread : ∀ e, parse table source = .ok e → Derives table .formula (ls.map Prod.snd) ∧
      e.leaves = leavesOf (ls.map Prod.snd) := by
    intro e he
    rw [parse_eq_ok_iff hls, ofTokens?_eq_ok_iff] at he
    obtain ⟨front, hfront, hderives, hleaves⟩ := (sound table _ _).expression he
    rw [List.append_nil] at hfront
    rw [hfront]
    exact ⟨hderives, hleaves⟩
  refine ⟨⟨?_, ?_⟩, ?_⟩
  · rintro ⟨e, he⟩
    exact (hread e he).1
  · intro hderives
    obtain ⟨e, he⟩ := accepts_of_derives hapart hderives (4 * ls.length + 4) ls [] rfl (by omega)
      ends_nil
    refine ⟨e, ?_⟩
    rw [List.append_nil] at he
    rw [parse_eq_ok_iff hls, ofTokens?_eq_ok_iff, he]
  · intro e he
    exact ⟨(hread e he).2, names_of_leaves (hread e he).2⟩

/-- The operators of rules are apart. -/
theorem isApart_standard : Table.standard.IsApart :=
  Table.isApart_of_keys (by decide) (by decide)

/-- A call as an operand of `!`, with operands of all kinds. -/
theorem parse_eq_ok_iff_derives_of_call : ∃ ls,
    tokens .standard "!(&&(logo, 0.5)) || True".toList = .ok ls ∧
    ((∃ e, parse .standard "!(&&(logo, 0.5)) || True" = .ok e) ↔
      Derives .standard .formula (ls.map Prod.snd)) ∧
    ∀ e, parse .standard "!(&&(logo, 0.5)) || True" = .ok e →
      e.leaves = (ls.map Prod.snd).filterMap Token.leaf? ∧
      e.names = (ls.map Prod.snd).filterMap Token.name? := by
  have htokens : (tokens .standard "!(&&(logo, 0.5)) || True".toList).toOption.isSome = true := by
    decide +kernel
  rcases hls : tokens .standard "!(&&(logo, 0.5)) || True".toList with f | ls
  · rw [hls] at htokens
    cases htokens
  · exact ⟨ls, rfl, parse_eq_ok_iff_derives isApart_standard hls⟩

end Formula

end Screenmark
