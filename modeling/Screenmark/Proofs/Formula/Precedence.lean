/-
  Screenmark — precedences decide the tree.

  Where no symbol is an operator in two positions, operands with operators between them are
  read as the one grouped tree over them, for all precedences and associativities
  (`parse_chain`). An operand counts as what it is read as by itself (`IsRead`): whatever
  operators are in a group or a call, they stay below those of the chain.
-/
import Screenmark.Proofs.Formula.Acceptance

namespace Screenmark

namespace Formula

variable {table : Table} {ts : List Token} {a e : Formula}

/-! ## What is read by itself -/

/-- By themselves the tokens are read as the formula, wherever they stand. -/
def IsRead (table : Table) (ts : List Token) (e : Formula) : Prop :=
  ∀ stop ls, ls.map Prod.snd = ts → ofTokens? table stop ls = .ok e

theorem IsRead.unique (h : IsRead table ts a) (h' : IsRead table ts e) : a = e := by
  have hts : (ts.map fun t => ((0, t) : Lexeme)).map Prod.snd = ts := by
    rw [List.map_map]
    exact List.map_id ts
  exact Except.ok.inj ((h 0 _ hts).symm.trans (h' 0 _ hts))

/-- What the tokens write is read. -/
theorem isRead_of_writes (hapart : table.IsApart) (h : Writes table .formula ts e) :
    IsRead table ts e := by
  intro stop ls hls
  have hgives : Gives table stop .formula ts e := gives_of_writes hapart h
  rw [ofTokens?_eq_ok_iff]
  have hread := hgives (4 * ls.length + 4) ls [] hls (by omega) ends_nil
  rwa [List.append_nil] at hread

/-! ## Chains -/

/-- **Operators between operands group by their precedences.** A text that is operands with
    operators between them is read as the grouped tree over what the operands are read as, and
    that is the only one. -/
theorem parse_chain (hapart : table.IsApart) {source : String} {ls : List Lexeme}
    (hls : tokens table source.toList = .ok ls) {u : List Token}
    {rest : List (String × List Token)} (hts : ls.map Prod.snd = u ++ joins rest)
    (hu : Derives table .unary u) (hsymbols : ∀ q ∈ rest, table.infixOps.contains q.1 = true)
    (hoperands : ∀ q ∈ rest, Derives table .unary q.2) :
    ∃ (first : Formula) (links : List Link), IsRead table u first ∧
      links.map Link.source = rest ∧
      (∀ k ∈ links, table.infixOps.find? k.symbol = some k.op ∧
        IsRead table k.tokens k.operand) ∧
      ∃ t : Tree, parse table source = .ok t.formula ∧ t.IsGrouped ∧
        t.chain = (first, links.map Link.piece) ∧
        ∀ t' : Tree, t'.IsGrouped → t'.chain = (first, links.map Link.piece) → t' = t := by
  obtain ⟨first, hfirst⟩ := exists_writes_of_derives hu
  obtain ⟨links, rfl, hlinks⟩ := exists_links hsymbols hoperands
  obtain ⟨t, ht, hchain⟩ := Tree.exists_isGrouped first (links.map Link.piece)
  have hwrites := Writes.formula hfirst (fun k hk => (hlinks k hk).1)
    (fun k hk => (hlinks k hk).2) ht hchain
  refine ⟨first, links, isRead_of_writes hapart hfirst.alone, rfl, fun k hk => ?_, t, ?_, ht,
    hchain, ?_⟩
  · exact ⟨(hlinks k hk).1, isRead_of_writes hapart (hlinks k hk).2.alone⟩
  · rw [parse_eq_ok_iff hls]
    exact isRead_of_writes hapart hwrites _ ls hts
  · exact fun t' ht' hchain' => ht'.unique ht (hchain'.trans hchain.symm)

/-- What operators and their operands stand for is settled by the text. -/
theorem pieces_eq : ∀ {ks ks' : List Link}, ks.map Link.source = ks'.map Link.source →
    (∀ k ∈ ks, table.infixOps.find? k.symbol = some k.op ∧ IsRead table k.tokens k.operand) →
    (∀ k ∈ ks', table.infixOps.find? k.symbol = some k.op ∧ IsRead table k.tokens k.operand) →
      ks.map Link.piece = ks'.map Link.piece
  | [], [], _, _, _ => rfl
  | k :: ks, k' :: ks', hsource, h, h' => by
    rw [List.map_cons, List.map_cons] at hsource ⊢
    obtain ⟨hhead, htail⟩ := List.cons.inj hsource
    obtain ⟨hsymbol, htokens⟩ := Prod.mk.inj hhead
    rw [List.forall_mem_cons] at h h'
    have hop := h.1.1
    have hoperand := h.1.2
    rw [hsymbol, h'.1.1] at hop
    rw [htokens] at hoperand
    rw [Link.piece, Link.piece, Option.some.inj hop, h'.1.2.unique hoperand,
      pieces_eq htail h.2 h'.2]

/-! ## A table with operators of all kinds -/

/-- Grouping to the left with the least power. -/
def plus : InfixOp := ⟨"+", ⟨255, by decide⟩, .left, difference⟩

/-- Grouping to the right with the least power. -/
def equals : InfixOp := ⟨"=", ⟨255, by decide⟩, .right, implication⟩

/-- Grouping to the right with the greatest power. -/
def caret : InfixOp := ⟨"^", ⟨0, by decide⟩, .right, second⟩

def minus : UnaryOp := ⟨"-", ⟨4, by decide⟩, negation⟩

def bang : UnaryOp := ⟨"!", minus.precedence, identity⟩

/-- A table with operators in all positions. -/
def mixed : Table :=
  Table.empty |>.withPrefix minus |>.withPostfix bang |>.withInfix caret |>.withInfix plus
    |>.withInfix equals

theorem isApart_mixed : mixed.IsApart := Table.isApart_of_keys (by decide) (by decide)

/-- The operators behind the first operand of `a + -b = c + (a + b)! ^ c`, with their
    operands. -/
def mixedLinks : List Link :=
  [⟨"+", [.op "-", .ident "b"], plus, .prefixed minus (.name "b")⟩,
    ⟨"=", [.ident "c"], equals, .name "c"⟩,
    ⟨"+", [.lparen, .ident "a", .op "+", .ident "b", .rparen, .op "!"], plus,
      .postfixed bang (.joined plus (.name "a") (.name "b"))⟩,
    ⟨"^", [.ident "c"], caret, .name "c"⟩]

/-- `(a + -b) = (c + ((a + b)! ^ c))`. -/
def mixedTree : Tree :=
  .node equals
    (.node plus (.operand (.name "a")) (.operand (.prefixed minus (.name "b"))))
    (.node plus (.operand (.name "c"))
      (.node caret (.operand (.postfixed bang (.joined plus (.name "a") (.name "b"))))
        (.operand (.name "c"))))

theorem isGrouped_mixedTree : mixedTree.IsGrouped := by
  have hoperand : ∀ {e : Formula} {P : InfixOp → Prop}, ∀ o ∈ (Tree.operand e).root?, P o := by
    intro e P o ho
    cases ho
  have hplus : equals.HoldsLeft plus := InfixOp.holdsLeft_iff.2 (by decide)
  have hequals : equals.HoldsRight plus := InfixOp.holdsRight_iff.2 (by decide)
  have hcaret : plus.HoldsRight caret := InfixOp.holdsRight_iff.2 (by decide)
  refine .node (.node .operand .operand hoperand hoperand)
    (.node .operand (.node .operand .operand hoperand hoperand) hoperand ?_) ?_ ?_
  · intro o ho
    cases ho
    exact hcaret
  · intro o ho
    cases ho
    exact hplus
  · intro o ho
    cases ho
    exact hequals

theorem writes_mixedLinks : ∀ k ∈ mixedLinks, mixed.infixOps.find? k.symbol = some k.op ∧
    Writes mixed .unary k.tokens k.operand := by
  have hname : ∀ {n : String}, Value.keyword? n = none →
      Writes mixed .unary [.ident n] (.name n) := fun hn => (Writes.name hn).bare
  have hgroup : Writes mixed .atom [.lparen, .ident "a", .op "+", .ident "b", .rparen]
      (.joined plus (.name "a") (.name "b")) := by
    have hplus : mixed.infixOps.find? "+" = some plus := rfl
    have hsum : Writes mixed .formula [.ident "a", .op "+", .ident "b"]
        (.joined plus (.name "a") (.name "b")) := .joined hplus (hname (by decide)) (hname (by decide))
    exact .group hsum
  refine List.forall_mem_cons.2 ⟨⟨rfl, ?_⟩, List.forall_mem_cons.2 ⟨⟨rfl, hname (by decide)⟩,
    List.forall_mem_cons.2 ⟨⟨rfl, ?_⟩, List.forall_mem_singleton.2 ⟨rfl, hname (by decide)⟩⟩⟩⟩
  · exact @Writes.unary mixed [("-", minus)] [] _ _ (List.forall_mem_singleton.2 rfl)
      (.name (by decide)) (by simp)
  · exact @Writes.unary mixed [] [("!", bang)] _ _ (by simp) hgroup
      (List.forall_mem_singleton.2 rfl)

/-- The text is read as the tree: an operator with the least power takes one to its left that
    groups to the left, and one with the same power to its right if it groups to the right. -/
theorem parse_chain_of_mixed :
    (tokens mixed "a + -b = c + (a + b)! ^ c".toList).toOption.map (·.map Prod.snd) =
      some ([.ident "a"] ++ joins (mixedLinks.map Link.source)) ∧
    parse mixed "a + -b = c + (a + b)! ^ c" = .ok mixedTree.formula := by
  have htokens : (tokens mixed "a + -b = c + (a + b)! ^ c".toList).toOption.map
      (·.map Prod.snd) = some ([.ident "a"] ++ joins (mixedLinks.map Link.source)) := by
    decide +kernel
  refine ⟨htokens, ?_⟩
  rcases hls : tokens mixed "a + -b = c + (a + b)! ^ c".toList with f | ls
  · rw [hls] at htokens
    cases htokens
  · rw [hls] at htokens
    have hfirst : Writes mixed .unary [.ident "a"] (.name "a") := (Writes.name (by decide)).bare
    obtain ⟨first, links, hread, hsource, hlinks, t, hparse, -, -, hunique⟩ :=
      parse_chain isApart_mixed hls (Option.some.inj htokens) hfirst.derives
        (fun q hq => by
          obtain ⟨k, hk, rfl⟩ := List.mem_map.1 hq
          exact NameMap.contains_iff.2 ⟨k.op, (writes_mixedLinks k hk).1⟩)
        (fun q hq => by
          obtain ⟨k, hk, rfl⟩ := List.mem_map.1 hq
          exact (writes_mixedLinks k hk).2.derives)
    have hpieces : links.map Link.piece = mixedLinks.map Link.piece :=
      pieces_eq hsource hlinks fun k hk => ⟨(writes_mixedLinks k hk).1,
        isRead_of_writes isApart_mixed (writes_mixedLinks k hk).2.alone⟩
    have hname : first = .name "a" := hread.unique (isRead_of_writes isApart_mixed hfirst.alone)
    rw [hparse, hunique mixedTree isGrouped_mixedTree (by rw [hpieces, hname]; rfl)]

end Formula

end Screenmark
