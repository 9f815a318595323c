/-
  Screenmark — the formulas that tokens write.

  `Writes` is the grammar of formulas together with the formula of each phrase. Operators
  before and after an operand go around it from the inside, a call stands for its operator
  between the arguments from the left, and operands with operators between them are the
  formula of the grouped tree over them. The grammar alone leaves nothing open: what it
  derives writes a formula (`exists_writes_of_derives`).
-/
import Screenmark.Proofs.Formula.Grammar
import Screenmark.Proofs.Formula.Grouping

namespace Screenmark

namespace Formula

variable {table : Table} {p : Phrase} {ts : List Token} {e : Formula}

/-! ## Phrases and formulas -/

/-- An operator behind an operand with the operand that follows: the symbol and the tokens,
    and what they stand for. -/
structure Link where
  symbol : String
  tokens : List Token
  op : InfixOp
  operand : Formula

namespace Link

/-- What stands in the text. -/
def source (k : Link) : String × List Token := (k.symbol, k.tokens)

/-- What it stands for. -/
def piece (k : Link) : InfixOp × Formula := (k.op, k.operand)

end Link

/-- The tokens make up a phrase that stands for the formula. -/
inductive Writes (table : Table) : Phrase → List Token → Formula → Prop
  | formula {u : List Token} {a : Formula} {links : List Link} {t : Tree} :
      Writes table .unary u a → (∀ k ∈ links, table.infixOps.find? k.symbol = some k.op) →
      (∀ k ∈ links, Writes table .unary k.tokens k.operand) →
      t.IsGrouped → t.chain = (a, links.map Link.piece) →
      Writes table .formula (u ++ joins (links.map Link.source)) t.formula
  | unary {before after : List (String × UnaryOp)} {ts : List Token} {a : Formula} :
      (∀ q ∈ before, table.prefixOps.find? q.1 = some q.2) → Writes table .atom ts a →
      (∀ q ∈ after, table.postfixOps.find? q.1 = some q.2) →
      Writes table .unary (before.map (.op ·.1) ++ ts ++ after.map (.op ·.1))
        (before.foldr (.prefixed ·.2 ·) (after.foldl (fun e q => .postfixed q.2 e) a))
  | number {x : Double} : Writes table .atom [.number x] (.literal (.number x))
  | word {n : String} {v : Value} : Value.keyword? n = some v →
      Writes table .atom [.ident n] (.literal v)
  | name {n : String} : Value.keyword? n = none → Writes table .atom [.ident n] (.name n)
  | group {ts : List Token} {e : Formula} : Writes table .formula ts e →
      Writes table .atom (.lparen :: ts ++ [.rparen]) e
  | call {s : String} {op : InfixOp} {first : List Token} {e : Formula}
      {others : List (List Token × Formula)} : table.infixOps.find? s = some op →
      Writes table .formula first e → others ≠ [] →
      (∀ q ∈ others, Writes table .formula q.1 q.2) →
      Writes table .atom
        (.op s :: .lparen :: first ++ (others.map (·.1)).flatMap (.comma :: ·) ++ [.rparen])
        ((others.map (·.2)).foldl (.joined op) e)

/-- What writes a formula is a phrase of the grammar. -/
theorem Writes.derives (h : Writes table p ts e) : Derives table p ts := by
  induction h with
  | @formula u a links t _ hops _ _ _ ihu ihlinks =>
    refine .formula ihu ?_ ?_
    · intro q hq
      obtain ⟨k, hk, rfl⟩ := List.mem_map.1 hq
      exact NameMap.contains_iff.2 ⟨k.op, hops k hk⟩
    · intro q hq
      obtain ⟨k, hk, rfl⟩ := List.mem_map.1 hq
      exact ihlinks k hk
  | @unary before after ts a hbefore _ hafter ih =>
    have hsymbols : ∀ {ops : NameMap UnaryOp} {qs : List (String × UnaryOp)},
        (∀ q ∈ qs, ops.find? q.1 = some q.2) → ∀ s ∈ qs.map Prod.fst, ops.contains s = true := by
      intro ops qs hqs s hs
      obtain ⟨q, hq, rfl⟩ := List.mem_map.1 hs
      exact NameMap.contains_iff.2 ⟨q.2, hqs q hq⟩
    have hphrase := Derives.unary (hsymbols hbefore) ih (hsymbols hafter)
    rw [List.map_map, List.map_map] at hphrase
    exact hphrase
  | number => exact .number
  | word _ => exact .name
  | name _ => exact .name
  | group _ ih => exact .group ih
  | @call s op first e others hop _ hne _ ihfirst ihothers =>
    refine .call (NameMap.contains_iff.2 ⟨op, hop⟩) ihfirst ?_ ?_
    · exact fun hnil => hne (List.map_eq_nil_iff.1 hnil)
    · intro us hus
      obtain ⟨q, hq, rfl⟩ := List.mem_map.1 hus
      exact ihothers q hq

/-! ## Simple phrases -/

/-- An atom is an operand. -/
theorem Writes.bare (h : Writes table .atom ts e) : Writes table .unary ts e := by
  have hunary : Writes table .unary ([] ++ ts ++ []) e :=
    @Writes.unary table [] [] ts e (by simp) h (by simp)
  rwa [List.nil_append, List.append_nil] at hunary

/-- An operand alone is a formula. -/
theorem Writes.alone (h : Writes table .unary ts e) : Writes table .formula ts e := by
  have hformula : Writes table .formula (ts ++ joins (([] : List Link).map Link.source))
      (Tree.operand e).formula := .formula h (by simp) (by simp) .operand rfl
  rwa [List.map_nil, joins, List.flatMap_nil, List.append_nil] at hformula

/-- One more operator before an operand. -/
theorem Writes.prefixed {s : String} {op : UnaryOp} (hop : table.prefixOps.find? s = some op)
    (h : Writes table .unary ts e) : Writes table .unary (.op s :: ts) (.prefixed op e) := by
  cases h with
  | @unary before after ts a hbefore ha hafter =>
    exact @Writes.unary table ((s, op) :: before) after ts a
      (List.forall_mem_cons.2 ⟨hop, hbefore⟩) ha hafter

/-- One operator between two operands. -/
theorem Writes.joined {s : String} {op : InfixOp} {us : List Token} {e' : Formula}
    (hop : table.infixOps.find? s = some op) (h : Writes table .unary ts e)
    (h' : Writes table .unary us e') :
    Writes table .formula (ts ++ .op s :: us) (.joined op e e') := by
  have hlink : ∀ k ∈ [(⟨s, us, op, e'⟩ : Link)], table.infixOps.find? k.symbol = some k.op ∧
      Writes table .unary k.tokens k.operand := List.forall_mem_singleton.2 ⟨hop, h'⟩
  have hgrouped : (Tree.node op (.operand e) (.operand e')).IsGrouped :=
    .node .operand .operand (fun o ho => by cases ho) (fun o ho => by cases ho)
  have hformula := Writes.formula h (fun k hk => (hlink k hk).1) (fun k hk => (hlink k hk).2)
    hgrouped rfl
  rwa [List.map_singleton, joins, List.flatMap_singleton] at hformula

/-! ## Every phrase writes a formula -/

/-- Members of a list that each come from something come together from a list. -/
theorem exists_map_eq {α β : Type} {f : β → α} {P : β → Prop} {as : List α}
    (h : ∀ a ∈ as, ∃ b, f b = a ∧ P b) : ∃ bs : List β, bs.map f = as ∧ ∀ b ∈ bs, P b := by
  induction as with
  | nil => exact ⟨[], rfl, by simp⟩
  | cons a as ih =>
    rw [List.forall_mem_cons] at h
    obtain ⟨b, rfl, hb⟩ := h.1
    obtain ⟨bs, rfl, hbs⟩ := ih h.2
    exact ⟨b :: bs, rfl, List.forall_mem_cons.2 ⟨hb, hbs⟩⟩

theorem exists_operators {ops : NameMap UnaryOp} {symbols : List String}
    (h : ∀ s ∈ symbols, ops.contains s = true) : ∃ qs : List (String × UnaryOp),
      qs.map Prod.fst = symbols ∧ ∀ q ∈ qs, ops.find? q.1 = some q.2 := by
  refine exists_map_eq fun s hs => ?_
  obtain ⟨op, hop⟩ := NameMap.contains_iff.1 (h s hs)
  exact ⟨(s, op), rfl, hop⟩

theorem exists_arguments {others : List (List Token)}
    (h : ∀ us ∈ others, ∃ e, Writes table .formula us e) : ∃ qs : List (List Token × Formula),
      qs.map (·.1) = others ∧ ∀ q ∈ qs, Writes table .formula q.1 q.2 := by
  refine exists_map_eq fun us hus => ?_
  obtain ⟨e, he⟩ := h us hus
  exact ⟨(us, e), rfl, he⟩

theorem exists_links_of_writes {rest : List (String × List Token)}
    (hsymbols : ∀ q ∈ rest, table.infixOps.contains q.1 = true)
    (hoperands : ∀ q ∈ rest, ∃ e, Writes table .unary q.2 e) :
    ∃ links : List Link, links.map Link.source = rest ∧ ∀ k ∈ links,
      table.infixOps.find? k.symbol = some k.op ∧ Writes table .unary k.tokens k.operand := by
  refine exists_map_eq fun q hq => ?_
  obtain ⟨op, hop⟩ := NameMap.contains_iff.1 (hsymbols q hq)
  obtain ⟨e, he⟩ := hoperands q hq
  exact ⟨⟨q.1, q.2, op, e⟩, rfl, hop, he⟩

/-- **What the grammar derives writes a formula.** -/
theorem exists_writes_of_derives (h : Derives table p ts) : ∃ e, Writes table p ts e := by
  induction h with
  | formula _ hsymbols _ ihu ihoperands =>
    obtain ⟨a, ha⟩ := ihu
    obtain ⟨links, rfl, hlinks⟩ := exists_links_of_writes hsymbols ihoperands
    obtain ⟨t, ht, hchain⟩ := Tree.exists_isGrouped a (links.map Link.piece)
    exact ⟨t.formula, .formula ha (fun k hk => (hlinks k hk).1) (fun k hk => (hlinks k hk).2)
      ht hchain⟩
  | unary hbefore _ hafter ih =>
    obtain ⟨a, ha⟩ := ih
    obtain ⟨before, rfl, hbeforeOps⟩ := exists_operators hbefore
    obtain ⟨after, rfl, hafterOps⟩ := exists_operators hafter
    rw [List.map_map, List.map_map]
    exact ⟨_, .unary hbeforeOps ha hafterOps⟩
  | @number x => exact ⟨_, .number⟩
  | @name n =>
    rcases hn : Value.keyword? n with _ | v
    · exact ⟨_, .name hn⟩
    · exact ⟨_, .word hn⟩
  | group _ ih =>
    obtain ⟨e, he⟩ := ih
    exact ⟨e, .group he⟩
  | call hs _ hne _ ihfirst ihothers =>
    obtain ⟨op, hop⟩ := NameMap.contains_iff.1 hs
    obtain ⟨e, he⟩ := ihfirst
    obtain ⟨others, rfl, hothers⟩ := exists_arguments ihothers
    refine ⟨_, .call hop he ?_ hothers⟩
    exact fun hnil => hne (List.map_eq_nil_iff.2 hnil)

/-- Operators of the table, each with an operand of the grammar behind it, are links. -/
theorem exists_links {rest : List (String × List Token)}
    (hsymbols : ∀ q ∈ rest, table.infixOps.contains q.1 = true)
    (hoperands : ∀ q ∈ rest, Derives table .unary q.2) :
    ∃ links : List Link, links.map Link.source = rest ∧ ∀ k ∈ links,
      table.infixOps.find? k.symbol = some k.op ∧ Writes table .unary k.tokens k.operand :=
  exists_links_of_writes hsymbols fun q hq => exists_writes_of_derives (hoperands q hq)

end Formula

end Screenmark
