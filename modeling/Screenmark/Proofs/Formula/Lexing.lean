/-
  Screenmark — cutting a text into tokens.

  `Cuts` says how a text is made of tokens and white space, without places and without a bound
  on its length; what it allows is what `tokens` gives (`exists_tokens_of_cuts`). Which token
  stands at the start of a text is settled by its own characters and by the next one: a name
  and a number end where no further character of theirs follows, and a symbol of the rules
  where no longer one starts.
-/
import Screenmark.Proofs.Binary.Text
import Screenmark.Proofs.Formula.Acceptance

namespace Screenmark

namespace Formula

variable {table : Table} {c : Char} {cs rest : List Char} {ts : List Token} {t : Token}

/-! ## Texts made of tokens -/

/-- The text is made of the tokens, with white space between them. -/
inductive Cuts (table : Table) : List Char → List Token → Prop
  | nil : Cuts table [] []
  | white {c : Char} {cs : List Char} {ts : List Token} : Text.isWhite c = true →
      Cuts table cs ts → Cuts table (c :: cs) ts
  | token {c : Char} {cs rest : List Char} {t : Token} {ts : List Token} :
      Text.isWhite c = false → token? table c (cs ++ rest) = .ok (t, c :: cs) →
      Cuts table rest ts → Cuts table (c :: cs ++ rest) (t :: ts)

theorem exists_tokensFrom_of_cuts (h : Cuts table cs ts) : ∀ fuel position, cs.length ≤ fuel →
    ∃ ls, tokensFrom table fuel position cs = .ok ls ∧ ls.map Prod.snd = ts := by
  induction h with
  | nil =>
    intro fuel position _
    cases fuel <;> exact ⟨[], rfl, rfl⟩
  | @white c cs ts hwhite _ ih =>
    intro fuel position hfuel
    obtain ⟨fuel, rfl⟩ := Nat.exists_eq_add_of_le' (Nat.le_trans (Nat.succ_pos cs.length) hfuel)
    obtain ⟨ls, hls, hts⟩ := ih fuel (position + c.utf8Size) (Nat.le_of_succ_le_succ hfuel)
    refine ⟨ls, ?_, hts⟩
    rw [tokensFrom, if_pos hwhite, hls]
  | @token c cs rest t ts hwhite htoken _ ih =>
    intro fuel position hfuel
    have hlength : rest.length + 1 ≤ fuel := by
      rw [List.length_append, List.length_cons] at hfuel
      omega
    obtain ⟨fuel, rfl⟩ := Nat.exists_eq_add_of_le' (Nat.le_trans (Nat.succ_pos _) hlength)
    obtain ⟨ls, hls, hts⟩ := ih fuel (position + bytes (c :: cs)) (Nat.le_of_succ_le_succ hlength)
    refine ⟨(position, t) :: ls, ?_, by rw [List.map_cons, hts]⟩
    have hdrop : (c :: (cs ++ rest)).drop (c :: cs).length = rest := @List.drop_left _ (c :: cs) rest
    rw [List.cons_append, tokensFrom, if_neg (Bool.eq_false_iff.1 hwhite), htoken]
    dsimp only
    rw [hdrop, hls]

/-- **A text that is made of tokens is cut into them.** -/
theorem exists_tokens_of_cuts (h : Cuts table cs ts) :
    ∃ ls, tokens table cs = .ok ls ∧ ls.map Prod.snd = ts :=
  exists_tokensFrom_of_cuts h cs.length 0 (Nat.le_refl _)

/-! ## Where a name or a number ends -/

/-- The text does not go on with a character of names or numbers. -/
def Parts (cs : List Char) : Prop := ∀ c ∈ cs.head?, isNameChar c = false ∧ isNumberChar c = false

/-- A text that can be a name. -/
def IsName (n : String) : Prop :=
  ∃ c cs, n.toList = c :: cs ∧ isNameStart c = true ∧ ∀ d ∈ cs, isNameChar d = true

theorem parts_cons (h : isNameChar c = false ∧ isNumberChar c = false) : Parts (c :: cs) := by
  intro d hd
  cases hd
  exact h

theorem parts_nil : Parts [] := by
  intro c hc
  cases hc

theorem isWhite_of_range (h : 32 < c.toNat) (h' : c.toNat < 127) : Text.isWhite c = false := by
  simp only [Text.isWhite, Bool.or_eq_false_iff, Bool.and_eq_false_iff, decide_eq_false_iff_not,
    beq_eq_false_iff_ne]
  omega

theorem toNat_of_isDigit (h : c.isDigit = true) : 48 ≤ c.toNat ∧ c.toNat ≤ 57 :=
  Char.isDigit_iff_toNat.1 h

theorem toNat_of_isNameStart (h : isNameStart c = true) : 65 ≤ c.toNat ∧ c.toNat ≤ 122 := by
  have hkinds : (decide ('A'.val ≤ c.val ∧ c.val ≤ 'Z'.val) ||
      (decide ('a'.val ≤ c.val) && decide (c.val ≤ 'z'.val)) || c == '_') = true := h
  simp only [Bool.or_eq_true, Bool.and_eq_true, decide_eq_true_eq, beq_iff_eq] at hkinds
  have hbetween : ∀ {a b : UInt32}, 65 ≤ a.toNat → b.toNat ≤ 122 → a ≤ c.val → c.val ≤ b →
      65 ≤ c.toNat ∧ c.toNat ≤ 122 := fun ha hb hge hle =>
    ⟨Nat.le_trans ha (UInt32.le_iff_toNat_le.1 hge), Nat.le_trans (UInt32.le_iff_toNat_le.1 hle) hb⟩
  rcases hkinds with (⟨hge, hle⟩ | ⟨hge, hle⟩) | rfl
  · exact hbetween (by decide) (by decide) hge hle
  · exact hbetween (by decide) (by decide) hge hle
  · decide

/-! ## Numbers and names -/

/-- Digits and points are one token up to where they end. -/
theorem token?_number {x : Double} (hnumeral : Decimal.IsNumeral (c :: cs))
    (hread : Binary.read? (c :: cs) = some x) (hparts : Parts rest) :
    Text.isWhite c = false ∧ token? table c (cs ++ rest) = .ok (.number x, c :: cs) := by
  have hdigit : c.isDigit = true := by
    obtain ⟨d, ds, heq, hdigit⟩ := hnumeral.head
    cases heq
    exact hdigit
  have hne : ∀ {d : Char}, d.isDigit = false → c ≠ d := by
    rintro d hd rfl
    rw [hdigit] at hd
    cases hd
  have htake : (cs ++ rest).takeWhile isNumberChar = cs := by
    refine (Text.takeWhile_append (fun d hd => ?_) fun d hd => (hparts d hd).2).1
    have hd' := hnumeral.chars d (List.mem_cons_of_mem c hd)
    simpa [isNumberChar] using hd'
  have hrange := toNat_of_isDigit hdigit
  refine ⟨isWhite_of_range (by omega) (by omega), ?_⟩
  rw [token?, if_neg (hne rfl), if_neg (hne rfl), if_neg (hne rfl), if_pos hdigit, htake]
  simp only [hread]

theorem Cuts.number {x : Double} (hnumeral : Decimal.IsNumeral cs) (hread : Binary.read? cs = some x)
    (hparts : Parts rest) (h : Cuts table rest ts) : Cuts table (cs ++ rest) (.number x :: ts) := by
  obtain ⟨c, cs, rfl, -⟩ := hnumeral.head
  obtain ⟨hwhite, htoken⟩ := token?_number hnumeral hread hparts
  exact .token hwhite htoken h

/-- So are the characters of a name. -/
theorem token?_name {n : String} (hname : IsName n) (hn : n.toList = c :: cs)
    (hparts : Parts rest) :
    Text.isWhite c = false ∧ token? table c (cs ++ rest) = .ok (.ident n, c :: cs) := by
  obtain ⟨d, ds, hds, hstart, hchars⟩ := hname
  obtain ⟨rfl, rfl⟩ := List.cons.inj (hn.symm.trans hds)
  have hne : ∀ {d : Char}, isNameStart d = false → c ≠ d := by
    rintro d hd rfl
    rw [hstart] at hd
    cases hd
  have hrange := toNat_of_isNameStart hstart
  have hdigit : ¬ c.isDigit = true := by
    intro hdigit
    have hrange' := toNat_of_isDigit hdigit
    omega
  have htake : (cs ++ rest).takeWhile isNameChar = cs :=
    (Text.takeWhile_append hchars fun d hd => (hparts d hd).1).1
  refine ⟨isWhite_of_range (by omega) (by omega), ?_⟩
  rw [token?, if_neg (hne rfl), if_neg (hne rfl), if_neg (hne rfl), if_neg hdigit, if_pos hstart,
    htake, ← hn]
  dsimp only
  rw [String.ofList_toList]

theorem Cuts.name {n : String} (hname : IsName n) (hparts : Parts rest) (h : Cuts table rest ts) :
    Cuts table (n.toList ++ rest) (.ident n :: ts) := by
  obtain ⟨c, cs, hn, -⟩ := id hname
  obtain ⟨hwhite, htoken⟩ : Text.isWhite c = false ∧
      token? table c (cs ++ rest) = .ok (.ident n, c :: cs) := token?_name hname hn hparts
  rw [hn]
  exact .token hwhite htoken h

/-! ## Parentheses and commas -/

theorem Cuts.lparen (h : Cuts table rest ts) : Cuts table ('(' :: rest) (.lparen :: ts) :=
  @Cuts.token table '(' [] rest .lparen ts (by decide) rfl h

theorem Cuts.rparen (h : Cuts table rest ts) : Cuts table (')' :: rest) (.rparen :: ts) :=
  @Cuts.token table ')' [] rest .rparen ts (by decide) rfl h

theorem Cuts.comma (h : Cuts table rest ts) : Cuts table (',' :: rest) (.comma :: ts) :=
  @Cuts.token table ',' [] rest .comma ts (by decide) rfl h

theorem Cuts.space (h : Cuts table rest ts) : Cuts table (' ' :: rest) ts :=
  .white (by decide) h

/-! ## Symbols -/

/-- A character that starts no other token than a symbol. -/
def isSymbolStart (c : Char) : Bool :=
  !Text.isWhite c && !(c == '(' || c == ')' || c == ',') && !c.isDigit && !isNameStart c

/-- Some symbol is the longest at the start of a text if one stands there. -/
theorem exists_longestMatch {s : List Char} (hs : s ∈ table.symbols.map String.toList)
    (hstarts : s.isPrefixOf cs = true) : ∃ m, table.longestMatch cs = some m := by
  have hmem : s ∈ (table.symbols.map String.toList).filter (·.isPrefixOf cs) :=
    List.mem_filter.2 ⟨hs, hstarts⟩
  obtain ⟨m, ms, hms⟩ := List.exists_cons_of_ne_nil (List.ne_nil_of_mem hmem)
  exact ⟨ms.foldl Table.longer m, by rw [Table.longestMatch, hms, Table.longest?]⟩

/-- A symbol is the longest at the start of a text if no other one there is longer. -/
theorem longestMatch_eq_some {s : String} (hs : s ∈ table.symbols)
    (hlongest : ∀ u ∈ table.symbols, u.toList <+: s.toList ++ rest →
      u.toList.length ≤ s.toList.length) :
    table.longestMatch (s.toList ++ rest) = some s.toList := by
  have hmem : s.toList ∈ table.symbols.map String.toList := List.mem_map_of_mem hs
  have hstarts : s.toList.isPrefixOf (s.toList ++ rest) = true :=
    List.isPrefixOf_iff_prefix.2 (List.prefix_append ..)
  obtain ⟨m, hmatch⟩ := exists_longestMatch hmem hstarts
  obtain ⟨hm, hmstarts⟩ := Table.longestMatch_isPrefix hmatch
  obtain ⟨u, hu, rfl⟩ := List.mem_map.1 hm
  rw [List.isPrefixOf_iff_prefix] at hmstarts
  have hlength : u.toList.length = s.toList.length :=
    Nat.le_antisymm (hlongest u hu hmstarts) (Table.length_le_longestMatch hmatch hmem hstarts)
  have hprefix : u.toList <+: s.toList :=
    List.prefix_of_prefix_length_le hmstarts (List.prefix_append ..) (Nat.le_of_eq hlength)
  rw [hmatch, hprefix.eq_of_length hlength]

/-- Where no other token starts, the longest symbol is the token. -/
theorem token?_symbol {s : List Char} (hstart : isSymbolStart c = true)
    (hmatch : table.longestMatch (c :: cs) = some s) :
    Text.isWhite c = false ∧ token? table c cs = .ok (.op (String.ofList s), s) := by
  simp only [isSymbolStart, Bool.and_eq_true, Bool.not_eq_true', Bool.or_eq_false_iff,
    beq_eq_false_iff_ne] at hstart
  obtain ⟨⟨⟨hwhite, ⟨hopen, hclose⟩, hcomma⟩, hdigit⟩, hname⟩ := hstart
  refine ⟨hwhite, ?_⟩
  rw [token?, if_neg hopen, if_neg hclose, if_neg hcomma, if_neg (Bool.eq_false_iff.1 hdigit),
    if_neg (Bool.eq_false_iff.1 hname), hmatch]

/-- A symbol is one token where no longer one starts. -/
theorem token?_op {s : String} (hs : s ∈ table.symbols) (hstart : isSymbolStart c = true)
    (hchars : s.toList = c :: cs) (hlongest : ∀ u ∈ table.symbols, u.toList <+: s.toList ++ rest →
      u.toList.length ≤ s.toList.length) :
    Text.isWhite c = false ∧ token? table c (cs ++ rest) = .ok (.op s, c :: cs) := by
  have hmatch := longestMatch_eq_some hs hlongest
  rw [hchars, List.cons_append] at hmatch
  obtain ⟨hwhite, htoken⟩ := token?_symbol hstart hmatch
  rw [← hchars, String.ofList_toList, hchars] at htoken
  exact ⟨hwhite, htoken⟩

/-- A symbol of rules starts with a character that starts no other token. -/
theorem exists_isSymbolStart {s : String} (hs : s ∈ Table.standard.symbols) :
    ∃ c cs, s.toList = c :: cs ∧ isSymbolStart c = true := by
  have hall : ∀ s ∈ Table.standard.symbols, s.toList.head?.all isSymbolStart ∧ s.toList ≠ [] := by
    decide
  obtain ⟨hstart, hne⟩ := hall s hs
  obtain ⟨c, cs, hchars⟩ := List.exists_cons_of_ne_nil hne
  rw [hchars] at hstart
  exact ⟨c, cs, hchars, hstart⟩

/-- No symbol of rules is longer than another by more than a character. -/
theorem length_symbol_standard : ∀ u ∈ Table.standard.symbols, ∀ s ∈ Table.standard.symbols,
    u.toList.length ≤ s.toList.length + 1 := by
  decide

/-- A symbol of rules is one token if it and the next character are no symbol. -/
theorem token?_op_standard {s : String} (hs : s ∈ Table.standard.symbols)
    (hchars : s.toList = c :: cs)
    (hnext : ∀ d ∈ rest.head?, s.toList ++ [d] ∉ Table.standard.symbols.map String.toList) :
    Text.isWhite c = false ∧ token? .standard c (cs ++ rest) = .ok (.op s, c :: cs) := by
  obtain ⟨d, ds, hds, hstart⟩ := exists_isSymbolStart hs
  obtain ⟨rfl, rfl⟩ := List.cons.inj (hchars.symm.trans hds)
  refine token?_op hs hstart hchars fun u hu hprefix => ?_
  rcases rest with _ | ⟨d, rest⟩
  · rw [List.append_nil] at hprefix
    exact hprefix.length_le
  refine Decidable.byContradiction fun hlong => hnext d rfl ?_
  have hlength : u.toList.length = (s.toList ++ [d]).length := by
    have hle := length_symbol_standard u hu s hs
    rw [List.length_append, List.length_singleton]
    omega
  have hprefix' : s.toList ++ [d] <+: s.toList ++ d :: rest :=
    ⟨rest, by rw [List.append_assoc, List.singleton_append]⟩
  have heq : u.toList = s.toList ++ [d] :=
    (List.prefix_of_prefix_length_le hprefix hprefix' (Nat.le_of_eq hlength)).eq_of_length hlength
  exact List.mem_map.2 ⟨u, hu, heq⟩

theorem Cuts.op_standard {s : String} (hs : s ∈ Table.standard.symbols)
    (hnext : s.toList ++ [c] ∉ Table.standard.symbols.map String.toList)
    (h : Cuts .standard (c :: rest) ts) :
    Cuts .standard (s.toList ++ c :: rest) (.op s :: ts) := by
  obtain ⟨d, ds, hchars, -⟩ := exists_isSymbolStart hs
  have hends : ∀ e ∈ (c :: rest).head?,
      s.toList ++ [e] ∉ Table.standard.symbols.map String.toList := fun e he => by
    cases he
    exact hnext
  obtain ⟨hwhite, htoken⟩ := token?_op_standard hs hchars hends
  rw [hchars]
  exact .token hwhite htoken h

end Formula

end Screenmark
