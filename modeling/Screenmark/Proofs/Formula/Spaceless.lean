/-
  Screenmark — formulas without white space.

  White space only separates tokens, so it can be left out wherever the tokens on both sides
  stay what they are. In a formula of the operators of rules there is one pair of neighbours
  that do not: an `&` between operands with a call of `&` or `&&` behind it, which begins like
  the symbol `&&` (`fuses`). Without white space a formula is read as the same formula exactly
  if it has no such pair: `parse_compacted_iff`.
-/
import Screenmark.Proofs.Formula.Gaps
import Screenmark.Proofs.Formula.Places
import Screenmark.Proofs.Text.Compact

namespace Screenmark

namespace Formula

open Text

variable {c : Char} {cs rest text : List Char} {t u : Token} {ts us : List Token}
  {g g' : Gap} {ops : List InfixOp} {e f : Formula}

/-! ## What tokens are written as -/

/-- The text writes the token. -/
inductive Token.IsWritten : Token → List Char → Prop
  | number {x : Double} {cs : List Char} : Decimal.IsNumeral cs → Binary.read? cs = some x →
      IsWritten (.number x) cs
  | name {n : String} {cs : List Char} : IsName n → n.toList = cs → IsWritten (.ident n) cs
  | op {s : String} {cs : List Char} : s ∈ Table.standard.symbols → s.toList = cs →
      IsWritten (.op s) cs
  | lparen : IsWritten .lparen ['(']
  | rparen : IsWritten .rparen [')']
  | comma : IsWritten .comma [',']

/-- What stands behind the token does not carry it on. -/
def Token.EndsAt : Token → List Char → Prop
  | .number _, cs | .ident _, cs => Parts cs
  | .op s, cs => ∀ c ∈ cs.head?, s.toList ++ [c] ∉ Table.standard.symbols.map String.toList
  | .lparen, _ | .rparen, _ | .comma, _ => True

theorem Token.IsWritten.of_fits {s : String} (hfits : t.Fits .standard s) (htold : t.IsToldBy s) :
    t.IsWritten s.toList := by
  cases t with
  | number x => exact .number hfits htold
  | ident n =>
    cases htold
    exact .name hfits rfl
  | op s =>
    cases htold
    exact .op hfits rfl
  | lparen =>
    cases hfits
    exact .lparen
  | rparen =>
    cases hfits
    exact .rparen
  | comma =>
    cases hfits
    exact .comma

/-- A token is written by the text that it takes. -/
theorem isWritten_of_token? (h : token? .standard c cs = .ok (t, text)) : t.IsWritten text := by
  obtain ⟨s, rfl, hcut⟩ := isCutOff_of_token? h
  exact .of_fits hcut.fits hcut.told

/-- A text that writes a token is this token up to where it ends. -/
theorem token?_of_isWritten (h : t.IsWritten (c :: cs)) (hends : t.EndsAt rest) :
    isWhite c = false ∧ token? .standard c (cs ++ rest) = .ok (t, c :: cs) := by
  cases h with
  | number hnumeral hread => exact token?_number hnumeral hread hends
  | name hname hn => exact token?_name hname hn hends
  | op hs hchars => exact token?_op_standard hs hchars hends
  | lparen => exact ⟨by decide, rfl⟩
  | rparen => exact ⟨by decide, rfl⟩
  | comma => exact ⟨by decide, rfl⟩

/-! ## Characters of tokens -/

/-- A character of numbers, names and symbols. -/
def isPlain (c : Char) : Bool :=
  isNumberChar c || isNameChar c || ['!', '=', '&', '|'].contains c

theorem isNameChar_eq (c : Char) : isNameChar c = (isNameStart c || c.isDigit) := by
  simp only [isNameChar, isNameStart, Char.isAlphanum, Bool.or_assoc, Bool.or_comm (c == '_')]

theorem isWhite_of_isPlain (h : isPlain c = true) : isWhite c = false := by
  simp only [isPlain, isNumberChar, isNameChar_eq, Bool.or_eq_true, beq_iff_eq,
    List.contains_iff_mem, List.mem_cons, List.not_mem_nil, or_false] at h
  rcases h with ((hdigit | rfl) | hstart | hdigit) | rfl | rfl | rfl | rfl
  · have hrange := toNat_of_isDigit hdigit
    exact isWhite_of_range (by omega) (by omega)
  · decide
  · have hrange := toNat_of_isNameStart hstart
    exact isWhite_of_range (by omega) (by omega)
  · have hrange := toNat_of_isDigit hdigit
    exact isWhite_of_range (by omega) (by omega)
  · decide
  · decide
  · decide
  · decide

theorem IsName.isNameChar {n : String} (h : IsName n) : ∀ c ∈ n.toList, isNameChar c = true := by
  obtain ⟨c, cs, hn, hstart, hchars⟩ := h
  rw [hn]
  refine List.forall_mem_cons.2 ⟨?_, hchars⟩
  rw [isNameChar_eq, hstart, Bool.true_or]

theorem IsName.isPlain {n : String} (h : IsName n) (c : Char) (hc : c ∈ n.toList) :
    isPlain c = true := by
  rw [Formula.isPlain, h.isNameChar c hc, Bool.or_true, Bool.true_or]

/-- A token is a parenthesis, a comma, or is written with characters of numbers, names and
    symbols. -/
theorem Token.IsWritten.plain (h : t.IsWritten cs) :
    (t = .lparen ∧ cs = ['('] ∨ t = .rparen ∧ cs = [')'] ∨ t = .comma ∧ cs = [',']) ∨
      t ≠ .lparen ∧ t ≠ .rparen ∧ ∀ c ∈ cs, isPlain c = true := by
  have hsymbols : ∀ s ∈ Table.standard.symbols, s.toList.all isPlain = true := by decide
  cases h with
  | number hnumeral _ =>
    refine .inr ⟨Token.noConfusion, Token.noConfusion, fun c hc => ?_⟩
    rcases hnumeral.chars c hc with hdigit | rfl
    · rw [isPlain, isNumberChar, hdigit, Bool.true_or, Bool.true_or, Bool.true_or]
    · decide
  | name hname hn => exact .inr ⟨Token.noConfusion, Token.noConfusion, hn ▸ hname.isPlain⟩
  | op hs hchars =>
    exact .inr ⟨Token.noConfusion, Token.noConfusion,
      hchars ▸ List.all_eq_true.1 (hsymbols _ hs)⟩
  | lparen => exact .inl (.inl ⟨rfl, rfl⟩)
  | rparen => exact .inl (.inr (.inl ⟨rfl, rfl⟩))
  | comma => exact .inl (.inr (.inr ⟨rfl, rfl⟩))

theorem Token.IsWritten.compact_eq (h : t.IsWritten cs) : compact cs = cs := by
  refine List.filter_eq_self.2 fun c hc => ?_
  rcases h.plain with (⟨-, rfl⟩ | ⟨-, rfl⟩ | ⟨-, rfl⟩) | ⟨-, -, hplain⟩
  · rw [List.mem_singleton.1 hc]
    decide
  · rw [List.mem_singleton.1 hc]
    decide
  · rw [List.mem_singleton.1 hc]
    decide
  · rw [isWhite_of_isPlain (hplain c hc)]
    rfl

/-- A text that is made of tokens begins, but for white space, with the first of them. -/
theorem Cuts.exists_compact (h : Cuts .standard cs (t :: ts)) :
    ∃ c a rest, t.IsWritten (c :: a) ∧ compact cs = c :: a ++ rest := by
  generalize hus : t :: ts = us at h
  induction h with
  | nil => cases hus
  | white hwhite _ ih =>
    rw [compact_cons_white hwhite]
    exact ih hus
  | @token c a rest u us hwhite htoken hrest _ =>
    cases hus
    have hwritten := isWritten_of_token? htoken
    refine ⟨c, a, compact rest, hwritten, ?_⟩
    rw [compact_append, hwritten.compact_eq]

theorem Cuts.compact_eq_nil (h : Cuts .standard cs []) : compact cs = [] := by
  generalize hus : ([] : List Token) = us at h
  induction h with
  | nil => rfl
  | white hwhite _ ih =>
    rw [compact_cons_white hwhite]
    exact ih hus
  | token => cases hus

/-! ## Neighbours -/

/-- Without white space between them the two tokens begin with another symbol. -/
def fuse (t u : Token) : Bool := t = .op "&" && (u = .op "&" || u = .op "&&")

/-- Somewhere two neighbours begin with another symbol. -/
def fuses : List Token → Bool
  | t :: u :: ts => fuse t u || fuses (u :: ts)
  | _ => false

/-- Where a character makes a symbol of another one. -/
theorem eq_of_append_mem_symbols {s : String} (hs : s ∈ Table.standard.symbols)
    (h : s.toList ++ [c] ∈ Table.standard.symbols.map String.toList) :
    c = '=' ∨ s = "&" ∧ c = '&' := by
  have hsymbols : Table.standard.symbols = ["!", "!=", "&", "&&", "||"] := by decide
  rw [hsymbols] at hs h
  simp only [List.mem_cons, List.not_mem_nil, or_false] at hs
  rcases hs with rfl | rfl | rfl | rfl | rfl <;> simp at h
  · exact .inl h
  · exact .inr ⟨rfl, h⟩

/-- What tokens begin with. -/
theorem Token.IsWritten.head {a : List Char} (h : t.IsWritten (c :: a)) :
    c ≠ '=' ∧ (c = '&' → t = .op "&" ∨ t = .op "&&") := by
  have hsymbols : ∀ s ∈ Table.standard.symbols, s.toList.head? ≠ some '=' ∧
      (s.toList.head? = some '&' → s = "&" ∨ s = "&&") := by decide
  cases h with
  | number hnumeral _ =>
    obtain ⟨d, ds, heq, hdigit⟩ := hnumeral.head
    cases heq
    refine ⟨?_, ?_⟩ <;> rintro rfl <;> cases hdigit
  | name hname hn =>
    obtain ⟨d, ds, hds, hstart, -⟩ := hname
    obtain ⟨rfl, -⟩ := List.cons.inj (hn.symm.trans hds)
    refine ⟨?_, ?_⟩ <;> rintro rfl <;> cases hstart
  | op hs hchars =>
    obtain ⟨hne, hand⟩ := hsymbols _ hs
    rw [hchars, List.head?_cons] at hne hand
    refine ⟨fun heq => hne (congrArg some heq), fun heq => ?_⟩
    exact (hand (congrArg some heq)).imp (congrArg Token.op) (congrArg Token.op)
  | lparen => exact ⟨by decide, fun heq => absurd heq (by decide)⟩
  | rparen => exact ⟨by decide, fun heq => absurd heq (by decide)⟩
  | comma => exact ⟨by decide, fun heq => absurd heq (by decide)⟩

theorem fuse_eq_true_iff : fuse t u = true ↔ t = .op "&" ∧ (u = .op "&" ∨ u = .op "&&") := by
  simp only [fuse, Bool.and_eq_true, Bool.or_eq_true, decide_eq_true_eq]

theorem fuses_cons_eq_false (h : fuses (t :: ts) = false) :
    (∀ u ∈ ts.head?, fuse t u = false) ∧ fuses ts = false := by
  rcases ts with _ | ⟨u, ts⟩
  · exact ⟨fun u hu => absurd hu (Option.not_mem_none u), rfl⟩
  · obtain ⟨hhead, htail⟩ := Bool.or_eq_false_iff.1 h
    exact ⟨fun v hv => Option.some.inj hv ▸ hhead, htail⟩

/-- Behind an operand no further one follows directly. -/
theorem parts_compact {opened : List (Option InfixOp)}
    (hpass : Passes .standard ⟨.operator, opened⟩ ts ops g) (hcuts : Cuts .standard cs ts) :
    Parts (compact cs) := by
  have hsymbols : ∀ s ∈ Table.standard.symbols,
      s.toList.head?.all fun c => !isNameChar c && !isNumberChar c := by decide
  rcases ts with _ | ⟨u, ts⟩
  · rw [hcuts.compact_eq_nil]
    exact parts_nil
  obtain ⟨c, a, rest, hwritten, hcompact⟩ := hcuts.exists_compact
  rw [hcompact]
  refine parts_cons ?_
  cases hpass with
  | cons hstep _ =>
    cases hwritten with
    | number => cases hstep
    | name => cases hstep
    | op hs hchars =>
      have hc := hsymbols _ hs
      rw [hchars] at hc
      simpa using hc
    | lparen => cases hstep
    | rparen => exact ⟨by decide, by decide⟩
    | comma => exact ⟨by decide, by decide⟩

/-- Neighbours that do not fuse stay apart without white space. -/
theorem endsAt_compact {g₁ : Gap} {ops₁ : List InfixOp} (hwritten : t.IsWritten text)
    (hstep : Step .standard g t ops g₁) (hpass : Passes .standard g₁ ts ops₁ g')
    (hfuse : ∀ u ∈ ts.head?, fuse t u = false) (hcuts : Cuts .standard cs ts) :
    t.EndsAt (compact cs) := by
  cases hwritten with
  | number =>
    cases hstep
    exact parts_compact hpass hcuts
  | name =>
    cases hstep
    exact parts_compact hpass hcuts
  | op hs _ =>
    intro d hd hmem
    rcases ts with _ | ⟨u, ts⟩
    · rw [hcuts.compact_eq_nil] at hd
      cases hd
    obtain ⟨c, a, rest, hnext, hcompact⟩ := hcuts.exists_compact
    rw [hcompact] at hd
    cases hd
    rcases eq_of_append_mem_symbols hs hmem with heq | ⟨rfl, heq⟩
    · exact hnext.head.1 heq
    · have hno := hfuse u rfl
      rw [fuse_eq_true_iff.2 ⟨rfl, hnext.head.2 heq⟩] at hno
      cases hno
  | lparen => trivial
  | rparen => trivial
  | comma => trivial

/-! ## Texts without white space -/

/-- **Without white space the tokens stay what they are**, if no neighbours fuse. -/
theorem cuts_compact (h : Cuts .standard cs ts) (hpass : Passes .standard g ts ops g')
    (hfuse : fuses ts = false) : Cuts .standard (compact cs) ts := by
  induction h generalizing g ops with
  | nil => exact .nil
  | white hwhite _ ih =>
    rw [compact_cons_white hwhite]
    exact ih hpass hfuse
  | token hwhite htoken hrest ih =>
    have hwritten := isWritten_of_token? htoken
    obtain ⟨hhead, htail⟩ := fuses_cons_eq_false hfuse
    cases hpass with
    | cons hstep hpass =>
      obtain ⟨-, htoken'⟩ := token?_of_isWritten hwritten
        (endsAt_compact hwritten hstep hpass hhead hrest)
      rw [compact_append, hwritten.compact_eq]
      exact .token hwhite htoken' (ih hpass htail)

/-- The first token of a text is taken off. -/
theorem Cuts.exists_of_token? {table : Table} (h : Cuts table (c :: cs ++ rest) us)
    (hwhite : isWhite c = false) (htoken : token? table c (cs ++ rest) = .ok (t, c :: cs)) :
    ∃ us', us = t :: us' ∧ Cuts table rest us' := by
  generalize hall : c :: cs ++ rest = all at h
  cases h with
  | nil => cases hall
  | white hwhite' _ =>
    obtain ⟨rfl, -⟩ := List.cons.inj hall
    rw [hwhite] at hwhite'
    cases hwhite'
  | token _ htoken' hrest =>
    rw [List.cons_append, List.cons_append] at hall
    obtain ⟨rfl, htail⟩ := List.cons.inj hall
    rw [← htail, htoken] at htoken'
    cases htoken'
    rw [List.append_cancel_left htail]
    exact ⟨_, rfl, hrest⟩

/-- Two ampersands are one symbol. -/
theorem token?_and (rest : List Char) :
    token? .standard '&' (['&'] ++ rest) = .ok (.op "&&", ['&', '&']) := by
  have hlength : ∀ s ∈ Table.standard.symbols, s.toList.length ≤ 2 := by decide
  refine (token?_op_standard (s := "&&") (by decide) rfl fun d _ hmem => ?_).2
  obtain ⟨s, hs, heq⟩ := List.mem_map.1 hmem
  have hle := hlength s hs
  rw [heq, List.length_append, List.length_singleton] at hle
  exact absurd hle (by decide)

/-- Neighbours that fuse begin with two ampersands. -/
theorem exists_of_fuse {a : List Char} (hfuse : fuse t u = true) (hwritten : t.IsWritten (c :: a))
    (hnext : Cuts .standard rest (u :: ts)) : t = .op "&" ∧ (∃ s, u = .op s) ∧
      ∃ later, c :: a ++ compact rest = '&' :: ['&'] ++ later := by
  obtain ⟨rfl, hu⟩ := fuse_eq_true_iff.1 hfuse
  obtain ⟨d, b, later, hbegins, hcompact⟩ := hnext.exists_compact
  refine ⟨rfl, hu.elim (fun h => ⟨_, h⟩) fun h => ⟨_, h⟩, b ++ later, ?_⟩
  have hchars : c :: a = ['&'] := by
    cases hwritten with
    | op _ hchars => exact hchars.symm
  have hd : d = '&' := by
    rcases hu with rfl | rfl
    · cases hbegins with
      | op _ hop => exact (List.cons.inj hop).1.symm
    · cases hbegins with
      | op _ hop => exact (List.cons.inj hop).1.symm
  rw [hchars, hcompact, hd]
  rfl

/-- **Without white space the first neighbours that fuse begin with another symbol**; the tokens
    in front of them stay what they are. -/
theorem exists_of_fuses (h : Cuts .standard cs ts) (hpass : Passes .standard g ts ops g')
    (hfuse : fuses ts = true) (h' : Cuts .standard (compact cs) us) :
    ∃ pre u post post', ts = pre ++ .op "&" :: .op u :: post ∧ us = pre ++ .op "&&" :: post' := by
  induction h generalizing g ops us with
  | nil => cases hfuse
  | white hwhite _ ih =>
    rw [compact_cons_white hwhite] at h'
    exact ih hpass hfuse h'
  | @token c a rest t ts hwhite htoken hrest ih =>
    have hwritten := isWritten_of_token? htoken
    rw [compact_append, hwritten.compact_eq] at h'
    rcases ts with _ | ⟨u, ts⟩
    · cases hfuse
    by_cases hhead : fuse t u = true
    · obtain ⟨rfl, ⟨s, rfl⟩, later, hbegins⟩ := exists_of_fuse hhead hwritten hrest
      rw [hbegins] at h'
      obtain ⟨post', rfl, -⟩ := h'.exists_of_token? (by decide) (token?_and later)
      exact ⟨[], s, ts, post', rfl, rfl⟩
    · have hapart := Bool.not_eq_true _ ▸ hhead
      cases hpass with
      | cons hstep hpass =>
        obtain ⟨-, htoken'⟩ := token?_of_isWritten hwritten
          (endsAt_compact hwritten hstep hpass (fun v hv => Option.some.inj hv ▸ hapart) hrest)
        obtain ⟨us', rfl, hus'⟩ := h'.exists_of_token? hwhite htoken'
        have hlater : fuses (u :: ts) = true := (Bool.or_eq_true_iff.1 hfuse).resolve_left hhead
        obtain ⟨pre, v, post, post', hpre, rfl⟩ := ih hpass hlater hus'
        exact ⟨t :: pre, v, post, post', by rw [hpre, List.cons_append], rfl⟩

/-! ## Formulas -/

/-- The text has an `&` between operands with a call of `&` or `&&` behind it. -/
def Fuses (source : String) : Prop :=
  ∃ ls, tokens .standard source.toList = .ok ls ∧ fuses (ls.map Prod.snd) = true

theorem fuses_iff {source : String} : Fuses source ↔
    (tokens .standard source.toList).toOption.any (fun ls => fuses (ls.map Prod.snd)) = true := by
  unfold Fuses
  rcases tokens .standard source.toList with f | ls
  · constructor
    · rintro ⟨ls, hls, -⟩
      cases hls
    · exact fun h => absurd h Bool.false_ne_true
  · constructor
    · rintro ⟨ls', hls, hfuse⟩
      cases hls
      exact hfuse
    · exact fun hfuse => ⟨ls, rfl, hfuse⟩

instance (source : String) : Decidable (Fuses source) := decidable_of_iff' _ fuses_iff

/-- In front of neighbours that fuse there is an operand. -/
theorem exists_operator_gap {pre post : List Token} {s : String}
    (h : Passes .standard g (pre ++ .op "&" :: .op s :: post) ops g') :
    ∃ ops₁ opened, Passes .standard g pre ops₁ ⟨.operator, opened⟩ := by
  have hand : ∃ op, Table.standard.infixOps.find? "&" = some op := ⟨_, rfl⟩
  obtain ⟨op, hop⟩ := hand
  obtain ⟨ops₁, ops₂, g₁, hpre, hrest, -⟩ := h.exists_of_append
  cases hrest with
  | cons hstep hrest =>
    cases hstep with
    | before hnone => cases hop.symm.trans hnone
    | calls =>
      -- the parenthesis of a call is no operator
      cases hrest with
      | cons hstep' _ => cases hstep'
    | between => exact ⟨ops₁, _, hpre⟩
    | after hnone => cases hop.symm.trans hnone

theorem parse_compacted_of_not_fuses {source : String} (h : parse .standard source = .ok e)
    (hno : ¬ Fuses source) : parse .standard (compacted source) = .ok e := by
  obtain ⟨ls, hls, hwrites⟩ := exists_writes_of_parse isApart_standard h
  have hfuse : fuses (ls.map Prod.snd) = false :=
    Bool.eq_false_iff.2 fun htrue => hno ⟨ls, hls, htrue⟩
  obtain ⟨ls', hls', hmap⟩ := exists_tokens_of_cuts
    (cuts_compact (cuts_of_tokens (by decide) hls) (passes_of_writes isApart_standard hwrites []) hfuse)
  rw [← toList_compacted] at hls'
  rw [parse_eq_ok_iff hls']
  exact isRead_of_writes isApart_standard hwrites _ ls' hmap

/-- Neighbours that fuse make another formula, if they make one: it has `&&` between the operands
    where the formula has `&`. -/
theorem ne_of_parse_compacted {source : String} (h : parse .standard source = .ok e)
    (hfuses : Fuses source) (h' : parse .standard (compacted source) = .ok f) : e ≠ f := by
  obtain ⟨ls, hls, hpass⟩ := passes_of_parse isApart_standard h
  obtain ⟨ls', hls', hpass'⟩ := passes_of_parse isApart_standard h'
  obtain ⟨ls₁, hls₁, hfuse⟩ := hfuses
  rw [hls] at hls₁
  cases hls₁
  rw [toList_compacted] at hls'
  obtain ⟨pre, s, post, post', hts, hus⟩ :=
    exists_of_fuses (cuts_of_tokens (by decide) hls) hpass hfuse (cuts_of_tokens (by decide) hls')
  rw [hts] at hpass
  rw [hus] at hpass'
  obtain ⟨ops, opened, hpre⟩ := exists_operator_gap hpass
  have hops : ∃ op op', Table.standard.infixOps.find? "&" = some op ∧
      Table.standard.infixOps.find? "&&" = some op' ∧ op.symbol ≠ op'.symbol :=
    ⟨_, _, rfl, rfl, by decide⟩
  obtain ⟨op, op', hop, hop', hne⟩ := hops
  intro heq
  exact Passes.joints_ne hop hop' (fun heq => hne (congrArg InfixOp.symbol heq)) hpre hpass
    hpass' (congrArg joints heq)

/-- **White space in formulas.** Without it a formula is read as the same formula exactly if
    nowhere an `&` between operands has a call of `&` or `&&` behind it. -/
theorem parse_compacted_iff {source : String} (h : parse .standard source = .ok e) :
    parse .standard (compacted source) = .ok e ↔ ¬ Fuses source :=
  ⟨fun h' hfuses => ne_of_parse_compacted h hfuses h' rfl, parse_compacted_of_not_fuses h⟩

example : Fuses "A & &&(B, C)" ∧ ¬ Fuses "A && &(B, C)" := by decide +kernel

end Formula

end Screenmark
