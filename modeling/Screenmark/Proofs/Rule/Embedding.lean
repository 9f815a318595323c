/-
  Screenmark — formulas in rules.

  The parentheses of a formula belong together and its commas stand inside of calls, so an
  action on a formula is cut around the formula and not inside of it (`Encloses`). The rule has
  one operand, which is the formula without white space. Whether it is still the same formula
  is a matter of this white space alone: `read_eval`.
-/
import Screenmark.Proofs.Formula.Spaceless
import Screenmark.Proofs.Rule.Shown

namespace Screenmark

open Text hiding IsName
open Formula (Passes Cuts Token Gap InfixOp Next IsName Fuses isPlain parse)

namespace Rule

/-! ## Arguments -/

/-- With `depth` parentheses open in front of it the text closes all of them and no other one.
    Its commas stand inside of parentheses, and it has no brace. -/
inductive Encloses : Nat → List Char → Prop
  | nil : Encloses 0 []
  | opens {depth : Nat} {cs : List Char} : Encloses (depth + 1) cs → Encloses depth ('(' :: cs)
  | closes {depth : Nat} {cs : List Char} : Encloses depth cs → Encloses (depth + 1) (')' :: cs)
  | comma {depth : Nat} {cs : List Char} :
      Encloses (depth + 1) cs → Encloses (depth + 1) (',' :: cs)
  | other {depth : Nat} {c : Char} {cs : List Char} : c ∉ ['(', ')', ',', '\x7b'] →
      Encloses depth cs → Encloses depth (c :: cs)

/-- The text can be the only argument of a clause. -/
def IsArgument (s : String) : Prop := Encloses 0 s.toList ∧ compact s.toList ≠ []

variable {source n s e : String} {cs a head : List Char} {depth : Nat} {which : Clause}

namespace Encloses

/-- The parenthesis behind the text closes the one in front of it. -/
theorem closed?_append (h : Encloses depth cs) (rest : List Char) :
    closed? (depth + 1) (cs ++ ')' :: rest) = some (cs, rest) := by
  induction h with
  | nil => rfl
  | opens _ ih =>
    rw [List.cons_append, closed?, if_neg (by decide), if_pos rfl]
    dsimp only
    rw [ih]
    rfl
  | closes _ ih =>
    rw [List.cons_append, closed?, if_pos rfl, if_neg (by omega), Nat.add_sub_cancel, ih]
    rfl
  | comma _ ih =>
    rw [List.cons_append, closed?, if_neg (by decide), if_neg (by decide)]
    dsimp only
    rw [ih]
    rfl
  | other hc _ ih =>
    simp only [List.mem_cons, not_or] at hc
    rw [List.cons_append, closed?, if_neg hc.2.1, if_neg hc.1]
    dsimp only
    rw [ih]
    rfl

/-- The text is not cut at a comma. -/
theorem splitOuter_eq (h : Encloses depth cs) : splitOuter depth cs = [cs] := by
  induction h with
  | nil => rfl
  | opens _ ih =>
    rw [splitOuter, if_neg (fun h => absurd h.1 (by decide)), if_pos rfl]
    dsimp only
    rw [ih]
  | closes _ ih =>
    rw [splitOuter, if_neg (fun h => absurd h.1 (by decide)), if_neg (by decide), if_pos rfl,
      Nat.add_sub_cancel]
    dsimp only
    rw [ih]
  | comma _ ih =>
    rw [splitOuter, if_neg (fun h => absurd h.2 (Nat.succ_ne_zero _)), if_neg (by decide),
      if_neg (by decide)]
    dsimp only
    rw [ih]
  | other hc _ ih =>
    simp only [List.mem_cons, not_or] at hc
    rw [splitOuter, if_neg (fun h => hc.2.2.1 h.1), if_neg hc.1, if_neg hc.2.1]
    dsimp only
    rw [ih]

theorem not_mem_brace (h : Encloses depth cs) : '\x7b' ∉ cs := by
  induction h with
  | nil => exact List.not_mem_nil
  | opens _ ih => exact List.not_mem_cons_of_ne_of_not_mem (by decide) ih
  | closes _ ih => exact List.not_mem_cons_of_ne_of_not_mem (by decide) ih
  | comma _ ih => exact List.not_mem_cons_of_ne_of_not_mem (by decide) ih
  | other hc _ ih =>
    simp only [List.mem_cons, not_or] at hc
    exact List.not_mem_cons_of_ne_of_not_mem (fun heq => hc.2.2.2.1 heq.symm) ih

/-- White space makes no difference. -/
theorem compact (h : Encloses depth cs) : Encloses depth (Text.compact cs) := by
  induction h with
  | nil => exact .nil
  | opens _ ih =>
    rw [compact_cons (by decide)]
    exact .opens ih
  | closes _ ih =>
    rw [compact_cons (by decide)]
    exact .closes ih
  | comma _ ih =>
    rw [compact_cons (by decide)]
    exact .comma ih
  | @other depth c cs hc _ ih =>
    by_cases hwhite : isWhite c = true
    · rw [compact_cons_white hwhite]
      exact ih
    · rw [compact_cons (Bool.not_eq_true _ ▸ hwhite)]
      exact .other hc ih

/-- Characters of numbers, names and symbols make no difference. -/
theorem plain_append (ha : ∀ c ∈ a, isPlain c = true) (h : Encloses depth cs) :
    Encloses depth (a ++ cs) := by
  induction a with
  | nil => exact h
  | cons c a ih =>
    rw [List.forall_mem_cons] at ha
    have hno : ∀ d ∈ ['(', ')', ',', '\x7b'], (!isPlain d) = true := List.all_eq_true.1 rfl
    refine .other (fun hmem => ?_) (ih ha.2)
    have hc := hno c hmem
    rw [ha.1] at hc
    cases hc

end Encloses

/-- The groups and calls that are open only change at a parenthesis. -/
theorem opened_eq_of_step {table : Formula.Table} {t : Token} {g g' : Gap} {ops : List InfixOp}
    (h : Formula.Step table g t ops g') (hopen : t ≠ .lparen) (hclose : t ≠ .rparen) :
    g'.opened = g.opened := by
  cases h with
  | opens => exact absurd rfl hopen
  | opensCall => exact absurd rfl hopen
  | closes => exact absurd rfl hclose
  | _ => rfl

/-- **A formula closes its parentheses**, and those that are open in front of the rest of it. -/
theorem encloses_of_passes {ts : List Token} {g : Gap} {ops : List InfixOp} {next : Next}
    (h : Cuts .standard cs ts) (hpass : Passes .standard g ts ops ⟨next, []⟩) :
    Encloses g.opened.length cs := by
  induction h generalizing g ops with
  | nil =>
    cases hpass
    exact .nil
  | @white c _ _ hwhite _ ih =>
    have hno : ∀ d ∈ ['(', ')', ',', '\x7b'], (!isWhite d) = true := List.all_eq_true.1 rfl
    refine .other (fun hmem => ?_) (ih hpass)
    have hc := hno c hmem
    rw [hwhite] at hc
    cases hc
  | token _ htoken _ ih =>
    have hwritten := Formula.isWritten_of_token? htoken
    cases hpass with
    | cons hstep hpass =>
      have hrest := ih hpass
      rcases hwritten.plain with
        (⟨rfl, hchars⟩ | ⟨rfl, hchars⟩ | ⟨rfl, hchars⟩) | ⟨hopen, hclose, hplain⟩
      · rw [hchars]
        cases hstep with
        | opens => exact .opens hrest
        | opensCall => exact .opens hrest
      · rw [hchars]
        cases hstep with
        | closes => exact .closes hrest
      · rw [hchars]
        cases hstep with
        | comma => exact .comma hrest
      · rw [← opened_eq_of_step hstep hopen hclose]
        exact .plain_append hplain hrest

/-- A formula can be an argument. -/
theorem isArgument_of_parse {f : Formula} (h : parse .standard e = .ok f) : IsArgument e := by
  obtain ⟨ls, hls, hpass⟩ := Formula.passes_of_parse Formula.isApart_standard h
  have hcuts := Formula.cuts_of_tokens (by decide) hls
  refine ⟨encloses_of_passes hcuts hpass, fun hnil => ?_⟩
  generalize ls.map Prod.snd = ts, f.joints = ops at hcuts hpass
  cases hpass with
  | cons _ _ =>
    obtain ⟨c, a, rest, -, hcompact⟩ := hcuts.exists_compact
    rw [hcompact] at hnil
    cases hnil

theorem compact_of_isName (h : IsName n) : Text.compact n.toList = n.toList :=
  (Token.IsWritten.name h rfl).compact_eq

theorem isArgument_of_isName (h : IsName n) : IsArgument n := by
  refine ⟨List.append_nil n.toList ▸ .plain_append h.isPlain .nil, ?_⟩
  rw [compact_of_isName h]
  obtain ⟨c, cs, hchars, -⟩ := h
  rw [hchars]
  exact List.cons_ne_nil c cs

/-! ## Clauses -/

/-- A clause on one argument. -/
theorem splitClause_of_isArgument (hhead : '(' ∉ head) (h : IsArgument s) :
    splitClause source which (head ++ '(' :: (s.toList ++ [')'])) =
      .ok (head, [compacted s]) := by
  have harguments : splitArguments s.toList = [compacted s] := by
    rw [splitArguments]
    split
    · next hnil => exact absurd hnil h.2
    · rw [h.1.compact.splitOuter_eq]
      rfl
  exact splitClause_eq_ok.2 ⟨s.toList ++ [')'], s.toList, [], splitFirst_append hhead,
    h.1.closed?_append [], rfl, harguments.symm⟩

theorem not_mem_of_isName {c : Char} (h : IsName n) (hc : Formula.isNameChar c = false) :
    c ∉ n.toList := fun hmem => by
  rw [h.isNameChar c hmem] at hc
  cases hc

/-- The action that gives the value of a formula to a name. -/
def evalText (n e : String) : String := n ++ "=eval(" ++ e ++ ")"

/-- The rule with the guard in front of it. -/
def duringText (g text : String) : String := "during(" ++ g ++ ")\x7b" ++ text ++ "\x7d"

theorem toList_evalText (n e : String) : (evalText n e).toList =
    (n.toList ++ '=' :: "eval".toList) ++ '(' :: (e.toList ++ [')']) := by
  simp [evalText]

theorem toList_duringText (g text : String) : (duringText g text).toList =
    ("during".toList ++ '(' :: (g.toList ++ [')'])) ++ '\x7b' :: (text.toList ++ ['\x7d']) := by
  simp [duringText]

theorem readAction_evalText (hname : IsName n) (h : IsArgument e) :
    readAction source (evalText n e).toList = .ok (some n, .eval, [compacted e]) := by
  have hhead : '(' ∉ n.toList ++ '=' :: "eval".toList := by
    rw [List.mem_append, not_or]
    exact ⟨not_mem_of_isName hname (by decide), by decide⟩
  rw [toList_evalText]
  refine readAction_eq_ok.2 ⟨_, n.toList, "eval".toList, splitClause_of_isArgument hhead h,
    .inl (splitFirst_append (not_mem_of_isName hname (by decide))), ?_, rfl⟩
  rw [compact_of_isName hname, String.ofList_toList, if_neg]
  obtain ⟨c, cs, hchars, -⟩ := hname
  rw [hchars]
  exact List.cons_ne_nil c cs

theorem readTest_during {g : String} (h : IsArgument g) :
    readTest source ("during".toList ++ '(' :: (g.toList ++ [')'])) =
      .ok (.during, [compacted g]) := by
  rw [readTest, splitClause_of_isArgument (by decide) h]
  rfl

/-! ## Rules -/

theorem not_mem_brace_evalText (hname : IsName n) (h : IsArgument e) :
    '\x7b' ∉ (evalText n e).toList := by
  rw [toList_evalText]
  simp only [List.mem_append, List.mem_cons, List.not_mem_nil, not_or]
  exact ⟨⟨not_mem_of_isName hname (by decide), by decide, by decide⟩, by decide,
    h.1.not_mem_brace, by decide, not_false⟩

theorem read_evalText (hname : IsName n) (h : IsArgument e) : read (evalText n e) =
    .ok ⟨evalText n e, .conversion, some n, none, [], .eval, [compacted e]⟩ := by
  have htrim : trim (evalText n e).toList = (evalText n e).toList := by
    obtain ⟨c, cs, hchars, -⟩ := id hname
    have hc : isWhite c = false :=
      Formula.isWhite_of_isPlain (hname.isPlain c (hchars ▸ List.mem_cons_self))
    have htext : (evalText n e).toList =
        c :: (cs ++ '=' :: "eval".toList ++ '(' :: e.toList) ++ [')'] := by
      rw [toList_evalText, hchars]
      simp
    rw [htext]
    exact trim_cons_concat hc (by decide) _
  have hclauses : splitClauses (evalText n e) (trim (evalText n e).toList) =
      .ok (none, (evalText n e).toList) := by
    rw [htrim]
    exact splitClauses_eq_none.2 ⟨rfl, not_mem_brace_evalText hname h⟩
  rw [read_of_noTest hclauses, readWith, readAction_evalText hname h]
  rfl

theorem read_duringText {g : String} (hname : IsName n) (hguard : IsArgument g)
    (h : IsArgument e) : read (duringText g (evalText n e)) =
      .ok ⟨duringText g (evalText n e), .conversion, some n, some .during, [compacted g], .eval,
        [compacted e]⟩ := by
  have htrim : trim (duringText g (evalText n e)).toList =
      (duringText g (evalText n e)).toList := by
    have htext : (duringText g (evalText n e)).toList =
        'd' :: ("uring(".toList ++ g.toList ++ ')' :: '\x7b' :: (evalText n e).toList) ++
          ['\x7d'] := by
      simp [duringText]
    rw [htext]
    exact trim_cons_concat (by decide) (by decide) _
  have hclauses : splitClauses (duringText g (evalText n e))
      (trim (duringText g (evalText n e)).toList) =
        .ok (some ("during".toList ++ '(' :: (g.toList ++ [')'])), (evalText n e).toList) := by
    rw [htrim]
    refine splitClauses_eq_some.2 ⟨toList_duringText g _, ?_⟩
    simp only [List.mem_append, List.mem_cons, List.not_mem_nil, not_or]
    exact ⟨by decide, by decide, hguard.1.not_mem_brace, by decide, not_false⟩
  rw [read_of_test hclauses, readTest_during hguard]
  simp only [Except.bind]
  rw [readWith, readAction_evalText hname h]
  rfl

/-- **Formulas in rules.** A text that is a formula on its own is the only operand of the rule
    that gives its value to a name, with a guard or without, and stands there without its white
    space. It is the same formula there exactly if nowhere in it an `&` between operands has a
    call of `&` or `&&` behind it. -/
theorem read_eval {g : String} {f : Formula} (hname : IsName n) (hguard : IsArgument g)
    (h : parse .standard e = .ok f) :
    read (evalText n e) =
        .ok ⟨evalText n e, .conversion, some n, none, [], .eval, [compacted e]⟩ ∧
      read (duringText g (evalText n e)) =
        .ok ⟨duringText g (evalText n e), .conversion, some n, some .during, [compacted g], .eval,
          [compacted e]⟩ ∧
      (parse .standard (compacted e) = .ok f ↔ ¬ Fuses e) :=
  ⟨read_evalText hname (isArgument_of_parse h),
    read_duringText hname hguard (isArgument_of_parse h), Formula.parse_compacted_iff h⟩

/-- A formula with white space that only separates tokens. -/
theorem read_eval_of_call : IsName "dark" ∧ IsArgument "logo" ∧
    ∃ f, parse .standard "!(logo) && ||(menu, 0.5)" = .ok f ∧
      read "dark=eval(!(logo) && ||(menu, 0.5))" =
        .ok ⟨"dark=eval(!(logo) && ||(menu, 0.5))", .conversion, some "dark", none, [], .eval,
          ["!(logo)&&||(menu,0.5)"]⟩ ∧
      read "during(logo)\x7bdark=eval(!(logo) && ||(menu, 0.5))\x7d" =
        .ok ⟨"during(logo)\x7bdark=eval(!(logo) && ||(menu, 0.5))\x7d", .conversion, some "dark",
          some .during, ["logo"], .eval, ["!(logo)&&||(menu,0.5)"]⟩ ∧
      parse .standard "!(logo)&&||(menu,0.5)" = .ok f := by
  have hname : IsName "dark" := ⟨'d', ['a', 'r', 'k'], rfl, rfl, List.all_eq_true.1 rfl⟩
  have hguard : IsArgument "logo" :=
    isArgument_of_isName ⟨'l', ['o', 'g', 'o'], rfl, rfl, List.all_eq_true.1 rfl⟩
  have hparse : (parse .standard "!(logo) && ||(menu, 0.5)").toOption.isSome = true := by
    decide +kernel
  rcases hf : parse .standard "!(logo) && ||(menu, 0.5)" with _ | f
  · rw [hf] at hparse
    cases hparse
  · obtain ⟨hread, hguarded, hsame⟩ := read_eval hname hguard hf
    exact ⟨hname, hguard, f, rfl, hread, hguarded, hsame.2 (by decide +kernel)⟩

/-- A conjunction with a call of `&` behind it is no formula without white space. -/
theorem not_read_eval_of_and : ∃ f, parse .standard "A & &(B,C)" = .ok f ∧
    read "x=eval(A & &(B,C))" = .ok ⟨"x=eval(A & &(B,C))", .conversion, some "x", none, [], .eval,
      ["A&&(B,C)"]⟩ ∧
    ∀ f', parse .standard "A&&(B,C)" ≠ .ok f' := by
  have hparse : (parse .standard "A & &(B,C)").toOption.isSome = true := by decide +kernel
  have hnone : (parse .standard "A&&(B,C)").toOption.isNone = true := by decide +kernel
  rcases hf : parse .standard "A & &(B,C)" with _ | f
  · rw [hf] at hparse
    cases hparse
  · refine ⟨f, rfl, eq_ok_of_toOption (by decide +kernel), fun f' hf' => ?_⟩
    rw [hf'] at hnone
    cases hnone

end Rule

end Screenmark
