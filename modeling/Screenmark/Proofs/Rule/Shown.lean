/-
  Screenmark — rules as shown.

  What a rule shows is the text that it was read from, without white space and without
  an equals sign that has no name before it. So a rule is read back from what it shows
  (`read_shown_of_read`).
-/
import Screenmark.Proofs.Rule.Spacing

namespace Screenmark

open Text

namespace Rule

variable {source text : String} {cs : List Char} {name : Option String} {action : Action}
  {operands : List String} {r : Rule}

/-! ## Words -/

theorem eq_name_of_test {word : String} {t : Test} (h : Test.ofName? word = some t) :
    word = t.name := by
  have hname := List.find?_some h
  exact (of_decide_eq_true hname).symm

theorem eq_name_of_action {word : String} (h : Action.ofName? word = some action) :
    word = action.name := by
  have hname := List.find?_some h
  exact (of_decide_eq_true hname).symm

theorem not_mem_name (action : Action) : '=' ∉ action.name.toList := by
  cases action <;> decide

theorem isEmpty_name (action : Action) : action.name.isEmpty = false := by
  cases action <;> decide

/-! ## The action as shown -/

/-- An action with its operands, and with its name, if there is one, as it is shown. -/
def body (name : Option String) (action : Action) (operands : List String) : List Char :=
  ((name.map (· ++ "=")).getD "").toList ++ action.name.toList ++
    '(' :: ((",".intercalate operands).toList ++ [')'])

theorem readAction_eq_ok :
    readAction source cs = .ok (name, action, operands) ↔ ∃ head n word,
      splitClause source .action cs = .ok (head, operands) ∧
      (splitFirst '=' head = some (n, word) ∨ '=' ∉ head ∧ n = [] ∧ word = head) ∧
      name = (if compact n = [] then none else some (String.ofList (compact n))) ∧
      Action.ofName? (String.ofList (compact word)) = some action := by
  unfold readAction
  constructor
  · intro h
    split at h
    · cases h
    · split at h
      · cases h
      · next head operands' hclause =>
        dsimp only at h
        rcases hsplit : splitFirst '=' head with _ | ⟨n, word⟩
        · rw [hsplit] at h
          dsimp only at h
          split at h
          · cases h
          · split at h
            · next a hword =>
              cases h
              exact ⟨head, [], head, hclause, .inr ⟨splitFirst_eq_none_iff.1 hsplit, rfl, rfl⟩, rfl,
                hword⟩
            · cases h
        · rw [hsplit] at h
          dsimp only at h
          split at h
          · cases h
          · split at h
            · next a hword =>
              cases h
              exact ⟨head, n, word, hclause, .inl hsplit, by simp, hword⟩
            · cases h
  · rintro ⟨head, n, word, hclause, hhead, rfl, hword⟩
    have hne : compact cs ≠ [] := by
      rw [compact_of_splitClause hclause]
      simp
    have hword' : (String.ofList (compact word)).isEmpty = false := by
      rw [eq_name_of_action hword, isEmpty_name]
    rw [if_neg hne, hclause]
    dsimp only
    rcases hhead with hsplit | ⟨hmem, rfl, rfl⟩
    · rw [hsplit]
      dsimp only
      rw [hword', hword]
      simp
    · rw [splitFirst_eq_none_iff.2 hmem]
      dsimp only
      rw [hword', hword]
      simp

/-- Without white space, the clause of an action is what is shown of it, perhaps behind an
    equals sign. -/
theorem compact_of_readAction (h : readAction source cs = .ok (name, action, operands)) :
    compact cs = body name action operands ∨ compact cs = '=' :: body name action operands := by
  obtain ⟨head, n, word, hclause, hhead, rfl, hword⟩ := readAction_eq_ok.1 h
  have hname : compact word = action.name.toList := by
    rw [← eq_name_of_action hword, String.toList_ofList]
  rw [compact_of_splitClause hclause]
  rcases hhead with hsplit | ⟨-, rfl, rfl⟩
  · obtain ⟨rfl, -⟩ := splitFirst_eq_some hsplit
    rw [compact_append, compact_cons (by decide), hname]
    by_cases hn : compact n = []
    · right
      rw [if_pos hn, hn]
      rfl
    · left
      rw [if_neg hn]
      simp [body]
  · left
    rw [hname]
    rfl

theorem compact_body (h : readAction source cs = .ok (name, action, operands)) :
    compact (body name action operands) = body name action operands := by
  rcases compact_of_readAction h with heq | heq
  · rw [← heq, compact_compact]
  · have hcons : compact ('=' :: body name action operands) = '=' :: body name action operands := by
      rw [← heq, compact_compact]
    rw [compact_cons (by decide)] at hcons
    exact (List.cons.inj hcons).2

theorem mem_of_mem_body (h : readAction source cs = .ok (name, action, operands)) {c : Char}
    (hc : c ∈ body name action operands) : c ∈ cs := by
  rcases compact_of_readAction h with heq | heq
  · exact (mem_compact.1 (heq ▸ hc)).1
  · exact (mem_compact.1 (heq ▸ List.mem_cons_of_mem '=' hc)).1

/-- An equals sign without a name before it does not count. -/
theorem readAction_of_equals (h : readAction source ('=' :: cs) = .ok (name, action, operands)) :
    readAction source cs = .ok (name, action, operands) := by
  obtain ⟨head, n, word, hclause, hhead, rfl, hword⟩ := readAction_eq_ok.1 h
  obtain ⟨rest, inner, trailer, hopen, hclosed, htrailer, rfl⟩ := splitClause_eq_ok.1 hclause
  rw [splitFirst, if_neg (by decide)] at hopen
  obtain ⟨⟨head', rest'⟩, hopen', heq⟩ := Option.map_eq_some_iff.1 hopen
  cases heq
  have hclause' : splitClause source .action cs = .ok (head', splitArguments inner) :=
    splitClause_eq_ok.2 ⟨rest, inner, trailer, hopen', hclosed, htrailer, rfl⟩
  -- the name ends at the equals sign in front, so it is empty
  rcases hhead with hsplit | ⟨hmem, -, -⟩
  · rw [splitFirst, if_pos rfl] at hsplit
    obtain ⟨rfl, rfl⟩ := Prod.mk.inj (Option.some.inj hsplit)
    have hnot : '=' ∉ head' := by
      intro hmem
      have : '=' ∈ compact head' := mem_compact.2 ⟨hmem, by decide⟩
      rw [← String.toList_ofList (l := compact head'), eq_name_of_action hword] at this
      exact not_mem_name action this
    exact readAction_eq_ok.2 ⟨head', [], head', hclause', .inr ⟨hnot, rfl, rfl⟩, rfl, hword⟩
  · exact absurd List.mem_cons_self hmem

/-- **An action is read back from what is shown of it.** -/
theorem readAction_body (h : readAction source cs = .ok (name, action, operands))
    (text : String) :
    readAction text (body name action operands) = .ok (name, action, operands) := by
  have hcompact := readAction_compact source text cs
  rw [h] at hcompact
  rcases compact_of_readAction h with heq | heq
  · rw [heq] at hcompact
    exact hcompact
  · rw [heq] at hcompact
    exact readAction_of_equals hcompact

/-! ## The clauses as shown -/

theorem splitClauses_eq_none {act : List Char} :
    splitClauses source cs = .ok (none, act) ↔ act = cs ∧ '\x7b' ∉ cs := by
  rw [← splitFirst_eq_none_iff, splitClauses]
  constructor
  · intro h
    split at h
    · next hnone =>
      cases h
      exact ⟨rfl, hnone⟩
    · split at h
      · cases h
      · cases h
  · rintro ⟨rfl, hnone⟩
    rw [hnone]

theorem splitClauses_eq_some {test act : List Char} :
    splitClauses source cs = .ok (some test, act) ↔
      cs = test ++ '\x7b' :: (act ++ ['\x7d']) ∧ '\x7b' ∉ test := by
  rw [splitClauses]
  constructor
  · intro h
    split at h
    · cases h
    · next test' rest hsplit =>
      obtain ⟨rfl, hmem⟩ := splitFirst_eq_some hsplit
      split at h
      · next hlast =>
        cases h
        obtain ⟨act, rfl⟩ := List.getLast?_eq_some_iff.1 hlast
        exact ⟨by rw [List.dropLast_concat], hmem⟩
      · cases h
  · rintro ⟨rfl, hmem⟩
    rw [splitFirst_append hmem]
    simp

theorem toList_shown_of_noTest (h : r.test = none) :
    r.shown.toList = body r.name r.action r.operands := by
  simp [shown, h, body]

theorem toList_shown_of_test {t : Test} (h : r.test = some t) :
    r.shown.toList = t.name.toList ++ '(' :: ((",".intercalate r.dependencies).toList ++ [')']) ++
      '\x7b' :: (body r.name r.action r.operands ++ ['\x7d']) := by
  simp [shown, h, body]

/-! ## Rules -/

theorem actionFault?_isNone (r : Rule) (text : String) :
    (r.withSource text).actionFault?.isNone = r.actionFault?.isNone := by
  unfold actionFault? withSource
  dsimp only
  split
  · rfl
  · split
    · rfl
    · split
      · rfl
      · split
        · rfl
        · rfl

theorem checked_eq_ok_iff : checked r = .ok r ↔ r.testFault? = none ∧ r.actionFault? = none := by
  rw [checked]
  rcases r.testFault? with _ | f
  · rcases r.actionFault? with _ | f
    · simp
    · simp
  · simp

/-- What is checked of a rule does not depend on its text. -/
theorem checked_withSource_of_ok (h : checked r = .ok r) (hdep : IsCompact r.dependencies)
    (text : String) : checked (r.withSource text) = .ok (r.withSource text) := by
  obtain ⟨htest, haction⟩ := checked_eq_ok_iff.1 h
  refine checked_eq_ok_iff.2 ⟨?_, ?_⟩
  · rw [testFault?_withSource hdep, htest]
    rfl
  · rw [← Option.isNone_iff_eq_none, actionFault?_isNone, haction]
    rfl

theorem exists_of_readWith {test : Option Test} {dependencies : List String}
    (h : readWith source test dependencies cs = .ok r) : r.source = source ∧ r.test = test ∧
      r.dependencies = dependencies ∧ readAction source cs = .ok (r.name, r.action, r.operands) ∧
      r.action.family.accepts test r.action = true ∧ r.family = r.action.family ∧
      checked r = .ok r := by
  unfold readWith at h
  rcases haction : readAction source cs with f | ⟨name, action, operands⟩
  · rw [haction] at h
    cases h
  · rw [haction] at h
    simp only [Except.bind] at h
    split at h
    · next hacc =>
      obtain ⟨rfl, -⟩ := checked_eq_ok h
      exact ⟨rfl, rfl, rfl, rfl, hacc, rfl, h⟩
    · cases h

/-- A rule is put together again from its action as shown. -/
theorem readWith_body {test : Option Test} {dependencies : List String}
    (h : readWith source test dependencies cs = .ok r) (hdep : IsCompact dependencies)
    (text : String) :
    readWith text test dependencies (body r.name r.action r.operands) =
      .ok (r.withSource text) := by
  obtain ⟨-, rfl, rfl, haction, hacc, hfamily, hchecked⟩ := exists_of_readWith h
  rw [readWith, readAction_body haction]
  simp only [Except.bind]
  rw [if_pos hacc, ← hfamily]
  exact checked_withSource_of_ok hchecked hdep text

/-- A rule that is read has an action alone, or a test and an action. -/
theorem exists_of_read (h : read source = .ok r) :
    (∃ act, splitClauses source (trim source.toList) = .ok (none, act) ∧
      readWith source none [] act = .ok r) ∨
    ∃ test act t dependencies, splitClauses source (trim source.toList) = .ok (some test, act) ∧
      readTest source test = .ok (t, dependencies) ∧
      readWith source (some t) dependencies act = .ok r := by
  rcases hsplit : splitClauses source (trim source.toList) with f | ⟨_ | test, act⟩
  · unfold read at h
    rw [hsplit] at h
    cases h
  · rw [read_of_noTest hsplit] at h
    exact .inl ⟨act, rfl, h⟩
  · rw [read_of_test hsplit] at h
    rcases htest : readTest source test with f | ⟨t, dependencies⟩
    · rw [htest] at h
      cases h
    · rw [htest] at h
      exact .inr ⟨test, act, t, dependencies, rfl, htest, h⟩

theorem source_of_read (h : read source = .ok r) : r.source = source := by
  rcases exists_of_read h with ⟨act, -, hwith⟩ | ⟨test, act, t, dependencies, -, -, hwith⟩
  · exact (exists_of_readWith hwith).1
  · exact (exists_of_readWith hwith).1

/-- The clause of a test that was read, without white space. -/
theorem checked_of_read (h : read source = .ok r) : checked r = .ok r := by
  rcases exists_of_read h with ⟨act, -, hwith⟩ | ⟨test, act, t, dependencies, -, -, hwith⟩
  · exact (exists_of_readWith hwith).2.2.2.2.2.2
  · exact (exists_of_readWith hwith).2.2.2.2.2.2

/-- A rule that is read has as many operands as its action asks for. -/
theorem admits_of_read (h : read source = .ok r) :
    (actionArity r.action).admits r.operands.length = true := by
  have hfault := (checked_eq_ok_iff.1 (checked_of_read h)).2
  unfold actionFault? at hfault
  by_cases hadmits : (actionArity r.action).admits r.operands.length = true
  · exact hadmits
  · rw [if_pos (by simpa using hadmits)] at hfault
    cases hfault

/-- A conversion rule that is read has a name. -/
theorem exists_name_of_read (hread : read source = .ok r) (hfamily : r.family = .conversion) :
    ∃ name, r.name = some name := by
  have hfault := (checked_eq_ok_iff.1 (checked_of_read hread)).2
  rcases hname : r.name with _ | name
  · have hnameless : r.actionFault?.isSome = true := by
      unfold actionFault?
      rw [hname, hfamily]
      split
      · rfl
      · split
        · rfl
        · split <;> rfl
    rw [hfault] at hnameless
    cases hnameless
  · exact ⟨name, rfl⟩

theorem compact_of_readTest {t : Test} {dependencies : List String}
    (h : readTest source cs = .ok (t, dependencies)) : compact cs =
      t.name.toList ++ '(' :: ((",".intercalate dependencies).toList ++ [')']) := by
  obtain ⟨head, hclause, hname⟩ := exists_of_readTest h
  rw [compact_of_splitClause hclause, ← eq_name_of_test hname, String.toList_ofList]

/-- **A rule is read back from what it shows.** -/
theorem read_shown_of_read (h : read source = .ok r) :
    read r.shown = .ok (r.withSource r.shown) := by
  rcases exists_of_read h with
    ⟨act, hsplit, hwith⟩ | ⟨test, act, t, dependencies, hsplit, htest, hwith⟩
  · obtain ⟨-, hr, -, haction, -⟩ := exists_of_readWith hwith
    obtain ⟨rfl, hbrace⟩ := splitClauses_eq_none.1 hsplit
    have htext : trim r.shown.toList = body r.name r.action r.operands := by
      rw [toList_shown_of_noTest hr, ← compact_body haction, trim_compact]
    have hclauses : splitClauses r.shown (trim r.shown.toList) =
        .ok (none, body r.name r.action r.operands) := by
      rw [htext]
      exact splitClauses_eq_none.2 ⟨rfl, fun hmem => hbrace (mem_of_mem_body haction hmem)⟩
    rw [read_of_noTest hclauses]
    exact readWith_body hwith isCompact_nil r.shown
  · obtain ⟨-, hr, rfl, haction, -⟩ := exists_of_readWith hwith
    obtain ⟨-, hbrace⟩ := splitClauses_eq_some.1 hsplit
    obtain ⟨head, hclause, -⟩ := exists_of_readTest htest
    have hshown : r.shown.toList =
        compact test ++ '\x7b' :: (body r.name r.action r.operands ++ ['\x7d']) := by
      rw [toList_shown_of_test hr, compact_of_readTest htest]
    have hcompact : compact r.shown.toList = r.shown.toList := by
      rw [hshown, compact_append, compact_compact, compact_cons (by decide), compact_append,
        compact_body haction]
      rfl
    have htext : trim r.shown.toList = r.shown.toList := by rw [← hcompact, trim_compact]
    have hclauses : splitClauses r.shown (trim r.shown.toList) =
        .ok (some (compact test), body r.name r.action r.operands) := by
      rw [htext]
      exact splitClauses_eq_some.2 ⟨hshown, fun hmem => hbrace (mem_compact.1 hmem).1⟩
    rw [read_of_test hclauses, readTest_compact source, htest]
    exact readWith_body hwith (isCompact_of_splitClause hclause) r.shown

/-! ## Texts that differ in white space -/

theorem ctorIdx_compacted (f : RuleFault) (text : String) :
    (f.compacted text).ctorIdx = f.ctorIdx := by
  cases f <;> rfl

/-- Texts that are equal but for white space are read as the same rule, or are wrong in the
    same way. -/
theorem read_eq_of_compacted {s t : String} (h : compacted s = compacted t) :
    (∃ r, read s = .ok r ∧ read t = .ok (r.withSource t)) ∨
      ∃ f g, read s = .error f ∧ read t = .error g ∧
        f.compacted (compacted s) = g.compacted (compacted s) := by
  have hs := read_compacted s
  have ht := read_compacted t
  rw [← h, hs] at ht
  rcases hreads : read s with f | r
  · rcases hreadt : read t with g | r'
    · rw [hreads, hreadt] at ht
      exact .inr ⟨f, g, rfl, rfl, Except.error.inj ht⟩
    · rw [hreads, hreadt] at ht
      cases ht
  · rcases hreadt : read t with g | r'
    · rw [hreads, hreadt] at ht
      cases ht
    · rw [hreads, hreadt] at ht
      have hsame : r.withSource (compacted s) = r'.withSource (compacted s) := Except.ok.inj ht
      have hr : r.withSource t = r' := by
        calc r.withSource t = (r.withSource (compacted s)).withSource t := rfl
          _ = (r'.withSource (compacted s)).withSource t := by rw [hsame]
          _ = r'.withSource r'.source := by rw [source_of_read hreadt]; rfl
          _ = r' := rfl
      exact .inl ⟨r, rfl, by rw [hr]⟩

/-- **What the text of a rule says does not depend on how it is spaced.** A rule is read
    back from what it shows; and of two texts that are equal but for white space, either
    both are read, as one rule, or both have the same fault. -/
theorem read_text (s : String) :
    (∀ r, read s = .ok r → read r.shown = .ok (r.withSource r.shown)) ∧
    ∀ t, compacted s = compacted t →
      (∃ r, read s = .ok r ∧ read t = .ok (r.withSource t)) ∨
      ∃ f g, read s = .error f ∧ read t = .error g ∧ f.ctorIdx = g.ctorIdx ∧
        f.compacted (compacted s) = g.compacted (compacted s) := by
  refine ⟨fun r => read_shown_of_read, fun t h => ?_⟩
  rcases read_eq_of_compacted h with hok | ⟨f, g, hs, ht, hfault⟩
  · exact .inl hok
  · refine .inr ⟨f, g, hs, ht, ?_, hfault⟩
    rw [← ctorIdx_compacted f (compacted s), hfault, ctorIdx_compacted]

/-- A rule with a test, whose operand holds a comma and parentheses. -/
def guarded (source : String) : Rule :=
  ⟨source, .conversion, some "shown", some .during, ["g"], .eval, ["&&(a,b)"]⟩

theorem eq_ok_of_toOption {x : Except RuleFault Rule} (h : x.toOption = some r) : x = .ok r := by
  rcases x with f | r'
  · cases h
  · rw [Option.some.inj h]

theorem read_text_of_guarded :
    read "du ring( g ) \x7b shown = eval( &&(a, b) ) \x7d " =
        .ok (guarded "du ring( g ) \x7b shown = eval( &&(a, b) ) \x7d ") ∧
      read "during(g)\x7bshown=eval(&&(a,b))\x7d" =
        .ok (guarded "during(g)\x7bshown=eval(&&(a,b))\x7d") ∧
      compacted "du ring( g ) \x7b shown = eval( &&(a, b) ) \x7d " =
        compacted "during\n(g)\x7b shown=eval(&& (a,b))\x7d" ∧
      read "during\n(g)\x7b shown=eval(&& (a,b))\x7d" =
        .ok (guarded "during\n(g)\x7b shown=eval(&& (a,b))\x7d") := by
  have hread : read "du ring( g ) \x7b shown = eval( &&(a, b) ) \x7d " =
      .ok (guarded "du ring( g ) \x7b shown = eval( &&(a, b) ) \x7d ") :=
    eq_ok_of_toOption (by decide +kernel)
  have hsame : compacted "du ring( g ) \x7b shown = eval( &&(a, b) ) \x7d " =
      compacted "during\n(g)\x7b shown=eval(&& (a,b))\x7d" := by decide +kernel
  obtain ⟨hshown, hspaced⟩ := read_text "du ring( g ) \x7b shown = eval( &&(a, b) ) \x7d "
  have hform : (guarded "du ring( g ) \x7b shown = eval( &&(a, b) ) \x7d ").shown =
      "during(g)\x7bshown=eval(&&(a,b))\x7d" := by decide +kernel
  have hback := hshown _ hread
  rw [hform] at hback
  refine ⟨hread, hback, hsame, ?_⟩
  rcases hspaced _ hsame with ⟨r, hr, ht⟩ | ⟨f, g, hf, -⟩
  · rw [hread] at hr
    cases hr
    exact ht
  · rw [hread] at hf
    cases hf

end Rule

end Screenmark
