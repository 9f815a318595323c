/-
  Screenmark — white space in rules.

  White space does not count in the text of a rule: the text without it is read as
  the same rule, or is wrong in the same way (`read_compacted`). Every step of reading
  commutes with taking white space away, since the characters at which a text is cut
  are not white.
-/
import Screenmark.Proofs.Rule.Reading
import Screenmark.Proofs.Text.Compact

namespace Screenmark

open Text

/-- The fault for another text of the rule, without white space in the fragment that it
    shows. -/
def RuleFault.compacted (text : String) : RuleFault → RuleFault
  | .malformed _ fragment cause => .malformed text (Text.compacted fragment) cause
  | .unsupported _ statement => .unsupported text statement
  | .arity _ arguments expected found => .arity text arguments expected found
  | .dependency _ name cause => .dependency text name cause
  | .duplicate _ name => .duplicate text name

namespace Rule

variable {α β : Type} {source text : String} {cs a b : List Char} {which : Clause}

/-- A result for the text without white space, where `f` takes white space out of what
    was read. -/
def spaceless (text : String) (f : α → β) : Except RuleFault α → Except RuleFault β
  | .ok a => .ok (f a)
  | .error e => .error (e.compacted text)

/-! ## Arguments -/

theorem closed?_compact (cs : List Char) : ∀ depth, closed? depth (compact cs) =
    (closed? depth cs).map fun (a, b) => (compact a, compact b) := by
  induction cs with
  | nil =>
    intro depth
    rfl
  | cons c cs ih =>
    intro depth
    by_cases hwhite : isWhite c = true
    · have hclose : c ≠ ')' := ne_of_isWhite (by decide) hwhite
      have hopen : c ≠ '(' := ne_of_isWhite (by decide) hwhite
      rw [compact_cons_white hwhite, ih, closed?, if_neg hclose, if_neg hopen]
      dsimp only
      rw [Option.map_map]
      congr 1
      funext p
      simp [compact_cons_white hwhite]
    · have hc : isWhite c = false := Bool.not_eq_true _ ▸ hwhite
      have hcons : ∀ o : Option (List Char × List Char),
          (o.map fun (a, b) => (compact a, compact b)).map (fun (a, b) => (c :: a, b)) =
            (o.map fun (a, b) => (c :: a, b)).map fun (a, b) => (compact a, compact b) := by
        intro o
        rw [Option.map_map, Option.map_map]
        congr 1
        funext p
        simp [compact_cons hc]
      rw [compact_cons hc, closed?, closed?]
      by_cases hclose : c = ')'
      · rw [if_pos hclose, if_pos hclose]
        by_cases hdepth : depth ≤ 1
        · rw [if_pos hdepth, if_pos hdepth]
          rfl
        · rw [if_neg hdepth, if_neg hdepth, ih, hcons]
      · rw [if_neg hclose, if_neg hclose]
        dsimp only
        rw [ih, hcons]

/-- The parenthesis that is found stands between the two texts. -/
theorem closed?_eq_some : ∀ {depth : Nat} {cs : List Char}, closed? depth cs = some (a, b) →
    cs = a ++ ')' :: b := by
  intro depth cs
  induction cs generalizing depth a with
  | nil =>
    intro h
    cases h
  | cons c cs ih =>
    intro h
    rw [closed?] at h
    split at h
    · next hclose =>
      split at h
      · cases h
        rw [hclose]
        rfl
      · obtain ⟨⟨a', b'⟩, hrest, heq⟩ := Option.map_eq_some_iff.1 h
        cases heq
        rw [ih hrest]
        rfl
    · obtain ⟨⟨a', b'⟩, hrest, heq⟩ := Option.map_eq_some_iff.1 h
      cases heq
      rw [ih hrest]
      rfl

theorem splitArguments_compact (cs : List Char) :
    splitArguments (compact cs) = splitArguments cs := by
  rw [splitArguments, splitArguments, compact_compact]

theorem splitOuter_ne_nil (depth : Nat) (cs : List Char) : splitOuter depth cs ≠ [] := by
  cases cs with
  | nil => simp [splitOuter]
  | cons c cs =>
    rw [splitOuter]
    split
    · simp
    · dsimp only
      split <;> simp

/-- Joined by commas, the pieces are the text again. -/
theorem intercalate_splitOuter (cs : List Char) :
    ∀ depth, [','].intercalate (splitOuter depth cs) = cs := by
  induction cs with
  | nil =>
    intro depth
    rfl
  | cons c cs ih =>
    intro depth
    rw [splitOuter]
    split
    · next hcomma =>
      rw [hcomma.1, List.intercalate_cons_of_ne_nil (splitOuter_ne_nil 0 cs), ih]
      rfl
    · dsimp only
      generalize hdepth : (if c = '(' then depth + 1 else if c = ')' then depth - 1 else depth) =
        depth'
      have hrest := ih depth'
      split
      · next hnil => exact absurd hnil (splitOuter_ne_nil depth' cs)
      · next p ps hps =>
        rw [hps] at hrest
        rcases ps with _ | ⟨q, ps⟩
        · rw [List.intercalate_singleton] at hrest ⊢
          rw [hrest]
        · rw [List.intercalate_cons_of_ne_nil (by simp)] at hrest ⊢
          rw [← hrest]
          simp

/-- Joined by commas, the arguments of a list are its text without white space. -/
theorem toList_intercalate_splitArguments (cs : List Char) :
    (",".intercalate (splitArguments cs)).toList = compact cs := by
  have hcomma : ",".toList = [','] := rfl
  rw [String.toList_intercalate, hcomma, splitArguments]
  split
  · next hnil =>
    rw [hnil]
    rfl
  · rw [List.map_map]
    have hid : String.toList ∘ String.ofList = id := funext fun cs => String.toList_ofList
    rw [hid, List.map_id, intercalate_splitOuter]

/-- Arguments that hold no white space. -/
def IsCompact (arguments : List String) : Prop :=
  compacted (",".intercalate arguments) = ",".intercalate arguments

theorem isCompact_nil : IsCompact [] := rfl

theorem isCompact_splitArguments (cs : List Char) : IsCompact (splitArguments cs) := by
  rw [IsCompact, ← String.toList_inj, toList_compacted, toList_intercalate_splitArguments,
    compact_compact]

/-! ## Clauses -/

theorem splitClause_compact (source text : String) (which : Clause) (cs : List Char) :
    splitClause text which (compact cs) =
      spaceless text (fun (head, arguments) => (compact head, arguments))
        (splitClause source which cs) := by
  rw [splitClause, splitClause, splitFirst_compact (by decide)]
  rcases splitFirst '(' cs with _ | ⟨head, rest⟩
  · simp [spaceless, RuleFault.compacted]
  · simp only [Option.map_some]
    rw [closed?_compact]
    rcases closed? 1 rest with _ | ⟨inner, trailer⟩
    · have hopen : compact ('(' :: rest) = '(' :: compact rest := compact_cons (by decide)
      simp only [Option.map_none, spaceless, RuleFault.compacted, compacted_ofList, hopen]
    · simp only [Option.map_some]
      rw [trim_compact, splitArguments_compact]
      by_cases htrailer : trim trailer = []
      · rw [if_pos htrailer, if_pos (compact_eq_nil_iff.2 htrailer)]
        rfl
      · rw [if_neg htrailer, if_neg (fun h => htrailer (compact_eq_nil_iff.1 h))]
        simp [spaceless, RuleFault.compacted]

theorem splitClause_eq_ok {head : List Char} {arguments : List String} :
    splitClause source which cs = .ok (head, arguments) ↔ ∃ rest inner trailer,
      splitFirst '(' cs = some (head, rest) ∧ closed? 1 rest = some (inner, trailer) ∧
        trim trailer = [] ∧ arguments = splitArguments inner := by
  unfold splitClause
  constructor
  · intro h
    split at h
    · cases h
    · next head' rest hsplit =>
      split at h
      · cases h
      · next inner trailer hclosed =>
        split at h
        · next htrailer =>
          cases h
          exact ⟨rest, inner, trailer, hsplit, hclosed, htrailer, rfl⟩
        · cases h
  · rintro ⟨rest, inner, trailer, hsplit, hclosed, htrailer, rfl⟩
    simp only [hsplit, hclosed, htrailer, if_true]

/-- Without white space, a clause is what stands before the parenthesis and the joined
    arguments. -/
theorem compact_of_splitClause {head : List Char} {arguments : List String}
    (h : splitClause source which cs = .ok (head, arguments)) :
    compact cs = compact head ++ '(' :: ((",".intercalate arguments).toList ++ [')']) := by
  obtain ⟨rest, inner, trailer, hsplit, hclosed, htrailer, rfl⟩ := splitClause_eq_ok.1 h
  obtain ⟨rfl, -⟩ := splitFirst_eq_some hsplit
  rw [closed?_eq_some hclosed, compact_append, compact_cons (by decide), compact_append,
    compact_cons (by decide), compact_eq_nil_iff.2 htrailer, toList_intercalate_splitArguments]

theorem isCompact_of_splitClause {head : List Char} {arguments : List String}
    (h : splitClause source which cs = .ok (head, arguments)) : IsCompact arguments := by
  obtain ⟨rest, inner, trailer, -, -, -, rfl⟩ := splitClause_eq_ok.1 h
  exact isCompact_splitArguments inner

theorem splitClauses_compact (source text : String)
    (hlast : ∀ c, cs.getLast? = some c → isWhite c = false) :
    splitClauses text (compact cs) =
      spaceless text (fun (test, action) => (test.map compact, compact action))
        (splitClauses source cs) := by
  rw [splitClauses, splitClauses, splitFirst_compact (by decide)]
  rcases hsplit : splitFirst '\x7b' cs with _ | ⟨test, rest⟩
  · rfl
  · obtain ⟨rfl, -⟩ := splitFirst_eq_some hsplit
    have hrest : ∀ c, rest.getLast? = some c → isWhite c = false := by
      intro c hc
      refine hlast c ?_
      rw [List.getLast?_append, List.getLast?_cons, hc]
      rfl
    obtain ⟨hcompact, hdrop⟩ := exists_compact_concat hrest
    simp only [Option.map_some, hcompact]
    split
    · rw [hdrop]
      rfl
    · have hopen : compact ('\x7b' :: rest) = '\x7b' :: compact rest := compact_cons (by decide)
      simp only [spaceless, RuleFault.compacted, compacted_ofList, hopen]

theorem readTest_compact (source text : String) (cs : List Char) :
    readTest text (compact cs) = spaceless text id (readTest source cs) := by
  rw [readTest, readTest, splitClause_compact source]
  rcases splitClause source .test cs with f | ⟨head, dependencies⟩
  · rfl
  · simp only [spaceless, compact_compact]
    split
    · simp [RuleFault.compacted]
    · split
      · rfl
      · rfl

theorem exists_of_readTest {t : Test} {dependencies : List String}
    (h : readTest source cs = .ok (t, dependencies)) :
    ∃ head, splitClause source .test cs = .ok (head, dependencies) ∧
      Test.ofName? (String.ofList (compact head)) = some t := by
  unfold readTest at h
  split at h
  · cases h
  · next head dependencies' hclause =>
    dsimp only at h
    split at h
    · cases h
    · split at h
      · next t' hname =>
        cases h
        exact ⟨head, hclause, hname⟩
      · cases h

theorem readAction_compact (source text : String) (cs : List Char) :
    readAction text (compact cs) = spaceless text id (readAction source cs) := by
  rw [readAction, readAction, compact_compact]
  split
  · simp [spaceless, RuleFault.compacted]
  · rw [splitClause_compact source]
    rcases splitClause source .action cs with f | ⟨head, operands⟩
    · rfl
    · simp only [spaceless, splitFirst_compact (show isWhite '=' = false by decide)]
      rcases splitFirst '=' head with _ | ⟨name, word⟩
      · simp only [Option.map_none, compact_compact]
        split
        · simp [RuleFault.compacted]
        · split
          · rfl
          · rfl
      · simp only [Option.map_some, compact_compact]
        split
        · simp [RuleFault.compacted]
        · split
          · rfl
          · rfl

/-! ## Checks -/

/-- The rule with another text. -/
def withSource (r : Rule) (text : String) : Rule := { r with source := text }

variable {r : Rule}

theorem testFault?_withSource (h : IsCompact r.dependencies) (text : String) :
    (r.withSource text).testFault? = r.testFault?.map (RuleFault.compacted text) := by
  have hjoin : compacted (",".intercalate r.dependencies) = ",".intercalate r.dependencies := h
  unfold testFault? withSource rect?
  dsimp only
  split
  · rfl
  · split
    · rfl
    · split
      · simp [RuleFault.compacted, hjoin]
      · rfl

theorem actionFault?_withSource (r : Rule) :
    (r.withSource (compacted r.source)).actionFault? =
      r.actionFault?.map (RuleFault.compacted (compacted r.source)) := by
  unfold actionFault? withSource
  dsimp only
  split
  · rfl
  · split
    · rfl
    · split
      · rfl
      · split
        · rfl
        · rfl

theorem checked_withSource (h : IsCompact r.dependencies) :
    checked (r.withSource (compacted r.source)) =
      spaceless (compacted r.source) (·.withSource (compacted r.source)) (checked r) := by
  rw [checked, checked, testFault?_withSource h, actionFault?_withSource, ← Option.map_or]
  rcases r.testFault?.or r.actionFault? with _ | f
  · rfl
  · rfl

/-! ## Rules -/

/-- The rule with a test that was read, and the action that a clause writes. -/
def readWith (source : String) (test : Option Test) (dependencies : List String)
    (cs : List Char) : Except RuleFault Rule :=
  (readAction source cs).bind fun (name, action, operands) =>
    if action.family.accepts test action then
      checked ⟨source, action.family, name, test, dependencies, action, operands⟩
    else .error (.unsupported source (statement test action))

theorem read_of_noTest (h : splitClauses source (trim source.toList) = .ok (none, cs)) :
    read source = readWith source none [] cs := by
  unfold read
  rw [h]
  rfl

theorem read_of_test {test : List Char}
    (h : splitClauses source (trim source.toList) = .ok (some test, cs)) :
    read source = (readTest source test).bind fun (t, dependencies) =>
      readWith source (some t) dependencies cs := by
  unfold read
  rw [h]
  simp only [bind, Except.bind]
  rcases readTest source test with f | ⟨t, dependencies⟩
  · rfl
  · rfl

theorem readWith_compact {test : Option Test} {dependencies : List String}
    (h : IsCompact dependencies) (source : String) (cs : List Char) :
    readWith (compacted source) test dependencies (compact cs) =
      spaceless (compacted source) (·.withSource (compacted source))
        (readWith source test dependencies cs) := by
  rw [readWith, readWith, readAction_compact source]
  rcases readAction source cs with f | ⟨name, action, operands⟩
  · rfl
  · simp only [spaceless, id, Except.bind]
    split
    · exact checked_withSource
        (r := ⟨source, action.family, name, test, dependencies, action, operands⟩) h
    · rfl

/-- **White space in the text of a rule does not count**: without it, the text is read as
    the same rule or is wrong in the same way. -/
theorem read_compacted (source : String) : read (compacted source) =
    spaceless (compacted source) (·.withSource (compacted source)) (read source) := by
  have hlast : ∀ c, (trim source.toList).getLast? = some c → isWhite c = false :=
    fun _ => isWhite_of_getLast?_trim
  have hclauses := splitClauses_compact source (compacted source) hlast
  have htext : trim (compacted source).toList = compact (trim source.toList) := by
    rw [toList_compacted, trim_compact, compact_trim]
  rw [← htext] at hclauses
  rcases hsplit : splitClauses source (trim source.toList) with f | ⟨_ | test, action⟩
  · rw [hsplit] at hclauses
    unfold read
    rw [hclauses, hsplit]
    rfl
  · rw [hsplit] at hclauses
    rw [read_of_noTest hclauses, read_of_noTest hsplit]
    exact readWith_compact isCompact_nil source action
  · rw [hsplit] at hclauses
    rw [read_of_test hclauses, read_of_test hsplit, readTest_compact source]
    rcases htest : readTest source test with f | ⟨t, dependencies⟩
    · rfl
    · obtain ⟨head, hclause, -⟩ := exists_of_readTest htest
      exact readWith_compact (isCompact_of_splitClause hclause) source action

end Rule

end Screenmark
