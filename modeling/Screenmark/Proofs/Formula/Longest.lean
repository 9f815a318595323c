/-
  Screenmark — the token at the start of a text.

  A kind of token has its texts: digits and points, the texts that can be names, the symbols of
  the table, a parenthesis or a comma. What `token?` cuts off is the longest text of its kind
  that the text starts with (`isCutOff_of_token?`). It fails just where no text of any kind
  starts, or where the digits and points write no number (`isFault_of_token?`).
-/
import Screenmark.Proofs.Formula.Lexing

namespace Screenmark

namespace Formula

variable {table : Table} {c : Char} {cs v text : List Char} {t : Token} {cause : SyntaxCause}

/-! ## Kinds of texts -/

/-- The text is one of the kind of the token. -/
def Token.Fits (table : Table) : Token → String → Prop
  | .number _, s => Decimal.IsNumeral s.toList
  | .ident _, s => IsName s
  | .op _, s => s ∈ table.symbols
  | .lparen, s => s = "("
  | .rparen, s => s = ")"
  | .comma, s => s = ","

/-- The text tells what the token says. -/
def Token.IsToldBy : Token → String → Prop
  | .number x, s => Binary.ofText? s = some x
  | .ident n, s | .op n, s => s = n
  | .lparen, _ | .rparen, _ | .comma, _ => True

/-- The token is at the start of the text, written by the longest text of its kind there. -/
structure IsCutOff (table : Table) (cs : List Char) (t : Token) (s : String) : Prop where
  starts : s.toList <+: cs
  fits : t.Fits table s
  told : t.IsToldBy s
  longest : ∀ u : String, t.Fits table u → u.toList <+: cs → u.toList.length ≤ s.toList.length

/-- What is wrong at the start of the text: no token starts there, or it is a number that is
    none. -/
inductive IsFault (table : Table) : List Char → SyntaxCause → Prop
  | unknown {c : Char} {cs : List Char} : Text.isWhite c = false →
      (∀ (t : Token) (u : String), t.Fits table u → ¬ u.toList <+: c :: cs) →
      IsFault table (c :: cs) (.unknownOperator c)
  | number {s : String} {cs : List Char} : s.toList <+: cs → Decimal.IsNumeral s.toList →
      (∀ u, Decimal.IsNumeral u → u <+: cs → u.length ≤ s.toList.length) →
      (Binary.ofText? s : Option Double) = none → IsFault table cs (.invalidNumber s)

/-! ## The longest text -/

/-- The characters that a text starts with are the longest such start. -/
theorem prefix_takeWhile {p : Char → Bool} (hv : ∀ d ∈ v, p d = true) (h : v <+: cs) :
    v <+: cs.takeWhile p := by
  obtain ⟨rest, rfl⟩ := h
  rw [List.takeWhile_append_of_pos hv]
  exact List.prefix_append _ _

theorem isNumeral_takeWhile (h : c.isDigit = true) (cs : List Char) :
    Decimal.IsNumeral (c :: cs.takeWhile isNumberChar) := by
  refine ⟨⟨c, _, rfl, h⟩, List.forall_mem_cons.2 ⟨.inl h, fun d hd => ?_⟩⟩
  have hd' := List.all_eq_true.1 List.all_takeWhile d hd
  simpa [isNumberChar] using hd'

theorem isName_takeWhile (h : isNameStart c = true) (cs : List Char) :
    IsName (String.ofList (c :: cs.takeWhile isNameChar)) :=
  ⟨c, _, String.toList_ofList, h, List.all_eq_true.1 List.all_takeWhile⟩

theorem length_numeral_le (hv : Decimal.IsNumeral v) (h : v <+: c :: cs) :
    v.length ≤ (c :: cs.takeWhile isNumberChar).length := by
  obtain ⟨⟨d, ds, rfl, -⟩, hchars⟩ := hv
  obtain ⟨rfl, htail⟩ := List.cons_prefix_cons.1 h
  have hds : ∀ e ∈ ds, isNumberChar e = true := fun e he => by
    simpa [isNumberChar] using hchars e (List.mem_cons_of_mem d he)
  exact Nat.succ_le_succ (prefix_takeWhile hds htail).length_le

theorem length_name_le {u : String} (hu : IsName u) (h : u.toList <+: c :: cs) :
    u.toList.length ≤ (c :: cs.takeWhile isNameChar).length := by
  obtain ⟨d, ds, hds, -, hchars⟩ := hu
  rw [hds] at h ⊢
  obtain ⟨rfl, htail⟩ := List.cons_prefix_cons.1 h
  exact Nat.succ_le_succ (prefix_takeWhile hchars htail).length_le

theorem isCutOff_singleton {s : String} (hs : s.toList = [c])
    (hfits : ∀ u, t.Fits table u ↔ u = s) (htold : t.IsToldBy s) :
    IsCutOff table (c :: cs) t s where
  starts := ⟨cs, by rw [hs, List.singleton_append]⟩
  fits := (hfits s).2 rfl
  told := htold
  longest u hu _ := Nat.le_of_eq (congrArg (·.toList.length) ((hfits u).1 hu))

/-- A token has characters if every symbol has. -/
theorem Token.Fits.ne_nil {s : String} (h : t.Fits table s) (hsymbols : "" ∉ table.symbols) :
    s.toList ≠ [] := by
  cases t with
  | number x =>
    obtain ⟨⟨d, ds, hds, -⟩, -⟩ := h
    exact hds ▸ List.cons_ne_nil d ds
  | ident n =>
    obtain ⟨d, ds, hds, -⟩ := h
    exact hds ▸ List.cons_ne_nil d ds
  | op n => exact fun hnil => hsymbols (String.toList_eq_nil_iff.1 hnil ▸ h)
  | lparen =>
    cases h
    decide
  | rparen =>
    cases h
    decide
  | comma =>
    cases h
    decide

/-- So the text that is cut off has the first character. -/
theorem IsCutOff.exists_eq {s : String} (h : IsCutOff table (c :: cs) t s)
    (hsymbols : "" ∉ table.symbols) : ∃ a rest, s.toList = c :: a ∧ cs = a ++ rest := by
  obtain ⟨d, a, hs⟩ := List.exists_cons_of_ne_nil (h.fits.ne_nil hsymbols)
  have hstarts := h.starts
  rw [hs] at hstarts
  obtain ⟨rfl, rest, hrest⟩ := List.cons_prefix_cons.1 hstarts
  exact ⟨a, rest, hs, hrest.symm⟩

/-! ## What is cut off, and what is not -/

/-- **What is cut off is the longest text of its kind.** -/
theorem isCutOff_of_token? (h : token? table c cs = .ok (t, text)) :
    ∃ s : String, s.toList = text ∧ IsCutOff table (c :: cs) t s := by
  unfold token? at h
  split at h
  · next hc =>
    cases h
    exact ⟨"(", hc ▸ rfl, isCutOff_singleton (hc ▸ rfl) (fun u => Iff.rfl) trivial⟩
  split at h
  · next hc =>
    cases h
    exact ⟨")", hc ▸ rfl, isCutOff_singleton (hc ▸ rfl) (fun u => Iff.rfl) trivial⟩
  split at h
  · next hc =>
    cases h
    exact ⟨",", hc ▸ rfl, isCutOff_singleton (hc ▸ rfl) (fun u => Iff.rfl) trivial⟩
  split at h
  · next hdigit =>
    dsimp only at h
    split at h
    · next x hread =>
      cases h
      refine ⟨String.ofList _, String.toList_ofList, ?_, ?_, ?_, fun u hu hstart => ?_⟩
      · rw [String.toList_ofList]
        exact List.cons_prefix_cons.2 ⟨rfl, List.takeWhile_prefix _⟩
      · rw [Token.Fits, String.toList_ofList]
        exact isNumeral_takeWhile hdigit cs
      · rw [Token.IsToldBy, Binary.ofText?, String.toList_ofList, hread]
      · rw [String.toList_ofList]
        exact length_numeral_le hu hstart
    · cases h
  split at h
  · next hstart =>
    cases h
    refine ⟨String.ofList _, String.toList_ofList, ?_, isName_takeWhile hstart cs, rfl,
      fun u hu hu' => ?_⟩
    · rw [String.toList_ofList]
      exact List.cons_prefix_cons.2 ⟨rfl, List.takeWhile_prefix _⟩
    · rw [String.toList_ofList]
      exact length_name_le hu hu'
  split at h
  · next symbol hmatch =>
    cases h
    obtain ⟨hmem, hprefix⟩ := Table.longestMatch_isPrefix hmatch
    obtain ⟨s, hs, rfl⟩ := List.mem_map.1 hmem
    rw [String.ofList_toList]
    exact ⟨s, rfl, List.isPrefixOf_iff_prefix.1 hprefix, hs, rfl, fun u hu hstart =>
      Table.length_le_longestMatch hmatch (List.mem_map_of_mem hu)
        (List.isPrefixOf_iff_prefix.2 hstart)⟩
  · cases h

/-- **Nothing is cut off only where no token starts**, or where a number is none. -/
theorem isFault_of_token? (hwhite : Text.isWhite c = false)
    (h : token? table c cs = .error cause) : IsFault table (c :: cs) cause := by
  unfold token? at h
  split at h
  · cases h
  next hopen =>
  split at h
  · cases h
  next hclose =>
  split at h
  · cases h
  next hcomma =>
  split at h
  · next hdigit =>
    dsimp only at h
    split at h
    · cases h
    · next hread =>
      cases h
      refine .number ?_ ?_ (fun u hu hstart => ?_) ?_
      · rw [String.toList_ofList]
        exact List.cons_prefix_cons.2 ⟨rfl, List.takeWhile_prefix _⟩
      · rw [String.toList_ofList]
        exact isNumeral_takeWhile hdigit cs
      · rw [String.toList_ofList]
        exact length_numeral_le hu hstart
      · rw [Binary.ofText?, String.toList_ofList, hread]
  next hdigit =>
  split at h
  · cases h
  next hname =>
  split at h
  · cases h
  · next hmatch =>
    cases h
    refine .unknown hwhite fun t u hu hstart => ?_
    -- Each kind of text has been looked for, by its first character or by the table.
    cases t with
    | number x =>
      obtain ⟨⟨d, ds, hds, hd⟩, -⟩ := hu
      rw [hds] at hstart
      obtain ⟨rfl, -⟩ := List.cons_prefix_cons.1 hstart
      exact hdigit hd
    | ident n =>
      obtain ⟨d, ds, hds, hd, -⟩ := hu
      rw [hds] at hstart
      obtain ⟨rfl, -⟩ := List.cons_prefix_cons.1 hstart
      exact hname hd
    | op s =>
      obtain ⟨m, hm⟩ := exists_longestMatch (List.mem_map_of_mem hu)
        (List.isPrefixOf_iff_prefix.2 hstart)
      rw [hmatch] at hm
      cases hm
    | lparen =>
      cases hu
      exact hopen (List.cons_prefix_cons.1 hstart).1.symm
    | rparen =>
      cases hu
      exact hclose (List.cons_prefix_cons.1 hstart).1.symm
    | comma =>
      cases hu
      exact hcomma (List.cons_prefix_cons.1 hstart).1.symm

end Formula

end Screenmark
