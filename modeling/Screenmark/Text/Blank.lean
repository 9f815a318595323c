/-
  Screenmark — white space, and the text that counts as nothing.

  Every rule about white space in this library (trimming, blank values, words)
  uses the Unicode property White_Space, which is a list of 25 characters.

  * `isWhite` is the property; the line feed and the no-break space have it,
    the zero-width space and the byte order mark do not;
  * `trim` removes white space from both ends, `words` splits at runs of it;
  * `isBlank` says that a text shows nothing, and `blank` is the text stored
    where nothing was recognised.

  `trim_eq_nil_iff` ties the two: a text is blank exactly when trimming leaves
  nothing of it.
-/

namespace Screenmark.Text

/-! ## The property -/

/-- The Unicode property White_Space. -/
def isWhite (c : Char) : Bool :=
  let n := c.toNat
  (9 ≤ n && n ≤ 13) || n == 0x20 || n == 0x85 || n == 0xA0 || n == 0x1680 ||
    (0x2000 ≤ n && n ≤ 0x200A) || n == 0x2028 || n == 0x2029 || n == 0x202F || n == 0x205F ||
    n == 0x3000

/-- The characters that the core library calls white are among them. -/
theorem isWhite_of_isWhitespace {c : Char} (h : c.isWhitespace = true) : isWhite c = true := by
  simp only [Char.isWhitespace, Bool.or_eq_true, decide_eq_true_eq] at h
  rcases h with ((rfl | rfl) | rfl) | rfl <;> decide

/-! ## Trimming -/

/-- The text without the white space at its start. -/
def trimStart (cs : List Char) : List Char := cs.dropWhile isWhite

/-- The text without the white space at its end. -/
def trimEnd (cs : List Char) : List Char := (cs.reverse.dropWhile isWhite).reverse

/-- The text without the white space at both ends. -/
def trim (cs : List Char) : List Char := trimEnd (trimStart cs)

/-- The text without the white space at both ends. -/
def trimmed (s : String) : String := String.ofList (trim s.toList)

/-- The text without any white space. -/
def compact (cs : List Char) : List Char := cs.filter (!isWhite ·)

/-! ## Blank text -/

/-- The text stored where nothing was recognised. -/
def blank : String := " "

/-- A text that shows nothing: it holds white space only. -/
def isBlank (s : String) : Bool := s.toList.all isWhite

@[simp] theorem isBlank_blank : isBlank blank = true := by decide

theorem dropWhile_isWhite_eq_nil_iff {cs : List Char} :
    cs.dropWhile isWhite = [] ↔ cs.all isWhite = true := by
  induction cs with
  | nil => simp
  | cons c cs ih =>
    by_cases h : isWhite c = true
    · rw [List.dropWhile_cons, if_pos h, ih, List.all_cons, h, Bool.true_and]
    · simp [h]

/-- A text is blank exactly when trimming leaves nothing of it. -/
theorem trim_eq_nil_iff {cs : List Char} : trim cs = [] ↔ cs.all isWhite = true := by
  rw [trim, trimEnd, List.reverse_eq_nil_iff, dropWhile_isWhite_eq_nil_iff, List.all_reverse,
    trimStart]
  induction cs with
  | nil => simp
  | cons c cs ih =>
    by_cases h : isWhite c = true
    · simpa [h] using ih
    · simp [h]

/-! ## Words -/

/-- The words from the pending word `w` (reversed) and the rest of the text. -/
def wordsFrom (w : List Char) : List Char → List (List Char)
  | [] => if w.isEmpty then [] else [w.reverse]
  | c :: cs =>
    if isWhite c then
      if w.isEmpty then wordsFrom [] cs else w.reverse :: wordsFrom [] cs
    else wordsFrom (c :: w) cs

/-- The maximal pieces of the text that hold no white space. -/
def words (cs : List Char) : List (List Char) := wordsFrom [] cs

end Screenmark.Text
