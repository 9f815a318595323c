/-
  Screenmark — cutting a text into lines and fields.

  * `pieces sep` are the pieces between the separators, at least one;
  * `lines` are the lines of a text: each ends at a line feed, one carriage
    return before the line feed belongs to the end, and a text that ends with a
    line feed has no empty last line;
  * `splitFirst` and `splitLast` cut once, at the first or last separator;
  * `replaceAll` replaces every occurrence of a text.

  `intercalate_pieces` says that nothing is lost between the separators.
-/

namespace Screenmark.Text

/-! ## Pieces -/

/-- The pieces of the text between the separators `sep`; a text without one is
    a single piece. -/
def pieces (sep : Char) : List Char → List (List Char)
  | [] => [[]]
  | c :: cs =>
    if c = sep then [] :: pieces sep cs
    else match pieces sep cs with
      | [] => [[c]]
      | p :: ps => (c :: p) :: ps

theorem pieces_ne_nil (sep : Char) (cs : List Char) : pieces sep cs ≠ [] := by
  cases cs with
  | nil => simp [pieces]
  | cons c cs =>
    rw [pieces]
    split
    · simp
    · split <;> simp

/-- Joined by the separator, the pieces are the text again. -/
theorem intercalate_pieces (sep : Char) (cs : List Char) :
    [sep].intercalate (pieces sep cs) = cs := by
  induction cs with
  | nil => rfl
  | cons c cs ih =>
    rw [pieces]
    split
    · subst c
      cases hp : pieces sep cs with
      | nil => exact absurd hp (pieces_ne_nil sep cs)
      | cons p ps => rw [hp] at ih; simp [List.intercalate, List.intersperse, ← ih]
    · cases hp : pieces sep cs with
      | nil => exact absurd hp (pieces_ne_nil sep cs)
      | cons p ps =>
        rw [hp] at ih
        cases ps <;> simp_all [List.intercalate, List.intersperse]

/-- The fields of a line, separated by commas. -/
def fields (s : String) : List String := (pieces ',' s.toList).map String.ofList

/-! ## Lines -/

/-- The line without a carriage return at its end. -/
def chomp (cs : List Char) : List Char :=
  match cs.reverse with
  | '\r' :: r => r.reverse
  | _ => cs

/-- The lines of the text. -/
def charLines (cs : List Char) : List (List Char) :=
  let ps := pieces '\n' cs
  ps.dropLast.map chomp ++ (ps.getLast?.toList.filter (!·.isEmpty))

/-- The lines of the text, without their ends. -/
def lines (s : String) : List String := (charLines s.toList).map String.ofList

/-! ## Cutting once -/

/-- The parts before and after the first `sep`. -/
def splitFirst (sep : Char) : List Char → Option (List Char × List Char)
  | [] => none
  | c :: cs =>
    if c = sep then some ([], cs)
    else (splitFirst sep cs).map fun (a, b) => (c :: a, b)

/-- The parts before and after the last `sep`. -/
def splitLast (sep : Char) (cs : List Char) : Option (List Char × List Char) :=
  (splitFirst sep cs.reverse).map fun (a, b) => (b.reverse, a.reverse)

theorem splitFirst_eq_some {sep : Char} {cs a b : List Char} (h : splitFirst sep cs = some (a, b)) :
    cs = a ++ sep :: b ∧ sep ∉ a := by
  induction cs generalizing a b with
  | nil => simp [splitFirst] at h
  | cons c cs ih =>
    rw [splitFirst] at h
    split at h
    · next hc => simp at h; obtain ⟨rfl, rfl⟩ := h; simp [hc]
    · next hc =>
      simp only [Option.map_eq_some_iff, Prod.mk.injEq] at h
      obtain ⟨⟨u, v⟩, hu, rfl, rfl⟩ := h
      obtain ⟨rfl, hn⟩ := ih hu
      exact ⟨rfl, by simp [Ne.symm hc, hn]⟩

/-- The text without the character `c` at both ends. -/
def strip (c : Char) (cs : List Char) : List Char :=
  ((cs.dropWhile (· == c)).reverse.dropWhile (· == c)).reverse

/-! ## Replacing -/

/-- `replaceFrom old new skip cs` replaces the occurrences of `old` in `cs`,
    of which the first `skip` characters belong to an earlier occurrence. -/
def replaceFrom (old new : List Char) : Nat → List Char → List Char
  | _, [] => []
  | n + 1, _ :: cs => replaceFrom old new n cs
  | 0, c :: cs =>
    if old.isPrefixOf (c :: cs) then new ++ replaceFrom old new (old.length - 1) cs
    else c :: replaceFrom old new 0 cs

/-- The text with every occurrence of the non-empty text `old` replaced. -/
def replaceAll (old new s : String) : String :=
  String.ofList (replaceFrom old.toList new.toList 0 s.toList)

/-- The text without the characters for which `p` holds. -/
def without (p : Char → Bool) (s : String) : String := String.ofList (s.toList.filter (!p ·))

end Screenmark.Text
