/-
  Screenmark — texts without white space.

  What cuts a text at a character that is not white cuts the text without white space
  at the same place: `trim`, `splitFirst` and the last character commute with
  `compact`.
-/
import Screenmark.Proofs.Text.Fields

namespace Screenmark.Text

variable {cs a b : List Char} {c sep : Char}

/-- The text without any white space. -/
def compacted (s : String) : String := String.ofList (compact s.toList)

@[simp] theorem toList_compacted (s : String) : (compacted s).toList = compact s.toList :=
  String.toList_ofList

@[simp] theorem compacted_ofList (cs : List Char) :
    compacted (String.ofList cs) = String.ofList (compact cs) := by
  rw [compacted, String.toList_ofList]

@[simp] theorem compact_nil : compact [] = [] := rfl

theorem compact_cons_white (hc : isWhite c = true) : compact (c :: cs) = compact cs := by
  simp [compact, hc]

theorem compact_cons (hc : isWhite c = false) : compact (c :: cs) = c :: compact cs := by
  simp [compact, hc]

@[simp] theorem compact_append (a b : List Char) : compact (a ++ b) = compact a ++ compact b :=
  List.filter_append a b

@[simp] theorem compact_compact (cs : List Char) : compact (compact cs) = compact cs := by
  simp [compact, List.filter_filter]

theorem ne_of_isWhite (hsep : isWhite sep = false) (hc : isWhite c = true) : c ≠ sep := by
  rintro rfl
  rw [hsep] at hc
  cases hc

theorem mem_compact : c ∈ compact cs ↔ c ∈ cs ∧ isWhite c = false := by simp [compact]

theorem compact_eq_nil_iff : compact cs = [] ↔ trim cs = [] := by
  rw [trim_eq_nil_iff, compact, List.filter_eq_nil_iff, List.all_eq_true]
  constructor
  · intro h c hc
    simpa using h c hc
  · intro h c hc
    simpa using h c hc

/-! ## Trimming -/

theorem compact_dropWhile (cs : List Char) : compact (cs.dropWhile isWhite) = compact cs := by
  induction cs with
  | nil => rfl
  | cons c cs ih =>
    by_cases hc : isWhite c = true
    · rw [List.dropWhile_cons_of_pos hc, ih, compact_cons_white hc]
    · rw [List.dropWhile_cons_of_neg hc]

theorem compact_reverse (cs : List Char) : compact cs.reverse = (compact cs).reverse := by
  rw [compact, compact, List.filter_reverse]

@[simp] theorem compact_trim (cs : List Char) : compact (trim cs) = compact cs := by
  rw [trim, trimEnd, compact_reverse, compact_dropWhile, compact_reverse, List.reverse_reverse,
    trimStart, compact_dropWhile]

@[simp] theorem trim_compact (cs : List Char) : trim (compact cs) = compact cs := by
  apply trim_eq_self
  · intro c hc
    exact (mem_compact.1 (List.mem_of_mem_head? hc)).2
  · intro c hc
    exact (mem_compact.1 (List.mem_of_getLast? hc)).2

/-- A text from a character that is not white to such a character. -/
theorem trim_cons_concat {d : Char} (hc : isWhite c = false) (hd : isWhite d = false)
    (cs : List Char) : trim (c :: cs ++ [d]) = c :: cs ++ [d] := by
  refine trim_eq_self (fun x hx => ?_) fun x hx => ?_
  · cases hx
    exact hc
  · rw [List.getLast?_concat] at hx
    cases hx
    exact hd

/-- A text that was trimmed does not end in white space. -/
theorem isWhite_of_getLast?_trim (h : (trim cs).getLast? = some c) : isWhite c = false := by
  rw [trim, trimEnd, List.getLast?_reverse] at h
  have hnot := List.head?_dropWhile_not isWhite (trimStart cs).reverse
  rw [h] at hnot
  simpa using hnot

/-- The last character stays the last if it is not white. -/
theorem exists_compact_concat (hlast : ∀ c, cs.getLast? = some c → isWhite c = false) :
    (compact cs).getLast? = cs.getLast? ∧ (compact cs).dropLast = compact cs.dropLast := by
  rcases List.eq_nil_or_concat cs with rfl | ⟨init, c, rfl⟩
  · exact ⟨rfl, rfl⟩
  · have hc : isWhite c = false := hlast c (by simp)
    have hcompact : compact (init ++ [c]) = compact init ++ [c] := by
      rw [compact_append, compact_cons hc, compact_nil]
    rw [List.concat_eq_append, hcompact]
    simp

/-! ## Cutting once -/

theorem splitFirst_compact (hsep : isWhite sep = false) (cs : List Char) :
    splitFirst sep (compact cs) =
      (splitFirst sep cs).map fun (a, b) => (compact a, compact b) := by
  induction cs with
  | nil => rfl
  | cons c cs ih =>
    by_cases hwhite : isWhite c = true
    · rw [compact_cons_white hwhite, ih, splitFirst, if_neg (ne_of_isWhite hsep hwhite),
        Option.map_map]
      congr 1
      funext p
      simp [compact_cons_white hwhite]
    · have hc : isWhite c = false := Bool.not_eq_true _ ▸ hwhite
      rw [compact_cons hc, splitFirst, splitFirst]
      by_cases heq : c = sep
      · rw [if_pos heq, if_pos heq]
        rfl
      · rw [if_neg heq, if_neg heq, ih, Option.map_map, Option.map_map]
        congr 1
        funext p
        simp [compact_cons hc]

end Screenmark.Text
