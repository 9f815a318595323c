/-
  Screenmark — recognised numbers.

  Of what was recognised for a number, a single word is kept and all else is blank. But line
  ends are dropped, like commas, before the words are counted: words between which nothing
  stands but line ends are one word then (`IsFused`), and so a number that nobody has read.

  * `cleanText_number` : what is kept, for every text, and that a single word is kept just of
    the texts that are not fused;
  * `not_keepsOneWord_of_lines` : two numbers on two lines are kept as one.
-/
import Screenmark.Proofs.Text.Words
import Screenmark.Scan.Reading

namespace Screenmark

open Text

/-! ## Texts for numbers -/

/-- What was recognised, without its commas. -/
def withoutCommas (raw : String) : List Char := raw.toList.filter (· != ',')

/-- A character that ends a line. -/
def isLineEnd (c : Char) : Bool := c == '\n' || c == '\r'

/-- All white space between the words ends lines. -/
def HasLinesOnly (raw : String) : Prop :=
  ∀ c ∈ trim (withoutCommas raw), isWhite c = true → isLineEnd c = true

instance (raw : String) : Decidable (HasLinesOnly raw) := List.decidableBAll _ _

/-- Several words, each on lines of its own. -/
def IsFused (raw : String) : Prop := 2 ≤ (words (withoutCommas raw)).length ∧ HasLinesOnly raw

/-- The text that is kept for a number shows something only if a single word was recognised,
    and a single word is kept as it is. -/
structure KeepsOneWord (raw : String) : Prop where
  single : isBlank (cleanText raw .detectNumber) = false → ∃ w, words (withoutCommas raw) = [w]
  kept : ∀ w, words (withoutCommas raw) = [w] → cleanText raw .detectNumber = String.ofList w

variable {raw : String} {cs w : List Char}

theorem isWhite_of_isLineEnd {c : Char} (h : isLineEnd c = true) : isWhite c = true := by
  rw [isLineEnd, Bool.or_eq_true, beq_iff_eq, beq_iff_eq] at h
  rcases h with rfl | rfl <;> decide

/-- What is cleaned is trimmed first or last. -/
theorem trim_filter_isFieldBreak (raw : String) : trim (raw.toList.filter (!isFieldBreak ·)) =
    (trim (withoutCommas raw)).filter (!isLineEnd ·) := by
  have hbreak : raw.toList.filter (!isFieldBreak ·) =
      (withoutCommas raw).filter (!isLineEnd ·) := by
    rw [withoutCommas, List.filter_filter]
    refine List.filter_congr fun c _ => ?_
    rw [isFieldBreak, isLineEnd, Bool.not_or, bne]
  rw [hbreak]
  refine trim_filter (fun c hc => isWhite_of_isLineEnd ?_) _
  simpa using hc

theorem compact_filter_isLineEnd (cs : List Char) :
    compact (cs.filter (!isLineEnd ·)) = compact cs := by
  rw [compact, compact, List.filter_filter]
  refine List.filter_congr fun c _ => ?_
  rcases hc : isLineEnd c
  · rw [Bool.not_false, Bool.and_true]
  · rw [isWhite_of_isLineEnd hc]
    rfl

theorem compact_eq_self (h : ∀ c ∈ cs, isWhite c = false) : compact cs = cs :=
  List.filter_eq_self.2 fun c hc => by rw [h c hc]; rfl

theorem HasLinesOnly.shows (h : HasLinesOnly raw) :
    ∀ c ∈ (trim (withoutCommas raw)).filter (!isLineEnd ·), isWhite c = false := by
  intro c hc
  obtain ⟨hc, hno⟩ := List.mem_filter.1 hc
  refine Bool.eq_false_iff.2 fun hwhite => ?_
  rw [h c hc hwhite] at hno
  cases hno

/-- Without its line ends a text is its words, if there was no other white space. -/
theorem HasLinesOnly.filter_eq_flatten (h : HasLinesOnly raw) :
    (trim (withoutCommas raw)).filter (!isLineEnd ·) = (words (withoutCommas raw)).flatten := by
  rw [flatten_words, ← compact_trim, ← compact_filter_isLineEnd, compact_eq_self h.shows]

/-- A text without line ends shows as much as before. -/
theorem filter_isLineEnd_eq_nil_iff :
    (trim (withoutCommas raw)).filter (!isLineEnd ·) = [] ↔ words (withoutCommas raw) = [] := by
  rw [words_eq_nil_iff]
  constructor
  · intro h
    rw [← compact_eq_nil_iff, ← compact_trim, ← compact_filter_isLineEnd, h, compact_nil]
  · intro h
    rw [h, List.filter_nil]

/-- Only line ends stood between the words if what is left is a single one. -/
theorem hasLinesOnly_of_words
    (h : words ((trim (withoutCommas raw)).filter (!isLineEnd ·)) = [w]) : HasLinesOnly raw := by
  obtain ⟨htrim, -, hshows⟩ := words_eq_singleton_iff.1 h
  rw [← trim_filter_isFieldBreak, trim_trim, trim_filter_isFieldBreak] at htrim
  intro c hc hwhite
  refine Bool.not_eq_false _ ▸ fun hno => ?_
  have hkept : c ∈ w := htrim ▸ List.mem_filter.2 ⟨hc, by rw [hno]; rfl⟩
  rw [hshows c hkept] at hwhite
  cases hwhite

/-! ## What is kept -/

/-- For a number the words are kept together if no white space but line ends stands between
    them, and else nothing. -/
theorem cleanText_eq_flatten (raw : String) : cleanText raw .detectNumber =
    if words (withoutCommas raw) ≠ [] ∧ HasLinesOnly raw then
      String.ofList (words (withoutCommas raw)).flatten
    else Text.blank := by
  unfold cleanText
  rw [trim_filter_isFieldBreak]
  dsimp only
  by_cases hnil : words (withoutCommas raw) = []
  · rw [if_pos (.inl (filter_isLineEnd_eq_nil_iff.2 hnil)), if_neg fun h => h.1 hnil]
  have hne := mt filter_isLineEnd_eq_nil_iff.1 hnil
  by_cases hlines : HasLinesOnly raw
  · have hkeeps : ¬((trim (withoutCommas raw)).filter (!isLineEnd ·) = [] ∨
        (Action.detectNumber = .detectNumber ∧
          (words ((trim (withoutCommas raw)).filter (!isLineEnd ·))).length ≠ 1)) := by
      rw [words_of_showing hne hlines.shows]
      rintro (h | ⟨-, h⟩)
      · exact hne h
      · exact h rfl
    rw [if_neg hkeeps, if_pos ⟨hnil, hlines⟩, hlines.filter_eq_flatten]
  · have hmany : (words ((trim (withoutCommas raw)).filter (!isLineEnd ·))).length ≠ 1 :=
      fun hone => by
        obtain ⟨w, hw⟩ := List.length_eq_one_iff.1 hone
        exact hlines (hasLinesOnly_of_words hw)
    rw [if_pos (.inr ⟨rfl, hmany⟩), if_neg fun h => hlines h.2]

/-- A single word has no white space in it. -/
theorem hasLinesOnly_of_single (h : words (withoutCommas raw) = [w]) : HasLinesOnly raw := by
  obtain ⟨htrim, -, hshows⟩ := words_eq_singleton_iff.1 h
  intro c hc hwhite
  rw [hshows c (htrim ▸ hc)] at hwhite
  cases hwhite

/-- Words that are kept show. -/
theorem isBlank_flatten_words (h : words cs ≠ []) :
    isBlank (String.ofList (words cs).flatten) = false := by
  rw [flatten_words, isBlank, String.toList_ofList, Bool.eq_false_iff, Ne, ← trim_eq_nil_iff,
    trim_compact, compact_eq_nil_iff, ← words_eq_nil_iff]
  exact h

/-- **What is kept of what was recognised for a number.** The words are kept, run together,
    if all white space between them ends lines, and otherwise the text is blank. So just a
    single word is kept, unless several words were recognised on lines of their own. -/
theorem cleanText_number (raw : String) :
    (cleanText raw .detectNumber =
      if words (withoutCommas raw) ≠ [] ∧ HasLinesOnly raw then
        String.ofList (words (withoutCommas raw)).flatten
      else Text.blank) ∧
    (KeepsOneWord raw ↔ ¬IsFused raw) := by
  have hkept := cleanText_eq_flatten raw
  refine ⟨hkept, fun h hfused => ?_, fun hno => ⟨fun hshows => ?_, fun w hw => ?_⟩⟩
  · obtain ⟨htwo, hlines⟩ := hfused
    have hne : words (withoutCommas raw) ≠ [] := List.length_pos_iff.1 (by omega)
    rw [if_pos ⟨hne, hlines⟩] at hkept
    obtain ⟨w, hw⟩ := h.single (hkept ▸ isBlank_flatten_words hne)
    rw [hw, List.length_singleton] at htwo
    omega
  · split at hkept
    · next h =>
      rcases hwords : words (withoutCommas raw) with _ | ⟨w, _ | ⟨v, ws⟩⟩
      · exact absurd hwords h.1
      · exact ⟨w, rfl⟩
      · have htwo : 2 ≤ (words (withoutCommas raw)).length := by
          rw [hwords, List.length_cons, List.length_cons]
          omega
        exact absurd ⟨htwo, h.2⟩ hno
    · rw [hkept, isBlank_blank] at hshows
      cases hshows
  · have hne : words (withoutCommas raw) ≠ [] := by
      rw [hw]
      exact List.cons_ne_nil w []
    rw [hkept, if_pos ⟨hne, hasLinesOnly_of_single hw⟩, hw]
    simp

/-- **Two numbers on two lines are kept as one.** Two words were recognised, and neither is
    the one that is kept. -/
theorem not_keepsOneWord_of_lines : ¬KeepsOneWord "12\n34" ∧
    words (withoutCommas "12\n34") = ["12".toList, "34".toList] ∧
    cleanText "12\n34" .detectNumber = "1234" := by
  refine ⟨fun h => ?_, by decide +kernel, by decide +kernel⟩
  obtain ⟨w, hw⟩ := h.single (by decide +kernel)
  have hlength : (words (withoutCommas "12\n34")).length = 2 := by decide +kernel
  rw [hw] at hlength
  cases hlength

end Screenmark
