/-
  Screenmark — cleaned texts.

  What was recognised is cleaned once and for all. The texts that cleaning leaves as they are
  are the blank one and those that show something, from their first character to their last, and
  in which nothing ends a field or a line (`cleanText_eq_self_iff`); for a number, also nothing
  ends a word. What is cleaned is always one of these, so cleaning it again changes nothing, and
  between quotes it is one field of any line.
-/
import Screenmark.Output.Sheet
import Screenmark.Proofs.Text.Words
import Screenmark.Scan.Reading

namespace Screenmark

open Text

/-- A text in which nothing ends a field or a line. -/
def IsUnbroken (s : String) : Prop := ',' ∉ s.toList ∧ '\n' ∉ s.toList ∧ '\r' ∉ s.toList

/-- A text that shows something, from its first character to its last, as one field of a line;
    for a number it is one word. -/
structure IsCleaned (action : Action) (s : String) : Prop where
  shows : isBlank s = false
  head : ∀ c ∈ s.toList.head?, isWhite c = false
  last : ∀ c ∈ s.toList.getLast?, isWhite c = false
  unbroken : IsUnbroken s
  word : action = .detectNumber → ∀ c ∈ s.toList, isWhite c = false

variable {action : Action} {s : String} {cs : List Char}

theorem isFieldBreak_eq_true_iff {c : Char} :
    isFieldBreak c = true ↔ c = '\n' ∨ c = '\r' ∨ c = ',' := by
  rw [isFieldBreak, Bool.or_eq_true, Bool.or_eq_true, beq_iff_eq, beq_iff_eq, beq_iff_eq, or_assoc]

theorem isUnbroken_iff : IsUnbroken s ↔ ∀ c ∈ s.toList, isFieldBreak c = false := by
  constructor
  · rintro ⟨hcomma, hfeed, hreturn⟩ c hc
    refine Bool.eq_false_iff.2 fun hbreak => ?_
    rcases isFieldBreak_eq_true_iff.1 hbreak with rfl | rfl | rfl
    · exact hfeed hc
    · exact hreturn hc
    · exact hcomma hc
  · intro h
    exact ⟨fun hc => Bool.noConfusion (h _ hc), fun hc => Bool.noConfusion (h _ hc),
      fun hc => Bool.noConfusion (h _ hc)⟩

/-! ## Cleaning -/

theorem isBlank_ofList : isBlank (String.ofList cs) = false ↔ trim cs ≠ [] := by
  rw [isBlank, String.toList_ofList, Ne, trim_eq_nil_iff, Bool.not_eq_true]

/-- A text without ends of fields and lines is clean when it is trimmed. -/
theorem isCleaned_trim (hne : trim cs ≠ []) (hunbroken : ∀ c ∈ cs, isFieldBreak c = false)
    (hword : action = .detectNumber → (words (trim cs)).length = 1) :
    IsCleaned action (String.ofList (trim cs)) where
  shows := isBlank_ofList.2 (by rwa [trim_trim])
  head c hc := by
    rw [String.toList_ofList] at hc
    exact isWhite_of_head?_trim hc
  last c hc := by
    rw [String.toList_ofList] at hc
    exact isWhite_of_getLast?_trim hc
  unbroken := isUnbroken_iff.2 fun c hc => by
    rw [String.toList_ofList] at hc
    exact hunbroken c (mem_of_mem_trim hc)
  word hnumber c hc := by
    obtain ⟨w, hw⟩ := List.length_eq_one_iff.1 (hword hnumber)
    obtain ⟨htrim, -, hshows⟩ := words_eq_singleton_iff.1 hw
    rw [String.toList_ofList, ← trim_trim, htrim] at hc
    exact hshows c hc

/-- What is cleaned is blank or clean. -/
theorem cleanText_eq_blank_or_isCleaned (raw : String) (action : Action) :
    cleanText raw action = blank ∨ IsCleaned action (cleanText raw action) := by
  unfold cleanText
  dsimp only
  split
  · exact .inl rfl
  · next hkept =>
    rw [not_or] at hkept
    refine .inr (isCleaned_trim hkept.1 (fun c hc => ?_) fun hnumber => ?_)
    · simpa using (List.mem_filter.1 hc).2
    · exact Decidable.of_not_not fun hwords => hkept.2 ⟨hnumber, hwords⟩

theorem cleanText_blank (action : Action) : cleanText blank action = blank := by
  unfold cleanText
  exact if_pos (.inl rfl)

/-- Cleaning leaves a clean text as it is. -/
theorem IsCleaned.cleanText_eq (h : IsCleaned action s) : cleanText s action = s := by
  have hfilter : s.toList.filter (!isFieldBreak ·) = s.toList :=
    List.filter_eq_self.2 fun c hc => by rw [isUnbroken_iff.1 h.unbroken c hc, Bool.not_false]
  have htrim : trim s.toList = s.toList := trim_eq_self h.head h.last
  have hne : s.toList ≠ [] := by
    rw [← htrim]
    exact isBlank_ofList.1 (String.ofList_toList.symm ▸ h.shows)
  unfold cleanText
  dsimp only
  rw [hfilter, htrim, if_neg, String.ofList_toList]
  rintro (hnil | ⟨hnumber, hwords⟩)
  · exact hne hnil
  · rw [words_of_showing hne (h.word hnumber)] at hwords
    exact hwords rfl

/-- **Cleaning leaves just the blank text and the clean ones as they are.** -/
theorem cleanText_eq_self_iff : cleanText s action = s ↔ s = blank ∨ IsCleaned action s := by
  constructor
  · intro h
    rw [← h]
    exact cleanText_eq_blank_or_isCleaned s action
  · rintro (rfl | h)
    · exact cleanText_blank action
    · exact h.cleanText_eq

/-! ## Fields of lines -/

theorem IsUnbroken.isField (h : IsUnbroken s) : IsField s := ⟨h.1, h.2.1⟩

theorem isUnbroken_cleanText (raw : String) (action : Action) :
    IsUnbroken (cleanText raw action) := by
  rcases cleanText_eq_blank_or_isCleaned raw action with h | h
  · rw [h]
    exact ⟨by decide, by decide, by decide⟩
  · exact h.unbroken

/-- The quotes add nothing that ends a field or a line. -/
theorem IsUnbroken.quotedField (h : IsUnbroken s) : IsUnbroken (quotedField s) := by
  rw [isUnbroken_iff] at h ⊢
  rw [Screenmark.quotedField, toList_between_quotes, toList_without, List.cons_append]
  refine List.forall_mem_cons.2 ⟨rfl, List.forall_mem_append.2 ⟨fun c hc => ?_, ?_⟩⟩
  · exact h c (List.mem_filter.1 hc).1
  · exact List.forall_mem_singleton.2 rfl

/-- A field without commas is one field of a line, whatever stands around it. -/
theorem fields_of_unbroken (h : IsUnbroken s) (before after : List String) :
    fields (",".intercalate (before ++ s :: after)) =
      before.flatMap fields ++ s :: after.flatMap fields := by
  rw [fields_intercalate_eq_flatMap (by simp), List.flatMap_append, List.flatMap_cons,
    fields_of_not_mem h.1, List.singleton_append]

/-- **What was recognised is cleaned once, and is a field of a table then.** It is the blank text
    or one that shows something, from its first character to its last, and for a number one word.
    Cleaning it again changes nothing. Between quotes it ends no field and no line, so that it is
    one field of any line and leaves the others as they are. -/
theorem cleanText_once (raw : String) (action : Action) :
    (cleanText raw action = blank ∨ IsCleaned action (cleanText raw action)) ∧
      cleanText (cleanText raw action) action = cleanText raw action ∧
      IsUnbroken (quotedField (cleanText raw action)) ∧
      ∀ before after : List String,
        fields (",".intercalate (before ++ quotedField (cleanText raw action) :: after)) =
          before.flatMap fields ++ quotedField (cleanText raw action) :: after.flatMap fields := by
  have hclean := cleanText_eq_blank_or_isCleaned raw action
  have hquoted := (isUnbroken_cleanText raw action).quotedField
  exact ⟨hclean, cleanText_eq_self_iff.2 hclean, hquoted, fields_of_unbroken hquoted⟩

/-- White space that was behind a comma is trimmed, too. -/
example : cleanText ", 1,2 \r\n" .detectNumber = "12" ∧ cleanText ", 1 2 ," .detectNumber = blank ∧
    cleanText ", 1 2 ," .detectText = "1 2" := by
  decide +kernel

end Screenmark
