/-
  Screenmark — words.

  The words of a text are its longest pieces without white space. White space cuts the
  words in two (`words_append_white`), and all else about them follows from that: nothing
  that shows is lost (`flatten_words`), and a text is one word exactly if it is that word
  between white space (`words_eq_singleton_iff`).
-/
import Screenmark.Proofs.Text.Compact

namespace Screenmark.Text

variable {cs a b w : List Char} {c : Char} {q : Char → Bool}

/-! ## Trimming -/

/-- A text that was trimmed does not begin with white space. -/
theorem isWhite_of_head?_trim (h : (trim cs).head? = some c) : isWhite c = false := by
  obtain ⟨ds, hds⟩ := exists_append_trim cs
  have hhead : (trimStart cs).head? = some c := by
    rw [hds, List.head?_append, h, Option.some_or]
  have hnot := List.head?_dropWhile_not isWhite cs
  rw [← trimStart, hhead] at hnot
  simpa using hnot

@[simp] theorem trim_trim (cs : List Char) : trim (trim cs) = trim cs :=
  trim_eq_self (fun _ => isWhite_of_head?_trim) fun _ => isWhite_of_getLast?_trim

/-- What is trimmed off is white space. -/
theorem exists_eq_append_trim (cs : List Char) : ∃ a b, cs = a ++ trim cs ++ b ∧
    (∀ c ∈ a, isWhite c = true) ∧ ∀ c ∈ b, isWhite c = true := by
  refine ⟨cs.takeWhile isWhite, ((trimStart cs).reverse.takeWhile isWhite).reverse, ?_,
    List.all_eq_true.1 List.all_takeWhile, fun c hc => ?_⟩
  · have hend : trim cs ++ ((trimStart cs).reverse.takeWhile isWhite).reverse = trimStart cs := by
      rw [trim, trimEnd, ← List.reverse_append, List.takeWhile_append_dropWhile,
        List.reverse_reverse]
    rw [List.append_assoc, hend, trimStart, List.takeWhile_append_dropWhile]
  · exact List.all_eq_true.1 List.all_takeWhile c (List.mem_reverse.1 hc)

theorem dropWhile_filter (hq : ∀ c, q c = false → isWhite c = true) (cs : List Char) :
    (cs.filter q).dropWhile isWhite = (cs.dropWhile isWhite).filter q := by
  induction cs with
  | nil => rfl
  | cons c cs ih =>
    by_cases hc : isWhite c = true
    · rw [List.dropWhile_cons_of_pos hc, List.filter_cons]
      split
      · rw [List.dropWhile_cons_of_pos hc, ih]
      · exact ih
    · have hkept : q c = true := Bool.not_eq_false _ ▸ fun hno => hc (hq c hno)
      rw [List.dropWhile_cons_of_neg hc, List.filter_cons_of_pos hkept,
        List.dropWhile_cons_of_neg hc]

/-- It is the same whether white space is dropped from a text before it is trimmed or
    behind. -/
theorem trim_filter (hq : ∀ c, q c = false → isWhite c = true) (cs : List Char) :
    trim (cs.filter q) = (trim cs).filter q := by
  rw [trim, trimStart, dropWhile_filter hq, trimEnd, ← List.filter_reverse, dropWhile_filter hq,
    ← List.filter_reverse, ← trimEnd, ← trimStart, ← trim]

/-! ## Words -/

/-- Behind white space the words begin anew. -/
theorem wordsFrom_append_white (hc : isWhite c = true) (w a b : List Char) :
    wordsFrom w (a ++ c :: b) = wordsFrom w a ++ words b := by
  induction a generalizing w with
  | nil => cases w <;> simp [wordsFrom, hc, words]
  | cons d a ih =>
    rw [List.cons_append, wordsFrom, wordsFrom]
    split
    · split
      · exact ih []
      · rw [ih [], List.cons_append]
    · exact ih (d :: w)

/-- **White space cuts the words in two.** -/
theorem words_append_white (hc : isWhite c = true) (a b : List Char) :
    words (a ++ c :: b) = words a ++ words b := wordsFrom_append_white hc [] a b

theorem wordsFrom_cons_of_showing (hc : isWhite c = false) (w cs : List Char) :
    wordsFrom w (c :: cs) = wordsFrom (c :: w) cs := by
  rw [wordsFrom, if_neg (Bool.eq_false_iff.1 hc)]

theorem wordsFrom_of_showing (hcs : ∀ c ∈ cs, isWhite c = false) (w : List Char) :
    wordsFrom w cs = wordsFrom (cs.reverse ++ w) [] := by
  induction cs generalizing w with
  | nil => rfl
  | cons c cs ih =>
    rw [List.forall_mem_cons] at hcs
    rw [wordsFrom_cons_of_showing hcs.1, ih hcs.2, List.reverse_cons, List.append_assoc,
      List.singleton_append]

/-- A text without white space is one word. -/
theorem words_of_showing (hne : cs ≠ []) (hcs : ∀ c ∈ cs, isWhite c = false) :
    words cs = [cs] := by
  rw [words, wordsFrom_of_showing hcs, List.append_nil, wordsFrom, if_neg (by simpa using hne),
    List.reverse_reverse]

theorem flatten_wordsFrom (w cs : List Char) :
    (wordsFrom w cs).flatten = w.reverse ++ compact cs := by
  induction cs generalizing w with
  | nil => cases w <;> simp [wordsFrom]
  | cons c cs ih =>
    rw [wordsFrom]
    split
    · next hc =>
      rw [compact_cons_white hc]
      cases w <;> simp [ih]
    · next hc =>
      rw [ih, compact_cons (Bool.eq_false_iff.2 hc), List.reverse_cons, List.append_assoc]
      rfl

/-- **The words are what shows of the text.** -/
theorem flatten_words (cs : List Char) : (words cs).flatten = compact cs := flatten_wordsFrom [] cs

theorem words_eq_nil_of_white (hcs : ∀ c ∈ cs, isWhite c = true) : words cs = [] := by
  induction cs with
  | nil => rfl
  | cons c cs ih =>
    rw [List.forall_mem_cons] at hcs
    exact (words_append_white hcs.1 [] cs).trans (ih hcs.2)

theorem words_eq_nil_iff : words cs = [] ↔ trim cs = [] := by
  constructor
  · intro h
    rw [← compact_eq_nil_iff, ← flatten_words, h, List.flatten_nil]
  · intro h
    rw [trim_eq_nil_iff, List.all_eq_true] at h
    exact words_eq_nil_of_white h

theorem words_append_of_white (ha : ∀ c ∈ a, isWhite c = true) (b : List Char) :
    words (a ++ b) = words b := by
  induction a with
  | nil => rfl
  | cons c a ih =>
    rw [List.forall_mem_cons] at ha
    exact (words_append_white ha.1 [] (a ++ b)).trans (ih ha.2)

@[simp] theorem words_trim (cs : List Char) : words (trim cs) = words cs := by
  obtain ⟨a, b, hcs, ha, hb⟩ := exists_eq_append_trim cs
  have hend : words (trim cs ++ b) = words (trim cs) := by
    rcases b with _ | ⟨c, b⟩
    · rw [List.append_nil]
    · rw [List.forall_mem_cons] at hb
      rw [words_append_white hb.1, words_eq_nil_of_white hb.2, List.append_nil]
  calc words (trim cs) = words (a ++ (trim cs ++ b)) := by rw [words_append_of_white ha, hend]
    _ = words cs := by rw [← List.append_assoc, ← hcs]

/-- White space within a text that was trimmed has words on both sides. -/
theorem two_le_length_words (hc : c ∈ trim cs) (hwhite : isWhite c = true) :
    2 ≤ (words cs).length := by
  obtain ⟨a, b, hab⟩ := List.append_of_mem hc
  have hfront : words a ≠ [] := by
    intro h
    rw [words_eq_nil_iff, trim_eq_nil_iff, List.all_eq_true] at h
    have hhead : ∃ d, (trim cs).head? = some d ∧ isWhite d = true := by
      rw [hab]
      rcases a with _ | ⟨d, a⟩
      · exact ⟨c, rfl, hwhite⟩
      · exact ⟨d, rfl, h d List.mem_cons_self⟩
    obtain ⟨d, hd, hdwhite⟩ := hhead
    rw [isWhite_of_head?_trim hd] at hdwhite
    cases hdwhite
  have hback : words b ≠ [] := by
    intro h
    rw [words_eq_nil_iff, trim_eq_nil_iff, List.all_eq_true] at h
    have hlast : ∃ d, (trim cs).getLast? = some d ∧ isWhite d = true := by
      rw [hab]
      rcases List.eq_nil_or_concat b with rfl | ⟨b, d, rfl⟩
      · exact ⟨c, by simp, hwhite⟩
      · rw [List.concat_eq_append] at h ⊢
        exact ⟨d, by rw [← List.cons_append, ← List.append_assoc, List.getLast?_concat],
          h d (by simp)⟩
    obtain ⟨d, hd, hdwhite⟩ := hlast
    rw [isWhite_of_getLast?_trim hd] at hdwhite
    cases hdwhite
  have hlength : (words cs).length = (words a).length + (words b).length := by
    rw [← words_trim, hab, words_append_white hwhite, List.length_append]
  have := List.length_pos_iff.2 hfront
  have := List.length_pos_iff.2 hback
  omega

/-- **A text is one word exactly if it is that word between white space.** -/
theorem words_eq_singleton_iff :
    words cs = [w] ↔ trim cs = w ∧ w ≠ [] ∧ ∀ c ∈ w, isWhite c = false := by
  constructor
  · intro h
    have hshows : ∀ c ∈ trim cs, isWhite c = false := fun c hc =>
      Bool.eq_false_iff.2 fun hwhite => by
        have htwo := two_le_length_words hc hwhite
        rw [h, List.length_singleton] at htwo
        omega
    have hne : trim cs ≠ [] := fun hnil => by
      rw [words_eq_nil_iff.2 hnil] at h
      cases h
    have hself := words_of_showing hne hshows
    rw [words_trim, h, List.singleton_inj] at hself
    exact ⟨hself.symm, hself ▸ hne, hself ▸ hshows⟩
  · rintro ⟨rfl, hne, hshows⟩
    rw [← words_trim, words_of_showing hne hshows]

end Screenmark.Text
