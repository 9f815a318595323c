/-
  Screenmark — what is joined is cut into the same pieces.

  A text that is put together from pieces without the separator is cut into these
  pieces again; so a text of lines, and a line of fields, read as they were written
  (`lines_join`, `fields_intercalate`). A field may hold white space and quotes, as
  long as nothing in it ends a field or a line: `IsField`. A *bare* text holds neither
  of them, and nothing is taken away from it (`IsBare.trim_eq`, `IsBare.strip_eq`).
-/
import Screenmark.Text.Blank
import Screenmark.Text.Lines
import Screenmark.Text.Numeral

namespace Screenmark.Text

/-! ## Pieces -/

variable {sep c : Char} {a cs ds : List Char} {p : List Char} {ps : List (List Char)}

theorem pieces_cons_of_ne (hc : c ≠ sep) (h : pieces sep cs = p :: ps) :
    pieces sep (c :: cs) = (c :: p) :: ps := by
  rw [pieces, if_neg hc, h]

/-- Characters in front of a text come into its first piece. -/
theorem pieces_append (ha : sep ∉ a) (h : pieces sep cs = p :: ps) :
    pieces sep (a ++ cs) = (a ++ p) :: ps := by
  induction a with
  | nil => exact h
  | cons c a ih =>
    rw [List.mem_cons, not_or] at ha
    exact pieces_cons_of_ne (Ne.symm ha.1) (ih ha.2)

theorem pieces_of_not_mem (ha : sep ∉ a) : pieces sep a = [a] := by
  simpa using pieces_append ha (rfl : pieces sep [] = [[]])

/-- A separator ends the first piece. -/
theorem pieces_append_sep (ha : sep ∉ a) : pieces sep (a ++ sep :: cs) = a :: pieces sep cs := by
  have h : pieces sep (sep :: cs) = [] :: pieces sep cs := by rw [pieces, if_pos rfl]
  simpa using pieces_append ha h

/-- Characters behind a text come into its last piece. -/
theorem exists_pieces_append (sep : Char) (cs : List Char) : ∃ init last,
    pieces sep cs = init ++ [last] ∧
      ∀ a, sep ∉ a → pieces sep (cs ++ a) = init ++ [last ++ a] := by
  induction cs with
  | nil => exact ⟨[], [], rfl, fun a ha => pieces_of_not_mem ha⟩
  | cons c cs ih =>
    obtain ⟨init, last, hcs, happend⟩ := ih
    by_cases hc : c = sep
    · refine ⟨[] :: init, last, ?_, fun a ha => ?_⟩
      · rw [pieces, if_pos hc, hcs, List.cons_append]
      · rw [List.cons_append, pieces, if_pos hc, happend a ha, List.cons_append]
    · rcases init with _ | ⟨p, init⟩
      · exact ⟨[], c :: last, pieces_cons_of_ne hc hcs,
          fun a ha => pieces_cons_of_ne hc (happend a ha)⟩
      · exact ⟨(c :: p) :: init, last, pieces_cons_of_ne hc hcs,
          fun a ha => pieces_cons_of_ne hc (happend a ha)⟩

/-- **Pieces that are joined by the separator are the pieces of the whole.** -/
theorem pieces_intercalate : ∀ {ps : List (List Char)}, ps ≠ [] → (∀ p ∈ ps, sep ∉ p) →
    pieces sep ([sep].intercalate ps) = ps
  | [p], _, h => by
    rw [List.intercalate_singleton]
    exact pieces_of_not_mem (h p List.mem_cons_self)
  | p :: q :: ps, _, h => by
    rw [List.forall_mem_cons] at h
    rw [List.intercalate_cons_cons, List.append_assoc]
    exact (pieces_append_sep h.1).trans
      (congrArg _ (pieces_intercalate (List.cons_ne_nil q ps) h.2))

/-- Pieces that are each ended by the separator are the pieces of the whole, before an
    empty one. -/
theorem pieces_flatMap_concat : ∀ {ps : List (List Char)}, (∀ p ∈ ps, sep ∉ p) →
    pieces sep (ps.flatMap (· ++ [sep])) = ps ++ [[]]
  | [], _ => rfl
  | p :: ps, h => by
    rw [List.forall_mem_cons] at h
    rw [List.flatMap_cons, List.append_assoc]
    exact (pieces_append_sep h.1).trans (congrArg _ (pieces_flatMap_concat h.2))

theorem pieces_append_sep_append (a cs : List Char) :
    pieces sep (a ++ sep :: cs) = pieces sep a ++ pieces sep cs := by
  induction a with
  | nil => exact pieces_append_sep (List.not_mem_nil)
  | cons c a ih =>
    by_cases hc : c = sep
    · rw [List.cons_append, pieces, if_pos hc, ih, pieces, if_pos hc, List.cons_append]
    · obtain ⟨p, ps, ha⟩ := List.exists_cons_of_ne_nil (pieces_ne_nil sep a)
      rw [ha, List.cons_append] at ih
      rw [pieces_cons_of_ne hc ha, List.cons_append]
      exact pieces_cons_of_ne hc ih

/-- What is joined by the separator is cut where its parts are cut, and between them. -/
theorem pieces_intercalate_eq_flatMap : ∀ {ps : List (List Char)}, ps ≠ [] →
    pieces sep ([sep].intercalate ps) = ps.flatMap (pieces sep)
  | [p], _ => by simp
  | p :: q :: ps, _ => by
    rw [List.intercalate_cons_cons, List.append_assoc, List.flatMap_cons,
      ← pieces_intercalate_eq_flatMap (List.cons_ne_nil q ps)]
    exact pieces_append_sep_append p _

/-- The text ends with these pieces: they are all of it, or stand behind a separator. -/
def EndsInPieces (sep : Char) (ps : List (List Char)) (cs : List Char) : Prop :=
  cs = [sep].intercalate ps ∨ ∃ front, cs = front ++ sep :: [sep].intercalate ps

theorem intercalate_append {qs : List (List Char)} (hqs : qs ≠ []) :
    ∀ {ps : List (List Char)}, ps ≠ [] → [sep].intercalate (ps ++ qs) =
      [sep].intercalate ps ++ sep :: [sep].intercalate qs
  | [p], _ => by
    rw [List.singleton_append, List.intercalate_cons_of_ne_nil hqs, List.intercalate_singleton,
      List.append_assoc]
    rfl
  | p :: q :: ps, _ => by
    have hrest := intercalate_append hqs (List.cons_ne_nil q ps)
    rw [List.cons_append] at hrest
    rw [List.cons_append, List.cons_append, List.intercalate_cons_cons, hrest,
      List.intercalate_cons_cons]
    simp only [List.append_assoc]

/-- **A text ends with just the last ones of its pieces.** -/
theorem endsInPieces_iff_suffix (hne : ps ≠ []) (h : ∀ p ∈ ps, sep ∉ p) :
    EndsInPieces sep ps cs ↔ ps <:+ pieces sep cs := by
  constructor
  · rintro (rfl | ⟨front, rfl⟩)
    · exact ⟨[], (pieces_intercalate hne h).symm⟩
    · rw [pieces_append_sep_append, pieces_intercalate hne h]
      exact List.suffix_append _ _
  · rintro ⟨init, hinit⟩
    rcases List.eq_nil_or_concat init with rfl | ⟨init, last, rfl⟩
    · rw [List.nil_append] at hinit
      exact .inl (by rw [hinit, intercalate_pieces])
    · refine .inr ⟨[sep].intercalate (init.concat last), ?_⟩
      rw [← intercalate_append hne (by simp), hinit, intercalate_pieces]

/-! ## Lines and fields -/

/-- A text in which nothing ends a field or a line. -/
def IsField (s : String) : Prop := ',' ∉ s.toList ∧ '\n' ∉ s.toList

instance (s : String) : Decidable (IsField s) :=
  inferInstanceAs (Decidable (',' ∉ s.toList ∧ '\n' ∉ s.toList))

theorem chomp_of_getLast?_ne (h : cs.getLast? ≠ some '\r') : chomp cs = cs := by
  unfold chomp
  split
  · next r heq =>
    rw [← List.head?_reverse, heq] at h
    exact absurd rfl h
  · rfl

theorem chomp_concat (cs : List Char) (c : Char) :
    chomp (cs ++ [c]) = if c = '\r' then cs else cs ++ [c] := by
  split
  · next hc => simp [chomp, hc]
  · next hc => exact chomp_of_getLast?_ne (by simpa using hc)

theorem chomp_cons (c : Char) (hne : cs ≠ []) : chomp (c :: cs) = c :: chomp cs := by
  rcases List.eq_nil_or_concat cs with rfl | ⟨ds, d, rfl⟩
  · exact absurd rfl hne
  · rw [List.concat_eq_append, ← List.cons_append, chomp_concat, chomp_concat]
    split <;> rfl

/-- A text of lines that are each ended by a line feed is cut at these; a carriage return
    in front of a line feed belongs to it. -/
theorem lines_join_eq_map {ls : List String} (hfeed : ∀ l ∈ ls, '\n' ∉ l.toList) :
    lines (String.join (ls.map (· ++ "\n"))) = ls.map fun l => String.ofList (chomp l.toList) := by
  have htext : (String.join (ls.map (· ++ "\n"))).toList =
      (ls.map String.toList).flatMap (· ++ ['\n']) := by
    rw [String.toList_join, List.flatMap_map, List.flatMap_map]
    simp
  have hpieces : pieces '\n' (String.join (ls.map (· ++ "\n"))).toList =
      ls.map String.toList ++ [[]] := by
    rw [htext]
    refine pieces_flatMap_concat fun p hp => ?_
    obtain ⟨l, hl, rfl⟩ := List.mem_map.1 hp
    exact hfeed l hl
  rw [lines, charLines, hpieces]
  simp only [List.dropLast_concat, List.getLast?_concat, Option.toList_some]
  rw [List.filter_cons_of_neg (by simp), List.filter_nil, List.append_nil, List.map_map,
    List.map_map]
  rfl

/-- **Lines that are each ended by a line feed are the lines of the whole.** -/
theorem lines_join {ls : List String} (hfeed : ∀ l ∈ ls, '\n' ∉ l.toList)
    (hend : ∀ l ∈ ls, l.toList.getLast? ≠ some '\r') :
    lines (String.join (ls.map (· ++ "\n"))) = ls := by
  rw [lines_join_eq_map hfeed]
  refine (List.map_congr_left fun l hl => ?_).trans (List.map_id ls)
  rw [chomp_of_getLast?_ne (hend l hl)]
  exact String.ofList_toList

theorem fields_of_not_mem {s : String} (h : ',' ∉ s.toList) : fields s = [s] := by
  rw [fields, pieces_of_not_mem h, List.map_singleton, String.ofList_toList]

/-- A line that is joined by commas has the fields of its parts. -/
theorem fields_intercalate_eq_flatMap {fs : List String} (hne : fs ≠ []) :
    fields (",".intercalate fs) = fs.flatMap fields := by
  have hcomma : ",".toList = [','] := rfl
  rw [fields, String.toList_intercalate, hcomma,
    pieces_intercalate_eq_flatMap (by simpa using hne), List.flatMap_map, List.map_flatMap]
  rfl

/-- **Fields that are joined by commas are the fields of the line.** -/
theorem fields_intercalate {fs : List String} (hne : fs ≠ []) (h : ∀ f ∈ fs, ',' ∉ f.toList) :
    fields (",".intercalate fs) = fs := by
  have hsingle : fs.map fields = fs.map fun f => [f] :=
    List.map_congr_left fun f hf => fields_of_not_mem (h f hf)
  rw [fields_intercalate_eq_flatMap hne, List.flatMap_def, hsingle, ← List.flatMap_def,
    List.flatMap_singleton']

/-! ## Lines of fields -/

variable {fs : List String} {f : String}

theorem intercalate_comma_cons (hne : fs ≠ []) : (",".intercalate (f :: fs)).toList =
    f.toList ++ ',' :: (",".intercalate fs).toList := by
  rw [String.intercalate_cons_of_ne_nil hne, String.toList_append, String.toList_append,
    List.append_assoc]
  rfl

theorem mem_of_mem_intercalate : ∀ {fs : List String}, c ∈ (",".intercalate fs).toList →
    c = ',' ∨ ∃ f ∈ fs, c ∈ f.toList
  | [], h => by simp at h
  | [f], h => .inr ⟨f, List.mem_cons_self, by simpa using h⟩
  | f :: g :: fs, h => by
    rw [intercalate_comma_cons (List.cons_ne_nil g fs), List.mem_append, List.mem_cons] at h
    rcases h with hf | rfl | hrest
    · exact .inr ⟨f, List.mem_cons_self, hf⟩
    · exact .inl rfl
    · exact (mem_of_mem_intercalate hrest).imp id fun ⟨e, he, hc⟩ =>
        ⟨e, List.mem_cons_of_mem f he, hc⟩

theorem getLast?_intercalate : ∀ {fs : List String},
    (",".intercalate fs).toList.getLast? = some c →
      c = ',' ∨ ∃ f ∈ fs, f.toList.getLast? = some c
  | [], h => by simp at h
  | [f], h => .inr ⟨f, List.mem_cons_self, by simpa using h⟩
  | f :: g :: fs, h => by
    rw [intercalate_comma_cons (List.cons_ne_nil g fs), List.getLast?_append,
      List.getLast?_cons] at h
    rcases hrest : (",".intercalate (g :: fs)).toList.getLast? with _ | d
    · rw [hrest] at h
      exact .inl (Option.some.inj h).symm
    · rw [hrest] at h
      have hd : d = c := Option.some.inj h
      exact (getLast?_intercalate (hd ▸ hrest)).imp id fun ⟨e, he, hc⟩ =>
        ⟨e, List.mem_cons_of_mem f he, hc⟩

theorem not_isBlank_intercalate (hc : c ∈ f.toList) (hshows : isWhite c = false) :
    isBlank (",".intercalate (f :: fs)) = false := by
  have hmem : c ∈ (",".intercalate (f :: fs)).toList := by
    rcases fs with _ | ⟨g, fs⟩
    · simpa using hc
    · rw [intercalate_comma_cons (List.cons_ne_nil g fs)]
      exact List.mem_append_left _ hc
  rw [isBlank, List.all_eq_false]
  exact ⟨c, hmem, by simp [hshows]⟩

/-- A field that does not end like a line. -/
structure IsCell (s : String) : Prop where
  field : IsField s
  last : s.toList.getLast? ≠ some '\r'

/-- **Lines of fields read as they were written.** -/
theorem lines_join_intercalate {rs : List (List String)} (h : ∀ r ∈ rs, ∀ f ∈ r, IsCell f) :
    lines (String.join (rs.map fun r => ",".intercalate r ++ "\n")) =
      rs.map (",".intercalate ·) := by
  have hjoin : rs.map (fun r => ",".intercalate r ++ "\n") =
      (rs.map (",".intercalate ·)).map (· ++ "\n") := by rw [List.map_map]; rfl
  rw [hjoin, lines_join]
  · intro l hl hfeed
    obtain ⟨r, hr, rfl⟩ := List.mem_map.1 hl
    rcases mem_of_mem_intercalate hfeed with hc | ⟨f, hf, hc⟩
    · cases hc
    · exact (h r hr f hf).field.2 hc
  · intro l hl hlast
    obtain ⟨r, hr, rfl⟩ := List.mem_map.1 hl
    rcases getLast?_intercalate hlast with hc | ⟨f, hf, hc⟩
    · cases hc
    · exact (h r hr f hf).last hc

/-! ## Bare texts -/

/-- A text without white space, commas and quotes. -/
def IsBare (cs : List Char) : Prop := ∀ c ∈ cs, isWhite c = false ∧ c ≠ ',' ∧ c ≠ '"'

instance (cs : List Char) : Decidable (IsBare cs) := List.decidableBAll _ cs

theorem dropWhile_eq_self {q : Char → Bool} (h : ∀ c ∈ cs.head?, q c = false) :
    cs.dropWhile q = cs := by
  cases cs with
  | nil => rfl
  | cons c cs => rw [List.dropWhile_cons_of_neg (by simp [h c rfl])]

/-- Nothing is taken away from a text that has no white space at its ends. -/
theorem trim_eq_self (hhead : ∀ c ∈ cs.head?, isWhite c = false)
    (hlast : ∀ c ∈ cs.getLast?, isWhite c = false) : trim cs = cs := by
  rw [trim, trimStart, dropWhile_eq_self hhead, trimEnd, dropWhile_eq_self, List.reverse_reverse]
  rwa [List.head?_reverse]

theorem trimStart_cons (hc : isWhite c = false) : trimStart (c :: cs) = c :: cs := by
  rw [trimStart, List.dropWhile_cons_of_neg (by simp [hc])]

theorem trimEnd_append (hc : isWhite c = false) (cs ds : List Char) :
    trimEnd (cs ++ c :: ds) = cs ++ c :: trimEnd ds := by
  have hback : (cs ++ c :: ds).reverse = ds.reverse ++ c :: cs.reverse := by simp
  have hstop : (c :: cs.reverse).dropWhile isWhite = c :: cs.reverse := trimStart_cons hc
  rw [trimEnd, hback, List.dropWhile_append, trimEnd]
  split
  · next hnil => simp [List.isEmpty_iff.1 hnil, hstop]
  · simp

theorem trim_concat (hc : isWhite c = true) (cs : List Char) : trim (cs ++ [c]) = trim cs := by
  rw [trim, trim, trimStart, trimStart, List.dropWhile_append]
  split
  · next hnil => simp [List.isEmpty_iff.1 hnil, hc]
  · rw [trimEnd, List.reverse_append, List.reverse_singleton, List.singleton_append,
      List.dropWhile_cons_of_pos hc, trimEnd]

/-- What trimming takes from the end. -/
theorem exists_append_trim (cs : List Char) : ∃ ds, trimStart cs = trim cs ++ ds := by
  refine ⟨((trimStart cs).reverse.takeWhile isWhite).reverse, ?_⟩
  rw [trim, trimEnd, ← List.reverse_append, List.takeWhile_append_dropWhile, List.reverse_reverse]

theorem mem_of_mem_trim (h : c ∈ trim cs) : c ∈ cs := by
  have hend := (List.dropWhile_sublist _).subset (List.mem_reverse.1 h)
  exact (List.dropWhile_sublist _).subset (List.mem_reverse.1 hend)

theorem strip_eq_self (hhead : ∀ d ∈ cs.head?, d ≠ c) (hlast : ∀ d ∈ cs.getLast?, d ≠ c) :
    strip c cs = cs := by
  have hfront : cs.dropWhile (· == c) = cs :=
    dropWhile_eq_self fun d hd => by simpa using hhead d hd
  have hback : cs.reverse.dropWhile (· == c) = cs.reverse := by
    refine dropWhile_eq_self fun d hd => ?_
    rw [List.head?_reverse] at hd
    simpa using hlast d hd
  rw [strip, hfront, hback, List.reverse_reverse]

/-- Between two characters there is what stood there, if it does not begin or end with
    that character. -/
theorem strip_between (hhead : ∀ d ∈ cs.head?, d ≠ c) (hlast : ∀ d ∈ cs.getLast?, d ≠ c) :
    strip c (c :: cs ++ [c]) = cs := by
  have hfront : (c :: cs ++ [c]).dropWhile (· == c) = (cs ++ [c]).dropWhile (· == c) := by simp
  rcases cs with _ | ⟨d, ds⟩
  · simp [strip]
  · have hd : (d :: ds ++ [c]).dropWhile (· == c) = d :: ds ++ [c] :=
      dropWhile_eq_self fun e he => by simpa using hhead e he
    have hback : ((d :: ds).reverse).dropWhile (· == c) = (d :: ds).reverse := by
      refine dropWhile_eq_self fun e he => ?_
      rw [List.head?_reverse] at he
      simpa using hlast e he
    rw [strip, hfront, hd, List.reverse_append, List.reverse_singleton, List.singleton_append,
      List.dropWhile_cons_of_pos (by simp), hback, List.reverse_reverse]

namespace IsBare

variable (h : IsBare cs)
include h

theorem trim_eq : trim cs = cs :=
  trim_eq_self (fun c hc => (h c (List.mem_of_mem_head? hc)).1)
    fun c hc => (h c (List.mem_of_getLast? hc)).1

theorem trimEnd_eq : trimEnd cs = cs := by
  have hstart : trimStart cs = cs :=
    dropWhile_eq_self fun c hc => (h c (List.mem_of_mem_head? hc)).1
  simpa [trim, hstart] using h.trim_eq

theorem strip_eq : strip '"' cs = cs :=
  strip_eq_self (fun c hc => (h c (List.mem_of_mem_head? hc)).2.2)
    fun c hc => (h c (List.mem_of_getLast? hc)).2.2

theorem not_mem_white (hc : isWhite c = true) : c ∉ cs := fun hmem => by
  rw [(h c hmem).1] at hc
  cases hc

end IsBare

theorem isCell_of_isBare {s : String} (h : IsBare s.toList) : IsCell s where
  field := ⟨fun hc => (h _ hc).2.1 rfl, h.not_mem_white (by decide)⟩
  last hlast := h.not_mem_white (c := '\r') (by decide) (List.mem_of_getLast? hlast)

theorem isBare_of_isDigit (h : ∀ c ∈ cs, c.isDigit = true) : IsBare cs := by
  intro c hc
  obtain ⟨hle, hge⟩ := Char.isDigit_iff_toNat.1 (h c hc)
  have hzero : '0'.toNat = 48 := rfl
  have hnine : '9'.toNat = 57 := rfl
  refine ⟨?_, ?_, ?_⟩
  · simp only [isWhite, Bool.or_eq_false_iff, Bool.and_eq_false_iff, decide_eq_false_iff_not,
      beq_eq_false_iff_ne]
    omega
  · rintro rfl
    exact absurd hle (by decide)
  · rintro rfl
    exact absurd hle (by decide)

theorem isDigit_toDigits (n : Nat) : ∀ c ∈ Nat.toDigits 10 n, c.isDigit = true :=
  fun _ hc => Nat.isDigit_of_mem_toDigits (by decide) (by decide) hc

theorem toList_toString (n : Nat) : (toString n).toList = Nat.toDigits 10 n := by
  simp [toString, Nat.repr]

theorem isBare_toString (n : Nat) : IsBare (toString n).toList := by
  rw [toList_toString]
  exact isBare_of_isDigit (isDigit_toDigits n)

theorem toString_ne_nil (n : Nat) : (toString n).toList ≠ [] := by
  rw [toList_toString]
  exact Nat.toDigits_ne_nil

/-! ## Whole numbers as text -/

theorem IsBare.cons (hc : isWhite c = false ∧ c ≠ ',' ∧ c ≠ '"') (h : IsBare cs) :
    IsBare (c :: cs) := List.forall_mem_cons.2 ⟨hc, h⟩

theorem IsBare.append (h : IsBare cs) (h' : IsBare ds) : IsBare (cs ++ ds) :=
  List.forall_mem_append.2 ⟨h, h'⟩

theorem isBare_of_digits? {n : Nat} (h : digits? cs = some n) : IsBare cs := by
  unfold digits? at h
  split at h
  · next hdigits => exact isBare_of_isDigit (List.all_eq_true.1 hdigits.2)
  · cases h

theorem isBare_of_splitSign {negative : Bool} (h : splitSign cs = (negative, ds))
    (hds : IsBare ds) : IsBare cs := by
  unfold splitSign at h
  split at h
  · cases h
    exact hds.cons (by decide)
  · cases h
    exact hds.cons (by decide)
  · cases h
    exact hds

theorem isBare_of_readNat? {bound n : Nat} (h : readNat? bound cs = some n) : IsBare cs := by
  unfold readNat? at h
  dsimp only at h
  split at h
  · next hdigits =>
    have hbare := isBare_of_digits? hdigits
    split at hbare
    · exact hbare.cons (by decide)
    · exact hbare
  · cases h

theorem isBare_of_readInt? {lo hi n : Int} (h : readInt? lo hi cs = some n) : IsBare cs := by
  unfold readInt? at h
  dsimp only at h
  split at h
  · next hdigits => exact isBare_of_splitSign rfl (isBare_of_digits? hdigits)
  · cases h

theorem not_isWhite_and_ne_of_toLower
    (h : isWhite c.toLower = false ∧ c.toLower ≠ ',' ∧ c.toLower ≠ '"') :
    isWhite c = false ∧ c ≠ ',' ∧ c ≠ '"' := by
  by_cases hupper : c.val ≥ 'A'.val ∧ c.val ≤ 'Z'.val
  · have hlo : 65 ≤ c.toNat := UInt32.le_iff_toNat_le.1 hupper.1
    have hhi : c.toNat ≤ 90 := UInt32.le_iff_toNat_le.1 hupper.2
    refine ⟨?_, ?_, ?_⟩
    · simp only [isWhite, Bool.or_eq_false_iff, Bool.and_eq_false_iff, decide_eq_false_iff_not,
        beq_eq_false_iff_ne]
      omega
    · rintro rfl
      exact absurd hlo (by decide)
    · rintro rfl
      exact absurd hlo (by decide)
  · have hself : c.toLower = c := dif_neg hupper
    rwa [hself] at h

theorem isBare_of_toLower (h : IsBare (cs.map Char.toLower)) : IsBare cs := fun c hc =>
  not_isWhite_and_ne_of_toLower (h c.toLower (List.mem_map_of_mem hc))

/-! ## Texts between quotes -/

variable {s s' : String}

theorem toList_without (p : Char → Bool) (s : String) :
    (without p s).toList = s.toList.filter (!p ·) := String.toList_ofList

theorem toList_between_quotes (s : String) :
    ("\"" ++ s ++ "\"").toList = '"' :: s.toList ++ ['"'] := by simp

theorem isCell_between_quotes (h : IsField s) : IsCell ("\"" ++ s ++ "\"") where
  field := by
    rw [IsField, toList_between_quotes]
    exact ⟨by simpa using h.1, by simpa using h.2⟩
  last := by
    rw [toList_between_quotes, List.getLast?_concat]
    decide

/-! ## Names -/

/-- A name that can stand in the first line of a table and in the name of a file, as
    all names of letters, digits and underscores do. -/
def IsName (s : String) : Prop := ∀ c ∈ s.toList, c ≠ ',' ∧ c ≠ '"' ∧ c ≠ '\n' ∧ c ≠ '/'

instance (s : String) : Decidable (IsName s) := List.decidableBAll _ s.toList

theorem isName_append (h : IsName s) (h' : IsName s') : IsName (s ++ s') := by
  intro c hc
  rw [String.toList_append] at hc
  exact (List.mem_append.1 hc).elim (h c) (h' c)

namespace IsName

variable (h : IsName s)
include h

theorem isField : IsField s := ⟨fun hc => (h _ hc).1 rfl, fun hc => (h _ hc).2.2.1 rfl⟩

theorem not_mem_quote : '"' ∉ s.toList := fun hc => (h _ hc).2.1 rfl

theorem not_mem_slash : '/' ∉ s.toList := fun hc => (h _ hc).2.2.2 rfl

end IsName

/-! ## Cutting once -/

theorem splitFirst_append (h : sep ∉ a) : splitFirst sep (a ++ sep :: cs) = some (a, cs) := by
  induction a with
  | nil => simp [splitFirst]
  | cons c a ih =>
    rw [List.mem_cons, not_or] at h
    rw [List.cons_append, splitFirst, if_neg (Ne.symm h.1), ih h.2]
    rfl

theorem splitFirst_eq_none_iff : splitFirst sep cs = none ↔ sep ∉ cs := by
  constructor
  · intro hnone hmem
    obtain ⟨a, b, rfl, ha⟩ := List.eq_append_cons_of_mem hmem
    rw [splitFirst_append ha] at hnone
    cases hnone
  · intro hmem
    rcases hsplit : splitFirst sep cs with _ | ⟨a, b⟩
    · rfl
    · obtain ⟨rfl, -⟩ := splitFirst_eq_some hsplit
      exact absurd (List.mem_append_right a List.mem_cons_self) hmem

theorem splitLast_append (h : sep ∉ cs) : splitLast sep (a ++ sep :: cs) = some (a, cs) := by
  have hreverse : (a ++ sep :: cs).reverse = cs.reverse ++ sep :: a.reverse := by simp
  rw [splitLast, hreverse, splitFirst_append (by simpa using h)]
  simp

end Screenmark.Text
