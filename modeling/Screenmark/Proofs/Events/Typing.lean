/-
  Screenmark — the words that are typed, block by block.

  The strokes of a block spell a word: a backspace takes the last character away, and every
  other character is put behind the ones before (`typedText`). The word lasts from the first
  stroke of the block to the last one, be they backspaces or not; a block of which nothing is
  left makes no word (`TypedWord.ofStrokes?`).

  * `typedWordsFrom_cons` : what an event does to the words hangs on its mark alone;
  * `typedWords_eq` : the words are those of the blocks, in order;
  * `typedWords_append` : a key that forms no words cuts the events in two;
  * `typedWordsFrom_thinned` : events that are no marks and press no key may be left out.
-/
import Screenmark.Proofs.Events.Blocks
import Screenmark.Proofs.Text.Fields

namespace Screenmark

/-! ## Words of strokes -/

/-- A text after one more character. -/
def typeInto (cs : List Char) (s : Stroke) : List Char :=
  if s.char = backspace then cs.dropLast else cs ++ [s.char]

/-- What is left of the characters of strokes in their order. -/
def typedText (ss : List Stroke) : List Char := ss.foldl typeInto []

/-- The word that strokes spell, if anything is left of them. -/
def TypedWord.ofStrokes? (ss : List Stroke) : Option TypedWord :=
  match ss.head?, ss.getLast? with
  | some first, some last =>
    if typedText ss = [] then none
    else some ⟨String.ofList (typedText ss), first.time, last.time⟩
  | _, _ => none

/-- The word that is being typed after strokes. -/
def OpenWord.ofStrokes? (ss : List Stroke) : Option OpenWord :=
  match ss.head?, ss.getLast? with
  | some first, some last => some ⟨(typedText ss).reverse, first.time, last.time⟩
  | _, _ => none

/-- The word after one more stroke, which begins one if none is being typed. -/
def OpenWord.stroke (w : Option OpenWord) (s : Stroke) : OpenWord :=
  (w.getD ⟨[], s.time, s.time⟩).type s.char s.time

variable {es : List Event} {e : Event} {active : Bool} {w : Option OpenWord} {s : Stroke}
  {ss : List Stroke} {c : Char}

theorem typedText_concat (ss : List Stroke) (s : Stroke) :
    typedText (ss ++ [s]) = typeInto (typedText ss) s := by
  rw [typedText, List.foldl_append]
  rfl

theorem mem_of_mem_typeInto {cs : List Char} (h : c ∈ typeInto cs s) :
    c ∈ cs ∨ c ≠ backspace ∧ s.char = c := by
  unfold typeInto at h
  split at h
  · exact .inl (List.dropLast_subset _ h)
  · next hne =>
    refine (List.mem_append.1 h).imp id fun hs => ?_
    obtain rfl := List.mem_singleton.1 hs
    exact ⟨hne, rfl⟩

/-- Only characters that were typed are left, and no backspace. -/
theorem exists_of_mem_typedText (h : c ∈ typedText ss) :
    c ≠ backspace ∧ ∃ s ∈ ss, s.char = c := by
  have hleft : ∀ cs, c ∈ ss.foldl typeInto cs →
      c ∈ cs ∨ c ≠ backspace ∧ ∃ s ∈ ss, s.char = c := by
    clear h
    induction ss with
    | nil => exact fun cs hc => .inl hc
    | cons s ss ih =>
      intro cs hc
      rcases ih _ hc with hmem | ⟨hne, r, hr, hrc⟩
      · exact (mem_of_mem_typeInto hmem).imp_right fun ⟨hne, hs⟩ =>
          ⟨hne, s, List.mem_cons_self, hs⟩
      · exact .inr ⟨hne, r, List.mem_cons_of_mem s hr, hrc⟩
  exact (hleft [] h).resolve_left List.not_mem_nil

theorem TypedWord.text_of_ofStrokes? {word : TypedWord} (h : ofStrokes? ss = some word) :
    word.text = String.ofList (typedText ss) := by
  unfold ofStrokes? at h
  split at h
  · split at h
    · cases h
    · cases h
      rfl
  · cases h

theorem OpenWord.type_eq (cs : List Char) (start stop : Moment) (s : Stroke) :
    type ⟨cs.reverse, start, stop⟩ s.char s.time =
      ⟨(typeInto cs s).reverse, start, s.time⟩ := by
  unfold OpenWord.type typeInto
  split
  · rw [List.drop_one, List.tail_reverse]
  · rw [List.reverse_append]
    rfl

theorem OpenWord.ofStrokes?_concat (ss : List Stroke) (s : Stroke) :
    ofStrokes? (ss ++ [s]) = some (stroke (ofStrokes? ss) s) := by
  rcases ss with _ | ⟨first, ss⟩
  · exact congrArg some (type_eq [] s.time s.time s).symm
  · have hlonger : ofStrokes? (first :: ss ++ [s]) =
        some ⟨(typedText (first :: ss ++ [s])).reverse, first.time, s.time⟩ := by
      rw [ofStrokes?, List.getLast?_concat]
      rfl
    have hbefore : ofStrokes? (first :: ss) = some ⟨(typedText (first :: ss)).reverse, first.time,
        ((first :: ss).getLast (List.cons_ne_nil first ss)).time⟩ := by
      rw [ofStrokes?, List.getLast?_eq_some_getLast (List.cons_ne_nil first ss)]
      rfl
    rw [hlonger, hbefore, typedText_concat]
    exact congrArg some (type_eq ..).symm

/-- Nothing is trimmed from the text of strokes. -/
theorem OpenWord.close?_ofStrokes? (h : ∀ s ∈ ss, Text.isWhite s.char = false) :
    (ofStrokes? ss).bind close? = TypedWord.ofStrokes? ss := by
  have htrim : Text.trim (typedText ss) = typedText ss := by
    have hwhite : ∀ c ∈ typedText ss, Text.isWhite c = false := fun c hc => by
      obtain ⟨-, s, hs, rfl⟩ := exists_of_mem_typedText hc
      exact h s hs
    exact Text.trim_eq_self (fun c hc => hwhite c (List.mem_of_mem_head? hc))
      fun c hc => hwhite c (List.mem_of_getLast? hc)
  unfold ofStrokes? TypedWord.ofStrokes?
  split
  · rw [Option.bind_some, close?, List.reverse_reverse, htrim]
    split <;> simp_all
  · rfl

/-! ## Events by their marks -/

theorem activeAfter_cons (active : Bool) (e : Event) (es : List Event) :
    activeAfter active (e :: es) = activeAfter (activeAfter active [e]) es := by
  unfold activeAfter lastKey?
  rw [List.reverse_cons, List.findSome?_append]
  cases es.reverse.findSome? Event.key? <;> simp

theorem activeAfter_singleton (active : Bool) (e : Event) :
    activeAfter active [e] = (e.key?.map isWordKey).getD active := by
  unfold activeAfter lastKey?
  cases h : e.key? <;> simp [h]

/-- **What an event does to the words hangs on its mark alone.** -/
theorem typedWordsFrom_cons (active : Bool) (w : Option OpenWord) (e : Event) (es : List Event) :
    typedWordsFrom active w (e :: es) =
      match e.mark active with
      | .stroke s => typedWordsFrom (activeAfter active [e]) (some (OpenWord.stroke w s)) es
      | .stop => (w.bind OpenWord.close?).toList ++ typedWordsFrom (activeAfter active [e]) none es
      | .idle => typedWordsFrom (activeAfter active [e]) w es := by
  obtain ⟨t, k⟩ := e
  rw [typedWordsFrom, activeAfter_singleton]
  cases k with
  | typed c =>
    cases active <;> cases hc : Text.isWhite c <;>
      simp [Event.mark, EventKind.isMouse, Event.key?, OpenWord.stroke, hc]
  | keyDown code =>
    cases hcode : isWordKey code <;> simp [Event.mark, EventKind.isMouse, Event.key?, hcode]
  | _ => simp [Event.mark, EventKind.isMouse, Event.key?]

/-- The marks of events behind others. -/
def marksFrom (active : Bool) : List Event → List Mark
  | [] => []
  | e :: es => e.mark active :: marksFrom (activeAfter active [e]) es

theorem getElem?_marksFrom (active : Bool) (es : List Event) (i : Nat) :
    (marksFrom active es)[i]? = es[i]?.map (·.mark (activeAfter active (es.take i))) := by
  induction es generalizing active i with
  | nil => rfl
  | cons e es ih =>
    rcases i with _ | i
    · rfl
    · rw [marksFrom, List.getElem?_cons_succ, List.getElem?_cons_succ, List.take_succ_cons,
        activeAfter_cons active e (es.take i), ih]

theorem marks_eq (es : List Event) : marks es = marksFrom false es := by
  refine List.ext_getElem? fun i => ?_
  rw [getElem?_marksFrom, marks, List.getElem?_mapIdx]

/-- A stroke is the character of its event, at the time of the event. -/
theorem stroke_of_mark (h : e.mark active = .stroke s) :
    e = ⟨s.time, .typed s.char⟩ ∧ active = true ∧ Text.isWhite s.char = false := by
  obtain ⟨t, k⟩ := e
  cases k with
  | typed c =>
    cases active <;> cases hc : Text.isWhite c <;>
      simp [Event.mark, EventKind.isMouse, hc] at h
    subst h
    exact ⟨rfl, rfl, hc⟩
  | keyDown code => cases hcode : isWordKey code <;> simp [Event.mark, EventKind.isMouse, hcode] at h
  | _ => simp [Event.mark, EventKind.isMouse] at h

/-- No stroke of a mark is white. -/
theorem isWhite_of_mem_marksFrom {i : Nat} (h : (marksFrom active es)[i]? = some (.stroke s)) :
    Text.isWhite s.char = false := by
  rw [getElem?_marksFrom] at h
  obtain ⟨e, -, he⟩ := Option.map_eq_some_iff.1 h
  exact (stroke_of_mark he).2.2

/-! ## Words of blocks -/

section

variable {ms : List Mark} {n : Nat} {latest : Option Block} {b : Block}

theorem bind_stroke?_eq_some_iff {i : Nat} :
    ms[i]?.bind Mark.stroke? = some s ↔ ms[i]? = some (.stroke s) := by
  rw [Option.bind_eq_some_iff]
  constructor
  · rintro ⟨m, hm, hs⟩
    cases m with
    | stroke r => rwa [Option.some.inj hs] at hm
    | stop => cases hs
    | idle => cases hs
  · exact fun h => ⟨_, h, rfl⟩

theorem exists_of_mem_strokesOf (h : s ∈ strokesOf ms b) :
    ∃ i : Nat, ms[i]? = some (.stroke s) := by
  obtain ⟨i, -, hi⟩ := List.mem_filterMap.1 h
  exact ⟨i, bind_stroke?_eq_some_iff.1 hi⟩

theorem strokesOf_single (h : ms[n]? = some (.stroke s)) : strokesOf ms ⟨n, n⟩ = [s] := by
  simp [strokesOf, h, Mark.stroke?]

/-- A stroke that goes on with a block is put behind the strokes of the block. -/
theorem strokesOf_concat (h : IsOpen ms n (some b)) (hn : ms[n]? = some (.stroke s)) :
    strokesOf ms ⟨b.first, n⟩ = strokesOf ms b ++ [s] := by
  cases h with
  | block _ _ hle hlt _ hlatest _ =>
    have hplaces : List.range' b.first (n + 1 - b.first) =
        List.range' b.first (b.last + 1 - b.first) ++
          (List.range' (b.last + 1) (n - (b.last + 1)) ++ [n]) := by
      have hlength : n + 1 - b.first =
          b.last + 1 - b.first + (n - (b.last + 1) + 1) := by omega
      have hnext : b.first + (b.last + 1 - b.first) = b.last + 1 := by omega
      have hend : b.last + 1 + (n - (b.last + 1)) = n := by omega
      rw [hlength, ← List.range'_append_1, ← List.range'_append_1, hnext, hend]
      rfl
    have hnone : (List.range' (b.last + 1) (n - (b.last + 1))).filterMap
        (fun i => ms[i]?.bind Mark.stroke?) = [] := by
      refine List.filterMap_eq_nil_iff.2 fun i hi => ?_
      obtain ⟨hbi, hin⟩ := List.mem_range'_1.1 hi
      exact Option.eq_none_iff_forall_ne_some.2 fun s hs =>
        hlatest i (by omega) (by omega) ⟨s, bind_stroke?_eq_some_iff.1 hs⟩
    rw [strokesOf, hplaces, List.filterMap_append, List.filterMap_append, hnone]
    simp [strokesOf, hn, Mark.stroke?]

/-- The words of the blocks that are found from a place on are those that are typed from there
    on, where the strokes of the open block are typed already. -/
theorem typedWordsFrom_eq
    (hwhite : ∀ (i : Nat) (s : Stroke), ms[i]? = some (.stroke s) → Text.isWhite s.char = false)
    (h : IsOpen ms n latest) (hrest : ms.drop n = marksFrom active es) :
    typedWordsFrom active (OpenWord.ofStrokes? ((latest.map (strokesOf ms)).getD [])) es =
      (blocksFrom n latest (marksFrom active es)).filterMap fun b =>
        TypedWord.ofStrokes? (strokesOf ms b) := by
  have hclose : ∀ latest : Option Block,
      ((OpenWord.ofStrokes? ((latest.map (strokesOf ms)).getD [])).bind OpenWord.close?).toList =
        latest.toList.filterMap fun b => TypedWord.ofStrokes? (strokesOf ms b) := by
    intro latest
    cases latest with
    | none => rfl
    | some b =>
      rw [Option.map_some, Option.getD_some, OpenWord.close?_ofStrokes? fun s hs => by
        obtain ⟨i, hi⟩ := exists_of_mem_strokesOf hs
        exact hwhite i s hi]
      cases hword : TypedWord.ofStrokes? (strokesOf ms b) <;> simp [hword]
  induction es generalizing active n latest with
  | nil => exact hclose latest
  | cons e es ih =>
    obtain ⟨hn, hlater⟩ := getElem?_of_drop hrest
    rw [typedWordsFrom_cons, marksFrom]
    cases hmark : e.mark active with
    | stroke s =>
      rw [hmark] at hn
      have hstrokes : strokesOf ms ⟨(latest.map (·.first)).getD n, n⟩ =
          (latest.map (strokesOf ms)).getD [] ++ [s] := by
        cases latest with
        | none => exact strokesOf_single hn
        | some b => exact strokesOf_concat h hn
      have hwords := ih (h.stroke hn) hlater
      rw [Option.map_some, Option.getD_some, hstrokes, OpenWord.ofStrokes?_concat] at hwords
      exact hwords
    | idle =>
      rw [hmark] at hn
      exact ih (h.idle hn) hlater
    | stop =>
      rw [hmark] at hn
      have hwords := ih (.stop hn) hlater
      dsimp only
      rw [blocksFrom, List.filterMap_append, hclose, ← hwords]
      rfl

end

/-- **The words that are typed are those of the blocks**, in their order. -/
theorem typedWords_eq (es : List Event) : typedWords es =
    (blocks (marks es)).filterMap fun b => TypedWord.ofStrokes? (strokesOf (marks es) b) := by
  rw [marks_eq, typedWords, blocks]
  exact typedWordsFrom_eq (fun i s => isWhite_of_mem_marksFrom) .zero List.drop_zero

/-- A word of strokes has no white space and no backspace. -/
theorem isPlain_of_mem_typedWords {w : TypedWord} (h : w ∈ typedWords es) :
    ∀ c ∈ w.text.toList, Text.isWhite c = false ∧ c ≠ backspace := by
  rw [typedWords_eq, marks_eq] at h
  obtain ⟨b, -, hword⟩ := List.mem_filterMap.1 h
  intro c hc
  rw [TypedWord.text_of_ofStrokes? hword, String.toList_ofList] at hc
  obtain ⟨hne, s, hs, rfl⟩ := exists_of_mem_typedText hc
  obtain ⟨i, hi⟩ := exists_of_mem_strokesOf hs
  exact ⟨isWhite_of_mem_marksFrom hi, hne⟩

/-! ## Cutting and thinning the events -/

/-- **A key that forms no words cuts the events in two.** -/
theorem typedWords_append {code : Nat} (hcode : isWordKey code = false) (t : Moment)
    (a b : List Event) :
    typedWords (a ++ ⟨t, .keyDown code⟩ :: b) = typedWords a ++ typedWords b := by
  have hcut : ∀ active w, typedWordsFrom active w (a ++ ⟨t, .keyDown code⟩ :: b) =
      typedWordsFrom active w a ++ typedWords b := by
    induction a with
    | nil =>
      intro active w
      have hmark : Event.mark active ⟨t, .keyDown code⟩ = .stop := by
        simp [Event.mark, EventKind.isMouse, hcode]
      have hactive : activeAfter active [⟨t, .keyDown code⟩] = false := by
        simp [activeAfter_singleton, Event.key?, hcode]
      rw [List.nil_append, typedWordsFrom_cons, hmark, hactive]
      rfl
    | cons e a ih =>
      intro active w
      rw [List.cons_append, typedWordsFrom_cons, typedWordsFrom_cons]
      cases e.mark active with
      | stroke s => exact ih ..
      | idle => exact ih ..
      | stop =>
        dsimp only
        rw [ih, List.append_assoc]
  exact hcut false none

/-- A key was released, or a character was typed that belongs to no word. -/
def Event.IsSpare (active : Bool) (e : Event) : Prop :=
  (∃ code, e.kind = .keyUp code) ∨ (∃ c, e.kind = .typed c) ∧ active = false

theorem Event.IsSpare.mark_eq (h : e.IsSpare active) :
    e.mark active = .idle ∧ activeAfter active [e] = active := by
  obtain ⟨t, k⟩ := e
  rw [activeAfter_singleton]
  rcases h with ⟨code, rfl⟩ | ⟨⟨c, rfl⟩, rfl⟩
  · exact ⟨rfl, rfl⟩
  · exact ⟨rfl, rfl⟩

/-- The events at the places that are kept, where the first one has the given place. -/
def thinnedFrom (keep : Nat → Bool) (place : Nat) (es : List Event) : List Event :=
  ((es.zipIdx place).filter fun p => keep p.2).map (·.1)

/-- The events at the places that are kept. -/
def thinned (keep : Nat → Bool) (es : List Event) : List Event := thinnedFrom keep 0 es

theorem typedWordsFrom_thinned {keep : Nat → Bool} {place : Nat}
    (h : ∀ i e, es[i]? = some e → keep (place + i) = false →
      e.IsSpare (activeAfter active (es.take i))) :
    typedWordsFrom active w (thinnedFrom keep place es) = typedWordsFrom active w es := by
  induction es generalizing active w place with
  | nil => rfl
  | cons e es ih =>
    have hlater : ∀ i d, es[i]? = some d → keep (place + 1 + i) = false →
        d.IsSpare (activeAfter (activeAfter active [e]) (es.take i)) := by
      intro i d hd hkeep
      have hspare := h (i + 1) d hd (by rwa [Nat.add_right_comm, Nat.add_assoc] at hkeep)
      rwa [List.take_succ_cons, activeAfter_cons active e (es.take i)] at hspare
    have hrest : thinnedFrom keep place (e :: es) =
        if keep place then e :: thinnedFrom keep (place + 1) es
        else thinnedFrom keep (place + 1) es := by
      rw [thinnedFrom, List.zipIdx_cons, List.filter_cons]
      split <;> rfl
    rw [hrest, typedWordsFrom_cons]
    split
    · rw [typedWordsFrom_cons]
      cases e.mark active with
      | stroke s => exact ih hlater
      | idle => exact ih hlater
      | stop => exact congrArg (_ ++ ·) (ih hlater)
    · next hkeep =>
      have hspare : e.IsSpare active := h 0 e rfl (by simpa using hkeep)
      obtain ⟨hmark, hactive⟩ := hspare.mark_eq
      rw [hmark]
      rw [hactive] at hlater ⊢
      exact ih hlater

/-- **The words that are typed.** They are spelled by the blocks of the events, which are taken
    in their order. So releases, and characters that are typed when no key for words was pressed
    last, never matter; no word has white space or a backspace; and a key that forms no words
    cuts the events in two. -/
theorem typedWords_blocks (es : List Event) :
    (∃ bs : List Block, bs.Pairwise (fun a b => a.last < b.first) ∧
        (∀ b, b ∈ bs ↔ IsBlock (marks es) b) ∧
        typedWords es = bs.filterMap fun b => TypedWord.ofStrokes? (strokesOf (marks es) b)) ∧
      (∀ keep : Nat → Bool,
        (∀ i e, es[i]? = some e → keep i = false →
          e.IsSpare (activeAfter false (es.take i))) →
          typedWords (thinned keep es) = typedWords es) ∧
      (∀ w ∈ typedWords es, ∀ c ∈ w.text.toList, Text.isWhite c = false ∧ c ≠ backspace) ∧
      ∀ (t : Moment) (code : Nat) (later : List Event), isWordKey code = false →
        typedWords (es ++ ⟨t, .keyDown code⟩ :: later) = typedWords es ++ typedWords later := by
  refine ⟨⟨blocks (marks es), pairwise_blocks _, fun b => mem_blocks_iff, typedWords_eq es⟩,
    fun keep h => typedWordsFrom_thinned fun i e he hkeep => ?_,
    fun w => isPlain_of_mem_typedWords, fun t code later hcode => typedWords_append hcode t es later⟩
  rw [Nat.zero_add] at hkeep
  exact h i e he hkeep

/-- The start of a day, and a number of seconds later. -/
def atSecond (seconds : Nat) : Moment := ⟨⟨2020, 1, 1⟩, seconds * 1000000⟩

/-- An `h` that is taken back, and an `o` in its place. -/
def retyped : List Event :=
  [⟨atSecond 0, .typed 'x'⟩, ⟨atSecond 1, .keyDown 0x23⟩, ⟨atSecond 2, .typed 'h'⟩,
    ⟨atSecond 3, .keyUp 0x23⟩, ⟨atSecond 4, .keyDown 0x0E⟩, ⟨atSecond 5, .typed backspace⟩,
    ⟨atSecond 6, .keyDown 0x18⟩, ⟨atSecond 7, .typed 'o'⟩]

/-- The word lasts from the `h` to the `o`. -/
theorem typedWords_blocks_of_retyped :
    typedWords (thinned (fun i => i != 0 && i != 3) retyped) =
        [⟨"o", atSecond 2, atSecond 7⟩] ∧
      typedWords (retyped ++ ⟨atSecond 8, .keyDown 0x1C⟩ :: retyped) =
        [⟨"o", atSecond 2, atSecond 7⟩, ⟨"o", atSecond 2, atSecond 7⟩] := by
  obtain ⟨-, hthinned, -, happend⟩ := typedWords_blocks retyped
  have hwords : typedWords retyped = [⟨"o", atSecond 2, atSecond 7⟩] := by decide +kernel
  constructor
  · rw [hthinned, hwords]
    intro i e he hkeep
    have hplace : i = 0 ∨ i = 3 := by
      by_cases h : i = 0 <;> simp_all
    rcases hplace with rfl | rfl
    · cases he
      exact .inr ⟨⟨_, rfl⟩, rfl⟩
    · cases he
      exact .inl ⟨_, rfl⟩
  · rw [happend _ _ _ (by decide), hwords]
    rfl

end Screenmark
