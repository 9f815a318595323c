/-
  Screenmark — where the tokens of a text stand.

  Cutting a text into tokens is a loop, and `Scans` is this loop without a bound on its turns.
  Where the empty symbol is the longest one of the table it would go on for ever
  (`not_scans_of_longestMatch_nil`). If all symbols have characters, every turn takes some of
  them off, so the loop ends, and with what `tokens` gives (`exists_scans`, `Scans.unique`). Then
  the text is made of its tokens (`Scans.cuts`).

  Nothing is lost on the way (`Tells`). Each token has its place between two characters of the
  source, where it is written by the longest text of its kind (`Piece.IsOf`); the places do not
  overlap, and all that shows between them belongs to one of them (`Covers`). Cutting stops early
  only behind such places, where no token starts or a number is none.
-/
import Screenmark.Proofs.Formula.Longest

namespace Screenmark

namespace Formula

open Text

/-- What cutting comes to: tokens with their places, or what is wrong, and where. -/
abbrev Answer := Except (Nat × SyntaxCause) (List Lexeme)

variable {table : Table} {source : String} {start position turns : Nat} {c : Char}
  {a cs rest rest' text : List Char} {t : Token} {cause : SyntaxCause} {answer : Answer}

/-! ## The loop -/

/-- From a place on cutting ends after so many turns, with this answer. -/
inductive Scans (table : Table) : Nat → Nat → List Char → Answer → Prop
  | nil {position : Nat} : Scans table 0 position [] (.ok [])
  | white {turns position : Nat} {c : Char} {cs : List Char} {answer : Answer} :
      isWhite c = true → Scans table turns (position + c.utf8Size) cs answer →
      Scans table (turns + 1) position (c :: cs) answer
  | token {turns position : Nat} {c : Char} {cs text : List Char} {t : Token} {answer : Answer} :
      isWhite c = false → token? table c cs = .ok (t, text) →
      Scans table turns (position + bytes text) ((c :: cs).drop text.length) answer →
      Scans table (turns + 1) position (c :: cs) (answer.map ((position, t) :: ·))
  | fault {position : Nat} {c : Char} {cs : List Char} {cause : SyntaxCause} :
      isWhite c = false → token? table c cs = .error cause →
      Scans table 1 position (c :: cs) (.error (position, cause))

/-- **Every text comes to an end**, after no more turns than it has characters. -/
theorem exists_scans (hsymbols : "" ∉ table.symbols) : ∀ (fuel position : Nat) (cs : List Char),
    cs.length ≤ fuel →
      ∃ turns ≤ cs.length, Scans table turns position cs (tokensFrom table fuel position cs) := by
  intro fuel
  induction fuel with
  | zero =>
    intro position cs hlength
    obtain rfl := List.length_eq_zero_iff.1 (Nat.le_zero.1 hlength)
    exact ⟨0, Nat.le_refl _, .nil⟩
  | succ fuel ih =>
    intro position cs hlength
    rcases cs with _ | ⟨c, cs⟩
    · exact ⟨0, Nat.le_refl _, .nil⟩
    rw [List.length_cons] at hlength ⊢
    rw [tokensFrom]
    split
    · next hwhite =>
      obtain ⟨turns, hturns, h⟩ := ih (position + c.utf8Size) cs (by omega)
      exact ⟨turns + 1, by omega, .white hwhite h⟩
    next hwhite =>
    have hshows := Bool.not_eq_true _ ▸ hwhite
    split
    · next cause htoken => exact ⟨1, by omega, .fault hshows htoken⟩
    · next t text htoken =>
      -- The token takes one character at least.
      obtain ⟨s, rfl, hcut⟩ := isCutOff_of_token? htoken
      have hpos := List.length_pos_iff.2 (hcut.fits.ne_nil hsymbols)
      have hrest : ((c :: cs).drop s.toList.length).length ≤ cs.length := by
        rw [List.length_drop, List.length_cons]
        omega
      obtain ⟨turns, hturns, h⟩ :=
        ih (position + bytes s.toList) ((c :: cs).drop s.toList.length) (by omega)
      refine ⟨turns + 1, by omega, ?_⟩
      have hscans := Scans.token hshows htoken h
      rcases hlater : tokensFrom table fuel (position + bytes s.toList)
        ((c :: cs).drop s.toList.length) with f | ls
      · rw [hlater] at hscans
        exact hscans
      · rw [hlater] at hscans
        exact hscans

/-- The loop does not come to two answers. -/
theorem Scans.unique {turns' : Nat} {answer' : Answer} (h : Scans table turns position cs answer)
    (h' : Scans table turns' position cs answer') : turns = turns' ∧ answer = answer' := by
  induction h generalizing turns' answer' with
  | nil =>
    cases h'
    exact ⟨rfl, rfl⟩
  | white hwhite _ ih =>
    cases h' with
    | white _ h' =>
      obtain ⟨rfl, rfl⟩ := ih h'
      exact ⟨rfl, rfl⟩
    | token hshows => exact absurd (hwhite.symm.trans hshows) Bool.noConfusion
    | fault hshows => exact absurd (hwhite.symm.trans hshows) Bool.noConfusion
  | token hshows htoken _ ih =>
    cases h' with
    | white hwhite => exact absurd (hwhite.symm.trans hshows) Bool.noConfusion
    | token _ htoken' h' =>
      cases htoken.symm.trans htoken'
      obtain ⟨rfl, rfl⟩ := ih h'
      exact ⟨rfl, rfl⟩
    | fault _ htoken' => cases htoken.symm.trans htoken'
  | fault hshows htoken =>
    cases h' with
    | white hwhite => exact absurd (hwhite.symm.trans hshows) Bool.noConfusion
    | token _ htoken' => cases htoken.symm.trans htoken'
    | fault _ htoken' =>
      cases htoken.symm.trans htoken'
      exact ⟨rfl, rfl⟩

/-- A text that the loop cuts into tokens is made of them. -/
theorem Scans.cuts (hsymbols : "" ∉ table.symbols) {ls : List Lexeme}
    (h : Scans table turns position cs (.ok ls)) : Cuts table cs (ls.map Prod.snd) := by
  generalize hanswer : (Except.ok ls : Answer) = answer at h
  induction h generalizing ls with
  | nil =>
    cases hanswer
    exact .nil
  | white hwhite _ ih => exact .white hwhite (ih hanswer)
  | @token turns position c cs text t answer hshows htoken _ ih =>
    rcases answer with f | later
    · cases hanswer
    cases hanswer
    obtain ⟨s, rfl, hcut⟩ := isCutOff_of_token? htoken
    obtain ⟨a, rest, hs, rfl⟩ := hcut.exists_eq hsymbols
    rw [hs] at htoken ih
    exact .token hshows htoken (@List.drop_left _ (c :: a) rest ▸ ih rfl)
  | fault => cases hanswer

theorem cuts_of_tokens (hsymbols : "" ∉ table.symbols) {ls : List Lexeme}
    (h : tokens table cs = .ok ls) : Cuts table cs (ls.map Prod.snd) := by
  obtain ⟨turns, -, hscans⟩ := exists_scans hsymbols cs.length 0 cs (Nat.le_refl _)
  exact Scans.cuts hsymbols (h ▸ hscans : Scans table turns 0 cs (.ok ls))

/-- Where the longest symbol is the empty one, the loop stays for ever. -/
theorem not_scans_of_longestMatch_nil (hstart : isSymbolStart c = true)
    (hmatch : table.longestMatch (c :: cs) = some []) :
    ¬ Scans table turns position (c :: cs) answer := by
  obtain ⟨hwhite, htoken⟩ := token?_symbol hstart hmatch
  intro h
  induction turns generalizing position answer with
  | zero => cases h
  | succ turns ih =>
    cases h with
    | white hwhite' => exact absurd (hwhite'.symm.trans hwhite) Bool.noConfusion
    | token _ htoken' h =>
      cases htoken.symm.trans htoken'
      exact ih h
    | fault _ htoken' => cases htoken.symm.trans htoken'

/-! ## Bytes -/

theorem foldl_utf8Size (n : Nat) (cs : List Char) :
    cs.foldl (fun n c => n + c.utf8Size) n = n + bytes cs := by
  induction cs generalizing n with
  | nil => rfl
  | cons c cs ih =>
    rw [bytes, List.foldl_cons, List.foldl_cons, ih, ih, Nat.zero_add, Nat.add_assoc]

@[simp] theorem bytes_nil : bytes [] = 0 := rfl

@[simp] theorem bytes_cons (c : Char) (cs : List Char) :
    bytes (c :: cs) = c.utf8Size + bytes cs := by
  rw [bytes, List.foldl_cons, foldl_utf8Size, Nat.zero_add]

@[simp] theorem bytes_append (a b : List Char) : bytes (a ++ b) = bytes a + bytes b := by
  rw [bytes, List.foldl_append, foldl_utf8Size, ← bytes]

theorem bytes_pos (h : cs ≠ []) : 0 < bytes cs := by
  obtain ⟨c, cs, rfl⟩ := List.exists_cons_of_ne_nil h
  have hc := c.utf8Size_pos
  rw [bytes_cons]
  omega

theorem bytes_ofList (cs : List Char) : (String.ofList cs).utf8ByteSize = bytes cs := by
  induction cs with
  | nil => rfl
  | cons c cs ih =>
    rw [String.ofList_cons, String.utf8ByteSize_append, String.utf8ByteSize_singleton, ih,
      bytes_cons]

@[simp] theorem bytes_toList (s : String) : bytes s.toList = s.utf8ByteSize := by
  rw [← bytes_ofList, String.ofList_toList]

/-! ## Places in the source -/

/-- The characters of the source from the byte `start` on, if one begins there. -/
def IsRest (source : String) (start : Nat) (rest : List Char) : Prop :=
  ∃ front : String, source.toList = front.toList ++ rest ∧ front.utf8ByteSize = start

theorem isRest_zero (source : String) : IsRest source 0 source.toList := ⟨"", rfl, rfl⟩

namespace IsRest

theorem append (h : IsRest source start (a ++ rest)) : IsRest source (start + bytes a) rest := by
  obtain ⟨front, hsource, rfl⟩ := h
  refine ⟨front ++ String.ofList a, ?_, ?_⟩
  · rw [String.toList_append, String.toList_ofList, List.append_assoc, hsource]
  · rw [String.utf8ByteSize_append, bytes_ofList]

theorem tail (h : IsRest source start (c :: cs)) : IsRest source (start + c.utf8Size) cs := by
  have hone : bytes [c] = c.utf8Size := by rw [bytes_cons, bytes_nil, Nat.add_zero]
  exact hone ▸ append (a := [c]) h

/-- What is left from a later place on is left from an earlier one, too. -/
theorem exists_eq_append (h : IsRest source start rest) (h' : IsRest source position rest')
    (hle : start ≤ position) : ∃ a, rest = a ++ rest' ∧ position = start + bytes a := by
  obtain ⟨front, hsource, rfl⟩ := h
  obtain ⟨front', hsource', rfl⟩ := h'
  rw [hsource, List.append_eq_append_iff] at hsource'
  rw [← bytes_toList, ← bytes_toList] at hle ⊢
  rcases hsource' with ⟨a, hfront', rfl⟩ | ⟨b, hfront, rfl⟩
  · exact ⟨a, rfl, by rw [hfront', bytes_append]⟩
  · rw [hfront, bytes_append] at hle ⊢
    rcases b with _ | ⟨c, b⟩
    · exact ⟨[], rfl, rfl⟩
    · have hpos := bytes_pos (List.cons_ne_nil c b)
      omega

theorem eq_utf8ByteSize (h : IsRest source start []) : start = source.utf8ByteSize := by
  obtain ⟨front, hsource, rfl⟩ := h
  rw [List.append_nil] at hsource
  rw [← bytes_toList, ← hsource, bytes_toList]

/-- A place is between two characters. -/
theorem isValid (h : IsRest source start rest) : (⟨start⟩ : String.Pos.Raw).IsValid source := by
  obtain ⟨front, hsource, rfl⟩ := h
  refine String.Pos.Raw.isValid_iff_exists_append.2 ⟨front, String.ofList rest, ?_, rfl⟩
  rw [← String.toList_inj, String.toList_append, String.toList_ofList, hsource]

end IsRest

/-! ## Tokens in their places -/

/-- A token with the text that writes it, and the byte where this starts. -/
structure Piece where
  start : Nat
  text : String
  token : Token

namespace Piece

/-- The byte behind the text. -/
def stop (p : Piece) : Nat := p.start + p.text.utf8ByteSize

theorem stop_eq (p : Piece) : p.stop = p.start + bytes p.text.toList := by
  rw [stop, bytes_toList]

/-- The token with its place. -/
def lexeme (p : Piece) : Lexeme := (p.start, p.token)

/-- The text stands in the source, between two characters and as the longest one of its kind. -/
structure IsOf (table : Table) (source : String) (p : Piece) : Prop where
  cutOff : ∃ rest, IsRest source p.start rest ∧ IsCutOff table rest p.token p.text
  begins : (⟨p.start⟩ : String.Pos.Raw).IsValid source
  ends : (⟨p.stop⟩ : String.Pos.Raw).IsValid source
  shows : p.start < p.stop

end Piece

/-- The pieces stand one behind the other, and have all characters of the source between the two
    places that are not white. -/
structure Covers (table : Table) (source : String) (start stop : Nat) (ps : List Piece) :
    Prop where
  le : start ≤ stop
  pieces : ∀ p ∈ ps, p.IsOf table source
  within : ∀ p ∈ ps, start ≤ p.start ∧ p.stop ≤ stop
  apart : ps.Pairwise (·.stop ≤ ·.start)
  covered : ∀ place c cs, IsRest source place (c :: cs) → start ≤ place → place < stop →
    isWhite c = false → ∃ p ∈ ps, p.start ≤ place ∧ place + c.utf8Size ≤ p.stop

variable {stop : Nat} {p : Piece} {ps : List Piece}

theorem covers_nil (table : Table) (source : String) (start : Nat) :
    Covers table source start start [] where
  le := Nat.le_refl _
  pieces _ hp := absurd hp List.not_mem_nil
  within _ hp := absurd hp List.not_mem_nil
  apart := .nil
  covered _ _ _ _ hge hlt _ := absurd hlt (Nat.not_lt.2 hge)

/-- White space in front need not be covered. -/
theorem Covers.white (hrest : IsRest source start (c :: cs)) (hwhite : isWhite c = true)
    (h : Covers table source (start + c.utf8Size) stop ps) : Covers table source start stop ps where
  le := Nat.le_trans (Nat.le_add_right _ _) h.le
  pieces := h.pieces
  within p hp := ⟨Nat.le_trans (Nat.le_add_right _ _) (h.within p hp).1, (h.within p hp).2⟩
  apart := h.apart
  covered place d ds hplace hge hlt hshows := by
    obtain ⟨a, ha, rfl⟩ := hrest.exists_eq_append hplace hge
    rcases a with _ | ⟨e, a⟩
    · cases ha
      rw [hwhite] at hshows
      cases hshows
    · cases ha
      refine h.covered _ d ds hplace ?_ hlt hshows
      rw [bytes_cons]
      omega

/-- A piece in front covers its own characters. -/
theorem Covers.cons (hrest : IsRest source p.start (p.text.toList ++ rest))
    (hp : p.IsOf table source) (h : Covers table source p.stop stop ps) :
    Covers table source p.start stop (p :: ps) where
  le := Nat.le_trans (Nat.le_of_lt hp.shows) h.le
  pieces := List.forall_mem_cons.2 ⟨hp, h.pieces⟩
  within := List.forall_mem_cons.2 ⟨⟨Nat.le_refl _, h.le⟩, fun q hq =>
    ⟨Nat.le_trans (Nat.le_of_lt hp.shows) (h.within q hq).1, (h.within q hq).2⟩⟩
  apart := .cons (fun q hq => (h.within q hq).1) h.apart
  covered place c cs hplace hge hlt hshows := by
    rcases Nat.lt_or_ge place p.stop with hinside | hbehind
    · obtain ⟨a, ha, rfl⟩ := hrest.exists_eq_append hplace hge
      refine ⟨p, List.mem_cons_self, hge, ?_⟩
      rw [p.stop_eq] at hinside ⊢
      rcases List.append_eq_append_iff.1 ha with ⟨b, rfl, -⟩ | ⟨b, htext, hb⟩
      · rw [bytes_append] at hinside
        omega
      · rw [htext, bytes_append] at hinside ⊢
        rcases b with _ | ⟨d, b⟩
        · rw [bytes_nil] at hinside
          omega
        · cases hb
          rw [bytes_cons]
          omega
    · obtain ⟨q, hq, hcovers⟩ := h.covered place c cs hplace hbehind hlt hshows
      exact ⟨q, List.mem_cons_of_mem p hq, hcovers⟩

/-! ## What cutting comes to -/

/-- What an answer of cutting tells of the source from a place on: its tokens, or its tokens up to
    a place where something is wrong. -/
def Tells (table : Table) (source : String) (start : Nat) : Answer → Prop
  | .ok ls =>
    ∃ ps, ps.map Piece.lexeme = ls ∧ Covers table source start source.utf8ByteSize ps
  | .error (position, cause) =>
    (∃ ps, Covers table source start position ps) ∧
      ∃ rest, IsRest source position rest ∧ IsFault table rest cause

theorem Tells.white (hrest : IsRest source start (c :: cs)) (hwhite : isWhite c = true)
    (h : Tells table source (start + c.utf8Size) answer) : Tells table source start answer := by
  rcases answer with ⟨position, cause⟩ | ls
  · obtain ⟨⟨ps, hcovers⟩, hfault⟩ := h
    exact ⟨⟨ps, hcovers.white hrest hwhite⟩, hfault⟩
  · obtain ⟨ps, hps, hcovers⟩ := h
    exact ⟨ps, hps, hcovers.white hrest hwhite⟩

theorem Tells.cons (hrest : IsRest source p.start (p.text.toList ++ rest))
    (hp : p.IsOf table source) (h : Tells table source p.stop answer) :
    Tells table source p.start (answer.map (p.lexeme :: ·)) := by
  rcases answer with ⟨position, cause⟩ | ls
  · obtain ⟨⟨ps, hcovers⟩, hfault⟩ := h
    exact ⟨⟨p :: ps, hcovers.cons hrest hp⟩, hfault⟩
  · obtain ⟨ps, rfl, hcovers⟩ := h
    exact ⟨p :: ps, rfl, hcovers.cons hrest hp⟩

/-- A token that is cut off stands in its place. -/
theorem IsCutOff.isOf (h : IsCutOff table (p.text.toList ++ rest) p.token p.text)
    (hsymbols : "" ∉ table.symbols) (hrest : IsRest source p.start (p.text.toList ++ rest)) :
    p.IsOf table source where
  cutOff := ⟨_, hrest, h⟩
  begins := hrest.isValid
  ends := p.stop_eq ▸ hrest.append.isValid
  shows := by
    have hpos := bytes_pos (h.fits.ne_nil hsymbols)
    rw [p.stop_eq]
    omega

/-- **The loop loses nothing.** -/
theorem Scans.tells (hsymbols : "" ∉ table.symbols) (h : Scans table turns position cs answer)
    (hrest : IsRest source position cs) : Tells table source position answer := by
  induction h with
  | nil => exact ⟨[], rfl, hrest.eq_utf8ByteSize ▸ covers_nil table source _⟩
  | white hwhite _ ih => exact (ih hrest.tail).white hrest hwhite
  | @token turns position c cs text t answer hshows htoken _ ih =>
    obtain ⟨s, rfl, hcut⟩ := isCutOff_of_token? htoken
    obtain ⟨rest, hsplit⟩ := hcut.starts
    rw [← hsplit] at hcut hrest ih
    rw [List.drop_left] at ih
    have hpiece := @IsCutOff.isOf table source rest ⟨position, s, t⟩ hcut hsymbols hrest
    have hlater := ih hrest.append
    rw [bytes_toList] at hlater
    exact @Tells.cons table source rest answer ⟨position, s, t⟩ hrest hpiece hlater
  | @fault position c cs cause hshows htoken =>
    exact ⟨⟨[], covers_nil table source position⟩, c :: cs, hrest,
      isFault_of_token? hshows htoken⟩

/-- **Cutting a text into tokens ends, and loses nothing.** The loop comes to one answer, which is
    that of `tokens`, in no more turns than the source has characters. The tokens stand in their
    places between the characters of the source, each as the longest text of its kind there, one
    behind the other and with all that shows; where there is no token or a number is none, the
    answer is this place. -/
theorem scans_and_tells (hsymbols : "" ∉ table.symbols) (source : String) :
    (∃ turns ≤ source.length,
        Scans table turns 0 source.toList (tokens table source.toList)) ∧
      (∀ turns answer, Scans table turns 0 source.toList answer →
        answer = tokens table source.toList) ∧
      Tells table source 0 (tokens table source.toList) := by
  obtain ⟨turns, hturns, h⟩ := exists_scans hsymbols source.toList.length 0 source.toList
    (Nat.le_refl _)
  exact ⟨⟨turns, String.length_toList ▸ hturns, h⟩, fun _ _ h' => (h'.unique h).2,
    h.tells hsymbols (isRest_zero source)⟩

/-- The operators of rules and an arrow, of three bytes. -/
def arrows : Table := Table.standard.withInfix ⟨"→", ⟨15, by decide⟩, .right, implication⟩

/-- Symbols next to each other, behind white space of three bytes; and a number with two points. -/
theorem scans_and_tells_of_arrows : "" ∉ arrows.symbols ∧
    Tells arrows "a\u3000&&→!=b" 0
      (.ok [(0, .ident "a"), (4, .op "&&"), (6, .op "→"), (9, .op "!="), (11, .ident "b")]) ∧
    Tells arrows "a→ 1.2.3" 0 (.error (5, .invalidNumber "1.2.3")) := by
  have hsymbols : "" ∉ arrows.symbols := by decide
  have hsplit : tokens arrows "a\u3000&&→!=b".toList =
      .ok [(0, .ident "a"), (4, .op "&&"), (6, .op "→"), (9, .op "!="), (11, .ident "b")] := rfl
  have hnumber : tokens arrows "a→ 1.2.3".toList = .error (5, .invalidNumber "1.2.3") := rfl
  exact ⟨hsymbols, hsplit ▸ (scans_and_tells hsymbols "a\u3000&&→!=b").2.2,
    hnumber ▸ (scans_and_tells hsymbols "a→ 1.2.3").2.2⟩

end Formula

end Screenmark
