/-
  Screenmark — blocks of keystrokes.

  For the words that are typed, an event is a *stroke* (a character that belongs to a word), a
  *stop* (which ends a word), or neither. Which of them it is hangs on the key that was pressed
  last (`marks`). A block is one of the longest pieces of the events that begin and end with a
  stroke and have no stop in between (`IsBlock`).

  * `IsBlock.eq` : blocks without a stop between them are one;
  * `mem_blocks_iff` : going through the events once, from the first one to the last one, finds
    just the blocks, and `pairwise_blocks` : in their order.
-/
import Screenmark.Events.Typing

namespace Screenmark

/-! ## Marks -/

/-- A character of a word, and when it was typed. -/
structure Stroke where
  char : Char
  time : Moment
deriving DecidableEq

/-- What an event is for the words that are typed. -/
inductive Mark where
  | stroke (s : Stroke)
  | stop
  | idle
deriving DecidableEq

/-- The stroke of a mark. -/
def Mark.stroke? : Mark → Option Stroke
  | .stroke s => some s
  | _ => none

/-- The key that an event presses. -/
def Event.key? (e : Event) : Option Nat :=
  match e.kind with
  | .keyDown code => some code
  | _ => none

/-- The key that was pressed last. -/
def lastKey? (es : List Event) : Option Nat := es.reverse.findSome? Event.key?

/-- Whether the key that was pressed last forms words; if none was pressed, it is as before. -/
def activeAfter (active : Bool) (es : List Event) : Bool :=
  ((lastKey? es).map isWordKey).getD active

/-- What an event is, where `active` says whether the key that was pressed last forms words. -/
def Event.mark (active : Bool) (e : Event) : Mark :=
  if e.kind.isMouse then .stop
  else match e.kind with
    | .typed c => if !active then .idle else if Text.isWhite c then .stop else .stroke ⟨c, e.time⟩
    | .keyDown code => if isWordKey code then .idle else .stop
    | _ => .idle

/-- What the events are for the words that are typed. -/
def marks (es : List Event) : List Mark :=
  es.mapIdx fun i e => e.mark (activeAfter false (es.take i))

/-! ## Blocks -/

/-- A piece of the events, by the places of its first and its last one. -/
structure Block where
  first : Nat
  last : Nat
deriving DecidableEq

/-- There is a stroke at the place. -/
def HasStroke (ms : List Mark) (i : Nat) : Prop := ∃ s, ms[i]? = some (.stroke s)

/-- There is a stop from the one place on and before the other. -/
def Separated (ms : List Mark) (i j : Nat) : Prop := ∃ k, i ≤ k ∧ k < j ∧ ms[k]? = some .stop

/-- A longest piece that begins and ends with a stroke and has no stop. -/
structure IsBlock (ms : List Mark) (b : Block) : Prop where
  first : HasStroke ms b.first
  last : HasStroke ms b.last
  le : b.first ≤ b.last
  whole : ¬ Separated ms b.first b.last
  left : ∀ i < b.first, HasStroke ms i → Separated ms i b.first
  right : ∀ i, b.last < i → HasStroke ms i → Separated ms b.last i

/-- The strokes of a piece. -/
def strokesOf (ms : List Mark) (b : Block) : List Stroke :=
  (List.range' b.first (b.last + 1 - b.first)).filterMap fun i => ms[i]?.bind Mark.stroke?

/-- The blocks of marks that begin at a place, where the block that is open there ends with the
    latest stroke so far. -/
def blocksFrom (place : Nat) (latest : Option Block) : List Mark → List Block
  | [] => latest.toList
  | .stroke _ :: ms =>
    blocksFrom (place + 1) (some ⟨(latest.map (·.first)).getD place, place⟩) ms
  | .stop :: ms => latest.toList ++ blocksFrom (place + 1) none ms
  | .idle :: ms => blocksFrom (place + 1) latest ms

/-- The blocks of marks. -/
def blocks (ms : List Mark) : List Block := blocksFrom 0 none ms

variable {ms rest : List Mark} {m : Mark} {s : Stroke} {i j n : Nat} {b c : Block}
  {latest : Option Block}

/-! ## Stops between places -/

theorem Separated.mono {i' j' : Nat} (h : Separated ms i j) (hi : i' ≤ i) (hj : j ≤ j') :
    Separated ms i' j' := by
  obtain ⟨k, hik, hkj, hstop⟩ := h
  exact ⟨k, Nat.le_trans hi hik, Nat.lt_of_lt_of_le hkj hj, hstop⟩

theorem not_separated_of_le (h : j ≤ i) : ¬ Separated ms i j := by
  rintro ⟨k, hik, hkj, -⟩
  omega

theorem Separated.of_stop (hi : i ≤ n) (h : ms[n]? = some .stop) : Separated ms i (n + 1) :=
  ⟨n, hi, Nat.lt_succ_self n, h⟩

/-- A place that is no stop separates nothing. -/
theorem separated_succ_iff (h : ms[n]? ≠ some .stop) :
    Separated ms i (n + 1) ↔ Separated ms i n := by
  refine ⟨?_, fun hsep => hsep.mono (Nat.le_refl i) (Nat.le_succ n)⟩
  rintro ⟨k, hik, hkn, hstop⟩
  refine ⟨k, hik, ?_, hstop⟩
  have hne : k ≠ n := by
    rintro rfl
    exact h hstop
  omega

theorem HasStroke.lt_length (h : HasStroke ms i) : i < ms.length := by
  obtain ⟨s, hs⟩ := h
  exact (List.getElem?_eq_some_iff.1 hs).1

theorem HasStroke.ne_of_getElem? (h : HasStroke ms i) (hn : ms[n]? = some m)
    (hm : m.stroke? = none) : i ≠ n := by
  rintro rfl
  obtain ⟨s, hs⟩ := h
  obtain rfl := Option.some.inj (hs.symm.trans hn)
  cases hm

/-- **Blocks without a stop between them are one.** -/
theorem IsBlock.eq (hb : IsBlock ms b) (hc : IsBlock ms c) (hbc : ¬ Separated ms b.first c.first)
    (hcb : ¬ Separated ms c.first b.first) : b = c := by
  have hfirst : b.first = c.first := by
    rcases Nat.lt_trichotomy b.first c.first with hlt | heq | hgt
    · exact absurd (hc.left _ hlt hb.first) hbc
    · exact heq
    · exact absurd (hb.left _ hgt hc.first) hcb
  have hlast : b.last = c.last := by
    rcases Nat.lt_trichotomy b.last c.last with hlt | heq | hgt
    · exact absurd ((hb.right _ hlt hc.last).mono (hfirst ▸ hb.le) (Nat.le_refl _)) hc.whole
    · exact heq
    · exact absurd ((hc.right _ hgt hb.last).mono (hfirst ▸ hc.le) (Nat.le_refl _)) hb.whole
  cases b
  cases c
  simp_all

/-! ## The open block -/

/-- What is open in front of a place: the block of the latest stroke, if no stop follows that
    stroke. -/
inductive IsOpen (ms : List Mark) (n : Nat) : Option Block → Prop
  | nothing (closed : ∀ i < n, HasStroke ms i → Separated ms i n) : IsOpen ms n none
  | block {b : Block} (first : HasStroke ms b.first) (last : HasStroke ms b.last)
      (le : b.first ≤ b.last) (lt : b.last < n) (whole : ¬ Separated ms b.first n)
      (latest : ∀ i, b.last < i → i < n → ¬ HasStroke ms i)
      (left : ∀ i < b.first, HasStroke ms i → Separated ms i b.first) : IsOpen ms n (some b)

namespace IsOpen

theorem zero : IsOpen ms 0 none := .nothing fun i hi => absurd hi (Nat.not_lt_zero i)

/-- After a stop no block is open. -/
theorem stop (hn : ms[n]? = some .stop) : IsOpen ms (n + 1) none :=
  .nothing fun _ hi _ => .of_stop (Nat.le_of_lt_succ hi) hn

theorem idle (h : IsOpen ms n latest) (hn : ms[n]? = some .idle) : IsOpen ms (n + 1) latest := by
  have hne : ms[n]? ≠ some .stop := by simp [hn]
  cases h with
  | nothing hclosed =>
    refine .nothing fun i hi hstroke => (separated_succ_iff hne).2 (hclosed i ?_ hstroke)
    have := hstroke.ne_of_getElem? hn rfl
    omega
  | block hfirst hlast hle hlt hwhole hlatest hleft =>
    refine .block hfirst hlast hle (Nat.lt_succ_of_lt hlt)
      (fun hsep => hwhole ((separated_succ_iff hne).1 hsep)) (fun i hi hin hstroke => ?_) hleft
    have := hstroke.ne_of_getElem? hn rfl
    exact hlatest i hi (by omega) hstroke

/-- A stroke goes on with the block that is open, or opens one. -/
theorem stroke (h : IsOpen ms n latest) (hn : ms[n]? = some (.stroke s)) :
    IsOpen ms (n + 1) (some ⟨(latest.map (·.first)).getD n, n⟩) := by
  have hne : ms[n]? ≠ some .stop := by simp [hn]
  cases h with
  | nothing hclosed =>
    exact .block ⟨s, hn⟩ ⟨s, hn⟩ (Nat.le_refl n) (Nat.lt_succ_self n)
      (fun hsep => not_separated_of_le (Nat.le_refl n) ((separated_succ_iff hne).1 hsep))
      (fun i hi hin => absurd hin (Nat.not_lt.2 hi)) hclosed
  | block hfirst hlast hle hlt hwhole hlatest hleft =>
    exact .block hfirst ⟨s, hn⟩ (Nat.le_trans hle (Nat.le_of_lt hlt)) (Nat.lt_succ_self n)
      (fun hsep => hwhole ((separated_succ_iff hne).1 hsep)) (fun i hi hin => absurd hin (Nat.not_lt.2 hi))
      hleft

/-- If no stroke follows before a stop does, then the block that is open is complete, and it is
    the only one in front of the place behind which there is no stop. -/
theorem mem_iff (h : IsOpen ms n latest)
    (hclose : ∀ i, n ≤ i → HasStroke ms i → Separated ms n i) :
    b ∈ latest.toList ↔ IsBlock ms b ∧ b.last < n ∧ ¬ Separated ms b.last n := by
  cases h with
  | nothing hclosed =>
    refine iff_of_false (by simp) ?_
    rintro ⟨hb, hlt, hnot⟩
    exact hnot (hclosed b.last hlt hb.last)
  | @block c hfirst hlast hle hlt hwhole hlatest hleft =>
    have hc : IsBlock ms c := by
      refine ⟨hfirst, hlast, hle, fun hsep => hwhole (hsep.mono (Nat.le_refl _) (Nat.le_of_lt hlt)),
        hleft, fun i hi hstroke => ?_⟩
      rcases Nat.lt_or_ge i n with hin | hin
      · exact absurd hstroke (hlatest i hi hin)
      · exact (hclose i hin hstroke).mono (Nat.le_of_lt hlt) (Nat.le_refl i)
    have hnot : ¬ Separated ms c.last n := fun hsep => hwhole (hsep.mono hle (Nat.le_refl n))
    rw [Option.toList_some, List.mem_singleton]
    constructor
    · rintro rfl
      exact ⟨hc, hlt, hnot⟩
    · rintro ⟨hb, hblt, hbnot⟩
      refine hb.eq hc ?_ fun hsep =>
        hwhole (hsep.mono (Nat.le_refl _) (Nat.le_trans hb.le (Nat.le_of_lt hblt)))
      rintro ⟨k, hbk, hkc, hstop⟩
      rcases Nat.lt_or_ge k b.last with hk | hk
      · exact hb.whole ⟨k, hbk, hk, hstop⟩
      · exact hbnot ⟨k, hk, by omega, hstop⟩

end IsOpen

/-! ## Going through the marks -/

theorem getElem?_of_drop (h : ms.drop n = m :: rest) :
    ms[n]? = some m ∧ ms.drop (n + 1) = rest := by
  constructor
  · have hhead := congrArg (·[0]?) h
    simpa using hhead
  · have htail := congrArg List.tail h
    simpa using htail

/-- **The blocks that are found are just the longest pieces** that are not closed before the
    place where the search begins. -/
theorem mem_blocksFrom_iff (h : IsOpen ms n latest) (hrest : ms.drop n = rest) :
    b ∈ blocksFrom n latest rest ↔ IsBlock ms b ∧ ¬ Separated ms b.last n := by
  induction rest generalizing n latest with
  | nil =>
    have hend : ∀ i, HasStroke ms i → i < n := fun i hstroke =>
      Nat.lt_of_lt_of_le hstroke.lt_length (List.drop_eq_nil_iff.1 hrest)
    rw [blocksFrom, h.mem_iff fun i hi hstroke => absurd (hend i hstroke) (Nat.not_lt.2 hi)]
    exact ⟨fun ⟨hb, _, hnot⟩ => ⟨hb, hnot⟩, fun ⟨hb, hnot⟩ => ⟨hb, hend _ hb.last, hnot⟩⟩
  | cons m rest ih =>
    obtain ⟨hn, hlater⟩ := getElem?_of_drop hrest
    cases m with
    | stroke s =>
      rw [blocksFrom, ih (h.stroke hn) hlater, separated_succ_iff (by simp [hn])]
    | idle => rw [blocksFrom, ih (h.idle hn) hlater, separated_succ_iff (by simp [hn])]
    | stop =>
      have hclose : ∀ i, n ≤ i → HasStroke ms i → Separated ms n i := fun i hi hstroke => by
        have := hstroke.ne_of_getElem? hn rfl
        exact ⟨n, Nat.le_refl n, by omega, hn⟩
      rw [blocksFrom, List.mem_append, h.mem_iff hclose, ih (.stop hn) hlater]
      constructor
      · rintro (⟨hb, -, hnot⟩ | ⟨hb, hnot⟩)
        · exact ⟨hb, hnot⟩
        · exact ⟨hb, fun hsep => hnot (hsep.mono (Nat.le_refl _) (Nat.le_succ n))⟩
      · rintro ⟨hb, hnot⟩
        have hne := hb.last.ne_of_getElem? hn rfl
        rcases Nat.lt_or_ge b.last n with hlt | hge
        · exact .inl ⟨hb, hlt, hnot⟩
        · exact .inr ⟨hb, not_separated_of_le (by omega)⟩

theorem mem_blocks_iff : b ∈ blocks ms ↔ IsBlock ms b := by
  rw [blocks, mem_blocksFrom_iff .zero List.drop_zero,
    and_iff_left (not_separated_of_le (Nat.zero_le _))]

theorem le_first_of_mem_blocksFrom (hlatest : ∀ c ∈ latest, c.first ≤ n)
    (h : b ∈ blocksFrom n latest rest) : (latest.map (·.first)).getD n ≤ b.first := by
  induction rest generalizing n latest with
  | nil =>
    obtain rfl := Option.mem_toList.1 h
    exact Nat.le_refl _
  | cons m rest ih =>
    have hle : (latest.map (·.first)).getD n ≤ n := by
      cases latest with
      | none => exact Nat.le_refl n
      | some c => exact hlatest c rfl
    cases m with
    | stroke s =>
      have hopen : ∀ c ∈ some (⟨(latest.map (·.first)).getD n, n⟩ : Block), c.first ≤ n + 1 := by
        rintro c ⟨⟩
        exact Nat.le_succ_of_le hle
      have hlater := ih hopen h
      exact hlater
    | idle =>
      have hlater := ih (fun c hc => Nat.le_succ_of_le (hlatest c hc)) h
      cases latest with
      | none => exact Nat.le_of_succ_le hlater
      | some c => exact hlater
    | stop =>
      rcases List.mem_append.1 h with hmem | hmem
      · obtain rfl := Option.mem_toList.1 hmem
        exact Nat.le_refl _
      · have hlater : n + 1 ≤ b.first := ih (fun c hc => by cases hc) hmem
        omega

/-- **Blocks are found in their order**, and they have no place in common. -/
theorem pairwise_blocksFrom (hlatest : ∀ c ∈ latest, c.first ≤ c.last ∧ c.last < n) :
    (blocksFrom n latest rest).Pairwise fun a b => a.last < b.first := by
  induction rest generalizing n latest with
  | nil => cases latest <;> simp [blocksFrom]
  | cons m rest ih =>
    cases m with
    | stroke s =>
      refine ih fun c hc => ?_
      cases hc
      cases latest with
      | none => exact ⟨Nat.le_refl n, Nat.lt_succ_self n⟩
      | some c =>
        obtain ⟨hle, hlt⟩ := hlatest c rfl
        exact ⟨Nat.le_trans hle (Nat.le_of_lt hlt), Nat.lt_succ_self n⟩
    | idle => exact ih fun c hc => ⟨(hlatest c hc).1, Nat.lt_succ_of_lt (hlatest c hc).2⟩
    | stop =>
      rw [blocksFrom, List.pairwise_append]
      refine ⟨?_, ih fun c hc => (by cases hc), fun a ha b hb => ?_⟩
      · cases latest <;> simp
      · have hlater : n + 1 ≤ b.first :=
          le_first_of_mem_blocksFrom (fun c hc => by cases hc) hb
        have hlt := (hlatest a (Option.mem_toList.1 ha)).2
        omega

theorem pairwise_blocks (ms : List Mark) : (blocks ms).Pairwise fun a b => a.last < b.first :=
  pairwise_blocksFrom fun c hc => by cases hc

end Screenmark
