/-
  Screenmark — what is read from an input log.

  A row of an input log names the type of an event, its moment and a mask, then tells
  what happened, and may hold further fields (`Row`). It is cut at its commas, and each
  piece loses the white space at its ends before the equals sign is looked for. A number
  has neither commas nor white space in it and is read as it was written. A typed comma,
  and a typed character of white space, is lost with the piece that it ends, and a row
  without its character tells of no event.

  * `event?_line` : what is read from a row;
  * `parse_rows` : the events of a log are those of its rows, in their order, without the
    typed commas and the typed white space.
-/
import Screenmark.Events.Log
import Screenmark.Proofs.Binary.Text
import Screenmark.Proofs.Text.Fields

namespace Screenmark

/-! ## Rows -/

/-- The number of the type of an event. -/
def EventKind.type : EventKind → Nat
  | .typed _ => 3
  | .keyDown _ => 4
  | .keyUp _ => 5
  | .click _ _ _ => 6
  | .buttonDown _ _ _ => 7
  | .buttonUp _ _ _ => 8
  | .move _ _ => 9
  | .drag _ _ => 10
  | .wheel _ _ => 11

/-- The keys that say what happened. -/
def EventKind.keys : EventKind → List String
  | .typed _ => ["keychar"]
  | .keyDown _ | .keyUp _ => ["keycode"]
  | .click _ _ _ | .buttonDown _ _ _ | .buttonUp _ _ _ => ["x", "y", "button"]
  | .move _ _ | .drag _ _ | .wheel _ _ => ["x", "y"]

/-- A typed comma or typed white space. -/
def EventKind.isLost : EventKind → Bool
  | .typed c => c = ',' || Text.isWhite c
  | _ => false

namespace InputLog

/-- A key and the text behind its equals sign. -/
abbrev Field := String × String

namespace Field

def text (f : Field) : String := f.1 ++ "=" ++ f.2

end Field

/-- The fields that name a button; none of them names button 0. -/
inductive NamesButton : List Field → Nat → Prop
  | absent : NamesButton [] 0
  | present {s n} : Text.readNat? Word.bound16 s.toList = some n → NamesButton [("button", s)] n

/-- The fields that name a place. -/
inductive NamesPlace : List Field → Single → Single → Prop
  | place {s t x y} : Binary.read? s.toList = some x → Binary.read? t.toList = some y →
      NamesPlace [("x", s), ("y", t)] x y

/-- The fields that tell what happened. Any number may be written in any way in which it
    reads back, and any character may have been typed that does not end the line. -/
inductive Tells : EventKind → List Field → Prop
  | typed {c} : c ≠ '\n' → c ≠ '\r' → Tells (.typed c) [("keychar", c.toString)]
  | keyDown {s n} : Text.readNat? Word.bound16 s.toList = some n →
      Tells (.keyDown n) [("keycode", s)]
  | keyUp {s n} : Text.readNat? Word.bound16 s.toList = some n → Tells (.keyUp n) [("keycode", s)]
  | click {fs gs x y n} : NamesPlace fs x y → NamesButton gs n → Tells (.click x y n) (fs ++ gs)
  | buttonDown {fs gs x y n} : NamesPlace fs x y → NamesButton gs n →
      Tells (.buttonDown x y n) (fs ++ gs)
  | buttonUp {fs gs x y n} : NamesPlace fs x y → NamesButton gs n →
      Tells (.buttonUp x y n) (fs ++ gs)
  | move {fs x y} : NamesPlace fs x y → Tells (.move x y) fs
  | drag {fs x y} : NamesPlace fs x y → Tells (.drag x y) fs
  | wheel {fs x y} : NamesPlace fs x y → Tells (.wheel x y) fs

/-- The field `s` does not stand under the key. -/
def IsElsewhere (key s : String) : Prop := ¬ (key ++ "=").toList <+: Text.trimStart s.toList

/-- A row of a log and the event that it is written for, whose time is the one that clocks
    showed. -/
structure Row (z : Zone) where
  event : Event
  /-- The number of its type. -/
  id : String
  /-- The thousandths of a second up to it. -/
  moment : String
  mask : String
  details : List Field
  further : List String
  reads_id : Text.readNat? Word.bound16 id.toList = some event.kind.type
  reads_moment : ∃ n t, Text.readInt? wordMin wordMax moment.toList = some n ∧
    Moment.ofMillis? n = some t ∧ event.time = z.shown t
  /-- No clock shows a time outside of the calendar. -/
  isDated : Date.firstYear ≤ event.time.date.year ∧ event.time.date.year ≤ Date.lastYear
  isField_mask : Text.IsField mask
  tells : Tells event.kind details
  isField_further : ∀ s ∈ further, Text.IsField s
  elsewhere : ∀ s ∈ further, ∀ key ∈ "id" :: "when" :: event.kind.keys, IsElsewhere key s

variable {z : Zone}

namespace Row

/-- The fields before what happened. -/
def heading (r : Row z) : List Field := [("id", r.id), ("when", r.moment), ("mask", r.mask)]

def line (r : Row z) : String :=
  ",".intercalate ((r.heading ++ r.details).map Field.text ++ r.further)

end Row

/-- The text of a log with these rows. -/
def text (rs : List (Row z)) : String := String.join (rs.map (·.line ++ "\n"))

/-! ## Looking up -/

variable {ps qs : List (List Char × List Char)} {key k : String} {v : List Char}

theorem value?_append (ps qs : List (List Char × List Char)) (key : String) :
    value? (ps ++ qs) key = (value? qs key).or (value? ps key) := by
  rw [value?, value?, value?, List.reverse_append, List.find?_append]
  cases List.find? (fun p => decide (p.1 = key.toList)) qs.reverse <;> rfl

@[simp] theorem value?_nil (key : String) : value? [] key = none := rfl

theorem value?_cons_self : value? ((key.toList, v) :: ps) key = (value? ps key).or (some v) := by
  rw [← List.singleton_append, value?_append]
  simp [value?]

theorem value?_cons_of_ne (h : k ≠ key) : value? ((k.toList, v) :: ps) key = value? ps key := by
  have hne : k.toList ≠ key.toList := fun heq => h (String.toList_injective heq)
  rw [← List.singleton_append, value?_append]
  simp [value?, hne]

theorem value?_eq_none (h : ∀ p ∈ ps, p.1 ≠ key.toList) : value? ps key = none := by
  simpa [value?] using h

/-- What happened is read from the pairs under the keys that say it. -/
theorem kind?_congr {e : EventKind} (h : ∀ key ∈ e.keys, value? ps key = value? qs key) :
    kind? ps e.type = kind? qs e.type := by
  cases e <;> simp_all [EventKind.keys, EventKind.type, kind?, word?, position?, number?]

/-! ## The pairs of a row -/

/-- The pairs of a line of fields are those of the fields. -/
theorem pairs_intercalate {fs : List String} (hne : fs ≠ []) :
    pairs (",".intercalate fs) = fs.flatMap pairs := by
  have hcomma : ",".toList = [','] := rfl
  rw [pairs, String.toList_intercalate, hcomma,
    Text.pieces_intercalate_eq_flatMap (by simpa using hne), List.filterMap_flatMap,
    List.flatMap_map]
  rfl

/-- A carriage return at the end of a line changes nothing. -/
theorem pairs_chomp (cs : List Char) :
    pairs (String.ofList (Text.chomp cs)) = pairs (String.ofList cs) := by
  rcases List.eq_nil_or_concat cs with rfl | ⟨ds, d, rfl⟩
  · rfl
  · rw [List.concat_eq_append, Text.chomp_concat]
    split
    · next hd =>
      obtain ⟨init, last, hds, happend⟩ := Text.exists_pieces_append ',' ds
      rw [pairs, pairs, String.toList_ofList, String.toList_ofList, happend [d] (by simp [hd]), hds,
        List.filterMap_append, List.filterMap_append, List.filterMap_cons, List.filterMap_cons,
        pair?, pair?, Text.trim_concat (by rw [hd]; decide)]
    · rfl

/-- A key of letters. -/
def IsKey (k : String) : Prop := Text.IsBare k.toList ∧ '=' ∉ k.toList

instance (k : String) : Decidable (IsKey k) :=
  inferInstanceAs (Decidable (Text.IsBare k.toList ∧ '=' ∉ k.toList))

theorem pair?_text (hk : IsKey k) (v : List Char) :
    pair? (k.toList ++ '=' :: v) = some (k.toList, Text.trimEnd v) := by
  have hstart : Text.trimStart (k.toList ++ '=' :: v) = k.toList ++ '=' :: v := by
    rcases hkey : k.toList with _ | ⟨c, cs⟩
    · exact Text.trimStart_cons (by decide)
    · exact Text.trimStart_cons (hk.1 c (by simp [hkey])).1
  rw [pair?, Text.trim, hstart, Text.trimEnd_append (by decide), Text.splitFirst_append hk.2]

theorem pairs_text (hk : IsKey k) {s : String} (hs : ',' ∉ s.toList) :
    pairs (Field.text (k, s)) = [(k.toList, Text.trimEnd s.toList)] := by
  have htext : (Field.text (k, s)).toList = k.toList ++ '=' :: s.toList := by simp [Field.text]
  have hcomma : ',' ∉ k.toList ++ '=' :: s.toList := by
    simpa [hs] using fun h => (hk.1 _ h).2.1 rfl
  rw [pairs, htext, Text.pieces_of_not_mem hcomma, List.filterMap_cons, pair?_text hk]
  rfl

/-- A number is read as it was written. -/
theorem pairs_bare (hk : IsKey k) {s : String} (hs : Text.IsBare s.toList) :
    pairs (Field.text (k, s)) = [(k.toList, s.toList)] := by
  rw [pairs_text hk fun h => (hs _ h).2.1 rfl, hs.trimEnd_eq]

/-- A character is read unless it is a comma or white. -/
theorem pairs_char (hk : IsKey k) (c : Char) :
    pairs (Field.text (k, c.toString)) =
      [(k.toList, if (EventKind.typed c).isLost then [] else [c])] := by
  by_cases hc : c = ','
  · have htext : (Field.text (k, c.toString)).toList = k.toList ++ '=' :: [] ++ ',' :: [] := by
      simp [Field.text, hc]
    have hcomma : ',' ∉ k.toList ++ '=' :: [] := by
      simpa using fun h => (hk.1 _ h).2.1 rfl
    rw [pairs, htext, Text.pieces_append_sep hcomma, List.filterMap_cons, pair?_text hk]
    simp [EventKind.isLost, hc, Text.pieces, pair?, Text.trim, Text.trimStart, Text.trimEnd,
      Text.splitFirst]
  · rw [pairs_text hk (by simpa using Ne.symm hc)]
    by_cases hwhite : Text.isWhite c = true
    · simp [EventKind.isLost, hwhite, Text.trimEnd]
    · simp [EventKind.isLost, hc, hwhite, Text.trimEnd]

/-! ## What a row tells -/

/-- The pairs of the fields `fs`. -/
def pairsOf (fs : List Field) : List (List Char × List Char) := fs.flatMap (pairs ·.text)

variable {fs gs : List Field}

theorem pairsOf_append (fs gs : List Field) : pairsOf (fs ++ gs) = pairsOf fs ++ pairsOf gs :=
  List.flatMap_append

/-- The button is read, and nothing else is taken for it. -/
theorem word?_of_namesButton {n : Nat} (h : NamesButton gs n) :
    value? (pairsOf gs) "x" = none ∧ value? (pairsOf gs) "y" = none ∧
      (word? (pairsOf gs) "button").getD 0 = n := by
  cases h with
  | absent => exact ⟨rfl, rfl, rfl⟩
  | @present s n hn =>
    have hpairs : pairsOf [("button", s)] = [("button".toList, s.toList)] := by
      simpa [pairsOf] using pairs_bare (k := "button") (by decide) (Text.isBare_of_readNat? hn)
    rw [hpairs, word?, value?_cons_self, value?_cons_of_ne (by decide),
      value?_cons_of_ne (by decide)]
    exact ⟨rfl, rfl, by simp [hn]⟩

/-- The place is read, whatever is named behind it. -/
theorem position?_of_namesPlace {x y : Single} (h : NamesPlace fs x y)
    (hx : value? ps "x" = none) (hy : value? ps "y" = none) :
    position? (pairsOf fs ++ ps) = some (x, y) ∧
      word? (pairsOf fs ++ ps) "button" = word? ps "button" := by
  cases h with
  | @place s t _ _ hs ht =>
    have hpairs : pairsOf [("x", s), ("y", t)] = [("x".toList, s.toList), ("y".toList, t.toList)] := by
      simp only [pairsOf, List.flatMap_cons, List.flatMap_nil]
      rw [pairs_bare (by decide) (Binary.isBare_of_read? hs),
        pairs_bare (by decide) (Binary.isBare_of_read? ht)]
      rfl
    rw [hpairs]
    refine ⟨?_, ?_⟩
    · rw [position?, number?, number?, value?_append, value?_append, hx, hy, value?_cons_self,
        value?_cons_of_ne (by decide), value?_cons_of_ne (by decide), value?_cons_self]
      simp [hs, ht]
    · rw [word?, word?, value?_append, value?_cons_of_ne (by decide), value?_cons_of_ne (by decide)]
      simp

theorem position?_pairsOf {x y : Single} (h : NamesPlace fs x y) :
    position? (pairsOf fs) = some (x, y) := by
  simpa using (position?_of_namesPlace h (value?_nil _) (value?_nil _)).1

theorem press_pairsOf {x y : Single} {n : Nat} (h : NamesPlace fs x y)
    (hbutton : NamesButton gs n) :
    position? (pairsOf (fs ++ gs)) = some (x, y) ∧
      (word? (pairsOf (fs ++ gs)) "button").getD 0 = n := by
  obtain ⟨hx, hy, hn⟩ := word?_of_namesButton hbutton
  obtain ⟨hplace, hword⟩ := position?_of_namesPlace h hx hy
  rw [pairsOf_append, hword]
  exact ⟨hplace, hn⟩

theorem word?_keycode {s : String} {n : Nat} (h : Text.readNat? Word.bound16 s.toList = some n) :
    word? (pairsOf [("keycode", s)]) "keycode" = some n := by
  have hpairs : pairsOf [("keycode", s)] = [("keycode".toList, s.toList)] := by
    simpa [pairsOf] using pairs_bare (k := "keycode") (by decide) (Text.isBare_of_readNat? h)
  rw [word?, hpairs, value?_cons_self]
  simpa using h

/-- **What happened is read from the fields that tell it**, unless it is lost. -/
theorem kind?_of_tells {e : EventKind} (h : Tells e fs) :
    kind? (pairsOf fs) e.type = if e.isLost then none else some e := by
  cases h with
  | @typed c _ _ =>
    have hpairs : pairsOf [("keychar", c.toString)] =
        [("keychar".toList, if (EventKind.typed c).isLost then [] else [c])] := by
      simpa [pairsOf] using pairs_char (k := "keychar") (by decide) c
    rw [EventKind.type, kind?, hpairs, value?_cons_self]
    split <;> rfl
  | keyDown hn => simp [EventKind.type, kind?, word?_keycode hn, EventKind.isLost]
  | keyUp hn => simp [EventKind.type, kind?, word?_keycode hn, EventKind.isLost]
  | click hplace hbutton | buttonDown hplace hbutton | buttonUp hplace hbutton =>
    obtain ⟨hposition, hn⟩ := press_pairsOf hplace hbutton
    simp [EventKind.type, kind?, hposition, hn, EventKind.isLost]
  | move hplace | drag hplace | wheel hplace =>
    simp [EventKind.type, kind?, position?_pairsOf hplace, EventKind.isLost]

/-! ## Rows and logs -/

/-- The fields `fs` stand in one line, and each under one of the keys `ks`. -/
def StandUnder (ks : List String) (fs : List Field) : Prop :=
  ∀ f ∈ fs, f.1 ∈ ks ∧ '\n' ∉ f.text.toList ∧ ∃ v, pairs f.text = [(f.1.toList, v)]

theorem StandUnder.value?_eq_none {ks : List String} (h : StandUnder ks fs) (hkey : key ∉ ks) :
    value? (pairsOf fs) key = none := by
  refine InputLog.value?_eq_none fun p hp => ?_
  obtain ⟨f, hf, hp⟩ := List.mem_flatMap.1 hp
  obtain ⟨hmem, -, v, hv⟩ := h f hf
  rw [hv, List.mem_singleton] at hp
  subst hp
  exact fun heq => hkey (String.toList_injective heq ▸ hmem)

theorem not_mem_text (hk : IsKey k) {s : String} (hs : '\n' ∉ s.toList) :
    '\n' ∉ (Field.text (k, s)).toList := by
  have hkey := hk.1.not_mem_white (c := '\n') (by decide)
  simp [Field.text, hkey, hs]

theorem standUnder_of_isBare {ks : List String} (hk : IsKey k) {s : String}
    (hs : Text.IsBare s.toList) (hmem : k ∈ ks) : StandUnder ks [(k, s)] :=
  List.forall_mem_singleton.2
    ⟨hmem, not_mem_text hk (hs.not_mem_white (by decide)), _, pairs_bare hk hs⟩

theorem StandUnder.append {ks : List String} (h : StandUnder ks fs) (h' : StandUnder ks gs) :
    StandUnder ks (fs ++ gs) := List.forall_mem_append.2 ⟨h, h'⟩

theorem standUnder_of_namesPlace {x y : Single} {ks : List String} (h : NamesPlace fs x y)
    (hx : "x" ∈ ks) (hy : "y" ∈ ks) : StandUnder ks fs := by
  cases h with
  | place hs ht =>
    have hplace := standUnder_of_isBare (k := "x") (by decide) (Binary.isBare_of_read? hs) hx
    exact hplace.append
      (standUnder_of_isBare (k := "y") (by decide) (Binary.isBare_of_read? ht) hy)

theorem standUnder_of_namesButton {n : Nat} {ks : List String} (h : NamesButton gs n)
    (hmem : "button" ∈ ks) : StandUnder ks gs := by
  cases h with
  | absent => exact fun f hf => by cases hf
  | present hn =>
    exact standUnder_of_isBare (k := "button") (by decide) (Text.isBare_of_readNat? hn) hmem

theorem standUnder_of_tells {e : EventKind} (h : Tells e fs) : StandUnder e.keys fs := by
  cases h with
  | @typed c hfeed _ =>
    exact List.forall_mem_singleton.2 ⟨List.mem_cons_self,
      not_mem_text (k := "keychar") (by decide) (by simpa using Ne.symm hfeed), _,
      pairs_char (k := "keychar") (by decide) c⟩
  | keyDown hn | keyUp hn =>
    exact standUnder_of_isBare (k := "keycode") (by decide) (Text.isBare_of_readNat? hn)
      List.mem_cons_self
  | click hp hb | buttonDown hp hb | buttonUp hp hb =>
    exact (standUnder_of_namesPlace hp (by simp [EventKind.keys])
      (by simp [EventKind.keys])).append (standUnder_of_namesButton hb (by simp [EventKind.keys]))
  | move hp | drag hp | wheel hp =>
    exact standUnder_of_namesPlace hp (by simp [EventKind.keys]) (by simp [EventKind.keys])

/-- A field elsewhere gives nothing under the key. -/
theorem value?_of_isElsewhere {s : String} (hs : Text.IsField s) (h : IsElsewhere key s) :
    value? (pairs s) key = none := by
  refine value?_eq_none fun p hp hkey => h ?_
  rw [pairs, Text.pieces_of_not_mem hs.1] at hp
  obtain ⟨cs, hcs, hp⟩ := List.mem_filterMap.1 hp
  rw [List.mem_singleton.1 hcs, pair?] at hp
  obtain ⟨hsplit, -⟩ := Text.splitFirst_eq_some (show _ = some (p.1, p.2) from hp)
  obtain ⟨ds, hds⟩ := Text.exists_append_trim s.toList
  rw [hds, hsplit, hkey]
  exact ⟨p.2 ++ ds, by simp⟩

namespace Row

variable (r : Row z)

theorem pairs_line : pairs r.line =
    pairsOf r.heading ++ pairsOf r.details ++ r.further.flatMap pairs := by
  rw [line, pairs_intercalate (by simp [heading]), List.flatMap_append, List.flatMap_map,
    ← pairsOf_append]
  rfl

theorem pairsOf_heading : ∃ v, pairsOf r.heading =
    [("id".toList, r.id.toList), ("when".toList, r.moment.toList), ("mask".toList, v)] := by
  obtain ⟨n, t, hn, -⟩ := r.reads_moment
  refine ⟨Text.trimEnd r.mask.toList, ?_⟩
  simp only [pairsOf, heading, List.flatMap_cons, List.flatMap_nil]
  rw [pairs_bare (by decide) (Text.isBare_of_readNat? r.reads_id),
    pairs_bare (by decide) (Text.isBare_of_readInt? hn), pairs_text (by decide) r.isField_mask.1]
  rfl

theorem value?_further {key : String} (h : key ∈ "id" :: "when" :: r.event.kind.keys) :
    value? (r.further.flatMap pairs) key = none := by
  refine value?_eq_none fun p hp hkey => ?_
  obtain ⟨s, hs, hp⟩ := List.mem_flatMap.1 hp
  have hnone := value?_of_isElsewhere (r.isField_further s hs) (r.elsewhere s hs key h)
  simp only [value?, Option.map_eq_none_iff, List.find?_eq_none, List.mem_reverse] at hnone
  simpa [hkey] using hnone p hp

theorem not_mem_keys (e : EventKind) : "id" ∉ e.keys ∧ "when" ∉ e.keys ∧ "mask" ∉ e.keys := by
  cases e <;> simp [EventKind.keys]

/-- **What is read from a row** is its event, unless that is lost. -/
theorem event?_line : event? z r.line = if r.event.kind.isLost then none else some r.event := by
  obtain ⟨n, t, hn, ht, htime⟩ := r.reads_moment
  obtain ⟨v, hheading⟩ := r.pairsOf_heading
  have hdetails := standUnder_of_tells r.tells
  obtain ⟨hid, hwhen, hmask⟩ := not_mem_keys r.event.kind
  have hvalue : ∀ key ∈ "id" :: "when" :: r.event.kind.keys, value? (pairs r.line) key =
      (value? (pairsOf r.details) key).or (value? (pairsOf r.heading) key) := by
    intro key hkey
    rw [pairs_line, value?_append, r.value?_further hkey, Option.none_or, value?_append]
  have hidValue : value? (pairs r.line) "id" = some r.id.toList := by
    rw [hvalue "id" (by simp), hdetails.value?_eq_none hid, hheading, value?_cons_self,
      value?_cons_of_ne (by decide), value?_cons_of_ne (by decide)]
    rfl
  have hwhenValue : value? (pairs r.line) "when" = some r.moment.toList := by
    rw [hvalue "when" (by simp), hdetails.value?_eq_none hwhen, hheading,
      value?_cons_of_ne (by decide), value?_cons_self, value?_cons_of_ne (by decide)]
    rfl
  have hkind : kind? (pairs r.line) r.event.kind.type =
      kind? (pairsOf r.details) r.event.kind.type := by
    refine kind?_congr fun key hkey => ?_
    have hne : ∀ {k}, k ∉ r.event.kind.keys → k ≠ key := fun hk heq => hk (heq ▸ hkey)
    rw [hvalue key (by simp [hkey]), hheading, value?_cons_of_ne (hne hid),
      value?_cons_of_ne (hne hwhen), value?_cons_of_ne (hne hmask), value?_nil, Option.or_none]
  rw [kind?_of_tells r.tells] at hkind
  simp only [event?, word?, hidValue, hwhenValue, Option.bind_some, r.reads_id, hn, ht,
    ← htime, bind, hkind]
  split <;> rfl

/-- A row stands in one line. -/
theorem not_mem_line : '\n' ∉ r.line.toList := by
  intro hc
  obtain ⟨n, t, hn, -⟩ := r.reads_moment
  rcases Text.mem_of_mem_intercalate hc with hc | ⟨f, hf, hc⟩
  · cases hc
  · rcases List.mem_append.1 hf with hf | hf
    · obtain ⟨g, hg, rfl⟩ := List.mem_map.1 hf
      rcases List.mem_append.1 hg with hf | hf
      · simp only [heading, List.mem_cons, List.not_mem_nil, or_false] at hf
        rcases hf with rfl | rfl | rfl
        · exact not_mem_text (by decide)
            ((Text.isBare_of_readNat? r.reads_id).not_mem_white (by decide)) hc
        · exact not_mem_text (by decide)
            ((Text.isBare_of_readInt? hn).not_mem_white (by decide)) hc
        · exact not_mem_text (by decide) r.isField_mask.2 hc
      · exact (standUnder_of_tells r.tells g hf).2.1 hc
    · exact (r.isField_further f hf).2 hc

/-- A carriage return at the end of a row is taken for a part of the end of the line. -/
theorem event?_chomp_line : event? z (String.ofList (Text.chomp r.line.toList)) =
    if r.event.kind.isLost then none else some r.event := by
  have hpairs := pairs_chomp r.line.toList
  rw [String.ofList_toList] at hpairs
  rw [← event?_line, event?, event?, hpairs]

/-- A row begins with its first key, also if its end is taken for the end of the line. -/
theorem exists_chomp_line : ∃ cs, Text.chomp r.line.toList = "id=".toList ++ cs := by
  have hline : r.line.toList = 'i' :: 'd' :: '=' :: (r.id.toList ++ ',' :: (",".intercalate
      ((("when", r.moment) :: ("mask", r.mask) :: r.details).map Field.text ++ r.further)).toList) := by
    rw [line, heading, List.cons_append, List.map_cons, List.cons_append,
      Text.intercalate_comma_cons (by simp)]
    simp [Field.text]
  rw [hline, Text.chomp_cons _ (by simp), Text.chomp_cons _ (by simp),
    Text.chomp_cons _ (by simp)]
  exact ⟨_, rfl⟩

end Row

theorem lines_text (rs : List (Row z)) : Text.lines (text rs) =
    rs.map fun r => String.ofList (Text.chomp r.line.toList) := by
  have htext : rs.map (fun r => r.line ++ "\n") = (rs.map Row.line).map (· ++ "\n") := by
    rw [List.map_map]
    rfl
  rw [text, htext, Text.lines_join_eq_map, List.map_map]
  · rfl
  · intro l hl
    obtain ⟨r, -, rfl⟩ := List.mem_map.1 hl
    exact r.not_mem_line

theorem filterMap_event?_lines (rs : List (Row z)) : (Text.lines (text rs)).filterMap (event? z) =
    (rs.map Row.event).filter (!·.kind.isLost) := by
  rw [lines_text, List.filterMap_map]
  induction rs with
  | nil => rfl
  | cons r rs ih =>
    rw [List.filterMap_cons, Function.comp_apply, r.event?_chomp_line, ih, List.map_cons,
      List.filter_cons]
    cases r.event.kind.isLost <;> rfl

/-- **The events of a log are those of its rows, without the typed commas and the typed
    white space**; so nothing is lost just if neither was typed. -/
theorem parse_rows (rs : List (Row z)) :
    parse z (text rs) = .ok ((rs.map Row.event).filter (!·.kind.isLost)) ∧
      (parse z (text rs) = .ok (rs.map Row.event) ↔ ∀ r ∈ rs, r.event.kind.isLost = false) := by
  have hshown : (Text.lines (text rs)).filter (!Text.isBlank ·) = Text.lines (text rs) := by
    rw [lines_text, List.filter_eq_self]
    intro l hl
    obtain ⟨r, -, rfl⟩ := List.mem_map.1 hl
    obtain ⟨cs, hcs⟩ := r.exists_chomp_line
    simp [Text.isBlank, hcs, Text.isWhite]
  have hparse : parse z (text rs) = .ok ((rs.map Row.event).filter (!·.kind.isLost)) := by
    rw [parse, hshown, filterMap_event?_lines]
    split
    · next hnil =>
      rw [lines_text, List.map_eq_nil_iff] at hnil
      rw [hnil]
      rfl
    · next first ls hcons =>
      rcases rs with _ | ⟨r, rs⟩
      · cases hcons
      · rw [lines_text, List.map_cons] at hcons
        obtain ⟨cs, hcs⟩ := r.exists_chomp_line
        obtain ⟨rfl, -⟩ := List.cons.inj hcons
        have hstart : Text.trimStart ("id=".toList ++ cs) = "id=".toList ++ cs :=
          Text.trimStart_cons (by decide)
        rw [hcs, String.toList_ofList (l := _ ++ cs), hstart, if_pos]
        exact List.isPrefixOf_iff_prefix.2 (List.prefix_append _ _)
  refine ⟨hparse, ?_⟩
  rw [hparse, Except.ok.injEq, List.filter_eq_self]
  simp

/-! ## A lost space -/

/-- The row of something that happened at the start of 1970. -/
def Row.atStart (e : EventKind) (id : String) (fs : List Field)
    (hid : Text.readNat? Word.bound16 id.toList = some e.type) (h : Tells e fs) : Row .utc where
  event := ⟨.ofMicros 0, e⟩
  id := id
  moment := "0"
  mask := "0"
  details := fs
  further := []
  reads_id := hid
  reads_moment := ⟨0, .ofMicros 0, by decide, rfl, rfl⟩
  isDated := by
    show Date.firstYear ≤ (Moment.ofMicros 0).date.year ∧
      (Moment.ofMicros 0).date.year ≤ Date.lastYear
    decide
  isField_mask := by decide
  tells := h
  isField_further _ hs := by cases hs
  elsewhere _ hs := by cases hs

/-- The key of a letter, then `a`, a space and `b`. -/
def spaced : List (Row .utc) := [
  .atStart (.keyDown 30) "4" [("keycode", "30")] (by decide) (.keyDown (by decide)),
  .atStart (.typed 'a') "3" [("keychar", "a")] (by decide) (.typed (by decide) (by decide)),
  .atStart (.typed ' ') "3" [("keychar", " ")] (by decide) (.typed (by decide) (by decide)),
  .atStart (.typed 'b') "3" [("keychar", "b")] (by decide) (.typed (by decide) (by decide))]

/-- **A typed space is lost**, and the words on both sides of it are read as one. -/
theorem parse_spaced : ∃ es, parse .utc (text spaced) = .ok es ∧ es ≠ spaced.map Row.event ∧
    (typedWords (spaced.map Row.event)).map TypedWord.text = ["a", "b"] ∧
    (typedWords es).map TypedWord.text = ["ab"] := by
  have hread : (match parse .utc (text spaced) with
      | .ok es => decide (es ≠ spaced.map Row.event ∧
          (typedWords (spaced.map Row.event)).map TypedWord.text = ["a", "b"] ∧
          (typedWords es).map TypedWord.text = ["ab"])
      | .error _ => false) = true := by decide +kernel
  split at hread
  · next es hes => exact ⟨es, hes, of_decide_eq_true hread⟩
  · cases hread

end InputLog

end Screenmark
