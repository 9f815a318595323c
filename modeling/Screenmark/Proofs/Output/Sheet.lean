/-
  Screenmark — sheets of tracks read back.

  A sheet whose records are the rows of tracks, `Sheet.ofTracks`, is read as these
  tracks again, but for what a table does not keep: a number stands as 1 or 0 by the
  threshold, and a text without its quotes (`Tracks.relogged?`).

  * `parse_ofTracks` : a sheet of tracks is read as the tracks, one row for each frame.

  The names of the tracks must not hold what ends a field, and neither must their texts
  (`Observation.IsWritable`): a comma in one of them makes a line that is left out.
-/
import Screenmark.Proofs.Binary.Text
import Screenmark.Proofs.Series.Glimpse
import Screenmark.Scan.State
import Screenmark.Series.Logged

namespace Screenmark

/-! ## Columns and fields -/

namespace Sheets

/-- Sheets with a column for each field that a frame gives. -/
structure Fits (x : Sheets) (ts : List Target) : Prop where
  combined : x.combined.columns.length = 1 + 3 * ts.length
  own : ∀ sheet ∈ x.own, sheet.columns.length = 4

theorem length_flatMap_fields (row : List Observation) :
    (row.flatMap observationFields).length = 3 * row.length := by
  induction row with
  | nil => rfl
  | cons o row ih =>
    rw [List.flatMap_cons, List.length_append, ih, List.length_cons]
    simp only [observationFields, List.length_cons, List.length_nil]
    omega

theorem length_flatMap_columns (ts : List Target) : (ts.flatMap columns).length = 3 * ts.length := by
  induction ts with
  | nil => rfl
  | cons t ts ih =>
    rw [List.flatMap_cons, List.length_append, ih, List.length_cons]
    simp only [columns, observationColumns, List.length_cons, List.length_nil]
    omega

theorem fits_start (o : Outlet) (ts : List Target) : (start o ts).Fits ts where
  combined := by
    simp only [start, Sheet.start, List.length_cons, length_flatMap_columns]
    omega
  own sheet hs := by
    obtain ⟨t, -, rfl⟩ := List.mem_map.1 hs
    rfl

theorem exists_writeFrame {sheet : Sheet} (frame : Nat) (row : List Observation)
    (h : sheet.columns.length = 1 + 3 * row.length) :
    ∃ sheet', sheet.writeFrame frame row = .ok sheet' ∧ sheet'.columns = sheet.columns := by
  refine ⟨_, if_pos ?_, rfl⟩
  rw [List.length_cons, length_flatMap_fields, h, Nat.add_comm]

theorem exists_writeOwn (frame : Nat) : ∀ (ss : List Sheet) (os : List Observation),
    (∀ sheet ∈ ss, sheet.columns.length = 4) →
      ∃ ss', writeOwn frame ss os = .ok ss' ∧ ∀ sheet ∈ ss', sheet.columns.length = 4
  | [], os, h => ⟨[], by cases os <;> rfl, h⟩
  | s :: ss, [], h => ⟨s :: ss, rfl, h⟩
  | s :: ss, o :: os, h => by
    rw [List.forall_mem_cons] at h
    obtain ⟨s', hs', hcolumns⟩ := exists_writeFrame frame [o] h.1
    obtain ⟨ss', hss', hown⟩ := exists_writeOwn frame ss os h.2
    refine ⟨s' :: ss', ?_, List.forall_mem_cons.2 ⟨hcolumns ▸ h.1, hown⟩⟩
    rw [writeOwn, hs', hss']
    rfl

/-- Sheets that fit take the row of a frame, and fit again. -/
theorem Fits.exists_write {x : Sheets} {ts : List Target} (h : x.Fits ts) (frame : Nat)
    (row : List Observation) (hrow : row.length = ts.length) :
    ∃ x', x.write frame row = .ok x' ∧ x'.Fits ts := by
  obtain ⟨c, hc, hcolumns⟩ := exists_writeFrame frame row (hrow ▸ h.combined)
  obtain ⟨own, hown, hfour⟩ := exists_writeOwn frame x.own row h.own
  refine ⟨⟨c, own⟩, ?_, hcolumns ▸ h.combined, hfour⟩
  rw [write, hc, hown]
  rfl

end Sheets

/-! ## What a table keeps -/

/-- A text without its quotes, or the blank one if nothing is left to see. -/
def shownText (s : String) : String :=
  let s := Text.without (· == '"') s
  if Text.isBlank s then Text.blank else s

/-- The series that is read from a table of a series. -/
def Series.relogged (threshold : Single) : Series → Series
  | .numbers xs => .numbers (xs.map (LoggedFile.binaryOf threshold))
  | .texts ss => .texts (ss.map shownText)

/-- The track that is read from a table of a track. -/
def Track.relogged (threshold : Single) (t : Track) : Track :=
  { t with series := t.series.relogged threshold, origin := .logged, template := none }

/-- What the column of an action holds. -/
def Action.loggedColumn : Action → LoggedColumn
  | .detectNumber => .number
  | .detectTime => .time
  | .detectText | .accessibilityHover | .accessibilityFocus | .typedWords
  | .matchFirstValueOf => .text
  | .matchTemplate | .template | .eval | .triggerBySegmentsOf | .nestByLastVariable
  | .mouseClicks => .value

/-- The annotation that is read from a table of a target. -/
def Tracks.relogged? (ts : Tracks) (t : Target) : Option LoggedAnnotation :=
  (ts.find? t.name).map fun track => ⟨t.name, t.action.loggedColumn, track.relogged ts.threshold⟩

/-- The row of a target at a frame; past the end nothing was seen. -/
def Tracks.rowOf (ts : Tracks) (t : Target) (frame : Nat) : Observation :=
  (ts.row? t.name frame).getD (.neutral t.kind)

/-- The texts of a track. -/
def Tracks.textsOf (ts : Tracks) (n : String) : List String :=
  match ts.series? n with
  | some (.texts ss) => ss.toList
  | _ => []

namespace Sheet

/-- The record of a frame. -/
def recordOf (ts : Tracks) (us : List Target) (frame : Nat) : List String :=
  toString frame :: (us.map (ts.rowOf · frame)).flatMap observationFields

/-- A sheet with the rows of the first `frames` frames. -/
def ofTracks (path : String) (ts : Tracks) (us : List Target) (frames : Nat) : Sheet :=
  ⟨path, "Frame" :: us.flatMap Sheets.columns,
    ((List.range frames).map (recordOf ts us)).reverse⟩

end Sheet

/-! ## Fields -/

/-- An observation of which nothing ends a field. -/
def Observation.IsWritable (o : Observation) : Prop := ∀ s, o.sample = .text s → Text.IsField s

open Text

namespace LoggedFile

theorem unquoted_between_quotes {s : String} (h : '"' ∉ s.toList) :
    unquoted ("\"" ++ s ++ "\"").toList = s.toList := by
  have hne : ∀ c ∈ s.toList, c ≠ '"' := fun c hc heq => h (heq ▸ hc)
  rw [toList_between_quotes]
  exact strip_between (fun c hc => hne c (List.mem_of_mem_head? hc))
    fun c hc => hne c (List.mem_of_getLast? hc)

theorem numberOf_plain (x : Single) : numberOf x.plain = x := by
  rw [numberOf, (Binary.isBare_plain x).trim_eq, Binary.read?_plain, Option.getD_some]

theorem numberOf_unquoted_plain (x : Single) :
    numberOf (String.ofList (unquoted x.plain.toList)) = x := by
  rw [unquoted, (Binary.isBare_plain x).strip_eq, String.ofList_toList, numberOf_plain]

theorem textOf_quotedField (s : String) : textOf (quotedField s) = shownText s := by
  have hquote : '"' ∉ (without (· == '"') s).toList := by
    rw [toList_without]
    simp
  simp only [textOf, quotedField, unquoted_between_quotes hquote, String.ofList_toList]
  rfl

end LoggedFile

theorem isCell_plain (x : Single) : Text.IsCell x.plain :=
  Text.isCell_of_isBare (Binary.isBare_plain x)

theorem isCell_quotedField {s : String} (h : Text.IsField s) : Text.IsCell (quotedField s) := by
  refine Text.isCell_between_quotes ⟨?_, ?_⟩ <;> rw [Text.toList_without] <;> intro hmem
  · exact h.1 ((List.mem_filter.1 hmem).1)
  · exact h.2 ((List.mem_filter.1 hmem).1)

theorem Observation.IsWritable.isCell {o : Observation} (h : o.IsWritable) :
    ∀ f ∈ observationFields o, Text.IsCell f := by
  obtain ⟨x, y, sample⟩ := o
  simp only [observationFields, List.forall_mem_cons]
  refine ⟨isCell_plain x, isCell_plain y, ?_, fun _ hf => nomatch hf⟩
  cases sample with
  | number z => exact isCell_plain z
  | text s => exact isCell_quotedField (h s rfl)

/-! ## Names of columns -/

theorem Action.ofSuffix?_columnSuffix (a : Action) :
    LoggedColumn.ofSuffix? a.columnSuffix = some a.loggedColumn := by
  cases a <;> rfl

theorem LoggedFile.columnName?_eq (name : String) (a : Action) :
    columnName? (name ++ "_" ++ a.columnSuffix) = some (name, a.loggedColumn) := by
  have hsuffix : '_' ∉ a.columnSuffix.toList := by cases a <;> decide
  have htext : (name ++ "_" ++ a.columnSuffix).toList =
      name.toList ++ '_' :: a.columnSuffix.toList := by simp
  rw [columnName?, htext, splitLast_append hsuffix]
  simp [Action.ofSuffix?_columnSuffix]

theorem isName_columns {us : List Target} (h : ∀ t ∈ us, IsName t.name) :
    ∀ c ∈ "Frame" :: us.flatMap Sheets.columns, IsName c := by
  rw [List.forall_mem_cons]
  refine ⟨by decide, fun c hc => ?_⟩
  obtain ⟨t, ht, hc⟩ := List.mem_flatMap.1 hc
  have hsuffix : IsName t.action.columnSuffix := by cases t.action <;> decide
  simp only [Sheets.columns, observationColumns, List.mem_cons, List.not_mem_nil, or_false] at hc
  rcases hc with rfl | rfl | rfl
  · exact isName_append (h t ht) (by decide)
  · exact isName_append (h t ht) (by decide)
  · exact isName_append (isName_append (h t ht) (by decide)) hsuffix

/-! ## Reading a sheet -/

namespace Sheet

/-- A sheet of which everything is read as it was written. -/
structure IsReadable (s : Sheet) (columns : List String) : Prop where
  columns_eq : s.columns = "Frame" :: columns
  three : columns.length % 3 = 0
  names : ∀ c ∈ s.columns, IsName c
  width : ∀ r ∈ s.records, r.length = s.columns.length
  cells : ∀ r ∈ s.records, ∀ f ∈ r, IsCell f
  shows : ∀ r ∈ s.records, isBlank (",".intercalate r) = false

variable {s : Sheet} {columns : List String}

theorem text_eq (s : Sheet) : s.text =
    String.join (((s.columns.map fun c => "\"" ++ c ++ "\"") :: s.records).map fun r =>
      ",".intercalate r ++ "\n") := by
  rw [List.map_cons, String.join_cons]
  rfl

theorem headerFields_columns (hne : columns ≠ []) (h : ∀ c ∈ columns, IsName c) :
    LoggedFile.headerFields (",".intercalate (columns.map fun c => "\"" ++ c ++ "\"")) =
      columns := by
  have hcomma : ∀ f ∈ columns.map fun c => "\"" ++ c ++ "\"", ',' ∉ f.toList := by
    intro f hf
    obtain ⟨c, hc, rfl⟩ := List.mem_map.1 hf
    exact (isCell_between_quotes (h c hc).isField).field.1
  rw [LoggedFile.headerFields, fields_intercalate (by simpa using hne) hcomma, List.map_map]
  refine (List.map_congr_left fun c hc => ?_).trans (List.map_id columns)
  have htrim : trim ("\"" ++ c ++ "\"").toList = ("\"" ++ c ++ "\"").toList := by
    rw [toList_between_quotes]
    refine trim_eq_self (fun d hd => ?_) fun d hd => ?_
    · obtain rfl := Option.some.inj hd
      decide
    · rw [List.getLast?_concat] at hd
      obtain rfl := Option.some.inj hd
      decide
  simp only [Function.comp_apply, htrim, LoggedFile.unquoted_between_quotes (h c hc).not_mem_quote,
    String.ofList_toList, id]

namespace IsReadable

variable (h : s.IsReadable columns)
include h

theorem contentLines_text : LoggedFile.contentLines s.text =
    ",".intercalate (s.columns.map fun c => "\"" ++ c ++ "\"") ::
      s.records.map (",".intercalate ·) := by
  have hcells : ∀ r ∈ (s.columns.map fun c => "\"" ++ c ++ "\"") :: s.records, ∀ f ∈ r,
      IsCell f := by
    refine List.forall_mem_cons.2 ⟨fun f hf => ?_, h.cells⟩
    obtain ⟨c, hc, rfl⟩ := List.mem_map.1 hf
    exact isCell_between_quotes (h.names c hc).isField
  rw [LoggedFile.contentLines, text_eq, lines_join_intercalate hcells, List.map_cons,
    List.filter_eq_self.2]
  refine List.forall_mem_cons.2 ⟨?_, fun l hl => ?_⟩
  · rw [h.columns_eq, List.map_cons,
      not_isBlank_intercalate (c := '"') (by simp) (by decide)]
    rfl
  · obtain ⟨r, hr, rfl⟩ := List.mem_map.1 hl
    rw [h.shows r hr]
    rfl

theorem rowsOf_records :
    LoggedFile.rowsOf s.columns.length (s.records.map (",".intercalate ·)) = s.records := by
  have hfields : (s.records.map (",".intercalate ·)).map fields = s.records := by
    rw [List.map_map]
    refine (List.map_congr_left fun r hr => ?_).trans (List.map_id _)
    have hne : r ≠ [] := by
      rintro rfl
      have := h.width [] hr
      rw [h.columns_eq] at this
      cases this
    exact fields_intercalate hne fun f hf => (h.cells r hr f hf).field.1
  rw [LoggedFile.rowsOf, hfields, List.filter_eq_self.2]
  intro r hr
  simpa using h.width r hr

/-- **A readable sheet is read as a table with all its records.** -/
theorem parse_text (origin : String) (threshold : Single) :
    LoggedFile.parse s.text origin threshold =
      (LoggedFile.annotationsOf origin threshold s.records 1 columns).map
        (.annotations s.records.length) := by
  have hne : s.columns ≠ [] := by
    rw [h.columns_eq]
    exact List.cons_ne_nil _ _
  have hrows := h.rowsOf_records
  rw [LoggedFile.parse, h.contentLines_text]
  dsimp only
  rw [headerFields_columns hne h.names]
  rw [h.columns_eq] at hrows ⊢
  rw [if_neg (by simp), if_neg (by simp [h.three]), hrows, List.drop_succ_cons, List.drop_zero]
  cases LoggedFile.annotationsOf origin threshold s.records 1 columns <;> rfl

end IsReadable

end Sheet

/-! ## Reading the rows of tracks -/

/-- Values that are read off at every place of an array are an array again. -/
theorem toArray_map_range {α β : Type} {xs : Array α} {g : Nat → β} {h : α → β} {n : Nat}
    (hn : xs.size = n) (hg : ∀ i x, xs[i]? = some x → g i = h x) :
    ((List.range n).map g).toArray = xs.map h := by
  subst hn
  refine Array.ext (by simp) fun i hi hi' => ?_
  have hlt : i < xs.size := by simpa using hi'
  simp [hg i xs[i] (Array.getElem?_eq_getElem hlt)]

/-- The field of a sample. -/
def sampleField : Sample → String
  | .number x => x.plain
  | .text s => quotedField s

theorem observationFields_eq (o : Observation) :
    observationFields o = [o.x.plain, o.y.plain, sampleField o.sample] := by
  obtain ⟨x, y, sample⟩ := o
  cases sample <;> rfl

namespace LoggedFile

/-- Three columns that hold an observation for each of `k` rows. -/
structure HoldsAt (rows : List (List String)) (base k : Nat) (o : Nat → Observation) : Prop where
  x : columnOf rows base = (List.range k).map fun f => (o f).x.plain
  y : columnOf rows (base + 1) = (List.range k).map fun f => (o f).y.plain
  sample : columnOf rows (base + 2) = (List.range k).map fun f => sampleField (o f).sample

variable {k : Nat} {o : Nat → Observation} {xs : Array Single} {ss : Array String}
  {threshold : Single}

theorem map_numberOf_eq (hn : xs.size = k) {g : Nat → Single}
    (hg : ∀ f x, xs[f]? = some x → g f = x) :
    (((List.range k).map fun f => (g f).plain).map numberOf).toArray = xs := by
  have hread : numberOf ∘ (fun f => (g f).plain) = g :=
    funext fun f => by simp only [Function.comp_apply, numberOf_plain]
  rw [List.map_map, hread, toArray_map_range (h := id) hn hg, Array.map_id]

theorem seriesOf_value (hn : xs.size = k)
    (ho : ∀ f x, xs[f]? = some x → (o f).sample = .number x) :
    seriesOf .value threshold ((List.range k).map fun f => sampleField (o f).sample) =
      Series.relogged threshold (.numbers xs) := by
  rw [seriesOf, Series.relogged, List.map_map]
  refine congrArg _ (toArray_map_range hn fun f x hx => ?_)
  simp only [Function.comp_apply, ho f x hx, sampleField, numberOf_unquoted_plain]

theorem seriesOf_text {column : LoggedColumn} (hcolumn : column ≠ .value) (hn : ss.size = k)
    (ho : ∀ f s, ss[f]? = some s → (o f).sample = .text s) :
    seriesOf column threshold ((List.range k).map fun f => sampleField (o f).sample) =
      Series.relogged threshold (.texts ss) := by
  have hread : (((List.range k).map fun f => sampleField (o f).sample).map textOf).toArray =
      ss.map shownText := by
    rw [List.map_map]
    refine toArray_map_range hn fun f s hs => ?_
    simp only [Function.comp_apply, ho f s hs, sampleField, textOf_quotedField]
  cases column with
  | value => exact absurd rfl hcolumn
  | number => exact congrArg Series.texts hread
  | time => exact congrArg Series.texts hread
  | text => exact congrArg Series.texts hread

end LoggedFile

theorem Action.loggedColumn_eq_value_iff {a : Action} :
    a.loggedColumn = .value ↔ a.seriesKind = .numeric := by
  cases a <;> decide

namespace Tracks

variable {ts : Tracks} {t : Target} {k : Nat}

theorem HasRows.row?_eq_rowOf (h : ts.HasRows t.name t.kind k) {f : Nat} (hf : f < k) :
    ts.row? t.name f = some (ts.rowOf t f) := by
  obtain ⟨r, hr⟩ := h.exists_row? hf
  rw [rowOf, hr, Option.getD_some]

theorem Keeps.rowOf_eq {us : Tracks} (h : ts.Keeps us) (hrows : ts.HasRows t.name t.kind k)
    {f : Nat} (hf : f < k) : us.rowOf t f = ts.rowOf t f := by
  rw [rowOf, h.row _ _ _ (hrows.row?_eq_rowOf hf), Option.getD_some]

/-- The rows of a track can be written if its texts can. -/
theorem HasRows.isWritable_rowOf (h : ts.HasRows t.name t.kind k) {f : Nat} (hf : f < k)
    (htexts : ∀ s ∈ ts.textsOf t.name, IsField s) : (ts.rowOf t f).IsWritable := by
  intro text htext
  have hrow := h.row?_eq_rowOf hf
  obtain ⟨track, htrack, -⟩ := h
  rw [row?, htrack] at hrow
  have hsample := (Track.row?_eq_some_iff.1 hrow).2.2
  rw [htext] at hsample
  refine htexts text ?_
  rw [textsOf, series?, htrack, Option.map_some]
  rcases hseries : track.series with xs | ss <;> rw [hseries] at hsample
  · obtain ⟨x, -, hx⟩ := Option.map_eq_some_iff.1 hsample
    cases hx
  · obtain ⟨s, hs, heq⟩ := Option.map_eq_some_iff.1 hsample
    obtain rfl := Sample.text.inj heq
    exact Array.mem_toList_iff.2 (Array.mem_of_getElem? hs)

/-- The series of a target is read from the column of its samples. -/
theorem seriesOf_eq {track : Track} {threshold : Single} {o : Nat → Observation}
    (hkind : track.series.kind = t.kind) (hsize : track.series.size = k)
    (ho : ∀ f x, track.series.sample? f = some x → (o f).sample = x) :
    LoggedFile.seriesOf t.action.loggedColumn threshold
      ((List.range k).map fun f => sampleField (o f).sample) = track.series.relogged threshold := by
  rcases hseries : track.series with xs | ss <;> rw [hseries] at hkind hsize ho
  · rw [Action.loggedColumn_eq_value_iff.2 hkind.symm]
    exact LoggedFile.seriesOf_value hsize fun f x hx => ho f _ (congrArg (Option.map _) hx)
  · refine LoggedFile.seriesOf_text (fun hvalue => ?_) hsize fun f s hs =>
      ho f _ (congrArg (Option.map _) hs)
    have htext : t.kind = .numeric := Action.loggedColumn_eq_value_iff.1 hvalue
    rw [htext] at hkind
    cases hkind

/-- **The three columns of a target are read as its track.** -/
theorem HasRows.relogged?_eq {rows : List (List String)} {base : Nat}
    (h : ts.HasRows t.name t.kind k) (hrows : LoggedFile.HoldsAt rows base k (ts.rowOf t)) :
    ts.relogged? t =
      some (LoggedFile.annotationOf ts.threshold rows base t.name t.action.loggedColumn) := by
  obtain ⟨track, htrack, hkind, hs, hx, hy⟩ := id h
  have hrow : ∀ f, f < k → track.row? f = some (ts.rowOf t f) := fun f hf => by
    rw [← h.row?_eq_rowOf hf, row?, htrack, Option.bind_some]
  have hlt : ∀ {f : Nat} {xs : Array Single} {x : Single}, xs.size = k → xs[f]? = some x → f < k :=
    fun hn hx => hn ▸ (Array.getElem?_eq_some_iff.1 hx).1
  have hxs := LoggedFile.map_numberOf_eq hx fun f x hfx =>
    Option.some.inj ((Track.row?_eq_some_iff.1 (hrow f (hlt hx hfx))).1.symm.trans hfx)
  have hys := LoggedFile.map_numberOf_eq hy fun f y hfy =>
    Option.some.inj ((Track.row?_eq_some_iff.1 (hrow f (hlt hy hfy))).2.1.symm.trans hfy)
  have hseries : LoggedFile.seriesOf t.action.loggedColumn ts.threshold _ =
      track.series.relogged ts.threshold := seriesOf_eq hkind hs fun f x hfx =>
    Option.some.inj ((Track.row?_eq_some_iff.1
      (hrow f (hs ▸ Series.lt_size_of_sample? hfx))).2.2.symm.trans hfx)
  rw [relogged?, htrack, Option.map_some, LoggedFile.annotationOf, hrows.x, hrows.y,
    hrows.sample, hxs, hys, hseries]
  rfl

end Tracks

/-! ## Sheets of tracks -/

namespace Sheet

variable {path : String} {ts : Tracks} {us pre post : List Target} {t : Target} {f k : Nat}

theorem length_recordOf : (recordOf ts us f).length = 1 + 3 * us.length := by
  rw [recordOf, List.length_cons, Sheets.length_flatMap_fields, List.length_map, Nat.add_comm]

/-- The fields of a target stand behind those of the targets in front of it. -/
theorem getElem?_recordOf {j : Nat} (hj : j < 3) :
    (recordOf ts (pre ++ t :: post) f)[1 + 3 * pre.length + j]? =
      (observationFields (ts.rowOf t f))[j]? := by
  have hlength : ((pre.map (ts.rowOf · f)).flatMap observationFields).length = 3 * pre.length := by
    rw [Sheets.length_flatMap_fields, List.length_map]
  have hfields : (observationFields (ts.rowOf t f)).length = 3 := rfl
  have hplace : 1 + 3 * pre.length + j = 3 * pre.length + j + 1 := by omega
  rw [recordOf, List.map_append, List.map_cons, List.flatMap_append, List.flatMap_cons, hplace,
    List.getElem?_cons_succ, List.getElem?_append_right (by omega), hlength,
    Nat.add_sub_cancel_left, List.getElem?_append_left (by omega)]

theorem holdsAt_recordOf : LoggedFile.HoldsAt
    ((List.range k).map (recordOf ts (pre ++ t :: post))) (1 + 3 * pre.length) k (ts.rowOf t) := by
  have hcolumn : ∀ j, j < 3 → LoggedFile.columnOf
      ((List.range k).map (recordOf ts (pre ++ t :: post))) (1 + 3 * pre.length + j) =
        (List.range k).map fun f => (observationFields (ts.rowOf t f))[j]?.getD "" := by
    intro j hj
    rw [LoggedFile.columnOf, List.map_map]
    exact List.map_congr_left fun f _ => congrArg (Option.getD · "") (getElem?_recordOf hj)
  simp only [observationFields_eq] at hcolumn
  exact ⟨hcolumn 0 (by decide), hcolumn 1 (by decide), hcolumn 2 (by decide)⟩

/-- Column by column, the targets are read as their tracks. -/
theorem exists_annotationsOf : ∀ (pre post : List Target),
    (∀ t ∈ post, ts.HasRows t.name t.kind k) →
      ∃ as, post.map ts.relogged? = as.map some ∧ ∀ origin,
        LoggedFile.annotationsOf origin ts.threshold
          ((List.range k).map (recordOf ts (pre ++ post))) (1 + 3 * pre.length)
          (post.flatMap Sheets.columns) = .ok as
  | _, [], _ => ⟨[], rfl, fun _ => rfl⟩
  | pre, t :: post, h => by
    rw [List.forall_mem_cons] at h
    have hholds : LoggedFile.HoldsAt ((List.range k).map (recordOf ts (pre ++ t :: post)))
      (1 + 3 * pre.length) k (ts.rowOf t) := holdsAt_recordOf
    obtain ⟨as, has, hread⟩ := exists_annotationsOf (pre ++ [t]) post h.2
    have hbase : 1 + 3 * (pre ++ [t]).length = 1 + 3 * pre.length + 3 := by
      rw [List.length_append, List.length_singleton]
      omega
    rw [List.append_assoc, List.singleton_append, hbase] at hread
    refine ⟨LoggedFile.annotationOf ts.threshold ((List.range k).map (recordOf ts (pre ++ t :: post)))
      (1 + 3 * pre.length) t.name t.action.loggedColumn :: as, ?_, fun origin => ?_⟩
    · rw [List.map_cons, h.1.relogged?_eq hholds, has, List.map_cons]
    rw [List.flatMap_cons]
    simp only [Sheets.columns, observationColumns, List.cons_append, List.nil_append,
      LoggedFile.annotationsOf, LoggedFile.columnName?_eq] at hread ⊢
    rw [hread]

theorem records_ofTracks :
    (ofTracks path ts us k).records = (List.range k).map (recordOf ts us) := List.reverse_reverse _

theorem mem_records_ofTracks {r : List String} (hr : r ∈ (ofTracks path ts us k).records) :
    ∃ f < k, recordOf ts us f = r := by
  rw [records_ofTracks] at hr
  obtain ⟨f, hf, rfl⟩ := List.mem_map.1 hr
  exact ⟨f, List.mem_range.1 hf, rfl⟩

theorem isReadable_ofTracks (hnames : ∀ t ∈ us, IsName t.name)
    (hrows : ∀ t ∈ us, ∀ f < k, (ts.rowOf t f).IsWritable) :
    (ofTracks path ts us k).IsReadable (us.flatMap Sheets.columns) where
  columns_eq := rfl
  three := by
    rw [Sheets.length_flatMap_columns]
    omega
  names := isName_columns hnames
  width r hr := by
    obtain ⟨f, -, rfl⟩ := mem_records_ofTracks hr
    rw [length_recordOf, ofTracks, List.length_cons, Sheets.length_flatMap_columns, Nat.add_comm]
  cells r hr c hc := by
    obtain ⟨f, hf, rfl⟩ := mem_records_ofTracks hr
    rcases List.mem_cons.1 hc with rfl | hc
    · exact isCell_of_isBare (isBare_toString f)
    · obtain ⟨o, ho, hc⟩ := List.mem_flatMap.1 hc
      obtain ⟨t, ht, rfl⟩ := List.mem_map.1 ho
      exact (hrows t ht f hf).isCell c hc
  shows r hr := by
    obtain ⟨f, -, rfl⟩ := mem_records_ofTracks hr
    obtain ⟨c, hc⟩ := List.exists_mem_of_ne_nil _ (toString_ne_nil f)
    exact not_isBlank_intercalate hc ((isBare_toString f) c hc).1

/-- **A sheet of tracks is read as these tracks.** -/
theorem parse_ofTracks (path : String) (hnames : ∀ t ∈ us, IsName t.name)
    (htracks : ∀ t ∈ us, ts.HasRows t.name t.kind k)
    (hrows : ∀ t ∈ us, ∀ f < k, (ts.rowOf t f).IsWritable) :
    ∃ as, us.map ts.relogged? = as.map some ∧ ∀ origin,
      LoggedFile.parse (ofTracks path ts us k).text origin ts.threshold =
        .ok (.annotations k as) := by
  obtain ⟨as, has, hread⟩ := exists_annotationsOf [] us htracks
  rw [List.nil_append] at hread
  refine ⟨as, has, fun origin => ?_⟩
  rw [(isReadable_ofTracks hnames hrows).parse_text, records_ofTracks, List.length_map, List.length_range]
  exact congrArg (Except.map _) (hread origin)

end Sheet

end Screenmark
