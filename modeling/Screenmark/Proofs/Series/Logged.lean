/-
  Screenmark — tables of earlier runs, line by line.

  A table of annotations has a group of three columns for each annotation: two for the place
  and one for the sample, whose name tells which samples they are. Every line that has as
  many fields as the first one is a row, and gives each annotation one frame; all other
  lines are left out.

  * `annotationsOf_eq` : the names of the columns are read first and alone, and then the
    columns;
  * `parse?_eq` : a reader that takes fields by their place, and has no result where there is
    none, reads what `parse` reads, so no field is missing;
  * `parse?_isTable` : moreover the tracks fit to the table and hold only what is meant to
    stand in tracks of an earlier run;
  * `landsByFrame_iff` : a row lands on the frame that is its place among the rows, so on
    the frame that it names exactly if the rows name the frames from zero on without a gap.
-/
import Screenmark.Proofs.Series.Alignment
import Screenmark.Proofs.Series.Growth

namespace Screenmark

/-- What the series of a column hold. -/
def LoggedColumn.kind : LoggedColumn → SeriesKind
  | .value => .numeric
  | .number | .time | .text => .text

namespace LoggedFile

variable {content origin line : String} {threshold : Single} {header row : List String}
  {rows : List (List String)} {base width frames : Nat} {names : List (String × LoggedColumn)}
  {as : List LoggedAnnotation} {a : LoggedAnnotation}

/-! ## Names and columns -/

/-- The first line of a table, cut into the names of its columns. -/
def headerOf (content : String) : List String :=
  headerFields ((contentLines content).headD "")

/-- The lines behind the first one. -/
def linesBelow (content : String) : List String := (contentLines content).drop 1

/-- The rows of a table. -/
def rowsIn (content : String) : List (List String) :=
  rowsOf (headerOf content).length (linesBelow content)

/-- The names and kinds of the annotations that the names of the columns tell. -/
def namesOf (origin : String) : List String → Except Failure (List (String × LoggedColumn))
  | _ :: _ :: value :: rest =>
    match columnName? value with
    | none => .error (.input (.unknownColumn origin value))
    | some name => (namesOf origin rest).map (name :: ·)
  | _ => .ok []

/-- The annotations with these names, whose columns stand side by side from `base` on. -/
def annotationsFrom (threshold : Single) (rows : List (List String)) :
    Nat → List (String × LoggedColumn) → List LoggedAnnotation
  | _, [] => []
  | base, (name, column) :: names =>
    annotationOf threshold rows base name column :: annotationsFrom threshold rows (base + 3) names

/-- **The names are read without the rows, and then nothing can fail.** -/
theorem annotationsOf_eq (origin : String) (threshold : Single) (rows : List (List String))
    (base : Nat) (header : List String) : annotationsOf origin threshold rows base header =
      (namesOf origin header).map (annotationsFrom threshold rows base) := by
  induction header using namesOf.induct generalizing base with
  | case1 c c' value rest hname =>
    rw [annotationsOf, namesOf, hname]
    rfl
  | case2 c c' value rest name hname ih =>
    rw [annotationsOf, namesOf, hname]
    dsimp only
    rw [ih]
    cases namesOf origin rest <;> rfl
  | case3 header hshort =>
    rw [annotationsOf, namesOf]
    · rfl
    · exact hshort
    · exact hshort

theorem length_annotationsFrom : (annotationsFrom threshold rows base names).length =
    names.length := by
  induction names generalizing base with
  | nil => rfl
  | cons name names ih => rw [annotationsFrom, List.length_cons, ih, List.length_cons]

/-- The columns of an annotation stand behind those of the annotations before it. -/
theorem getElem?_annotationsFrom (i : Nat) : (annotationsFrom threshold rows base names)[i]? =
    names[i]?.map fun n => annotationOf threshold rows (base + 3 * i) n.1 n.2 := by
  induction names generalizing base i with
  | nil => rfl
  | cons name names ih =>
    rw [annotationsFrom]
    rcases i with _ | i
    · rfl
    · rw [List.getElem?_cons_succ, ih, List.getElem?_cons_succ]
      have hbase : base + 3 + 3 * i = base + 3 * (i + 1) := by omega
      rw [hbase]

/-- Each name is that of the third column of its group. -/
theorem namesOf_eq_ok (h : namesOf origin header = .ok names) (hlength : header.length % 3 = 0) :
    header.length = 3 * names.length ∧
      ∀ i n, names[i]? = some n → header[2 + 3 * i]?.bind columnName? = some n := by
  induction header using namesOf.induct generalizing names with
  | case1 c c' value rest hname =>
    rw [namesOf, hname] at h
    cases h
  | case2 c c' value rest name hname ih =>
    rw [namesOf, hname] at h
    rcases hrest : namesOf origin rest with e | names'
    · simp only [hrest] at h
      cases h
    · simp only [hrest] at h
      cases h
      simp only [List.length_cons] at hlength
      obtain ⟨hlen, hat⟩ := ih hrest (by omega)
      refine ⟨by simp only [List.length_cons]; omega, fun i n hn => ?_⟩
      rcases i with _ | i
      · cases hn
        exact hname
      · have hplace : 2 + 3 * (i + 1) = 2 + 3 * i + 3 := by omega
        rw [hplace]
        exact hat i n hn
  | case3 header hshort =>
    rw [namesOf] at h
    · cases h
      rcases header with _ | ⟨c, _ | ⟨c', _ | ⟨value, rest⟩⟩⟩
      · exact ⟨rfl, fun i n hn => by cases hn⟩
      · simp at hlength
      · simp at hlength
      · exact absurd rfl (hshort c c' value rest)
    · exact hshort

/-! ## Reading with every access checked -/

/-- The sample that a field shows in a series of the kind. -/
def sampleOf (threshold : Single) (field : String) : SeriesKind → Sample
  | .numeric => .number (binaryOf threshold (numberOf (String.ofList (unquoted field.toList))))
  | .text => .text (textOf field)

/-- The list in groups of three; the last group may have less. -/
def groups {α : Type} : List α → List (List α)
  | x :: y :: z :: rest => [x, y, z] :: groups rest
  | [] => []
  | rest => [rest]

/-- The annotations of the groups of columns, still without rows; none if a group has no
    third column. -/
def begin? (origin : String) : List (List String) →
    Option (Except Failure (List LoggedAnnotation))
  | [] => some (.ok [])
  | group :: gs =>
    match group[2]? with
    | none => none
    | some value =>
      match columnName? value with
      | none => some (.error (.input (.unknownColumn origin value)))
      | some (name, column) =>
        (begin? origin gs).map (·.map (⟨name, column, .empty column.kind .logged⟩ :: ·))

/-- The annotations with one row more, where the columns of the first one stand from `base`
    on; none if the row has no such field. -/
def addRow? (threshold : Single) (row : List String) :
    Nat → List LoggedAnnotation → Option (List LoggedAnnotation)
  | _, [] => some []
  | base, a :: as => do
    let x ← row[base]?
    let y ← row[base + 1]?
    let field ← row[base + 2]?
    let sample := sampleOf threshold field a.track.series.kind
    let track ← a.track.push? ⟨numberOf x, numberOf y, sample⟩
    let as ← addRow? threshold row (base + 3) as
    some ({ a with track } :: as)

/-- The number of rows and the annotations behind a line, which is a row if it has `width`
    fields. -/
def addLine? (threshold : Single) (width : Nat) (table : Nat × List LoggedAnnotation)
    (line : String) : Option (Nat × List LoggedAnnotation) :=
  if (Text.fields line).length = width then
    (addRow? threshold (Text.fields line) 1 table.2).map (table.1 + 1, ·)
  else some table

/-- What a file holds, read line by line; none if a column or field is taken by a place that
    the line does not have. -/
def parse? (content origin : String) (threshold : Single) : Option (Except Failure LoggedFile) :=
  let header := headerOf content
  -- what is no table of annotations is not read by places that have to be there
  if contentLines content = [] ∨ header = ["h", "m", "frames"] ∨ header.head? ≠ some "Frame" then
    some (parse content origin threshold)
  else if header.length = 0 then none
  else if (header.length - 1) % 3 ≠ 0 then some (.error (.input (.noAnnotations origin)))
  else
    match begin? origin (groups (header.drop 1)) with
    | none => none
    | some (.error e) => some (.error e)
    | some (.ok as) =>
      ((linesBelow content).foldlM (addLine? threshold header.length) (0, as)).map fun table =>
        .ok (.annotations table.1 table.2)

/-- Before the first row the tracks are empty. -/
theorem annotationOf_nil (threshold : Single) (base : Nat) (name : String)
    (column : LoggedColumn) : annotationOf threshold [] base name column =
      ⟨name, column, .empty column.kind .logged⟩ := by
  cases column <;> rfl

/-- Groups of three have a third column, so that every name is found. -/
theorem begin?_groups (threshold : Single) (base : Nat) (hlength : header.length % 3 = 0) :
    begin? origin (groups header) =
      some ((namesOf origin header).map (annotationsFrom threshold [] base)) := by
  induction header using namesOf.induct generalizing base with
  | case1 c c' value rest hname =>
    rw [groups, begin?, namesOf, hname]
    dsimp only [List.getElem?_cons_succ, List.getElem?_cons_zero]
    rw [hname]
    rfl
  | case2 c c' value rest name hname ih =>
    simp only [List.length_cons] at hlength
    rw [groups, begin?, namesOf, hname]
    dsimp only [List.getElem?_cons_succ, List.getElem?_cons_zero]
    rw [hname]
    dsimp only
    rw [ih (base + 3) (by omega), ← annotationOf_nil threshold base]
    cases namesOf origin rest <;> rfl
  | case3 header hshort =>
    rcases header with _ | ⟨c, _ | ⟨c', _ | ⟨value, rest⟩⟩⟩
    · rfl
    · simp at hlength
    · simp at hlength
    · exact absurd rfl (hshort c c' value rest)

/-- A sample is added to a series of the kind of its column. -/
theorem push?_seriesOf (column : LoggedColumn) (fields : List String) (field : String) :
    (seriesOf column threshold fields).push? (sampleOf threshold field column.kind) =
      some (seriesOf column threshold (fields ++ [field])) := by
  cases column <;> simp [seriesOf, sampleOf, LoggedColumn.kind, Series.push?]

theorem kind_seriesOf (column : LoggedColumn) (fields : List String) :
    (seriesOf column threshold fields).kind = column.kind := by
  cases column <;> rfl

theorem columnOf_append (rows : List (List String)) (row : List String) (i : Nat) :
    columnOf (rows ++ [row]) i = columnOf rows i ++ [row[i]?.getD ""] := by
  rw [columnOf, List.map_append, columnOf, List.map_singleton]

/-- A row that reaches so far is one row more for an annotation. -/
theorem push?_annotationOf (name : String) (column : LoggedColumn) :
    (annotationOf threshold rows base name column).track.push?
        ⟨numberOf (row[base]?.getD ""), numberOf (row[base + 1]?.getD ""),
          sampleOf threshold (row[base + 2]?.getD "") column.kind⟩ =
      some (annotationOf threshold (rows ++ [row]) base name column).track := by
  simp [Track.push?, annotationOf, push?_seriesOf, columnOf_append]

/-- **A row that has a field for every column is one row more for all annotations.** -/
theorem addRow?_annotationsFrom (h : base + 3 * names.length ≤ row.length) :
    addRow? threshold row base (annotationsFrom threshold rows base names) =
      some (annotationsFrom threshold (rows ++ [row]) base names) := by
  induction names generalizing base with
  | nil => rfl
  | cons name names ih =>
    obtain ⟨name, column⟩ := name
    rw [List.length_cons] at h
    have hfield : ∀ i < row.length, row[i]? = some (row[i]?.getD "") := fun i hi => by
      rw [List.getElem?_eq_getElem hi, Option.getD_some]
    rw [annotationsFrom, addRow?, hfield base (by omega), hfield (base + 1) (by omega),
      hfield (base + 2) (by omega), ih (by omega)]
    have hkind : (annotationOf threshold rows base name column).track.series.kind = column.kind :=
      kind_seriesOf column _
    simp only [Option.bind_eq_bind, Option.bind_some, hkind, push?_annotationOf]
    rfl

/-- **All lines of the table are read, and those of the right width are the rows.** -/
theorem foldlM_addLine? (threshold : Single) (rows : List (List String)) (lines : List String)
    (h : width = 1 + 3 * names.length) :
    lines.foldlM (addLine? threshold width)
        (rows.length, annotationsFrom threshold rows 1 names) =
      some ((rows ++ rowsOf width lines).length,
        annotationsFrom threshold (rows ++ rowsOf width lines) 1 names) := by
  induction lines generalizing rows with
  | nil => rw [rowsOf, List.map_nil, List.filter_nil, List.append_nil]; rfl
  | cons line lines ih =>
    rw [List.foldlM_cons, addLine?]
    by_cases hwidth : (Text.fields line).length = width
    · have hrows : rowsOf width (line :: lines) = [Text.fields line] ++ rowsOf width lines := by
        rw [rowsOf, List.map_cons, List.filter_cons_of_pos (by simpa using hwidth)]
        rfl
      rw [if_pos hwidth, addRow?_annotationsFrom (by omega), hrows, ← List.append_assoc,
        ← ih (rows ++ [Text.fields line]), List.length_append]
      rfl
    · have hrows : rowsOf width (line :: lines) = rowsOf width lines := by
        rw [rowsOf, List.map_cons, List.filter_cons_of_neg (by simpa using hwidth)]
        rfl
      rw [if_neg hwidth, hrows, ← ih]
      rfl

/-- The first line starts a table of annotations. -/
structure StartsTable (content : String) : Prop where
  nonempty : contentLines content ≠ []
  noMinute : headerOf content ≠ ["h", "m", "frames"]
  frame : (headerOf content).head? = some "Frame"
  groups : ((headerOf content).length - 1) % 3 = 0

/-- What a file that is no first minute is read as. -/
theorem parse_of_noMinute (hne : contentLines content ≠ [])
    (hminute : headerOf content ≠ ["h", "m", "frames"]) (origin : String) (threshold : Single) :
    parse content origin threshold =
      if (headerOf content).head? ≠ some "Frame" ∨ ((headerOf content).length - 1) % 3 ≠ 0 then
        .error (.input (.noAnnotations origin))
      else (namesOf origin ((headerOf content).drop 1)).map fun names =>
        .annotations (rowsIn content).length
          (annotationsFrom threshold (rowsIn content) 1 names) := by
  rw [rowsIn, linesBelow]
  rw [headerOf] at hminute ⊢
  rcases hlines : contentLines content with _ | ⟨first, lines⟩
  · exact absurd hlines hne
  rw [hlines, List.headD_cons] at hminute
  rw [parse, hlines]
  dsimp only [List.headD_cons]
  rw [if_neg hminute, annotationsOf_eq, List.drop_one, List.drop_one, List.tail_cons]
  cases namesOf origin (headerFields first).tail <;> rfl

/-- What a table of annotations is read as. -/
theorem parse_of_startsTable (h : StartsTable content) (origin : String) (threshold : Single) :
    parse content origin threshold = (namesOf origin ((headerOf content).drop 1)).map fun names =>
      .annotations (rowsIn content).length
        (annotationsFrom threshold (rowsIn content) 1 names) := by
  rw [parse_of_noMinute h.nonempty h.noMinute, if_neg]
  rw [not_or, Decidable.not_not, Decidable.not_not]
  exact ⟨h.frame, h.groups⟩

/-- Only a table of annotations is read as one. -/
theorem startsTable_of_parse (h : parse content origin threshold = .ok (.annotations frames as)) :
    StartsTable content := by
  have hne : contentLines content ≠ [] := fun hnil => by
    rw [parse, hnil] at h
    cases h
  have hminute : headerOf content ≠ ["h", "m", "frames"] := fun hminute => by
    rcases hlines : contentLines content with _ | ⟨first, lines⟩
    · exact hne hlines
    rw [headerOf, hlines, List.headD_cons] at hminute
    rw [parse, hlines] at h
    dsimp only at h
    rw [if_pos hminute] at h
    split at h
    · cases h
    · split at h <;> cases h
  rw [parse_of_noMinute hne hminute] at h
  split at h
  · cases h
  · next htable =>
    rw [not_or, Decidable.not_not, Decidable.not_not] at htable
    exact ⟨hne, hminute, htable.1, htable.2⟩

/-- A table of annotations has a first column, and behind it groups of three. -/
theorem StartsTable.length_drop (h : StartsTable content) :
    (headerOf content).length = 1 + ((headerOf content).drop 1).length ∧
      ((headerOf content).drop 1).length % 3 = 0 := by
  have hpos : (headerOf content).length ≠ 0 := fun hzero => by
    have hframe := h.frame
    rw [List.length_eq_zero_iff.1 hzero] at hframe
    cases hframe
  have := h.groups
  rw [List.length_drop]
  omega

/-- What is read of a table are its annotations, with a frame for each row. -/
theorem exists_names_of_parse
    (h : parse content origin threshold = .ok (.annotations frames as)) : ∃ names,
      namesOf origin ((headerOf content).drop 1) = .ok names ∧ (rowsIn content).length = frames ∧
        annotationsFrom threshold (rowsIn content) 1 names = as := by
  rw [parse_of_startsTable (startsTable_of_parse h)] at h
  rcases hnames : namesOf origin ((headerOf content).drop 1) with e | names
  · rw [hnames] at h
    cases h
  · rw [hnames] at h
    obtain ⟨hframes, has⟩ := LoggedFile.annotations.inj (Except.ok.inj h)
    exact ⟨names, rfl, hframes, has⟩

/-- **No access of the reader is out of range.** -/
theorem parse?_eq (content origin : String) (threshold : Single) :
    parse? content origin threshold = some (parse content origin threshold) := by
  unfold parse?
  dsimp only
  split
  · rfl
  · next htable =>
    simp only [not_or, Decidable.not_not] at htable
    obtain ⟨hne, hminute, hframe⟩ := htable
    split
    · next hzero =>
      rw [List.length_eq_zero_iff.1 hzero] at hframe
      cases hframe
    split
    · next hgroups => rw [parse_of_noMinute hne hminute, if_pos (.inr hgroups)]
    · next hgroups =>
      have hstarts : StartsTable content := ⟨hne, hminute, hframe, Decidable.not_not.1 hgroups⟩
      obtain ⟨hlength, hthree⟩ := hstarts.length_drop
      rw [parse_of_startsTable hstarts, begin?_groups threshold 1 hthree]
      rcases hnames : namesOf origin ((headerOf content).drop 1) with e | names
      · rfl
      · have hwidth : (headerOf content).length = 1 + 3 * names.length := by
          rw [hlength, (namesOf_eq_ok hnames hthree).1]
        have hrows := foldlM_addLine? threshold [] (linesBelow content) hwidth
        rw [List.length_nil, List.nil_append] at hrows
        change ((linesBelow content).foldlM (addLine? threshold (headerOf content).length)
          (0, annotationsFrom threshold [] 1 names)).map _ = _
        rw [hrows, Option.map_some, Except.map, ← rowsIn]

/-! ## What the tracks hold -/

/-- A number is one or zero, and a text that shows nothing is the one that stands for it. -/
def IsClean : Sample → Prop
  | .number x => x = .zero ∨ x = .one
  | .text s => s = Text.blank ∨ Text.isBlank s = false

/-- The track of an annotation has so many frames, of the kind of its column. -/
structure IsWellFormed (frames : Nat) (a : LoggedAnnotation) : Prop where
  series : a.track.series.size = frames
  x : a.track.x.size = frames
  y : a.track.y.size = frames
  kind : a.track.series.kind = a.column.kind
  clean : ∀ frame s, a.track.series.sample? frame = some s → IsClean s

/-- The annotations are those of a table, each with a frame for every row. -/
structure IsTable (content : String) (frames : Nat) (as : List LoggedAnnotation) : Prop where
  columns : (headerOf content).length = 1 + 3 * as.length
  names : ∀ i a, as[i]? = some a →
    (headerOf content)[3 + 3 * i]?.bind columnName? = some (a.name, a.column)
  rows : frames = (linesBelow content).countP
    fun line => (Text.fields line).length = (headerOf content).length
  wellFormed : ∀ a ∈ as, IsWellFormed frames a

theorem sample?_seriesOf (column : LoggedColumn) (fields : List String) (frame : Nat) :
    (seriesOf column threshold fields).sample? frame =
      fields[frame]?.map (sampleOf threshold · column.kind) := by
  cases column <;> simp [seriesOf, Series.sample?, sampleOf, LoggedColumn.kind, Function.comp_def]

theorem isClean_sampleOf (field : String) (kind : SeriesKind) :
    IsClean (sampleOf threshold field kind) := by
  cases kind with
  | numeric =>
    change binaryOf _ _ = _ ∨ binaryOf _ _ = _
    rw [binaryOf]
    split
    · exact .inr rfl
    · exact .inl rfl
  | text =>
    change textOf field = _ ∨ Text.isBlank (textOf field) = false
    rw [textOf]
    split
    · exact .inl rfl
    · next hshows => exact .inr (Bool.eq_false_iff.2 hshows)

theorem isWellFormed_annotationOf (name : String) (column : LoggedColumn) :
    IsWellFormed rows.length (annotationOf threshold rows base name column) where
  series := size_annotationOf base name column
  x := by simp [annotationOf, columnOf]
  y := by simp [annotationOf, columnOf]
  kind := kind_seriesOf column _
  clean frame s hs := by
    rw [annotationOf, sample?_seriesOf] at hs
    obtain ⟨field, -, rfl⟩ := Option.map_eq_some_iff.1 hs
    exact isClean_sampleOf field column.kind

theorem length_rowsOf (width : Nat) (lines : List String) : (rowsOf width lines).length =
    lines.countP fun line => (Text.fields line).length = width := by
  rw [rowsOf, ← List.countP_eq_length_filter, List.countP_map]
  rfl

/-- **Every file is read without an access out of range, and the tracks of a table are well
    formed.** There is an annotation for each group of three columns, and each of them has as
    many frames as there are lines of the width of the first one. -/
theorem parse?_isTable (content origin : String) (threshold : Single) :
    parse? content origin threshold = some (parse content origin threshold) ∧
      ∀ frames as, parse content origin threshold = .ok (.annotations frames as) →
        IsTable content frames as := by
  refine ⟨parse?_eq content origin threshold, fun frames as h => ?_⟩
  obtain ⟨hlength, hthree⟩ := (startsTable_of_parse h).length_drop
  obtain ⟨names, hnames, rfl, rfl⟩ := exists_names_of_parse h
  obtain ⟨hgroups, hat⟩ := namesOf_eq_ok hnames hthree
  refine ⟨?_, fun i a ha => ?_, length_rowsOf _ _, fun a ha => ?_⟩
  · rw [length_annotationsFrom, hlength, hgroups]
  · rw [getElem?_annotationsFrom] at ha
    obtain ⟨n, hn, rfl⟩ := Option.map_eq_some_iff.1 ha
    have hname := hat i n hn
    rw [List.getElem?_drop] at hname
    have hplace : 3 + 3 * i = 1 + (2 + 3 * i) := by omega
    rw [hplace]
    exact hname
  · obtain ⟨i, hi⟩ := List.mem_iff_getElem?.1 ha
    rw [getElem?_annotationsFrom] at hi
    obtain ⟨n, -, rfl⟩ := Option.map_eq_some_iff.1 hi
    exact isWellFormed_annotationOf n.1 n.2

/-- A table of annotations that is read, with what holds of it. -/
theorem exists_of_parse (content origin : String) (threshold : Single)
    (P : Nat → List LoggedAnnotation → Bool)
    (h : (match parse content origin threshold with
      | .ok (.annotations frames as) => P frames as
      | _ => false) = true) : ∃ frames as,
        parse content origin threshold = .ok (.annotations frames as) ∧ P frames as = true := by
  split at h
  · next frames as has => exact ⟨frames, as, has, h⟩
  · cases h

/-- A table with a line that has not all of its fields. -/
def ragged : String := "Frame,a_x,a_y,a_txt\n0,1,2,hello\n1,1\n2,1,2,world\n"

/-- Two of three lines are rows. -/
theorem parse?_isTable_of_ragged : ∃ as,
    parse ragged "r.csv" .one = .ok (.annotations 2 as) ∧ IsTable ragged 2 as ∧ as.length = 1 := by
  obtain ⟨frames, as, has, hread⟩ := exists_of_parse ragged "r.csv" .one
    (fun frames as => frames == 2 && as.length == 1) (by decide +kernel)
  rw [Bool.and_eq_true, beq_iff_eq, beq_iff_eq] at hread
  obtain ⟨rfl, hlength⟩ := hread
  exact ⟨as, has, (parse?_isTable ragged "r.csv" .one).2 2 as has, hlength⟩

/-! ## The frames of rows -/

/-- The number of the frame that a row names. -/
def frameOf? (row : List String) : Option Nat :=
  row[0]?.bind fun field => Text.digits? (unquoted (Text.trim field.toList))

/-- At a frame, the annotation has the place and the sample that its columns have in a row. -/
structure ShowsRow (threshold : Single) (i frame : Nat) (row : List String)
    (a : LoggedAnnotation) : Prop where
  x : a.track.x[frame]? = some (numberOf (row[1 + 3 * i]?.getD ""))
  y : a.track.y[frame]? = some (numberOf (row[2 + 3 * i]?.getD ""))
  sample : a.track.series.sample? frame =
    some (sampleOf threshold (row[3 + 3 * i]?.getD "") a.column.kind)

/-- Every row is shown at the frame that it names. -/
def LandsByFrame (threshold : Single) (content : String) (as : List LoggedAnnotation) : Prop :=
  ∀ row ∈ rowsIn content, ∀ frame, frameOf? row = some frame →
    ∀ i a, as[i]? = some a → ShowsRow threshold i frame row a

/-- The row at a place is shown at the frame of this number. -/
theorem showsRow_annotationOf {frame : Nat} (h : rows[frame]? = some row) (i : Nat) (name : String)
    (column : LoggedColumn) :
    ShowsRow threshold i frame row (annotationOf threshold rows (1 + 3 * i) name column) := by
  have hplaces : 1 + 3 * i + 1 = 2 + 3 * i ∧ 1 + 3 * i + 2 = 3 + 3 * i := by omega
  constructor
  · simp [annotationOf, columnOf, h]
  · simp [annotationOf, columnOf, h, hplaces]
  · simp [annotationOf, sample?_seriesOf, columnOf, h, hplaces]

/-- Numbers that grow and stay within a range of their count are this range. -/
theorem eq_range'_of_pairwise {keys : List Nat} : ∀ {b : Nat}, keys.Pairwise (· < ·) →
    (∀ k ∈ keys, b ≤ k ∧ k < b + keys.length) → keys = List.range' b keys.length := by
  induction keys with
  | nil => exact fun _ _ => rfl
  | cons k keys ih =>
    intro b hgrow hwithin
    rw [List.pairwise_cons] at hgrow
    rw [List.forall_mem_cons, List.length_cons] at hwithin
    -- the others lie behind the first one, and there is only room for them behind `b`
    have hrest := ih (b := b + 1) hgrow.2 fun m hm => by
      have := hgrow.1 m hm
      have := (hwithin.2 m hm).2
      omega
    have hfirst : k = b := by
      rcases keys with _ | ⟨m, keys⟩
      · have := hwithin.1
        rw [List.length_nil] at this
        omega
      · rw [List.length_cons, List.range'_succ] at hrest
        have := hgrow.1 m List.mem_cons_self
        have := (List.cons.inj hrest).1
        omega
    rw [List.length_cons, List.range'_succ, ← hrest, hfirst]

/-- **Every row is shown at the frame of its place, and so at the one that it names just if the
    rows name all frames from zero on.** A line that is left out leaves no frame free, and all
    rows behind it come to lie too early. -/
theorem landsByFrame_iff {keys : List Nat}
    (h : parse content origin threshold = .ok (.annotations frames as))
    (hkeys : (rowsIn content).map frameOf? = keys.map some) (hgrow : keys.Pairwise (· < ·)) :
    (∀ j row, (rowsIn content)[j]? = some row → ∀ i a, as[i]? = some a →
      ShowsRow threshold i j row a) ∧
    (LandsByFrame threshold content as ↔ as = [] ∨ keys = List.range keys.length) := by
  obtain ⟨names, -, rfl, rfl⟩ := exists_names_of_parse h
  have hplaces : ∀ (j : Nat) row, (rowsIn content)[j]? = some row → ∀ i a,
      (annotationsFrom threshold (rowsIn content) 1 names)[i]? = some a →
        ShowsRow threshold i j row a := by
    intro j row hrow i a ha
    rw [getElem?_annotationsFrom] at ha
    obtain ⟨n, -, rfl⟩ := Option.map_eq_some_iff.1 ha
    exact showsRow_annotationOf hrow i n.1 n.2
  have hlength : (rowsIn content).length = keys.length := by
    rw [← List.length_map, hkeys, List.length_map]
  have hkey : ∀ (j : Nat) row, (rowsIn content)[j]? = some row → frameOf? row = keys[j]? := by
    intro j row hrow
    have hat := congrArg (·[j]?) hkeys
    simp only [List.getElem?_map, hrow, Option.map_some] at hat
    rcases hj : keys[j]? with _ | k
    · rw [hj] at hat
      cases hat
    · rw [hj] at hat
      exact Option.some.inj hat
  refine ⟨hplaces, fun hlands => ?_, fun hall row hrow frame hframe i a ha => ?_⟩
  · rcases names with _ | ⟨n, names⟩
    · exact .inl rfl
    refine .inr ?_
    rw [List.range_eq_range']
    refine eq_range'_of_pairwise hgrow fun k hk => ⟨Nat.zero_le k, ?_⟩
    obtain ⟨j, hj⟩ := List.mem_iff_getElem?.1 hk
    obtain ⟨row, hrow⟩ : ∃ row, (rowsIn content)[j]? = some row := by
      have hlt := (List.getElem?_eq_some_iff.1 hj).1
      rw [← hlength] at hlt
      exact ⟨_, List.getElem?_eq_getElem hlt⟩
    have hshows := hlands row (List.mem_of_getElem? hrow) k ((hkey j row hrow).trans hj) 0 _ rfl
    have hlt := Series.lt_size_of_sample? hshows.sample
    have hsize : (annotationOf threshold (rowsIn content) 1 n.1 n.2).track.series.size =
        (rowsIn content).length := size_annotationOf 1 n.1 n.2
    omega
  · rcases hall with hnil | hrange
    · rw [hnil] at ha
      cases ha
    · obtain ⟨j, hj⟩ := List.mem_iff_getElem?.1 hrow
      have hplace : keys[j]? = some j := by
        have hlt := (List.getElem?_eq_some_iff.1 hj).1
        rw [hlength] at hlt
        rw [hrange, List.getElem?_range hlt]
      rw [hkey j row hj, hplace] at hframe
      cases hframe
      exact hplaces _ row hj i a ha

/-- A table whose last line has not all of its fields. -/
def trailing : String := "Frame,a_x,a_y,a_txt\n0,1,2,hello\n1,1,2,world\n2,1\n"

/-- Behind the last row a line may be left out. -/
theorem landsByFrame_of_trailing : ∃ as,
    parse trailing "t.csv" .one = .ok (.annotations 2 as) ∧ as ≠ [] ∧
      (rowsIn trailing).map frameOf? = [0, 1].map some ∧ LandsByFrame .one trailing as := by
  obtain ⟨frames, as, has, hread⟩ := exists_of_parse trailing "t.csv" .one
    (fun frames as => frames == 2 && as != []) (by decide +kernel)
  rw [Bool.and_eq_true, beq_iff_eq, bne_iff_ne] at hread
  obtain ⟨rfl, hne⟩ := hread
  have hkeys : (rowsIn trailing).map frameOf? = [0, 1].map some := by decide +kernel
  exact ⟨as, has, hne, hkeys, (landsByFrame_iff has hkeys (by decide)).2.2 (.inr rfl)⟩

/-- **The row behind a line that is left out lands too early.** The row of frame two is shown at
    frame one, and nothing at frame two. -/
theorem not_landsByFrame_of_ragged : ∃ as,
    parse ragged "r.csv" .one = .ok (.annotations 2 as) ∧
      (rowsIn ragged).map frameOf? = [0, 2].map some ∧ ¬LandsByFrame .one ragged as ∧
      as.map (·.track.series.sample? 1) = [some (.text "world")] ∧
      as.map (·.track.series.sample? 2) = [none] := by
  obtain ⟨frames, as, has, hread⟩ := exists_of_parse ragged "r.csv" .one
    (fun frames as => frames == 2 && as.map (·.track.series.sample? 1) == [some (.text "world")] &&
      as.map (·.track.series.sample? 2) == [none]) (by decide +kernel)
  rw [Bool.and_eq_true, Bool.and_eq_true, beq_iff_eq, beq_iff_eq, beq_iff_eq] at hread
  obtain ⟨⟨rfl, hearly⟩, hnone⟩ := hread
  have hkeys : (rowsIn ragged).map frameOf? = [0, 2].map some := by decide +kernel
  refine ⟨as, has, hkeys, fun hlands => ?_, hearly, hnone⟩
  obtain ⟨a, rfl, ha⟩ := List.map_eq_singleton_iff.1 hnone
  have hrow : ["2", "1", "2", "world"] ∈ rowsIn ragged := by decide +kernel
  have hshows := (hlands _ hrow 2 (by decide +kernel) 0 a rfl).sample
  rw [ha] at hshows
  cases hshows

end LoggedFile

end Screenmark
