/-
  Screenmark — the tables of a scan can be ingested.

  In front of every frame the sheets of a scan hold the rows of its tracks so far
  (`Transcribed`), and the recognised texts among them hold nothing that ends a field, as
  they were cleaned. In the end the files hold these sheets, so they are read as the
  tracks that the scan left.

  * `holdsTable_of_run` : every table of a scan is read as its tracks, unless the text of
    an element of the screen holds a comma or a line feed;
  * `not_holdsTable_of_comma` : such a text loses the frame.
-/
import Screenmark.Proofs.Output.Outlet
import Screenmark.Proofs.Scan.Cleaned
import Screenmark.Proofs.Scan.Locality

namespace Screenmark

/-! ## Writing the rows of tracks -/

namespace Sheets

variable {o : Outlet} {us : List Target} {ts ts' : Tracks} {k : Nat} {path : String}

/-- The sheets of targets with the rows of the first `k` frames. -/
def ofTracks (o : Outlet) (us : List Target) (ts : Tracks) (k : Nat) : Sheets where
  combined := .ofTracks (o.combinedPath (us.map (·.name))) ts us k
  own := us.map fun t => .ofTracks (o.sheetPath t.name) ts [t] k

theorem start_eq_ofTracks (o : Outlet) (us : List Target) (ts : Tracks) :
    start o us = ofTracks o us ts 0 := by
  simp [start, ofTracks, Sheet.ofTracks, Sheet.start]

/-- The rows of a frame are written behind those that are there. -/
theorem writeFrame_ofTracks (h : ∀ t ∈ us, ∀ f < k, ts'.rowOf t f = ts.rowOf t f) :
    (Sheet.ofTracks path ts us k).writeFrame k (us.map (ts'.rowOf · k)) =
      .ok (.ofTracks path ts' us (k + 1)) := by
  have hrecords : (List.range k).map (Sheet.recordOf ts us) =
      (List.range k).map (Sheet.recordOf ts' us) := by
    refine List.map_congr_left fun f hf => ?_
    have hrows : us.map (ts.rowOf · f) = us.map (ts'.rowOf · f) :=
      List.map_congr_left fun t ht => (h t ht f (List.mem_range.1 hf)).symm
    rw [Sheet.recordOf, Sheet.recordOf, hrows]
  have hwidth : (Sheet.recordOf ts' us k).length =
      (Sheet.ofTracks path ts us k).columns.length := by
    rw [Sheet.length_recordOf, Sheet.ofTracks, List.length_cons, length_flatMap_columns,
      Nat.add_comm]
  refine (if_pos hwidth).trans ?_
  rw [Sheet.ofTracks, Sheet.ofTracks, hrecords, List.range_succ, List.map_append,
    List.reverse_append]
  rfl

theorem writeOwn_ofTracks (o : Outlet) : ∀ {us : List Target},
    (∀ t ∈ us, ∀ f < k, ts'.rowOf t f = ts.rowOf t f) →
      writeOwn k (us.map fun t => .ofTracks (o.sheetPath t.name) ts [t] k)
        (us.map (ts'.rowOf · k)) =
          .ok (us.map fun t => .ofTracks (o.sheetPath t.name) ts' [t] (k + 1))
  | [], _ => rfl
  | t :: us, h => by
    rw [List.forall_mem_cons] at h
    have hself : (Sheet.ofTracks (o.sheetPath t.name) ts [t] k).writeFrame k [ts'.rowOf t k] =
        .ok (.ofTracks (o.sheetPath t.name) ts' [t] (k + 1)) :=
      writeFrame_ofTracks (List.forall_mem_singleton.2 h.1)
    rw [List.map_cons, List.map_cons, writeOwn, hself, writeOwn_ofTracks o h.2]
    rfl

/-- **Sheets of tracks take the rows of a frame**, and are the sheets of the tracks that
    have them. -/
theorem write_ofTracks (h : ∀ t ∈ us, ∀ f < k, ts'.rowOf t f = ts.rowOf t f) :
    (ofTracks o us ts k).write k (us.map (ts'.rowOf · k)) = .ok (ofTracks o us ts' (k + 1)) := by
  rw [write, ofTracks, writeFrame_ofTracks h, writeOwn_ofTracks o h]
  rfl

end Sheets

namespace Scan

open Scanning ScanState

variable {σ : Type} {sc : Scan σ} {logged : List String} {ts₀ : Tracks} {t : Target}
  {i k total : Nat} {s s' s₀ : ScanState σ} {entries : List LogEntry} {entry : LogEntry}
  {r : FrameRecord}

/-! ## The row of a record -/

theorem mem_ordered_of_getElem? (h : sc.targets[i]? = some t) : (i, t) ∈ sc.ordered := by
  have hi : i ∈ sc.plan.order := (Order.places_perm sc.plan.prerequisites sc.targets).mem_iff.2
    (List.mem_range.2 (List.getElem?_eq_some_iff.1 h).1)
  exact List.mem_filterMap.2 ⟨i, hi, by rw [h]; rfl⟩

/-- The entry of a target is the row that its track got. -/
theorem Steps.row?_eq (hc : sc.plan.IsCompiled logged) (hlock : sc.Lockstep ts₀ k s.work.tracks)
    (h : Steps sc sc.ordered s entries s') (hi : (i, t) ∈ sc.ordered) :
    ∃ entry s₁ s₂, entries.find? (·.place = i) = some entry ∧ sc.step i t s₁ = .ok entry s₂ ∧
      s'.work.tracks.row? t.name k = some entry.observed := by
  obtain ⟨pre, post, hordered⟩ := List.append_of_mem hi
  have hplaces := h.places
  rw [hordered] at h
  obtain ⟨before, entry, after, s₁, s₂, rfl, hbefore, hstep, hafter⟩ := h.split
  have hplace := (entry_of_step hstep).1
  refine ⟨entry, s₁, s₂, ?_, hstep, ?_⟩
  · -- No place stands twice among the entries, so none before has this one.
    have hnd : ((before ++ entry :: after).map (·.place)).Nodup := hplaces ▸ nodup_places
    rw [List.map_append, List.map_cons, List.nodup_append] at hnd
    have hno : ∀ e ∈ before, e.place ≠ i := fun e he heq =>
      hnd.2.2 e.place (List.mem_map_of_mem he) entry.place List.mem_cons_self
        (heq.trans hplace.symm)
    exact List.find?_eq_some_iff_append.2 ⟨decide_eq_true hplace, before, after, rfl,
      fun e he => by simpa using hno e he⟩
  · have hsub : pre.Sublist sc.ordered := hordered ▸ List.sublist_append_left ..
    have hw := hlock.within_ordered hc hbefore hsub
    obtain ⟨-, hrows⟩ := hlock.behind hc hw hordered _ List.mem_cons_self
    exact hafter.keeps.row _ _ _ (hrows.row?_of_append (append_of_step hstep))

/-- **The row of a record is the last row of the tracks.** -/
theorem row_eq_rowOf (hc : sc.plan.IsCompiled logged) (hlock : sc.Lockstep ts₀ k s.work.tracks)
    (h : Steps sc sc.ordered s r.entries s') :
    r.row sc.targets = sc.targets.map (s'.work.tracks.rowOf · k) := by
  refine List.ext_getElem (by simp [FrameRecord.row]) fun j hj hj' => ?_
  have hlt : j < sc.targets.length := by simpa using hj'
  obtain ⟨entry, -, -, hentry, -, hrow⟩ :=
    h.row?_eq hc hlock (mem_ordered_of_getElem? (List.getElem?_eq_getElem hlt))
  simp [FrameRecord.row, FrameRecord.observed, hentry, Tracks.rowOf, hrow]

/-! ## Texts that can be written -/

/-- What is seen of a target, other than an element of the screen, can be written. -/
def SeesWritable (t : Target) (seen : Option Observation) : Prop :=
  t.stage ≠ .accessibility → ∀ o, seen = some o → o.IsWritable

theorem isWritable_neutral (kind : SeriesKind) : (Observation.neutral kind).IsWritable := by
  intro text htext
  cases kind with
  | numeric => cases htext
  | text =>
    cases htext
    decide

theorem leads_lookFor_writable {image : GreyImage} {region : Rect} :
    Leads (sc.lookFor t image region) s (fun seen _ => SeesWritable t seen) fun _ _ => True := by
  simp only [lookFor]
  split
  · trivial
  · split
    · exact fun _ o ho => by cases ho
    · split
      · trivial
      · simp only [leads_bind, leads_use, leads_pure]
        intro _ o ho text htext
        cases ho
        cases htext

theorem leads_readText_writable {characters : Charset} {image : GreyImage} {region : Rect} :
    Leads (sc.readText t characters image region) s (fun seen _ => SeesWritable t seen)
      fun _ _ => True := by
  simp only [readText]
  split
  · trivial
  · simp only [leads_bind, leads_use, leads_pure]
    intro _ o ho text htext
    cases ho
    cases htext
    exact (isUnbroken_cleanText _ _).isField

/-- **What a recogniser reads can be written**, whatever it is. -/
theorem leads_observe_writable :
    Leads (sc.observe t) s (fun seen _ => SeesWritable t seen) fun _ _ => True := by
  unfold observe
  split
  · next hstage => exact .intro (fun _ _ _ hno => absurd hstage hno) fun _ _ _ => trivial
  · simp only [observeImage, leads_bind]
    refine .intro (fun image s₁ _ => ?_) fun _ _ _ => trivial
    rcases image with _ | image
    · exact fun _ o ho => nomatch ho
    · simp only [leads_bind, leads_get, leads_ofExcept]
      refine ⟨fun region _ => ?_, fun _ _ => trivial⟩
      rcases region with _ | region
      · exact fun _ o ho => nomatch ho
      · dsimp only
        split
        · exact leads_readText_writable
        · exact leads_lookFor_writable

theorem isWritable_of_step (h : sc.step i t s = .ok entry s') (ht : t.stage ≠ .accessibility) :
    entry.observed.IsWritable := by
  obtain ⟨seen, s₁, -, -, hseen, hobserved, -⟩ := step_eq_ok h
  rw [hobserved]
  rcases seen with _ | o
  · exact isWritable_neutral _
  · rcases hseen with ⟨hnone, -⟩ | hobs
    · cases hnone
    · exact leads_observe_writable.ok hobs ht o rfl

/-! ## Sheets in front of the frames -/

variable {o : Outlet} {files : Tree}

/-- What is written in front of a frame. -/
structure Transcribed (sc : Scan σ) (o : Outlet) (files : Tree) (k : Nat) (s : ScanState σ) :
    Prop where
  sheets : s.sheets = some (.ofTracks o sc.targets s.work.tracks k)
  files : s.work.files = files
  writable : ∀ t ∈ sc.targets, t.stage ≠ .accessibility → ∀ f < k,
    (s.work.tracks.rowOf t f).IsWritable

/-- A frame that is worked out leaves rows that can be written. -/
theorem Transcribed.writable_succ {s₁ : ScanState σ} (hc : sc.plan.IsCompiled logged)
    (hlock : sc.Lockstep ts₀ k s.work.tracks) (h : sc.Transcribed o files k s)
    (hsteps : Steps sc sc.ordered (sc.polled s).opened entries s₁) :
    ∀ t ∈ sc.targets, t.stage ≠ .accessibility → ∀ f < k + 1,
      (s₁.work.tracks.rowOf t f).IsWritable := by
  have hopened : sc.Lockstep ts₀ k (sc.polled s).opened.work.tracks := hlock
  intro t ht hstage f hf
  by_cases hfk : f < k
  · have hkeeps : s.work.tracks.Keeps s₁.work.tracks := hsteps.keeps
    rw [hkeeps.rowOf_eq (hlock.rows t ht) hfk]
    exact h.writable t ht hstage f hfk
  · obtain rfl : f = k := by omega
    obtain ⟨i, hi⟩ := exists_mem_ordered ht
    obtain ⟨entry, _, _, -, hstep, hrow⟩ := hsteps.row?_eq hc hopened hi
    rw [Tracks.rowOf, hrow, Option.getD_some]
    exact isWritable_of_step hstep hstage

theorem leads_writeSheets_of_write {x x' : Sheets} (hx : s.sheets = some x)
    (hwrite : x.write s.cursor.frame (r.row sc.targets) = .ok x') :
    Leads (sc.writeSheets r) s (fun _ s' => s' = { s with sheets := some x' }) fun _ _ => False := by
  unfold Leads
  rw [writeSheets_apply, hx]
  dsimp only
  rw [hwrite]

/-- **A frame is written down as it was worked out.** -/
theorem Transcribed.leads_pass (hc : sc.plan.IsCompiled logged) (hin : sc.InStep ts₀ k s)
    (h : sc.Transcribed o files k s) : Leads (sc.pass total) s
      (fun r s' => r.isSome = true → sc.Transcribed o files (k + 1) s') fun _ _ => True := by
  rw [Scan.leads_pass]
  split
  · exact fun hsome => nomatch hsome
  · refine .intro (fun r s₁ hframe => ?_) fun _ _ _ => trivial
    have hsteps := (frame_eq_ok hframe).1
    have hpolled : sc.Lockstep ts₀ k (sc.polled s).work.tracks := hin.tracks
    have hopened : sc.Lockstep ts₀ k (sc.polled s).opened.work.tracks := hin.tracks
    have hw := (leads_frame_lockstep hc hpolled).ok hframe
    have hkeeps : s.work.tracks.Keeps s₁.work.tracks := hsteps.keeps
    have hcursor : s₁.cursor.frame = k := hw.frame.trans hin.frame
    have hwritable := h.writable_succ hc hin.tracks hsteps
    have hwrite : (Sheets.ofTracks o sc.targets s.work.tracks k).write s₁.cursor.frame
        (r.row sc.targets) = .ok (.ofTracks o sc.targets s₁.work.tracks (k + 1)) := by
      rw [hcursor, row_eq_rowOf hc hopened hsteps]
      exact Sheets.write_ofTracks fun t ht f hf => hkeeps.rowOf_eq (hin.tracks.rows t ht) hf
    refine (leads_writeSheets_of_write (hw.sheets.trans h.sheets) hwrite).mono
      (fun _ s₂ hs => ?_) fun _ _ _ => trivial
    subst hs
    refine leads_goOn.mono (fun _ s₃ hs _ => ?_) fun _ _ _ => trivial
    subst hs
    exact ⟨rfl, hw.files.trans h.files, hwritable⟩

theorem Reaches.transcribed (hc : sc.plan.IsCompiled logged) (h₀ : sc.InStep ts₀ 0 s₀)
    (hrec : sc.Transcribed o files 0 s₀) (h : sc.Reaches total s₀ k s) :
    sc.Transcribed o files k s := by
  induction h with
  | start => exact hrec
  | next hs hpass ih => exact (ih.leads_pass hc (hs.inStep hc h₀)).ok hpass rfl

/-! ## Sheets at the end of a scan -/

variable {w w' w₁ : Workspace σ} {sheets : Option Sheets} {report : ScanReport}

theorem leads_prepare_takes : Leads (sc.prepare (some o)) w
    (fun sheets w₁ => o.outputs.tables = true → sheets = some (.start o sc.targets) ∧
      ∀ x ∈ (Sheets.start o sc.targets).all, ∃ place, w₁.files.Takes x.path place)
    fun _ _ => True := by
  refine leads_prepare_opened.mono (fun sheets w₁ h htables => ?_) fun _ _ _ => trivial
  have hopened : sc.opened (some o) = some (.start o sc.targets) := if_pos htables
  obtain ⟨hprepared, rfl, -⟩ := h
  have htakes := hprepared.takes
  rw [hopened] at htakes ⊢
  exact ⟨rfl, htakes⟩

/-- Nothing has to be written in front of the first frame. -/
theorem transcribed_initial (sc : Scan σ) (o : Outlet) (w : Workspace σ) :
    sc.Transcribed o w.files 0 (initial w (some (.start o sc.targets))) where
  sheets := congrArg some (Sheets.start_eq_ofTracks ..)
  files := rfl
  writable _ _ _ f hf := absurd hf (Nat.not_lt_zero f)

theorem paths_ofTracks (o : Outlet) (us : List Target) (ts : Tracks) (n : Nat) :
    (Sheets.ofTracks o us ts n).all.map (·.path) = (Sheets.start o us).all.map (·.path) := by
  simp [Sheets.ofTracks, Sheets.start, Sheets.all, Sheet.ofTracks, Sheet.start]

/-- A scan that ends keeps the sheets of its tracks, in files that it opened before. -/
theorem exists_kept_of_run (hc : sc.plan.IsCompiled logged) (hne : sc.targets ≠ [])
    (htables : o.outputs.tables = true) (h : sc.run total (some o) w = .ok report w') :
    sc.Lockstep w.tracks report.frames w'.tracks ∧
      (∀ t ∈ sc.targets, t.stage ≠ .accessibility → ∀ f < report.frames,
        (w'.tracks.rowOf t f).IsWritable) ∧
      report.tables = (Sheets.start o sc.targets).all.map (·.path) ∧
      ∃ opened : Tree,
        (∀ x ∈ (Sheets.ofTracks o sc.targets w'.tracks report.frames).all,
          ∃ place, opened.Takes x.path place) ∧
        w'.files = (Sheets.ofTracks o sc.targets w'.tracks report.frames).all.foldl
          Outlet.keepSheet opened := by
  rcases exists_reaches_of_run hc h with ⟨-, hnil, -⟩ |
    ⟨sheets, v₁, s, -, hprep, hr, htracks, hfiles, hreport⟩
  · exact absurd hnil hne
  obtain ⟨rfl, htakes⟩ := leads_prepare_takes.ok hprep htables
  have h₀ := (leads_prepare.ok hprep).inStep hc
  have hrec : sc.Transcribed o v₁.files report.frames s :=
    hr.transcribed hc h₀ (transcribed_initial sc o v₁)
  rw [htracks]
  refine ⟨(hr.inStep hc h₀).tracks, hrec.writable, ?_, v₁.files,
    Outlet.takes_of_paths (paths_ofTracks ..) htakes, ?_⟩
  · rw [hreport, tables, sheetsOf, hrec.sheets]
    exact paths_ofTracks _ _ _ _
  · rw [hfiles, keep, sheetsOf, hrec.sheets, Workspace.kept, hrec.files]
    rfl

/-- A scan that ends leaves the rows of its tracks in its files, if the names of its
    targets lead to different files. -/
theorem exists_transcribed_of_run (hc : sc.plan.IsCompiled logged) (hne : sc.targets ≠ [])
    (htables : o.outputs.tables = true) (hnames : ∀ t ∈ sc.targets, Text.IsName t.name)
    (h : sc.run total (some o) w = .ok report w') :
    sc.Lockstep w.tracks report.frames w'.tracks ∧
      (∀ t ∈ sc.targets, t.stage ≠ .accessibility → ∀ f < report.frames,
        (w'.tracks.rowOf t f).IsWritable) ∧
      report.tables = (Sheets.start o sc.targets).all.map (·.path) ∧
      ∀ x ∈ (Sheets.ofTracks o sc.targets w'.tracks report.frames).all,
        w'.files.readText x.path = .ok x.text := by
  obtain ⟨hlock, hwritable, hreport, opened, htakes, hfiles⟩ := exists_kept_of_run hc hne htables h
  refine ⟨hlock, hwritable, hreport, fun x hx => ?_⟩
  rw [hfiles]
  exact Outlet.readText_of_paths (paths_ofTracks ..) (fun t ht => (hnames t ht).not_mem_slash)
    hc.nodup_names htakes x hx

end Scan

/-! ## Tables in files -/

/-- The file at a path is read as a table. -/
def Tree.HoldsTable (files : Tree) (path : String) (threshold : Single) (frames : Nat)
    (as : List LoggedAnnotation) : Prop :=
  ∃ text, files.readText path = .ok text ∧
    ∀ origin, LoggedFile.parse text origin threshold = .ok (.annotations frames as)

/-- The number of frames of the table in a file. -/
def Tree.framesIn? (files : Tree) (path : String) (threshold : Single) : Option Nat :=
  match files.readText path with
  | .error _ => none
  | .ok text =>
    match LoggedFile.parse text path threshold with
    | .ok (.annotations frames _) => some frames
    | _ => none

theorem Tree.HoldsTable.framesIn?_eq {files : Tree} {path : String} {threshold : Single}
    {frames : Nat} {as : List LoggedAnnotation} (h : files.HoldsTable path threshold frames as) :
    files.framesIn? path threshold = some frames := by
  obtain ⟨text, htext, hparse⟩ := h
  rw [framesIn?, htext]
  dsimp only
  rw [hparse]

namespace Scan

variable {σ : Type} {sc : Scan σ} {logged : List String} {o : Outlet} {w w' : Workspace σ}
  {report : ScanReport} {total : Nat}

/-- **The tables of a scan are read as the tracks that it left**, one row for each frame,
    and one annotation for each target in the order of the targets, if no text that was
    taken from an element of the screen holds a comma or a line feed. -/
theorem holdsTable_of_run {sources : List String} (h : Plan.compile sources logged = .ok sc.plan)
    (hne : sc.targets ≠ []) (htables : o.outputs.tables = true)
    (hnames : ∀ t ∈ sc.targets, Text.IsName t.name)
    (hrun : sc.run total (some o) w = .ok report w')
    (htexts : ∀ t ∈ sc.targets, t.stage = .accessibility →
      ∀ s ∈ w'.tracks.textsOf t.name, Text.IsField s) :
    report.tables = (Sheets.start o sc.targets).all.map (·.path) ∧
    (∃ as, sc.targets.map w'.tracks.relogged? = as.map some ∧
      w'.files.HoldsTable (o.combinedPath (sc.targets.map (·.name))) w.tracks.threshold
        report.frames as) ∧
    ∀ t ∈ sc.targets, ∃ a, w'.tracks.relogged? t = some a ∧
      w'.files.HoldsTable (o.sheetPath t.name) w.tracks.threshold report.frames [a] := by
  have hc := Plan.isCompiled_of_compile h
  obtain ⟨hlock, hwritable, hreport, hfiles⟩ := exists_transcribed_of_run hc hne htables hnames hrun
  have hrows : ∀ t ∈ sc.targets, ∀ f < report.frames, (w'.tracks.rowOf t f).IsWritable := by
    intro t ht f hf
    by_cases hstage : t.stage = .accessibility
    · exact (hlock.rows t ht).isWritable_rowOf hf (htexts t ht hstage)
    · exact hwritable t ht hstage f hf
  rw [Sheets.all, List.forall_mem_cons] at hfiles
  -- A sheet of some of the targets is read as their tracks.
  have htable : ∀ {us : List Target} {path : String}, (∀ t ∈ us, t ∈ sc.targets) →
      w'.files.readText path = .ok (Sheet.ofTracks path w'.tracks us report.frames).text →
        ∃ as, us.map w'.tracks.relogged? = as.map some ∧
          w'.files.HoldsTable path w.tracks.threshold report.frames as := by
    intro us path hus htext
    obtain ⟨as, has, hread⟩ := Sheet.parse_ofTracks path
      (fun t ht => hnames t (hus t ht)) (fun t ht => hlock.rows t (hus t ht))
      fun t ht => hrows t (hus t ht)
    exact ⟨as, has, _, htext, hlock.threshold ▸ hread⟩
  refine ⟨hreport, htable (fun t ht => ht) hfiles.1, fun t ht => ?_⟩
  have hown : w'.files.readText (o.sheetPath t.name) =
      .ok (Sheet.ofTracks (o.sheetPath t.name) w'.tracks [t] report.frames).text :=
    hfiles.2 (.ofTracks (o.sheetPath t.name) w'.tracks [t] report.frames)
      (List.mem_map_of_mem ht)
  obtain ⟨as, has, hholds⟩ := htable (List.forall_mem_singleton.2 ht) hown
  obtain ⟨a, rfl, ha⟩ := List.map_eq_singleton_iff.1 has.symm
  exact ⟨a, ha.symm, hholds⟩

/-- A scan of a screen on which a button is under the pointer. -/
def hovering (label : String) (p : Plan) : Scan Unit where
  plan := p
  settings := .default
  templates := .empty
  instruments :=
    { Instruments.none with
      snapshots := some fun frame w =>
        (some ⟨frame, some ⟨"button", label, .one, .one, .one, .one⟩, none⟩, w) }
  stopped := false

/-- Files in the working folder. -/
def besideRecording : Outlet := ⟨"", "rec", ⟨Binary.one, none⟩, "", .all⟩

/-- Nothing is there yet. -/
def unwritten : Workspace Unit := ⟨(), .empty, .empty Settings.defaultThreshold, .initial⟩

/-- A label without a comma is read from the table at every frame. -/
theorem holdsTable_of_run_of_label : ∃ p report w',
    Plan.compile ["accessibilityHover(h)"] [] = .ok p ∧
      (hovering "Save as" p).run 2 (some besideRecording) unwritten = .ok report w' ∧
      report.frames = 2 ∧ w'.tracks.textsOf "h" = ["Save as", "Save as"] ∧
      ∃ as, p.targets.map w'.tracks.relogged? = as.map some ∧
        w'.files.HoldsTable "rec+h.csv" unwritten.tracks.threshold 2 as := by
  obtain ⟨p, report, w', hp, hrun, h⟩ := exists_run ["accessibilityHover(h)"] []
    (hovering "Save as") 2 (some besideRecording) unwritten
    (fun p report w' => p.targets.map (·.name) = ["h"] && report.frames = 2 &&
      w'.tracks.textsOf "h" = ["Save as", "Save as"])
    (by decide +kernel)
  simp only [Bool.and_eq_true, decide_eq_true_iff] at h
  obtain ⟨⟨hnames, hframes⟩, htexts⟩ := h
  have hplan : Plan.compile ["accessibilityHover(h)"] [] = .ok (hovering "Save as" p).plan := hp
  have hname : ∀ t ∈ (hovering "Save as" p).targets, t.name = "h" := fun t ht =>
    List.mem_singleton.1 (hnames ▸ List.mem_map_of_mem ht)
  have hne : (hovering "Save as" p).targets ≠ [] := fun hnil => by
    rw [show p.targets = [] from hnil] at hnames
    cases hnames
  have hnamed : ∀ t ∈ (hovering "Save as" p).targets, Text.IsName t.name := fun t ht => by
    rw [hname t ht]
    decide
  have htext : ∀ t ∈ (hovering "Save as" p).targets, t.stage = .accessibility →
      ∀ s ∈ w'.tracks.textsOf t.name, Text.IsField s := fun t ht _ => by
    rw [hname t ht, htexts]
    decide
  have htables : besideRecording.outputs.tables = true := rfl
  have hread := holdsTable_of_run hplan hne htables hnamed hrun htext
  obtain ⟨-, ⟨as, has, hholds⟩, -⟩ := hread
  have hpath : besideRecording.combinedPath ((hovering "Save as" p).targets.map (·.name)) =
      "rec+h.csv" := by
    rw [show (hovering "Save as" p).targets.map (·.name) = ["h"] from hnames]
    decide +kernel
  rw [hpath, hframes] at hholds
  exact ⟨p, report, w', hp, hrun, hframes, htexts, as, has, hholds⟩

/-- **A label with a comma loses its frame**: its line has a field more than the first
    one, and is left out. -/
theorem not_holdsTable_of_comma : ∃ p report w',
    Plan.compile ["accessibilityHover(h)"] [] = .ok p ∧
      (hovering "Save, as" p).run 1 (some besideRecording) unwritten = .ok report w' ∧
      report.frames = 1 ∧ w'.tracks.textsOf "h" = ["Save, as"] ∧
      ¬ ∃ as, w'.files.HoldsTable "rec+h.csv" unwritten.tracks.threshold report.frames as := by
  obtain ⟨p, report, w', hp, hrun, h⟩ := exists_run ["accessibilityHover(h)"] []
    (hovering "Save, as") 1 (some besideRecording) unwritten
    (fun _ report w' => report.frames = 1 && w'.tracks.textsOf "h" = ["Save, as"] &&
      w'.files.framesIn? "rec+h.csv" unwritten.tracks.threshold = some 0)
    (by decide +kernel)
  simp only [Bool.and_eq_true, decide_eq_true_iff] at h
  obtain ⟨⟨hframes, htexts⟩, hread⟩ := h
  refine ⟨p, report, w', hp, hrun, hframes, htexts, fun ⟨as, hholds⟩ => ?_⟩
  rw [hholds.framesIn?_eq, hframes] at hread
  cases hread

end Scan

end Screenmark
