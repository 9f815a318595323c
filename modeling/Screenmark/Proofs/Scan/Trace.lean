/-
  Screenmark — what a scan writes.

  A scan opens a sheet for each target and one for all of them before the first frame, and
  keeps them when it ends, however it ends. The frames themselves leave the files, and the
  sheets keep their paths (`Continues`). So a scan writes just its sheets, if tables are
  wanted (`writes_run`).
-/
import Screenmark.Proofs.Output.Trace
import Screenmark.Proofs.Scan.Whole

namespace Screenmark

variable {σ : Type} {sc : Scan σ} {s s' : ScanState σ} {total : Nat}

namespace Scan

open ScanState

/-! ## The sheets of a scan -/

variable {o : Outlet} {P : Writing → Prop} {w : Workspace σ}

/-- The sheets of targets, in the order in which they are opened. -/
def sheetExports (ts : List Target) : List Export :=
  if ts.isEmpty then []
  else ts.map (fun t => .sheet t.name) ++ [.combined (ts.map (·.name))]

theorem paths_start (o : Outlet) (ts : List Target) : (Sheets.start o ts).paths =
    o.pathOf (.combined (ts.map (·.name))) :: (ts.map fun t => Export.sheet t.name).map o.pathOf := by
  simp [Sheets.paths, Sheets.all, Sheets.start, Sheet.start, Outlet.pathOf]

theorem wanted_sheetExports (o : Outlet) (ts : List Target) : o.wanted (sheetExports ts) =
    if o.outputs.tables then sheetExports ts else [] := by
  have hall : ∀ e ∈ sheetExports ts, o.outputs.wants e = o.outputs.tables := by
    unfold sheetExports
    split
    · exact fun e he => by cases he
    · intro e he
      rcases List.mem_append.1 he with hown | hcombined
      · obtain ⟨t, -, rfl⟩ := List.mem_map.1 hown
        rfl
      · rw [List.mem_singleton.1 hcombined]
        rfl
  split
  · next htables => exact List.filter_eq_self.2 fun e he => (hall e he).trans htables
  · next htables => exact List.filter_eq_nil_iff.2 fun e he => by rwa [hall e he]

theorem writes_openSheets (hne : sc.targets ≠ []) (hP : ∀ e columns, P (.opened e columns)) :
    Work.Writes o P (o.wanted (sheetExports sc.targets)) (sc.openSheets (some o)) w
      fun sheets _ => sheets = sc.opened (some o) := by
  rw [wanted_sheetExports, opened, Option.bind_some]
  unfold openSheets
  dsimp only
  split
  · rw [sheetExports, if_neg (by simpa using hne)]
    refine (Work.writes_openSheets fun t _ => hP _ _).bind fun _ _ _ => ?_
    exact (Work.writes_openSheet (hP _ _)).bind_right fun _ _ _ => .pure rfl
  · exact .pure rfl

/-- The sheets of a scan, in whatever state, are those that it opened. -/
theorem exists_tables_eq (hne : sc.targets ≠ []) (hs : s.sheets = sc.opened (some o))
    (h : Continues s s') : ∃ es : List Export, es.Perm (o.wanted (sheetExports sc.targets)) ∧
      tables s' = es.map o.pathOf := by
  rw [h.tables_eq, tables, sheetsOf, hs, wanted_sheetExports, opened, Option.bind_some]
  split
  · rw [sheetExports, if_neg (by simpa using hne)]
    exact ⟨_, (List.perm_append_singleton _ _).symm, paths_start o sc.targets⟩
  · exact ⟨[], .refl [], rfl⟩

/-- Goes through the frames of a scan whose sheets are opened, and keeps them. -/
theorem writes_scanFrames (hne : sc.targets ≠ [])
    (htakes : ∀ x ∈ (sc.opened (some o)).elim [] Sheets.all, ∃ place, w.files.Takes x.path place)
    (hP : ∀ e ∈ o.wanted (sheetExports sc.targets), ∀ columns latest, P (.kept e columns latest)) :
    Work.Writes o P [] (sc.scanFrames total (sc.opened (some o))) w fun report _ =>
      report.tables.Perm ((o.wanted (sheetExports sc.targets)).map o.pathOf) := by
  have hkept : ∀ {s}, Continues (initial w (sc.opened (some o))) s →
      (tables s).Perm ((o.wanted (sheetExports sc.targets)).map o.pathOf) ∧
        o.Wrote P [] w.files (keep s).files := by
    intro s hs
    obtain ⟨es, hes, htables⟩ := exists_tables_eq hne rfl hs
    refine ⟨htables ▸ hes.map o.pathOf, ?_⟩
    have hfiles : s.work.files = w.files := hs.files
    exact hfiles ▸ Outlet.wrote_foldl_keepSheet htables (fun e he => hP e (hes.mem_iff.1 he)) _
  have hframes : Leads (sc.frames total total) (initial w (sc.opened (some o)))
      (fun _ s => Continues (initial w (sc.opened (some o))) s)
      fun _ s => Continues (initial w (sc.opened (some o))) s := leads_frames_continues
  unfold Work.Writes Leads
  rw [scanFrames_eq htakes]
  rcases hend : sc.frames total total (initial w (sc.opened (some o))) with ⟨b, s⟩ | ⟨e, s⟩
  · exact hkept (hframes.ok hend)
  · exact ⟨[], List.prefix_refl [], (hkept (hframes.error hend)).2⟩

/-- **A scan writes just the sheets of its targets**, if tables are wanted. -/
theorem writes_run (hopened : ∀ e columns, P (.opened e columns))
    (hkept : ∀ e ∈ o.wanted (sheetExports sc.targets), ∀ columns latest, P (.kept e columns latest)) :
    Work.Writes o P (o.wanted (sheetExports sc.targets)) (sc.run total (some o)) w fun report _ =>
      report.tables.Perm ((o.wanted (sheetExports sc.targets)).map o.pathOf) := by
  unfold run
  refine .ofExcept_bind fun _ _ => ?_
  split
  · next hempty =>
    have hnil : o.wanted (sheetExports sc.targets) = [] := by
      rw [sheetExports, if_pos hempty]
      rfl
    rw [hnil]
    exact .pure (.refl [])
  · next hne =>
    have hne : sc.targets ≠ [] := fun hnil => hne (List.isEmpty_iff.2 hnil)
    refine .modify_bind rfl ?_
    refine ((writes_openSheets hne hopened).and fun _ _ hopen =>
      (leads_openSheets.ok hopen).2).bind_right fun sheets w₁ hsheets => ?_
    rw [hsheets.1]
    exact writes_scanFrames hne (fun x hx =>
      (hsheets.2.takes x hx).imp fun _ hx => hx.congr hsheets.2.folders) hkept

end Scan

end Screenmark
