/-
  Screenmark — whole scans.

  Whatever a scan does from some frame on, it only adds rows to tracks and records to sheets
  (`Scan.leads_frames_continues`), and its files are written when it ends. So sheets that
  could be opened can be kept, and a scan that was prepared ends as its frames do
  (`Scan.scanFrames_eq`).

  * `Scan.run_eq_ok`, `Scan.run_eq_error` : how a scan ends, and what it leaves.
-/
import Screenmark.Proofs.Scan.Tally
import Screenmark.Proofs.Series.First

namespace Screenmark

variable {σ : Type} {sc : Scan σ} {s s' s'' : ScanState σ} {i n total : Nat} {t : Target}
  {ps : List (Nat × Target)} {r : FrameRecord}

namespace Scan

open ScanState

/-! ## Going on -/

/-- Rows and records are added, and nothing else is done to tracks, sheets and files. -/
structure Continues (s s' : ScanState σ) : Prop where
  tracks : s.work.tracks.Begins s'.work.tracks
  sheets : Option.Rel Sheets.Begins s.sheets s'.sheets
  files : s'.work.files = s.work.files

theorem Continues.refl (s : ScanState σ) : Continues s s :=
  ⟨.refl _, rel_refl Sheets.Begins.refl _, rfl⟩

theorem Continues.trans (h : Continues s s') (h' : Continues s' s'') : Continues s s'' :=
  ⟨h.tracks.trans h'.tracks, rel_trans (fun _ _ _ => .trans) h.sheets h'.sheets,
    h'.files.trans h.files⟩

theorem continues_of_kept (h : s.Kept s') : Continues s s' :=
  ⟨h.tracks ▸ .refl _, h.sheets ▸ rel_refl Sheets.Begins.refl _, h.files⟩

theorem leads_settle_continues {b : Bool} {seen : Option Observation} :
    Leads (settle i t b seen) s (fun _ s' => Continues s s') fun _ s' => Continues s s' := by
  have hlooked : s.Kept (s.looked seen) := by
    cases seen <;> exact ⟨rfl, rfl, rfl, rfl, rfl⟩
  rw [leads_settle]
  refine ⟨fun ts hts => ⟨Tracks.begins_of_append hts, ?_, ?_⟩, fun e _ =>
    continues_of_kept hlooked⟩
  · exact (continues_of_kept hlooked).sheets
  · exact hlooked.files

theorem leads_step_continues :
    Leads (sc.step i t) s (fun _ s' => Continues s s') fun _ s' => Continues s s' := by
  refine leads_step.2 ⟨fun _ _ => .refl s, fun _ => leads_settle_continues, fun _ => ?_⟩
  have hentered : s.Kept (s.entered .computing) := ⟨rfl, rfl, rfl, rfl, rfl⟩
  refine leads_observe.mono (fun seen s₁ h => ?_) fun e s₁ h =>
    continues_of_kept (hentered.trans h.1)
  have hseen := continues_of_kept (hentered.trans h.1)
  exact leads_settle_continues.mono (fun _ _ h' => hseen.trans h') fun _ _ h' => hseen.trans h'

theorem leads_mapM_continues : Leads (ps.mapM fun p => sc.step p.1 p.2) s
    (fun _ s' => Continues s s') fun _ s' => Continues s s' := by
  induction ps generalizing s with
  | nil => exact .refl s
  | cons p ps ih =>
    rw [List.mapM_cons, leads_bind]
    refine leads_step_continues.mono (fun _ s₁ h => ?_) fun _ _ h => h
    rw [leads_bind]
    exact ih.mono (fun _ _ h' => h.trans h') fun _ _ h' => h.trans h'

theorem leads_frame_continues :
    Leads sc.frame s (fun _ s' => Continues s s') fun _ s' => Continues s s' := by
  have hopened : Continues s s.opened := continues_of_kept ⟨rfl, rfl, rfl, rfl, rfl⟩
  rw [leads_frame]
  exact leads_mapM_continues.mono (fun _ _ h => hopened.trans h) fun _ _ h => hopened.trans h

theorem leads_writeSheets_continues :
    Leads (sc.writeSheets r) s (fun _ s' => Continues s s') fun _ s' => Continues s s' := by
  unfold Leads
  rw [writeSheets_apply]
  rcases hs : s.sheets with _ | x
  · exact .refl s
  · dsimp only
    rcases hwrite : x.write s.cursor.frame (r.row sc.targets) with e | y
    · exact .refl s
    · exact ⟨.refl _, hs ▸ .some (Sheets.begins_of_write hwrite), rfl⟩

theorem leads_pass_continues :
    Leads (sc.pass total) s (fun _ s' => Continues s s') fun _ s' => Continues s s' := by
  have hpolled : Continues s (sc.polled s) := continues_of_kept ⟨rfl, rfl, rfl, rfl, rfl⟩
  rw [leads_pass]
  split
  · exact hpolled
  · refine leads_frame_continues.mono (fun r s₁ h₁ => ?_) fun _ _ h₁ => hpolled.trans h₁
    refine leads_writeSheets_continues.mono (fun _ s₂ h₂ => ?_) fun _ _ h₂ =>
      hpolled.trans (h₁.trans h₂)
    have hwritten := hpolled.trans (h₁.trans h₂)
    refine leads_goOn.mono (fun _ s₃ h₃ => ?_) fun _ s₃ h₃ => h₃ ▸ hwritten
    have hnext : Continues s₂ (s₂.next total r) :=
      ⟨.refl _, rel_refl Sheets.Begins.refl _, rfl⟩
    exact h₃ ▸ hwritten.trans hnext

/-- **From any frame on, a scan only adds** to its tracks and sheets, however it ends. -/
theorem leads_frames_continues : Leads (sc.frames total n) s (fun _ s' => Continues s s')
    fun _ s' => Continues s s' := by
  induction n generalizing s with
  | zero => exact .refl s
  | succ n ih =>
    have hpass : Leads (sc.pass total) s (fun _ s' => Continues s s')
      fun _ s' => Continues s s' := leads_pass_continues
    unfold Leads
    rw [frames_succ]
    rcases hm : sc.pass total s with ⟨_ | r, s₁⟩ | ⟨e, s₁⟩
    · exact hpass.ok hm
    · have hbefore := hpass.ok hm
      exact ih.mono (fun _ _ h => hbefore.trans h) fun _ _ h => hbefore.trans h
    · exact hpass.error hm

/-! ## The end of a scan -/

variable {e : Failure} {o : Option Outlet} {w w' w₁ : Workspace σ} {sheets : Option Sheets}
  {report : ScanReport}

/-- The workspace with the records of all sheets kept. -/
def keep (s : ScanState σ) : Workspace σ := s.work.kept (sheetsOf s)

/-- Sheets keep their paths. -/
theorem Continues.tables_eq (h : Continues s s') : tables s' = tables s := by
  unfold tables sheetsOf
  generalize s.sheets = x, s'.sheets = y, h.sheets = hsheets
  cases hsheets with
  | none => rfl
  | some hbegins => exact hbegins.paths_eq

/-- Sheets whose paths take files still have such at the end of the frames. -/
theorem keepSheets_of_frames
    (htakes : ∀ x ∈ sheets.elim [] Sheets.all, ∃ place, w.files.Takes x.path place)
    (h : Continues (initial w sheets) s) : Work.keepSheets (sheetsOf s) s.work = .ok () (keep s) := by
  have hpaths : tables s = (sheets.elim [] Sheets.all).map (·.path) := by
    rw [h.tables_eq]
    rcases sheets <;> rfl
  refine Work.keepSheets_eq_ok_iff.2 ⟨?_, rfl⟩
  rw [h.files]
  exact Outlet.takes_of_paths hpaths htakes

/-- **Behind the frames nothing can go wrong**: their sheets are kept, and their outcome is
    that of the scan. -/
theorem scanFrames_eq
    (htakes : ∀ x ∈ sheets.elim [] Sheets.all, ∃ place, w.files.Takes x.path place) :
    sc.scanFrames total sheets w =
      match sc.frames total total (initial w sheets) with
      | .ok b s => .ok (.ofLog s.log.reverse b (tables s)) (keep s)
      | .error e s => .error e (keep s) := by
  have hleads : Leads (sc.frames total total) (initial w sheets)
      (fun _ s => Continues (initial w sheets) s) fun _ s => Continues (initial w sheets) s :=
    leads_frames_continues
  unfold scanFrames
  rcases hframes : sc.frames total total (initial w sheets) with ⟨b, s⟩ | ⟨e, s⟩
  · dsimp only
    rw [keepSheets_of_frames htakes (hleads.ok hframes)]
    dsimp only
    rw [report_of_frames hframes, ScanReport.ofLog_reverse]
  · dsimp only
    rw [keepSheets_of_frames htakes (hleads.error hframes)]

/-- A scan that ends: it has no targets, or it was prepared and its frames were gone
    through. -/
theorem run_eq_ok (h : sc.run total o w = .ok report w') :
    sc.targets = [] ∧ report = .empty ∧ w' = w ∨
    ∃ sheets w₁ b s, sc.targets ≠ [] ∧ sc.prepare o w = .ok sheets w₁ ∧
      sc.frames total total (initial w₁ sheets) = .ok b s ∧
      report = .ofLog s.log.reverse b (tables s) ∧ w' = keep s := by
  rw [run_apply] at h
  split at h
  · cases h
  split at h
  · next hempty =>
    cases h
    exact .inl ⟨List.isEmpty_iff.1 hempty, rfl, rfl⟩
  · next hne =>
    split at h
    · next sheets w₁ hprep =>
      rw [scanFrames_eq (leads_prepare.ok hprep).takes] at h
      split at h
      · next b s hframes =>
        cases h
        exact .inr ⟨sheets, w₁, b, s, fun hnil => hne (List.isEmpty_iff.2 hnil), hprep, hframes,
          rfl, rfl⟩
      · cases h
    · cases h

/-- A scan that fails: it could not be prepared, or its frames could not be gone
    through. -/
theorem run_eq_error (h : sc.run total o w = .error e w') :
    e.isConsistency = false ∧ (∀ sheets w₁, sc.prepare o w ≠ .ok sheets w₁) ∨
    ∃ sheets w₁ s, sc.targets ≠ [] ∧ sc.prepare o w = .ok sheets w₁ ∧
      sc.frames total total (initial w₁ sheets) = .error e s ∧ w' = keep s := by
  rw [run_apply] at h
  split at h
  · next e' hcheck =>
    cases h
    refine .inl ⟨isConsistency_of_check hcheck, fun sheets w₁ hprep => ?_⟩
    have := (leads_prepare.ok hprep).check
    rw [hcheck] at this
    cases this
  split at h
  · cases h
  · next hne =>
    split at h
    · next sheets w₁ hprep =>
      rw [scanFrames_eq (leads_prepare.ok hprep).takes] at h
      split at h
      · cases h
      · next s hframes =>
        cases h
        exact .inr ⟨sheets, w₁, s, fun hnil => hne (List.isEmpty_iff.2 hnil), hprep, hframes, rfl⟩
    · next hprep =>
      cases h
      refine .inl ⟨(leads_prepare.error hprep).1, fun sheets w₁ hok => ?_⟩
      rw [hprep] at hok
      cases hok

end Scan

end Screenmark
