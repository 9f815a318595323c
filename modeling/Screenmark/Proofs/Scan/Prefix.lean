/-
  Screenmark — a scan that is stopped has done the first frames.

  From any frame on a scan only adds rows to tracks and records to sheets
  (`leads_frames_continues`). So when it is stopped in front of frame `k`, it leaves what the
  whole scan would begin with: both come to that frame in one state, and one ends there while
  the other goes on.

  * `Meets.run_eq` : what is left to do from a frame on;
  * `firstFrames_of_run` : a scan that is told to stop in front of frame `k` ends there, and
    its tracks and sheets are the first `k` rows of those of the scan that is not told to.
-/
import Screenmark.Proofs.Scan.Sheets
import Screenmark.Proofs.Scan.Worlds

namespace Screenmark

open ScanState

namespace Scan

variable {σ τ : Type} {sc : Scan σ} {s s' s'' : ScanState σ} {t : Target} {i k n total : Nat}
  {ps : List (Nat × Target)} {entries : List LogEntry} {r : FrameRecord}

/-! ## From a frame on -/

variable {o : Option Outlet} {w w₁ : Workspace σ} {s₀ : ScanState σ} {report : ScanReport}

theorem Reaches.frames_eq (h : sc.Reaches total s₀ k s) (n : Nat) :
    sc.frames total (k + n) s₀ = sc.frames total n s := by
  induction h generalizing n with
  | start => rw [Nat.zero_add]
  | @next k s s' r _ hpass ih => rw [Nat.add_right_comm, Nat.add_assoc, ih, frames_succ, hpass]

/-- A scan ends as its frames end, from any frame on that it comes to. -/
theorem Meets.run_eq (h : sc.Meets total o w k s) (hk : k ≤ total) : sc.run total o w =
    match sc.frames total (total - k) s with
    | .ok b s' => .ok (.ofLog s'.log.reverse b (tables s')) (keep s')
    | .error e s' => .error e (keep s') := by
  obtain ⟨hne, sheets, w₁, hprep, hreaches⟩ := h
  have hframes := hreaches.frames_eq (total - k)
  rw [Nat.add_sub_cancel' hk] at hframes
  have hprepared := leads_prepare.ok hprep
  have hscan : sc.scanFrames total sheets w₁ = _ := scanFrames_eq hprepared.takes
  rw [hframes] at hscan
  rw [run_apply, hprepared.check]
  dsimp only
  rw [if_neg (by simpa using hne), hprep]
  exact hscan

/-- A scan that is told to stop in front of a frame ends there. -/
theorem Meets.run_of_isTold (h : sc.Meets total o w k s) (hk : k < total) (htold : sc.IsTold s) :
    sc.run total o w =
      .ok (.ofLog s.log.reverse true (tables s)) (keep (sc.polled s)) := by
  obtain ⟨n, hn⟩ : ∃ n, total - k = n + 1 := ⟨total - k - 1, by omega⟩
  rw [h.run_eq (Nat.le_of_lt hk), hn, frames_succ, pass_eq_none_iff.2 ⟨htold, rfl⟩]
  rfl

theorem Reaches.continues (h : sc.Reaches total s₀ k s) : Continues s₀ s := by
  induction h with
  | start => exact .refl _
  | next _ hpass ih => exact ih.trans (leads_pass_continues.ok hpass)

variable {logged : List String} {sheets : Option Sheets}

/-- In front of frame `k` every sheet has `k` records, so it is the first `k` records of what
    it becomes. -/
theorem Reaches.sheetsOf_eq (hc : sc.plan.IsCompiled logged) (hprep : sc.Prepared w sheets w₁)
    (h : sc.Reaches total (initial w₁ sheets) k s) (hs' : Continues s s') :
    sheetsOf s = (sheetsOf s').map (Sheet.first k) ∧ ∀ x ∈ sheetsOf s, x.records.length = k := by
  have hrel := hs'.sheets
  rw [sheetsOf, sheetsOf]
  rcases hx : sheets with _ | x
  · have hnone := h.continues.sheets
    rw [initial, hx] at hnone
    generalize s.sheets = x at hnone hrel ⊢
    cases hnone
    generalize s'.sheets = y at hrel
    cases hrel
    exact ⟨rfl, fun x hx => by cases hx⟩
  · subst hx
    obtain ⟨out, rfl⟩ := hprep.sheets x rfl
    have hlength : ∀ x ∈ (Sheets.ofTracks out sc.targets s.work.tracks k).all,
        x.latest.length = k := by
      simp [Sheets.ofTracks, Sheets.all, Sheet.ofTracks]
    rw [(h.transcribed hc (hprep.inStep hc) (transcribed_initial sc out w₁)).sheets] at hrel ⊢
    generalize s'.sheets = y at hrel
    cases hrel with
    | some hbegins =>
      refine ⟨hbegins.all_eq hlength, fun x hx => ?_⟩
      rw [Sheet.records, List.length_reverse]
      exact hlength x hx

/-- The sheets stand at the paths of their targets, and each path takes a file. -/
theorem Reaches.paths_sheetsOf {out : Outlet} (hc : sc.plan.IsCompiled logged)
    (htables : out.outputs.tables = true) (hprep : sc.prepare (some out) w = .ok sheets w₁)
    (h : sc.Reaches total (initial w₁ sheets) k s) :
    (sheetsOf s).map (·.path) = (Sheets.start out sc.targets).all.map (·.path) ∧
      ∀ x ∈ (Sheets.start out sc.targets).all, ∃ place, s.work.files.Takes x.path place := by
  obtain ⟨rfl, htakes⟩ := leads_prepare_takes.ok hprep htables
  have hrec := h.transcribed hc ((leads_prepare.ok hprep).inStep hc) (transcribed_initial sc out w₁)
  rw [sheetsOf, hrec.sheets, hrec.files]
  exact ⟨paths_ofTracks .., htakes⟩

/-! ## Two scans -/

/-- What a scan leaves that was stopped in front of frame `k`, beside what a scan leaves that
    was not: the first `k` rows of the track of every target, and the first `k` records of
    every sheet, in the same files. -/
structure LeavesFirst (sc : Scan σ) (o : Option Outlet) (k : Nat) (tables : List String)
    (w₁ : Workspace τ) (w₂ : Workspace σ) : Prop where
  tracks : ∀ t ∈ sc.targets, w₁.tracks.HasRows t.name t.kind k ∧ ∃ track,
    w₂.tracks.find? t.name = some track ∧ w₁.tracks.find? t.name = some (track.first k)
  sheets : ∃ (ys : List Sheet) (opened : Tree), tables = ys.map (·.path) ∧
    (∀ y ∈ ys, (y.first k).records.length = k) ∧
    w₁.files = (ys.map (Sheet.first k)).foldl Outlet.keepSheet opened ∧
    w₂.files = ys.foldl Outlet.keepSheet opened ∧
    ∀ out, o = some out → out.outputs.tables = true →
      tables = (Sheets.start out sc.targets).all.map (·.path) ∧
      ((∀ t ∈ sc.targets, '/' ∉ t.name.toList) → ∀ y ∈ ys,
        w₁.files.readText y.path = .ok (y.first k).text ∧ w₂.files.readText y.path = .ok y.text)

/-- A scan that ended in front of frame `k` would have left the first rows of all that it
    leaves when it goes on. -/
theorem Meets.leavesFirst (hc : sc.plan.IsCompiled logged) (h : sc.Meets total o w k s)
    (hs' : Continues s s') : sc.LeavesFirst o k (tables s) (keep s) (keep s') := by
  obtain ⟨hne, sheets, w₁, hprep, hreaches⟩ := h
  have hprepared := leads_prepare.ok hprep
  have hrows := (hreaches.inStep hc (hprepared.inStep hc)).tracks.rows
  obtain ⟨hfirst, hlength⟩ := hreaches.sheetsOf_eq hc hprepared hs'
  have hfiles : (keep s).files = (sheetsOf s).foldl Outlet.keepSheet s.work.files := rfl
  have hfiles' : (keep s').files = (sheetsOf s').foldl Outlet.keepSheet s.work.files := by
    rw [← hs'.files]
    rfl
  have hpaths : (sheetsOf s').map (·.path) = (sheetsOf s).map (·.path) := by
    rw [hfirst, Sheet.map_path_first]
  refine ⟨fun t ht => ⟨hrows t ht, hs'.tracks.find?_eq (hrows t ht)⟩, sheetsOf s', s.work.files,
    hpaths.symm, fun y hy => hlength _ (hfirst ▸ List.mem_map_of_mem hy), hfirst ▸ hfiles, hfiles',
    fun out hout htables => ?_⟩
  subst hout
  obtain ⟨hnamed, htakes⟩ := hreaches.paths_sheetsOf hc htables hprep
  refine ⟨hnamed, fun hslash y hy => ⟨?_, ?_⟩⟩
  · rw [hfiles]
    exact Outlet.readText_of_paths hnamed hslash hc.nodup_names
      (Outlet.takes_of_paths hnamed htakes) (y.first k) (hfirst ▸ List.mem_map_of_mem hy)
  · rw [hfiles']
    exact Outlet.readText_of_paths (hpaths.trans hnamed) hslash hc.nodup_names
      (Outlet.takes_of_paths (hpaths.trans hnamed) htakes) y hy

/-- **A scan that is stopped has done the first frames of the whole one.** When it is told to
    stop in front of frame `k`, it ends there without a failure, with `k` frames done, and its
    tracks and sheets are the first `k` rows of those that the same scan leaves if it is never
    told to stop, whether that one ends or fails later on. -/
theorem firstFrames_of_run {sources : List String} {cut : Scan τ} {φ : τ → σ} {v : Workspace τ}
    {u : ScanState τ} (h : Plan.compile sources logged = .ok sc.plan) (hover : cut.IsOver φ sc)
    (hgoes : ∀ j z, sc.Meets total o (v.through φ) j z → ¬sc.IsTold z) (hk : k < total)
    (hmeets : cut.Meets total o v k u) (htold : cut.IsTold u) :
    ∃ report w₁, cut.run total o v = .ok report w₁ ∧ report.aborted = true ∧
      report.frames = k ∧
      (∀ report' w₂, sc.run total o (v.through φ) = .ok report' w₂ →
        report'.aborted = false ∧ report'.frames = total ∧ report'.tables = report.tables ∧
          sc.LeavesFirst o k report.tables w₁ w₂) ∧
      ∀ e w₂, sc.run total o (v.through φ) = .error e w₂ →
        sc.LeavesFirst o k report.tables w₁ w₂ := by
  have hc := Plan.isCompiled_of_compile h
  have hwhole := hover.meets hgoes hmeets
  have hleaves : ∀ s', Continues (u.through φ) s' →
      sc.LeavesFirst o k (tables u) (keep (cut.polled u)) (keep s') := fun s' hs' =>
    have hfirst := hwhole.leavesFirst hc hs'
    ⟨hfirst.tracks, hfirst.sheets⟩
  have hgoesOn : Leads (sc.frames total (total - k)) (u.through φ)
      (fun _ s' => Continues (u.through φ) s') fun _ s' => Continues (u.through φ) s' :=
    leads_frames_continues
  have hrun := hwhole.run_eq (Nat.le_of_lt hk)
  obtain ⟨hne, sheets, w₁, hprep, hreaches⟩ := hwhole
  have h₀ := (leads_prepare.ok hprep).inStep hc
  refine ⟨_, _, hmeets.run_of_isTold hk htold, rfl, ?_, fun report' w₂ hok => ?_,
    fun e w₂ herror => ?_⟩
  · exact List.length_reverse.trans (hreaches.inStep hc h₀).log
  · rw [hrun] at hok
    split at hok
    · next b s' hframes =>
      cases hok
      have hs' := hgoesOn.ok hframes
      rcases frames_eq_ok hreaches hframes with ⟨rfl, hend⟩ | ⟨j, z, -, -, -, hz, hpass⟩
      · refine ⟨rfl, ?_, ?_, hleaves s' hs'⟩
        · have hlog : s'.log.length = k + (total - k) := (hend.inStep hc h₀).log
          exact List.length_reverse.trans (by omega)
        · obtain ⟨hfirst, -⟩ := hreaches.sheetsOf_eq hc (leads_prepare.ok hprep) hs'
          have hpaths : (sheetsOf s').map (·.path) =
              (sheetsOf (u.through φ)).map (·.path) := by
            rw [hfirst, Sheet.map_path_first]
          exact hpaths
      · exact absurd (pass_eq_none_iff.1 hpass).1 (hgoes j z ⟨hne, sheets, w₁, hprep, hz⟩)
    · cases hok
  · rw [hrun] at herror
    split at herror
    · cases herror
    · next hframes =>
      cases herror
      exact hleaves _ (hgoesOn.error hframes)

/-- The scan of a screen on which a button is under the pointer, which is told to stop when it
    asks for the time after `k` others. -/
def hoveringUntil (k : Nat) (label : String) (p : Plan) : Scan Nat where
  plan := p
  settings := .default
  templates := .empty
  instruments :=
    { Instruments.none with
      snapshots := some fun frame n =>
        (some ⟨frame, some ⟨"button", label, .one, .one, .one, .one⟩, none⟩, n)
      poll := fun n => (n == k, n + 1) }
  stopped := false

/-- A scan that is stopped in front of the second of three frames leaves the first row of what
    it would have left. -/
theorem firstFrames_of_run_of_hovering : ∃ p report w₁ report' w₂,
    Plan.compile ["accessibilityHover(h)"] [] = .ok p ∧
      (hoveringUntil 1 "Save as" p).run 3 (some besideRecording)
        ⟨0, .empty, .empty Settings.defaultThreshold, .initial⟩ = .ok report w₁ ∧
      (hovering "Save as" p).run 3 (some besideRecording) unwritten = .ok report' w₂ ∧
      report.aborted = true ∧ report.frames = 1 ∧ report'.frames = 3 ∧
      w₁.tracks.textsOf "h" = ["Save as"] ∧
      w₂.tracks.textsOf "h" = ["Save as", "Save as", "Save as"] ∧
      (hovering "Save as" p).LeavesFirst (some besideRecording) 1 report.tables w₁ w₂ := by
  obtain ⟨p, report, w₁, hp, hrun, hreport⟩ := exists_run ["accessibilityHover(h)"] []
    (hoveringUntil 1 "Save as") 3 (some besideRecording)
    ⟨0, .empty, .empty Settings.defaultThreshold, .initial⟩
    (fun _ report w₁ => report.aborted && report.frames == 1 &&
      w₁.tracks.textsOf "h" == ["Save as"])
    (by decide +kernel)
  obtain ⟨q, report', w₂, hq, hrun', hreport'⟩ := exists_run ["accessibilityHover(h)"] []
    (hovering "Save as") 3 (some besideRecording) unwritten
    (fun _ _ w₂ => w₂.tracks.textsOf "h" == ["Save as", "Save as", "Save as"])
    (by decide +kernel)
  obtain rfl : p = q := Except.ok.inj (hp.symm.trans hq)
  simp only [Bool.and_eq_true, beq_iff_eq] at hreport hreport'
  obtain ⟨⟨haborted, hframes⟩, htexts⟩ := hreport
  have hover : (hoveringUntil 1 "Save as" p).IsOver (fun _ => ()) (hovering "Save as" p) :=
    ⟨rfl, rfl, rfl, ⟨.none, .none, .none, .some fun _ _ => rfl, fun _ => rfl⟩⟩
  obtain ⟨k, hk, u, hmeets, htold⟩ := (aborted_iff_exists_isTold hrun).1 haborted
  have hgoes : ∀ j z, (hovering "Save as" p).Meets 3 (some besideRecording) unwritten j z →
      ¬(hovering "Save as" p).IsTold z := fun j z _ hz => by
    rcases hz with hz | hz <;> cases hz
  obtain ⟨report₁, v₁, hrun₁, -, hk₁, hwhole, -⟩ :=
    firstFrames_of_run hp hover hgoes hk hmeets htold
  rw [hrun] at hrun₁
  cases hrun₁
  obtain rfl : k = 1 := hk₁.symm.trans hframes
  obtain ⟨-, hframes', -, hleaves⟩ := hwhole report' w₂ hrun'
  exact ⟨p, report, w₁, report', w₂, hp, hrun, hrun', haborted, hframes, hframes', htexts,
    hreport', hleaves⟩

end Scan

end Screenmark
