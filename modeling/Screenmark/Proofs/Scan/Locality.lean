/-
  Screenmark — a frame stands for itself.

  What the targets get at a frame hangs on what there is to see at that frame and on
  what was logged for it, and on nothing that happened at other frames. So two scans
  that agree at a frame give all targets the same rows there (`row_eq_of_runs`), and a
  frame that cannot be delivered changes no row of another one.

  In front of a frame the tracks of both scans show the same at this frame, since
  nothing was added there yet; every target that is worked out keeps it so
  (`Steps.alike`), and from then on the rows stay (`Reaches.keeps`).
-/
import Screenmark.Proofs.Scan.History
import Screenmark.Proofs.Scan.Sight

namespace Screenmark

variable {σ τ : Type}

namespace Scan

open Scanning ScanState

variable {sc : Scan σ} {sc' : Scan τ} {logged : List String} {t : Target} {i k total : Nat}
  {s s' s₀ s₁ : ScanState σ} {ps : List (Nat × Target)} {entries : List LogEntry}
  {entry : LogEntry} {r : FrameRecord}

/-! ## Rows stay -/

theorem append_of_step (h : sc.step i t s = .ok entry s') :
    s.work.tracks.append t.name entry.observed = .ok s'.work.tracks := by
  obtain ⟨seen, s₁, -, -, hseen, -, happend⟩ := step_eq_ok h
  rcases hseen with ⟨-, rfl⟩ | hobs
  · exact happend
  · have htracks : s₁.work.tracks = s.work.tracks := (leads_observe.ok hobs).1.tracks
    exact htracks ▸ happend

theorem Steps.keeps (h : Steps sc ps s entries s') : s.work.tracks.Keeps s'.work.tracks := by
  induction h with
  | nil => exact .refl _
  | cons hstep _ ih => exact (Tracks.keeps_of_append (append_of_step hstep)).trans ih

theorem keeps_of_pass (h : sc.pass total s = .ok (some r) s') :
    s.work.tracks.Keeps s'.work.tracks := by
  obtain ⟨s₁, hpassed⟩ := leads_pass_passed.ok h
  rw [hpassed.tracks]
  exact (frame_eq_ok hpassed.frame).1.keeps

/-- **Rows that are there stay** from frame to frame. -/
theorem Reaches.keeps (h : sc.Reaches total s₀ k s) : s₀.work.tracks.Keeps s.work.tracks := by
  induction h with
  | start => exact .refl _
  | next _ hpass ih => exact ih.trans (keeps_of_pass hpass)

/-! ## Two scans at a frame -/

variable {c : Outlook σ} {c' : Outlook τ} {P : String → Prop} {u u₁ : ScanState τ}
  {entries' : List LogEntry}

/-- **Targets that are worked out in two scans that agree at a frame get the same
    rows**: the tracks go on to show the same there. -/
theorem Steps.alike (hsc : sc.Shown logged c) (hsc' : sc'.Shown logged c')
    (hlike : sc.WorksLike sc') (hview : c.view.AgreesAt c'.view k)
    (hP : ∀ t ∈ sc.targets, ∀ d ∈ t.gates, P d) (h : Steps sc ps s entries s₁)
    (h' : Steps sc' ps u entries' u₁) (hps : sc.Awaiting ps k s.work.tracks)
    (hps' : sc'.Awaiting ps k u.work.tracks) (hs : Sighted c k s) (hu : Sighted c' k u)
    (halike : Tracks.Alike P k s.work.tracks u.work.tracks) :
    Tracks.Alike P k s₁.work.tracks u₁.work.tracks := by
  induction h generalizing u entries' with
  | nil =>
    cases h'
    exact halike
  | @cons i t ps s s₂ s₁ entry entries hstep hsteps ih =>
    cases h' with
    | @cons _ _ _ _ u₂ _ entry' _ hstep' hsteps' =>
      obtain ⟨hs₂, hverdict, happend⟩ := (hsc.leads_step hps hs).ok hstep
      obtain ⟨hu₂, hverdict', happend'⟩ := (hsc'.leads_step hps' hu).ok hstep'
      obtain ⟨ht, hrows⟩ := hps.rows _ List.mem_cons_self
      have hsame : entry'.observed = entry.observed := by
        rw [verdict_congr hsc.compiled ht hlike hview (halike.mono (hP t ht)), hverdict] at hverdict'
        exact (Except.ok.inj hverdict').symm
      rw [hsame] at happend'
      refine ih hsteps' (hps.tail happend) (hps'.tail (hsame ▸ happend')) hs₂ hu₂ ?_
      exact halike.append hrows (hps'.rows _ List.mem_cons_self).2 happend happend'

/-- A state in front of frame `k` of a scan that was started with the tracks `ts₀`. -/
structure InFront (sc : Scan σ) (ts₀ : Tracks) (c : Outlook σ) (k : Nat) (s : ScanState σ) :
    Prop where
  inStep : sc.InStep ts₀ k s
  located : Located c k s
  keeps : (sc.startedTracks ts₀).Keeps s.work.tracks

/-- The names that a plan speaks of. -/
def Speaks (sc : Scan σ) (logged : List String) (n : String) : Prop :=
  n ∈ logged ∨ ∃ t ∈ sc.targets, t.name = n

theorem speaks_of_gate (hc : sc.plan.IsCompiled logged) (ht : t ∈ sc.targets) {d : String}
    (hd : d ∈ t.gates) : sc.Speaks logged d := by
  by_cases hl : d ∈ logged
  · exact .inl hl
  · exact .inr (hc.exists_target_of_gate ht hd hl)

/-- In front of a frame a target shows nothing but its template. -/
theorem InFront.glimpse_eq {ts₀ : Tracks} (hc : sc.plan.IsCompiled logged)
    (h : sc.InFront ts₀ c k s) (ht : t ∈ sc.targets) : s.work.tracks.glimpse t.name k =
      some ⟨none, (.zero, .zero), (sc.startedTrack t).template⟩ := by
  have htemplate := h.keeps.template t.name
  rw [find?_startedTracks hc ht] at htemplate
  obtain ⟨track, htrack, heq⟩ := Option.map_eq_some_iff.1 htemplate
  rw [(h.inStep.tracks.rows t ht).glimpse_self, htrack, Option.map_some, heq]

/-- In front of a frame that was logged in the same way, two scans show the same. -/
theorem InFront.alike {ts₀ us₀ : Tracks} (hc : sc.plan.IsCompiled logged)
    (hplan : sc'.plan = sc.plan) (htemplates : sc'.templates = sc.templates)
    (hs : sc.InFront ts₀ c k s) (hu : sc'.InFront us₀ c' k u)
    (hthreshold : us₀.threshold = ts₀.threshold)
    (hlogged : ∀ n ∈ logged, us₀.glimpse n k = ts₀.glimpse n k) :
    Tracks.Alike (sc.Speaks logged) k s.work.tracks u.work.tracks where
  threshold := by
    rw [hu.inStep.tracks.threshold, hs.inStep.tracks.threshold, hthreshold]
  glimpse n hn := by
    have htargets : sc'.targets = sc.targets := congrArg Plan.targets hplan
    by_cases hmem : ∃ t ∈ sc.targets, t.name = n
    · obtain ⟨t, ht, rfl⟩ := hmem
      rw [hu.glimpse_eq (hplan ▸ hc) (htargets ▸ ht), hs.glimpse_eq hc ht]
      simp only [startedTrack, htemplates]
    · have hno : ∀ t ∈ sc.targets, t.name ≠ n := fun t ht heq => hmem ⟨t, ht, heq⟩
      have hl : n ∈ logged := hn.resolve_right hmem
      have hts := hs.inStep.tracks.others n hno
      have hus := hu.inStep.tracks.others n (htargets ▸ hno)
      have heq := hlogged n hl
      rw [Tracks.glimpse, Tracks.glimpse] at heq ⊢
      rw [hts, hus, heq]

variable {o o' : Option Outlet} {w w₁ : Workspace σ} {z z₁ : Workspace τ} {v v' : View}
  {report report' : ScanReport} {total' f : Nat}

/-- A scan that ends is in front of the frame behind the last one that is done. -/
theorem exists_reaches_of_run (hc : sc.plan.IsCompiled logged)
    (h : sc.run total o w = .ok report w₁) : report.frames = 0 ∧ sc.targets = [] ∧ w₁ = w ∨
      ∃ sheets v₁ s, sc.targets ≠ [] ∧ sc.prepare o w = .ok sheets v₁ ∧
        sc.Reaches total (initial v₁ sheets) report.frames s ∧ w₁.tracks = s.work.tracks ∧
        w₁.files = (keep s).files ∧ report.tables = tables s := by
  rcases run_eq_ok h with ⟨hnil, rfl, rfl⟩ | ⟨sheets, v₁, b, s, hne, hprep, hframes, rfl, rfl⟩
  · exact .inl ⟨rfl, hnil, rfl⟩
  · have h₀ := (leads_prepare.ok hprep).inStep hc
    have hlog : (ScanReport.ofLog s.log.reverse b (tables s)).frames = s.log.length :=
      List.length_reverse
    rw [hlog]
    rcases frames_eq_ok .start hframes with ⟨-, hr⟩ | ⟨j, s₁, -, -, -, hr, hpass⟩
    · exact .inr ⟨sheets, v₁, s, hne, hprep, (hr.inStep hc h₀).log ▸ hr, rfl, rfl, rfl⟩
    · have hs := hr.inStep hc h₀
      obtain rfl := (leads_pass_inStep hc hs).ok hpass
      have hlength : (sc.polled s₁).log.length = j := hs.log
      exact .inr ⟨sheets, v₁, s₁, hne, hprep, hlength.symm ▸ hr, rfl, rfl, rfl⟩

/-- Every frame that is done has a state in front of it, and its rows stay to the end. -/
theorem exists_inFront_of_run (hc : sc.plan.IsCompiled logged) (hsees : sc.Sees o w v)
    (h : sc.run total o w = .ok report w₁) (hf : f < report.frames) :
    ∃ c s r s₁, c.view = v ∧ sc.Shown logged c ∧ sc.InFront w.tracks c f s ∧
      sc.pass total s = .ok (some r) s₁ ∧ s₁.work.tracks.Keeps w₁.tracks := by
  rcases exists_reaches_of_run hc h with ⟨hzero, -⟩ | ⟨sheets, v₁, s, -, hprep, hr, htracks, -⟩
  · omega
  · obtain ⟨c, hv, hsc, hlocated⟩ := hsees.exists_outlook hc hprep
    have hprepared := leads_prepare.ok hprep
    have h₀ := hprepared.inStep hc
    obtain ⟨s₁, s₂, r, n, hs₁, hpass, hs₂⟩ := hr.exists_pass_lt hf
    refine ⟨c, s₁, r, s₂, hv, hsc, ⟨hs₁.inStep hc h₀, hs₁.located hsc h₀ hlocated, ?_⟩, hpass,
      htracks ▸ hs₂.keeps⟩
    have hstart : (initial v₁ sheets).work.tracks = sc.startedTracks w.tracks := hprepared.tracks
    exact hstart ▸ hs₁.keeps

/-- Two scans that agree at a frame give a target the same row there. -/
theorem row?_eq_of_agreesAt (hc : sc.plan.IsCompiled logged) (hplan : sc'.plan = sc.plan)
    (hsettings : sc'.settings = sc.settings) (htemplates : sc'.templates = sc.templates)
    (hsees : sc.Sees o w v) (hsees' : sc'.Sees o' z v')
    (hrun : sc.run total o w = .ok report w₁) (hrun' : sc'.run total' o' z = .ok report' z₁)
    (hthreshold : z.tracks.threshold = w.tracks.threshold)
    (hf : f < report.frames) (hf' : f < report'.frames) (hview : v.AgreesAt v' f)
    (hlogged : ∀ n ∈ logged, z.tracks.glimpse n f = w.tracks.glimpse n f) (ht : t ∈ sc.targets) :
    ∃ row, w₁.tracks.row? t.name f = some row ∧ z₁.tracks.row? t.name f = some row := by
  obtain ⟨c, s, r, s₁, rfl, hsc, hs, hpass, hkeeps⟩ := exists_inFront_of_run hc hsees hrun hf
  obtain ⟨c', u, r', u₁, rfl, hsc', hu, hpass', hkeeps'⟩ :=
    exists_inFront_of_run (hplan ▸ hc) hsees' hrun' hf'
  obtain ⟨s₂, hpassed⟩ := leads_pass_passed.ok hpass
  obtain ⟨u₂, hpassed'⟩ := leads_pass_passed.ok hpass'
  have htargets : sc'.targets = sc.targets := congrArg Plan.targets hplan
  have hordered : sc'.ordered = sc.ordered := by rw [ordered, ordered, htargets, hplan]
  have hsteps := (frame_eq_ok hpassed.frame).1
  have hsteps' := (frame_eq_ok hpassed'.frame).1
  rw [hordered] at hsteps'
  have hlike : sc.WorksLike sc' := ⟨by rw [hplan], hsettings, htemplates⟩
  have hfront := hs.alike hc hplan htemplates hu hthreshold hlogged
  have halike : Tracks.Alike (sc.Speaks logged) f s₂.work.tracks u₂.work.tracks :=
    hsteps.alike hsc hsc' hlike hview (fun t ht d hd => speaks_of_gate hc ht hd) hsteps'
      (hs.inStep.tracks.awaiting hc (.refl _))
      (hordered ▸ hu.inStep.tracks.awaiting hsc'.compiled (.refl _))
      (hs.located.polled hsc).opened (hu.located.polled hsc').opened hfront
  have hrows := ((leads_pass_inStep hc hs.inStep).ok hpass).1.tracks.rows t ht
  have hrows' := ((leads_pass_inStep hsc'.compiled hu.inStep).ok hpass').1.tracks.rows t
    (htargets ▸ ht)
  obtain ⟨row, hrow⟩ := hrows.exists_row? (Nat.lt_succ_self f)
  have hsame : u₁.work.tracks.row? t.name f = s₁.work.tracks.row? t.name f := by
    rw [hrows.row?_eq_glimpse, hrows'.row?_eq_glimpse, hpassed.tracks, hpassed'.tracks,
      halike.glimpse t.name (.inr ⟨t, ht, rfl⟩)]
  exact ⟨row, hkeeps.row _ _ _ hrow, hkeeps'.row _ _ _ (hsame.trans hrow)⟩

/-- **A frame stands for itself.** Two scans for the same plan, whose footage delivers
    each frame or not and whose other instruments answer by what they are asked, give all
    targets the same rows at a frame at which they see the same and for which the same
    was logged. So a frame that one of them cannot have changes no row of another frame. -/
theorem row_eq_of_runs {sources : List String} (h : Plan.compile sources logged = .ok sc.plan)
    (hplan : sc'.plan = sc.plan) (hsettings : sc'.settings = sc.settings)
    (htemplates : sc'.templates = sc.templates)
    (hsees : sc.Sees o w v) (hsees' : sc'.Sees o' z v')
    (hrun : sc.run total o w = .ok report w₁) (hrun' : sc'.run total' o' z = .ok report' z₁)
    (hthreshold : z.tracks.threshold = w.tracks.threshold) :
    (∀ f, f < report.frames → f < report'.frames → v.AgreesAt v' f →
      (∀ n ∈ logged, z.tracks.glimpse n f = w.tracks.glimpse n f) → ∀ t ∈ sc.targets,
        ∃ row, w₁.tracks.row? t.name f = some row ∧ z₁.tracks.row? t.name f = some row) ∧
    ∀ g image, v' = { v with image := image } → (∀ f, f ≠ g → image f = v.image f) →
      z.tracks = w.tracks → ∀ f, f < report.frames → f < report'.frames → f ≠ g →
        ∀ t ∈ sc.targets, z₁.tracks.row? t.name f = w₁.tracks.row? t.name f := by
  have hc := Plan.isCompiled_of_compile h
  have hrows : ∀ f, f < report.frames → f < report'.frames → v.AgreesAt v' f →
      (∀ n ∈ logged, z.tracks.glimpse n f = w.tracks.glimpse n f) → ∀ t ∈ sc.targets,
        ∃ row, w₁.tracks.row? t.name f = some row ∧ z₁.tracks.row? t.name f = some row :=
    fun f hf hf' hview hlogged t ht => row?_eq_of_agreesAt hc hplan hsettings htemplates hsees
      hsees' hrun hrun' hthreshold hf hf' hview hlogged ht
  refine ⟨hrows, ?_⟩
  rintro g image rfl himage htracks f hf hf' hfg t ht
  obtain ⟨row, hrow, hrow'⟩ := hrows f hf hf' ⟨himage f hfg, rfl, rfl, rfl⟩
    (fun n _ => by rw [htracks]) t ht
  rw [hrow, hrow']

/-- A first frame that is missing does not change what is read at the second one. -/
theorem row_eq_of_runs_of_gap : ∃ p report w₁ report' z₁,
    Plan.compile ["detectText(a)", "if(a){detectText(b)}"] [] = .ok p ∧
      (gappy (fun _ => false) p).run 2 none unwatched = .ok report w₁ ∧
      (gappy (· = 0) p).run 2 none unwatched = .ok report' z₁ ∧
      w₁.tracks.row? "b" 0 ≠ z₁.tracks.row? "b" 0 ∧
      w₁.tracks.row? "b" 1 = z₁.tracks.row? "b" 1 := by
  obtain ⟨p, report, w₁, hp, hrun, h⟩ := exists_run ["detectText(a)", "if(a){detectText(b)}"] []
    (gappy fun _ => false) 2 none unwatched
    (fun p report w₁ => report.frames = 2 && p.targets.any (·.name = "b") &&
      w₁.tracks.row? "b" 0 = some ⟨.zero, .zero, .text "1"⟩)
    (by decide +kernel)
  obtain ⟨q, report', z₁, hq, hrun', h'⟩ := exists_run ["detectText(a)", "if(a){detectText(b)}"] []
    (gappy (· = 0)) 2 none unwatched
    (fun _ report z₁ => report.frames = 2 && z₁.tracks.row? "b" 0 ≠
      some ⟨.zero, .zero, .text "1"⟩)
    (by decide +kernel)
  obtain rfl : p = q := Except.ok.inj (hp.symm.trans hq)
  simp only [Bool.and_eq_true, decide_eq_true_iff, List.any_eq_true] at h h'
  obtain ⟨⟨hframes, t, ht, hname⟩, hfirst⟩ := h
  refine ⟨p, report, w₁, report', z₁, hp, hrun, hrun', hfirst ▸ h'.2.symm, ?_⟩
  have hplan : Plan.compile _ [] = .ok (gappy (fun _ => false) p).plan := hp
  have hsame : (gappy (· = 0) p).plan = (gappy (fun _ => false) p).plan := rfl
  obtain ⟨-, hgap⟩ := row_eq_of_runs hplan hsame rfl rfl (sees_gappy _ p none rfl)
    (sees_gappy _ p none rfl) hrun hrun' rfl
  have hrow := hgap 0 (widening (· = 0)).image rfl (fun f hf => ?_) rfl 1 (by omega) (by omega)
    (by omega) t ht
  · rw [← hname, hrow]
  · simp [widening, hf]

end Scan

end Screenmark
