/-
  Screenmark — the phases of a scan.

  Looking at a target shows nothing by itself; working it out shows one of three turns
  (`Phase.turns`), whatever is seen and whatever warnings there are. So a frame shows a turn
  for each target between its two own phases (`IsFrame`), and a scan does so once for every
  frame that it is done with. Where it fails, it has shown the first few of those phases.

  * `Scan.shows_frame` : what one frame shows;
  * `Scan.Reaches.progress_eq` : the progress in front of a frame;
  * `Scan.leads_run_phases` : what a whole scan shows.
-/
import Screenmark.Proofs.Binary.Rounding
import Screenmark.Proofs.Scan.Lockstep
import Screenmark.Proofs.Status

namespace Screenmark

/-! ## Kinds of phases -/

/-- What may be shown while a target is worked out: it is not triggered, or something is seen
    of it, or nothing is. -/
def Phase.turns : List (List Phase) := [[.defaulting], [.computing], [.computing, .defaulting]]

/-- The phases of a turn. -/
def IsTurn (ps : List Phase) : Prop := ps ∈ Phase.turns

/-- The phases of a frame with so many targets, which take their turns in their order. -/
def IsFrame (targets : Nat) : List Phase → Prop :=
  Followed (Followed (· = [.scanning]) (Repeated IsTurn targets)) (· = [.advancing])

/-- How many frames a scan has to go through: none without a target. -/
def Plan.due (p : Plan) (frames : Nat) : Nat := if p.targets.isEmpty then 0 else frames

theorem exists_isTurn : ∃ ps, IsTurn ps := ⟨_, List.mem_cons_self⟩

theorem exists_isFrame (n : Nat) : ∃ ps, IsFrame n ps :=
  exists_followed (exists_followed ⟨_, rfl⟩ (exists_repeated exists_isTurn n)) ⟨_, rfl⟩

/-! ## Steps of a scan -/

variable {σ α : Type} {sc : Scan σ} {s s' : ScanState σ} {t : Target}

/-- What a scan shows. -/
def ScanState.status (s : ScanState σ) : Status := s.work.status

namespace Scanning

theorem shows_onWork {P : List Phase → Prop} {m : Work σ α} (h : Shows Workspace.status P m) :
    Shows ScanState.status P (onWork m) := by
  intro s
  have hs := h s.work
  unfold Leads at hs
  unfold Leads onWork
  rcases hm : m s.work with ⟨a, w⟩ | ⟨e, w⟩
  · rw [hm] at hs
    exact hs
  · rw [hm] at hs
    exact hs

theorem hushes_ofExcept (x : Except Failure α) :
    Hushes ScanState.status (ofExcept x : Scanning σ α) := by
  rcases x with e | a
  · exact .throw e
  · exact .pure a

theorem hushes_count (g : ScanReport → ScanReport) :
    Hushes ScanState.status (count g : Scanning σ Unit) := .change fun _ => .refl _

theorem hushes_use (g : σ → α × σ) : Hushes ScanState.status (use g) :=
  fun _ => ⟨[], rfl, .refl _⟩

end Scanning

namespace Scan

open Scanning

/-! ## Looking at a frame -/

theorem hushes_seek (f : Footage σ) : Hushes ScanState.status (seek f) := by
  refine Shows.get.hush fun s => ?_
  dsimp only
  split
  · exact Shows.hush (.change fun s => .refl _) fun _ => (hushes_count _).hush fun _ => hushes_use _
  · exact .pure true

theorem hushes_decode (f : Footage σ) : Hushes ScanState.status (decode f) := by
  have hlost : ∀ cause : DecodeCause, Hushes ScanState.status (do
      modify fun s : ScanState σ => { s with cursor := { s.cursor with isLost := true } }
      return (.error cause : Except DecodeCause GreyImage)) := fun _ =>
    Shows.hush (.change fun s => .refl _) fun _ => .pure _
  refine Shows.get.hush fun s => (hushes_seek f).hush fun b => ?_
  rcases b
  · exact hlost _
  · refine Shows.get.hush fun s => (hushes_use _).hush fun image => ?_
    rcases image with _ | image
    · exact hlost _
    · exact Shows.hush (.change fun s => .refl _) fun _ => (hushes_count _).hush fun _ => .pure _

/-- Reading an image shows no phase, also where it fails and there is a warning. -/
theorem hushes_frameImage (sc : Scan σ) (t : Target) :
    Hushes ScanState.status (sc.frameImage t) := by
  refine Shows.get.hush fun s => ?_
  split
  · exact .pure _
  · exact .pure _
  · exact .throw _
  · refine (hushes_decode _).hush fun x => ?_
    rcases x with cause | image
    · exact (shows_onWork (Work.hushes_warn _ _)).hush fun _ => (hushes_count _).hush fun _ =>
        Shows.hush (.change fun s => .refl _) fun _ => .pure _
    · exact Shows.hush (.change fun s => .refl _) fun _ => .pure _

theorem hushes_lookFor (sc : Scan σ) (t : Target) (image : GreyImage) (region : Rect) :
    Hushes ScanState.status (sc.lookFor t image region) := by
  unfold lookFor
  split
  · exact .throw _
  · split
    · exact .pure none
    · split
      · exact .throw _
      · exact (hushes_use _).hush fun m => .pure _

theorem hushes_readText (sc : Scan σ) (t : Target) (characters : Charset) (image : GreyImage)
    (region : Rect) : Hushes ScanState.status (sc.readText t characters image region) := by
  unfold readText
  split
  · exact .throw _
  · exact (hushes_use _).hush fun raw => .pure _

theorem hushes_takeElement (sc : Scan σ) (t : Target) :
    Hushes ScanState.status (sc.takeElement t) := by
  unfold takeElement
  split
  · exact .pure none
  · exact Shows.get.hush fun s => (hushes_use _).hush fun snapshot => .pure _

theorem hushes_observeImage (sc : Scan σ) (t : Target) :
    Hushes ScanState.status (sc.observeImage t) := by
  refine (hushes_frameImage sc t).hush fun image => ?_
  rcases image with _ | image
  · exact .pure none
  · refine Shows.get.hush fun s => (hushes_ofExcept _).hush fun region => ?_
    rcases region with _ | region
    · exact .pure none
    · dsimp only
      split
      · exact hushes_readText sc t _ image region
      · exact hushes_lookFor sc t image region

/-- **Looking at a target shows no phase.** -/
theorem hushes_observe (sc : Scan σ) (t : Target) : Hushes ScanState.status (sc.observe t) := by
  unfold observe
  split
  · exact hushes_takeElement sc t
  · exact hushes_observeImage sc t

/-! ## Working out the targets of a frame -/

/-- What is shown once a target was looked at. -/
def lookedPhases : Option Observation → List Phase
  | some _ => []
  | none => [.defaulting]

theorem leads_settle_showed {i : Nat} {b : Bool} {seen : Option Observation} :
    Leads (settle i t b seen) s (fun _ s' => s.status.Showed (lookedPhases seen) s'.status)
      fun _ s' => s.status.Showed (lookedPhases seen) s'.status := by
  have hlooked : s.status.Showed (lookedPhases seen) (s.looked seen).status := by
    rcases seen with _ | o
    · exact s.status.showed_enter .defaulting
    · exact .refl _
  exact leads_settle.2 ⟨fun ts _ => hlooked, fun e _ => hlooked⟩

theorem isTurn_computing (seen : Option Observation) :
    IsTurn ([.computing] ++ lookedPhases seen) := by
  rcases seen with _ | o
  · exact List.mem_cons_of_mem _ (List.mem_cons_of_mem _ List.mem_cons_self)
  · exact List.mem_cons_of_mem _ List.mem_cons_self

/-- **Working out a target shows one turn.** -/
theorem shows_step (sc : Scan σ) (i : Nat) (t : Target) :
    Shows ScanState.status IsTurn (sc.step i t) := by
  intro s
  refine leads_step.2 ⟨fun e _ => ⟨[], begins_nil exists_isTurn, .refl _⟩, fun _ => ?_, fun _ => ?_⟩
  · have hdefaulting : IsTurn (lookedPhases none) := List.mem_cons_self
    exact leads_settle_showed.mono (fun _ _ h => ⟨_, hdefaulting, h⟩)
      fun _ _ h => ⟨_, begins_self hdefaulting, h⟩
  · have hcomputing : s.status.Showed [.computing] (s.entered .computing).status :=
      s.status.showed_enter .computing
    refine (hushes_iff.1 (hushes_observe sc t) _).mono (fun seen s₁ h => ?_) fun e s₁ h => ?_
    · have hturn := isTurn_computing seen
      exact leads_settle_showed.mono (fun _ _ h' => ⟨_, hturn, (hcomputing.trans h).trans h'⟩)
        fun _ _ h' => ⟨_, begins_self hturn, (hcomputing.trans h).trans h'⟩
    · have hturn : IsTurn [.computing] := List.mem_cons_of_mem _ List.mem_cons_self
      exact ⟨_, begins_self hturn, hcomputing.trans h⟩

theorem shows_frame (sc : Scan σ) : Shows ScanState.status
    (Followed (· = [.scanning]) (Repeated IsTurn sc.targets.length)) sc.frame := by
  have hturns := exists_repeated exists_isTurn sc.ordered.length
  have hlength : sc.ordered.length = sc.targets.length := by
    rw [← (ordered_perm sc).length_eq, List.length_map]
  rw [← hlength]
  refine Shows.bind_left (.change fun s => .refl _) (fun _ => ?_) (exists_followed ⟨_, rfl⟩ hturns)
  refine (shows_onWork (Work.shows_enter .scanning)).bind (fun _ => ?_) hturns
  refine Shows.bind_right (.mapM (fun p : Nat × Target => shows_step sc p.1 p.2) exists_isTurn _)
    fun entries => ?_
  exact Shows.get.hush fun s => .pure _

/-! ## Passes -/

variable {total k : Nat} {s₀ : ScanState σ} {ts₀ : Tracks} {logged : List String}

/-- **A pass shows one frame**, and then the progress; if it stops it shows nothing, and if
    it fails the first few phases of a frame. -/
theorem leads_pass_showed (sc : Scan σ) (total : Nat) (s : ScanState σ) : Leads (sc.pass total) s
    (fun r s' =>
      match r with
      | none => s.status.Showed [] s'.status
      | some _ => ∃ ps, IsFrame sc.targets.length ps ∧
        (s.status.withProgress (Binary.clamp .zero .one
          (Binary.ofNat s'.cursor.frame / Binary.ofNat total))).Showed ps s'.status)
    fun _ s' => ∃ ps, Begins (IsFrame sc.targets.length) ps ∧ s.status.Showed ps s'.status := by
  rw [leads_pass]
  split
  · exact .refl _
  · have hadvancing : ∃ ps : List Phase, ps = [.advancing] := ⟨_, rfl⟩
    refine (shows_frame sc (sc.polled s)).mono (fun r s₁ h => ?_) fun e s₁ h => ?_
    · obtain ⟨ps, hps, hshowed⟩ := h
      have hbegins := begins_self hps
      refine leads_writeSheets.mono (fun _ s₂ h => ?_) fun e s₂ h => ?_
      · obtain ⟨sheets, rfl⟩ := h
        refine leads_goOn.mono (fun _ s₃ h => ?_) fun e s₃ h => ?_
        · subst h
          refine ⟨ps ++ [.advancing], .append hps rfl, ?_⟩
          exact (hshowed.trans (s₁.status.showed_enter .advancing)).withProgress _
        · subst h
          exact ⟨ps, hbegins.followed hadvancing, hshowed⟩
      · subst h
        exact ⟨ps, hbegins.followed hadvancing, hshowed⟩
    · obtain ⟨ps, hps, hshowed⟩ := h
      exact ⟨ps, hps.followed hadvancing, hshowed⟩

/-- In front of a frame, the earlier ones are shown. -/
theorem Reaches.showed (h : sc.Reaches total s₀ k s) : ∃ ps,
    Repeated (IsFrame sc.targets.length) k ps ∧
      (s₀.status.withProgress s.status.progress).Showed ps s.status := by
  induction h with
  | start => exact ⟨[], rfl, .refl _⟩
  | next _ hpass ih =>
    obtain ⟨ps, hps, hshowed⟩ := ih
    obtain ⟨qs, hqs, hshowed'⟩ := (leads_pass_showed sc total _).ok hpass
    refine ⟨ps ++ qs, hps.append (repeated_one hqs), ?_⟩
    have hprogress := hshowed'.progress
    exact (hshowed.withProgress _).trans (hprogress ▸ hshowed')

/-- **The progress in front of a frame** is the part of the frames that are done. -/
theorem Reaches.progress_eq (hc : sc.plan.IsCompiled logged) (h₀ : sc.InStep ts₀ 0 s₀)
    (hzero : s₀.status.progress = .zero) (h : sc.Reaches total s₀ k s) (hpos : 0 < total)
    (hk : k ≤ total) : s.status.progress = Binary.ofNat k / Binary.ofNat total := by
  have hp : 0 < Format.single.precision := by decide
  have hone := Format.fits_one_single
  have hframe := (h.inStep hc h₀).frame
  cases h with
  | start => rw [hzero, Binary.zero_quotient hp hone hpos]
  | next hr hpass =>
    obtain ⟨ps, -, hshowed⟩ := (leads_pass_showed sc total _).ok hpass
    rw [hshowed.progress, Status.progress_withProgress, hframe,
      Binary.clamp_quotient hp hone hpos hk]

/-! ## Whole scans -/

variable {o : Option Outlet} {w w' : Workspace σ}

theorem hushes_openSheets (sc : Scan σ) (o : Option Outlet) :
    Hushes Workspace.status (sc.openSheets o) := by
  unfold openSheets
  split
  · exact .pure none
  · split
    · exact (Shows.forM (fun x => Work.hushes_changeFiles _) _).hush fun _ =>
        (Work.hushes_changeFiles _).hush fun _ => .pure _
    · exact .pure none

theorem hushes_prepare (sc : Scan σ) (o : Option Outlet) :
    Hushes Workspace.status (sc.prepare o) :=
  (Work.hushes_ofExcept _).hush fun _ =>
    Shows.hush (.change fun _ => .refl _) fun _ => hushes_openSheets sc o

/-- What a scan has shown that ends, aborted or not. -/
structure Ends (sc : Scan σ) (total : Nat) (before : Status) (report : ScanReport)
    (after : Status) : Prop where
  showed : ∃ ps, Repeated (IsFrame sc.targets.length) report.frames ps ∧
    (before.withProgress after.progress).Showed ps after
  aborted : report.aborted = true → report.frames < sc.plan.due total ∧
    (before.progress = .zero → after.progress = Binary.ofNat report.frames / Binary.ofNat total)
  frames : report.aborted = false → report.frames = sc.plan.due total

/-- What a scan has shown that fails: the first few phases of all its frames. -/
def Fails (sc : Scan σ) (total : Nat) (before after : Status) : Prop :=
  ∃ ps, Begins (Repeated (IsFrame sc.targets.length) (sc.plan.due total)) ps ∧
    (before.withProgress after.progress).Showed ps after

variable {report : ScanReport} {before middle after : Status} {sheets : Option Sheets}

theorem Ends.trans (h : before.Showed [] middle) (h' : sc.Ends total middle report after) :
    sc.Ends total before report after where
  showed := by
    obtain ⟨ps, hps, hshowed⟩ := h'.showed
    exact ⟨ps, hps, (h.withProgress _).trans hshowed⟩
  aborted htrue :=
    ⟨(h'.aborted htrue).1, fun hzero => (h'.aborted htrue).2 (h.progress.trans hzero)⟩
  frames := h'.frames

theorem Fails.trans (h : before.Showed [] middle) (h' : sc.Fails total middle after) :
    sc.Fails total before after := by
  obtain ⟨ps, hps, hshowed⟩ := h'
  exact ⟨ps, hps, (h.withProgress _).trans hshowed⟩

theorem Ends.hush (h : sc.Ends total before report middle) (h' : middle.Showed [] after) :
    sc.Ends total before report after where
  showed := by
    obtain ⟨ps, hps, hshowed⟩ := h.showed
    rw [← h'.progress] at hshowed
    exact ⟨ps, hps, List.append_nil ps ▸ hshowed.trans h'⟩
  aborted htrue :=
    ⟨(h.aborted htrue).1, fun hzero => h'.progress.trans ((h.aborted htrue).2 hzero)⟩
  frames := h.frames

theorem Fails.hush (h : sc.Fails total before middle) (h' : middle.Showed [] after) :
    sc.Fails total before after := by
  obtain ⟨ps, hps, hshowed⟩ := h
  rw [← h'.progress] at hshowed
  exact ⟨ps, hps, List.append_nil ps ▸ hshowed.trans h'⟩

theorem Ends.frames_le (h : sc.Ends total before report after) :
    report.frames ≤ sc.plan.due total := by
  rcases hb : report.aborted
  · exact Nat.le_of_eq (h.frames hb)
  · exact Nat.le_of_lt (h.aborted hb).1

/-- What is shown by a scan that ends may be shown by one that fails. -/
theorem Ends.fails (h : sc.Ends total before report after) : sc.Fails total before after := by
  obtain ⟨ps, hps, hshowed⟩ := h.showed
  exact ⟨ps, .of_repeated hps h.frames_le (exists_isFrame _), hshowed⟩

/-- A scan that fails before its first frame. -/
theorem fails_of_showed (sc : Scan σ) (total : Nat) (h : before.Showed [] after) :
    sc.Fails total before after := by
  refine ⟨[], begins_nil (exists_repeated (exists_isFrame _) _), ?_⟩
  have hprogress := h.withProgress after.progress
  exact hprogress

theorem leads_scanFrames (hc : sc.plan.IsCompiled logged) (hne : sc.targets.isEmpty = false)
    (total : Nat) (h : sc.Prepared w sheets w') : Leads (sc.scanFrames total sheets) w'
      (fun report w₁ => sc.Ends total w'.status report w₁.status)
      fun _ w₁ => sc.Fails total w'.status w₁.status := by
  have hdue : sc.plan.due total = total := if_neg (Bool.eq_false_iff.1 hne)
  have h₀ : sc.InStep w.tracks 0 (initial w' sheets) := h.inStep hc
  unfold Leads
  rw [scanFrames_eq h.takes]
  rcases hframes : sc.frames total total (initial w' sheets) with ⟨b, s⟩ | ⟨e, s⟩
  · have hlength : (ScanReport.ofLog s.log.reverse b (tables s)).frames = s.log.length :=
      List.length_reverse
    rcases frames_eq_ok .start hframes with ⟨rfl, hr⟩ | ⟨k, s₁, rfl, -, hk, hr, hpass⟩
    · rw [Nat.zero_add] at hr
      have hlog := (hr.inStep hc h₀).log
      refine ⟨?_, fun htrue => absurd htrue Bool.false_ne_true, fun _ => ?_⟩
      · rw [hlength, hlog]
        exact hr.showed
      · rw [hlength, hlog, hdue]
    · rw [Nat.zero_add] at hk
      have hs₁ := hr.inStep hc h₀
      obtain rfl := (leads_pass_inStep hc hs₁).ok hpass
      have hlog : (sc.polled s₁).log.length = k := hs₁.log
      refine ⟨?_, fun _ => ⟨?_, fun hzero => ?_⟩,
        fun hfalse => absurd hfalse.symm Bool.false_ne_true⟩
      · rw [hlength, hlog]
        exact hr.showed
      · rw [hlength, hlog, hdue]
        exact hk
      · rw [hlength, hlog]
        have hprogress := hr.progress_eq hc h₀ hzero (by omega) (by omega)
        exact hprogress
  · obtain ⟨k, s₁, -, hk, hr, hpass⟩ := frames_eq_error .start hframes
    rw [Nat.zero_add] at hk
    obtain ⟨ps, hps, hshowed⟩ := hr.showed
    obtain ⟨qs, hqs, hshowed'⟩ := (leads_pass_showed sc total s₁).error hpass
    refine ⟨ps ++ qs, ?_, ?_⟩
    · rw [hdue]
      exact .repeated hps hqs hk
    · have hprogress : s.status.progress = s₁.status.progress := hshowed'.progress
      rw [← hprogress] at hshowed
      exact hshowed.trans hshowed'

/-- **What a whole scan shows**: a frame for each that it is done with; if it fails, the
    first few phases of all its frames. -/
theorem leads_run_showed (hc : sc.plan.IsCompiled logged) (total : Nat) (o : Option Outlet)
    (w : Workspace σ) : Leads (sc.run total o) w
      (fun report w' => sc.Ends total w.status report w'.status)
      fun _ w' => sc.Fails total w.status w'.status := by
  unfold Leads
  rw [run_apply]
  rcases sc.check with e | _
  · exact sc.fails_of_showed total (.refl _)
  dsimp only
  rcases hne : sc.targets.isEmpty
  · have hprepare := hushes_iff.1 (hushes_prepare sc o) w
    rw [if_neg Bool.false_ne_true]
    rcases hprep : sc.prepare o w with ⟨sheets, w₁⟩ | ⟨e, w₁⟩
    · have hscan := leads_scanFrames hc hne total (leads_prepare.ok hprep)
      have hshowed := hprepare.ok hprep
      exact hscan.mono (fun _ _ h => .trans hshowed h) fun _ _ h => .trans hshowed h
    · exact sc.fails_of_showed total (hprepare.error hprep)
  · have hdue : sc.plan.due total = 0 := if_pos hne
    rw [if_pos rfl]
    refine ⟨⟨[], rfl, .refl _⟩, fun htrue => absurd htrue Bool.false_ne_true, fun _ => ?_⟩
    exact hdue.symm

end Scan

end Screenmark
