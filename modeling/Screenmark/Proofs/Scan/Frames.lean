/-
  Screenmark — the frames of a scan.

  A scan is taken apart into passes: a pass works out one frame, or finds that the
  session is to stop. `Scan.Reaches` are the states in front of the frames, one for
  every number of complete passes.

  * `Scan.Steps` : the targets of a frame, one after the other;
  * `Scan.frames_eq_ok`, `Scan.frames_eq_error` : a scan ends behind the last
    frame, or in a pass that stops or fails;
  * `Scan.leads_prepare` : what is there in front of the first frame.
-/
import Screenmark.Proofs.Output.Outlet
import Screenmark.Proofs.Scan.Order
import Screenmark.Proofs.Scan.Steps

namespace Screenmark

open Scanning ScanState

variable {σ : Type} {sc : Scan σ} {s s' s₁ s₂ : ScanState σ} {e : Failure} {r : FrameRecord}
  {i : Nat} {t : Target} {ps qs : List (Nat × Target)} {entries : List LogEntry} {total : Nat}

namespace Scan

/-! ## The targets of a frame -/

/-- Targets that are worked out one after the other. -/
inductive Steps (sc : Scan σ) :
    List (Nat × Target) → ScanState σ → List LogEntry → ScanState σ → Prop
  | nil {s : ScanState σ} : Steps sc [] s [] s
  | cons {i : Nat} {t : Target} {ps : List (Nat × Target)} {s s₁ s₂ : ScanState σ}
      {entry : LogEntry} {entries : List LogEntry} :
      sc.step i t s = .ok entry s₁ → Steps sc ps s₁ entries s₂ →
      Steps sc ((i, t) :: ps) s (entry :: entries) s₂

/-- A target among others that is triggered when its turn comes. -/
def Triggers (sc : Scan σ) (ps : List (Nat × Target)) (s : ScanState σ) (t : Target) : Prop :=
  ∃ done i rest entries s₁, ps = done ++ (i, t) :: rest ∧ Steps sc done s entries s₁ ∧
    t.isTriggered sc.plan.prerequisites s₁.work.tracks s₁.cursor.frame = .ok true

theorem Triggers.append (h : sc.Triggers ps s t) (qs : List (Nat × Target)) :
    sc.Triggers (ps ++ qs) s t := by
  obtain ⟨done, i, rest, entries, s₁, rfl, hsteps, htrue⟩ := h
  exact ⟨done, i, rest ++ qs, entries, s₁, by simp, hsteps, htrue⟩

/-- Some target that needs the image is triggered. -/
def Wants (sc : Scan σ) (ps : List (Nat × Target)) (s : ScanState σ) : Prop :=
  ∃ t, t.needsImage = true ∧ sc.Triggers ps s t

/-- The first of some targets that cannot be worked out, and the state in front of
    it. -/
structure Stuck (sc : Scan σ) (ps : List (Nat × Target)) (s : ScanState σ) (e : Failure)
    (s' : ScanState σ) (done : List (Nat × Target)) (i : Nat) (t : Target)
    (entries : List LogEntry) (s₁ : ScanState σ) : Prop where
  place : ∃ rest, ps = done ++ (i, t) :: rest
  steps : Steps sc done s entries s₁
  error : sc.step i t s₁ = .error e s'

theorem leads_mapM_step : Leads (ps.mapM fun p => sc.step p.1 p.2) s
    (fun entries s' => Steps sc ps s entries s')
    (fun e s' => ∃ done i t entries s₁, Stuck sc ps s e s' done i t entries s₁) := by
  induction ps generalizing s with
  | nil => exact .nil
  | cons p ps ih =>
    obtain ⟨i, t⟩ := p
    rw [List.mapM_cons, leads_bind]
    refine .intro (fun entry s₁ hstep => ?_) fun e s₁ hstep => ?_
    · rw [leads_bind]
      refine ih.mono (fun entries s₂ h => .cons hstep h) fun e s₂ h => ?_
      obtain ⟨done, j, u, entries, s₃, ⟨rest, rfl⟩, hsteps, herror⟩ := h
      exact ⟨(i, t) :: done, j, u, entry :: entries, s₃, ⟨rest, rfl⟩, .cons hstep hsteps, herror⟩
    · exact ⟨[], i, t, [], s, ⟨ps, rfl⟩, .nil, hstep⟩

/-- A target among others was worked out behind the earlier ones and in front of the
    later ones. -/
theorem Steps.split (h : Steps sc (ps ++ (i, t) :: qs) s entries s') :
    ∃ before entry after s₁ s₂, entries = before ++ entry :: after ∧
      Steps sc ps s before s₁ ∧ sc.step i t s₁ = .ok entry s₂ ∧ Steps sc qs s₂ after s' := by
  induction ps generalizing s entries with
  | nil =>
    cases h with
    | cons hstep h => exact ⟨[], _, _, s, _, rfl, .nil, hstep, h⟩
  | cons p ps ih =>
    cases h with
    | cons hstep h =>
      obtain ⟨before, entry, after, s₁, s₂, rfl, hbefore, h⟩ := ih h
      exact ⟨_ :: before, entry, after, s₁, s₂, rfl, .cons hstep hbefore, h⟩

end Scan

namespace ScanState

/-- The state at the start of a frame. -/
def opened (s : ScanState σ) : ScanState σ :=
  { s with image := .untouched, sought := false }.entered .scanning

/-- The state in front of the next frame. -/
def next (s : ScanState σ) (total : Nat) (r : FrameRecord) : ScanState σ :=
  { s with
    work := { s.work with
      status := (s.work.status.enter .advancing).advance
        (Binary.ofNat (s.cursor.frame + 1) / Binary.ofNat total) }
    cursor := { s.cursor with frame := s.cursor.frame + 1 }
    report := s.report.countFrame (s.cursor.frame + 1) r.isIdle
    log := r :: s.log }

end ScanState

namespace Scan

theorem frame_apply : sc.frame s =
    match (sc.ordered.mapM fun p => sc.step p.1 p.2) s.opened with
    | .ok entries s' => .ok ⟨entries, s'.image.use, s'.sought⟩ s'
    | .error e s' => .error e s' := by
  simp only [frame, bind_apply, modify_apply, enter_apply, get_apply, pure_apply]
  unfold opened
  cases (sc.ordered.mapM fun p => sc.step p.1 p.2)
    ({ s with image := .untouched, sought := false }.entered .scanning) <;> rfl

/-- The steps of a frame. -/
theorem leads_frame {Q : FrameRecord → ScanState σ → Prop} {E : Failure → ScanState σ → Prop} :
    Leads sc.frame s Q E ↔ Leads (sc.ordered.mapM fun p => sc.step p.1 p.2) s.opened
      (fun entries s' => Q ⟨entries, s'.image.use, s'.sought⟩ s') E := by
  unfold Leads
  rw [frame_apply]
  cases (sc.ordered.mapM fun p => sc.step p.1 p.2) s.opened <;> rfl

theorem frame_eq_ok (h : sc.frame s = .ok r s') :
    Steps sc sc.ordered s.opened r.entries s' ∧ r.image = s'.image.use ∧ r.sought = s'.sought := by
  rw [frame_apply] at h
  split at h
  · next entries s₁ hmap =>
    cases h
    exact ⟨leads_mapM_step.ok hmap, rfl, rfl⟩
  · cases h

theorem frame_eq_error (h : sc.frame s = .error e s') :
    ∃ done i t entries s₁, Stuck sc sc.ordered s.opened e s' done i t entries s₁ := by
  rw [frame_apply] at h
  split at h
  · cases h
  · next hmap =>
    cases h
    exact leads_mapM_step.error hmap

/-! ## Passes -/

/-- Works out one frame, unless the session is to stop. -/
def pass (sc : Scan σ) (total : Nat) : Scanning σ (Option FrameRecord) := do
  if ← sc.isStopped then return none
  let r ← sc.frame
  sc.writeSheets r
  sc.goOn total r
  return some r

theorem frames_succ {n : Nat} : sc.frames total (n + 1) s =
    match sc.pass total s with
    | .ok none s' => .ok true s'
    | .ok (some _) s' => sc.frames total n s'
    | .error e s' => .error e s' := by
  simp only [frames, pass, bind_apply]
  rcases sc.isStopped s with ⟨_ | _, s₁⟩ | ⟨e, s₁⟩
  · simp only [Bool.false_eq_true, if_false, bind_apply]
    rcases sc.frame s₁ with ⟨r, s₂⟩ | ⟨e, s₂⟩
    · dsimp only
      rcases sc.writeSheets r s₂ with ⟨_, s₃⟩ | ⟨e, s₃⟩
      · dsimp only
        rcases sc.goOn total r s₃ with ⟨_, s₄⟩ | ⟨e, s₄⟩ <;> rfl
      · rfl
    · rfl
  · rfl
  · rfl

/-- The state after it was asked whether to stop. -/
def polled (sc : Scan σ) (s : ScanState σ) : ScanState σ :=
  { s with work := { s.work with world := (sc.instruments.poll s.work.world).2 } }

theorem writeSheets_apply : sc.writeSheets r s =
    match s.sheets with
    | none => .ok () s
    | some sheets =>
      match sheets.write s.cursor.frame (r.row sc.targets) with
      | .ok sheets => .ok () { s with sheets := some sheets }
      | .error e => .error e s := by
  simp only [writeSheets, bind_apply, get_apply]
  rcases s.sheets with _ | sheets
  · rfl
  · simp only [bind_apply, ofExcept_apply, modify_apply]
    cases sheets.write s.cursor.frame (r.row sc.targets) <;> rfl

theorem goOn_apply : sc.goOn total r s =
    match s.work.tracks.checkInStep (sc.targets.map (·.name)) (s.cursor.frame + 1) with
    | .ok _ => .ok () (s.next total r)
    | .error e => .error e s := by
  simp only [goOn, bind_apply, get_apply, ofExcept_apply, modify_apply, enter_apply]
  cases s.work.tracks.checkInStep (sc.targets.map (·.name)) (s.cursor.frame + 1) <;> rfl

/-- The steps of a pass. -/
theorem leads_pass {Q : Option FrameRecord → ScanState σ → Prop}
    {E : Failure → ScanState σ → Prop} : Leads (sc.pass total) s Q E ↔
      if sc.stopped || (sc.instruments.poll s.work.world).1 then Q none (sc.polled s)
      else Leads sc.frame (sc.polled s) (fun r s₁ =>
        Leads (sc.writeSheets r) s₁ (fun _ s₂ =>
          Leads (sc.goOn total r) s₂ (fun _ s₃ => Q (some r) s₃) E) E) E := by
  have hstop : ∀ {Q : Bool → ScanState σ → Prop}, Leads sc.isStopped s Q E ↔
      Q (sc.stopped || (sc.instruments.poll s.work.world).1) (sc.polled s) := Iff.rfl
  simp only [pass, leads_bind, hstop]
  split <;> simp only [leads_bind, leads_pure]

/-- A pass that is complete. -/
structure Passed (sc : Scan σ) (s : ScanState σ) (r : FrameRecord) (s₁ s' : ScanState σ) :
    Prop where
  frame : sc.frame (sc.polled s) = .ok r s₁
  world : s'.work.world = s₁.work.world
  tracks : s'.work.tracks = s₁.work.tracks
  files : s'.work.files = s₁.work.files
  cursor : s'.cursor = { s₁.cursor with frame := s₁.cursor.frame + 1 }
  log : s'.log = r :: s₁.log

theorem leads_writeSheets : Leads (sc.writeSheets r) s
    (fun _ s' => ∃ sheets, s' = { s with sheets := sheets }) fun _ s' => s' = s := by
  unfold Leads
  rw [writeSheets_apply]
  rcases s.sheets with _ | sheets
  · exact ⟨s.sheets, rfl⟩
  · dsimp only
    cases sheets.write s.cursor.frame (r.row sc.targets)
    · rfl
    · exact ⟨_, rfl⟩

theorem leads_goOn : Leads (sc.goOn total r) s (fun _ s' => s' = s.next total r)
    fun _ s' => s' = s := by
  unfold Leads
  rw [goOn_apply]
  cases s.work.tracks.checkInStep (sc.targets.map (·.name)) (s.cursor.frame + 1) <;> rfl

/-- A pass works out a frame, or finds that the session is to stop; it fails in the
    frame, or behind it. -/
theorem leads_pass_passed : Leads (sc.pass total) s
    (fun r s' =>
      match r with
      | none => s' = sc.polled s
      | some r => ∃ s₁, sc.Passed s r s₁ s')
    (fun e s' => sc.frame (sc.polled s) = .error e s' ∨
      ∃ r s₁ sheets, sc.frame (sc.polled s) = .ok r s₁ ∧ s' = { s₁ with sheets := sheets }) := by
  rw [leads_pass]
  split
  · rfl
  · refine .intro (fun r s₁ hframe => ?_) fun e s₁ hframe => .inl hframe
    refine leads_writeSheets.mono (fun _ s₂ h => ?_) fun e s₂ h => ?_
    · obtain ⟨sheets, rfl⟩ := h
      refine leads_goOn.mono (fun _ s₃ h => ?_) fun e s₃ h => .inr ⟨r, s₁, sheets, hframe, h⟩
      subst h
      exact ⟨s₁, hframe, rfl, rfl, rfl, rfl, rfl⟩
    · exact .inr ⟨r, s₁, s₁.sheets, hframe, h⟩

/-! ## The states in front of the frames -/

/-- The states in front of the frames, from a first one on. -/
inductive Reaches (sc : Scan σ) (total : Nat) (s₀ : ScanState σ) : Nat → ScanState σ → Prop
  | start : Reaches sc total s₀ 0 s₀
  | next {k : Nat} {s s' : ScanState σ} {r : FrameRecord} :
      Reaches sc total s₀ k s → sc.pass total s = .ok (some r) s' → Reaches sc total s₀ (k + 1) s'

variable {s₀ : ScanState σ} {k n : Nat} {b : Bool}

/-- A state in front of a frame that is done. -/
theorem Reaches.exists_pass_lt {f : Nat} (h : sc.Reaches total s₀ k s) (hf : f < k) :
    ∃ s₁ s₂ r n, sc.Reaches total s₀ f s₁ ∧ sc.pass total s₁ = .ok (some r) s₂ ∧
      sc.Reaches total s₂ n s := by
  induction h with
  | start => omega
  | @next k s s' r hs hpass ih =>
    by_cases hfk : f = k
    · exact ⟨s, s', r, 0, hfk ▸ hs, hpass, .start⟩
    · obtain ⟨s₁, s₂, r', n, hs₁, hpass₁, hs₂⟩ := ih (by omega)
      exact ⟨s₁, s₂, r', n + 1, hs₁, hpass₁, hs₂.next hpass⟩

/-- Frames that are gone through lead to a state in front of a frame, where the scan
    ends. -/
theorem frames_eq_ok (hs : Reaches sc total s₀ k s) (h : sc.frames total n s = .ok b s') :
    (b = false ∧ Reaches sc total s₀ (k + n) s') ∨
      ∃ j s₁, b = true ∧ k ≤ j ∧ j < k + n ∧ Reaches sc total s₀ j s₁ ∧
        sc.pass total s₁ = .ok none s' := by
  -- The induction is on the frames that remain, so where they begin has to be free.
  induction n generalizing k s with
  | zero =>
    cases h
    exact .inl ⟨rfl, hs⟩
  | succ n ih =>
    rw [frames_succ] at h
    split at h
    · next hpass =>
      cases h
      exact .inr ⟨k, s, rfl, Nat.le_refl k, by omega, hs, hpass⟩
    · next hpass =>
      rcases ih (hs.next hpass) h with ⟨hb, hr⟩ | ⟨j, s₁, hb, hkj, hjn, hr, hp⟩
      · rw [Nat.add_right_comm] at hr
        exact .inl ⟨hb, hr⟩
      · exact .inr ⟨j, s₁, hb, by omega, by omega, hr, hp⟩
    · cases h

/-- Frames that are not gone through lead to a pass that fails. -/
theorem frames_eq_error (hs : Reaches sc total s₀ k s) (h : sc.frames total n s = .error e s') :
    ∃ j s₁, k ≤ j ∧ j < k + n ∧ Reaches sc total s₀ j s₁ ∧ sc.pass total s₁ = .error e s' := by
  induction n generalizing k s with
  | zero => cases h
  | succ n ih =>
    rw [frames_succ] at h
    split at h
    · cases h
    · next hpass =>
      obtain ⟨j, s₁, hkj, hjn, hr, hp⟩ := ih (hs.next hpass) h
      exact ⟨j, s₁, by omega, by omega, hr, hp⟩
    · next hpass =>
      cases h
      exact ⟨k, s, Nat.le_refl k, by omega, hs, hpass⟩

/-! ## In front of the frames -/

/-- What is done before the first frame. -/
def prepare (sc : Scan σ) (o : Option Outlet) : Work σ (Option Sheets) := do
  Work.ofExcept sc.check
  sc.startTracks
  sc.openSheets o

variable {o : Option Outlet} {w w' w₁ : Workspace σ} {sheets : Option Sheets} {report : ScanReport}

theorem run_apply : sc.run total o w =
    match sc.check with
    | .error e => .error e w
    | .ok _ =>
      if sc.targets.isEmpty then .ok .empty w
      else
        match sc.prepare o w with
        | .ok sheets w₁ => sc.scanFrames total sheets w₁
        | .error e w₁ => .error e w₁ := by
  simp only [run, prepare, bind_apply, Work.ofExcept_apply]
  rcases sc.check with e | _
  · rfl
  dsimp only
  split
  · rfl
  · simp only [bind_apply]
    rcases sc.startTracks w with ⟨_, w₁⟩ | ⟨e, w₁⟩
    · dsimp only
      cases sc.openSheets o w₁ <;> rfl
    · rfl

/-- The tracks with one target started. -/
def startTarget (sc : Scan σ) (ts : Tracks) (t : Target) : Tracks :=
  let ts := ts.start t.name t.kind .extracted
  match sc.templates.find? t.name with
  | some image => ts.setTemplate t.name (image.width, image.height)
  | none => ts

/-- The tracks with all targets started. -/
def startedTracks (sc : Scan σ) (ts : Tracks) : Tracks := sc.targets.foldl sc.startTarget ts

/-- The sheets of the targets, if sheets are wanted. -/
def opened (sc : Scan σ) (o : Option Outlet) : Option Sheets :=
  o.bind fun o => if o.outputs.tables then some (.start o sc.targets) else none

/-- Just the sheets of the targets are opened, if each of them can be. -/
theorem leads_openSheets : Leads (sc.openSheets o) w
    (fun sheets w' => sheets = sc.opened o ∧ Work.Opened w ((sc.opened o).elim [] Sheets.all) w')
    (Work.Refused w ((sc.opened o).elim [] Sheets.all)) := by
  unfold openSheets opened
  rcases o with _ | o
  · exact ⟨rfl, .nil w⟩
  dsimp only [Option.bind_some]
  split
  · -- The sheet of all targets is opened last, but stands first.
    have hmem : ∀ x, x ∈ (Sheets.start o sc.targets).all ↔
        x ∈ (Sheets.start o sc.targets).own ++ [(Sheets.start o sc.targets).combined] := by
      intro x
      rw [Sheets.all, List.mem_cons, List.mem_append, List.mem_singleton, or_comm]
    simp only [leads_bind, leads_pure]
    refine Work.leads_openSheets.mono (fun _ w₁ h => ?_) fun e w₁ h =>
      (h.append_right _).congr hmem
    refine Work.leads_openSheet.mono (fun _ w₂ h' => ⟨trivial, (h.append h').congr hmem⟩)
      fun e w₂ h' => (h.append_refused h').congr hmem
  · exact ⟨rfl, .nil w⟩

/-- What is there in front of the first frame. -/
structure Prepared (sc : Scan σ) (w : Workspace σ) (sheets : Option Sheets)
    (w₁ : Workspace σ) : Prop where
  check : sc.check = .ok ()
  world : w₁.world = w.world
  tracks : w₁.tracks = sc.startedTracks w.tracks
  folders : w.files.SameFolders w₁.files
  takes : ∀ x ∈ sheets.elim [] Sheets.all, ∃ place, w₁.files.Takes x.path place
  sheets : ∀ x, sheets = some x → ∃ o, x = .start o sc.targets

theorem error_of_failIf {α : Type} {b : Bool} {c : Failure} {x : Except Failure α}
    (h : (failIf b c >>= fun _ => x) = .error e) : e = c ∨ x = .error e := by
  rcases b
  · exact .inr h
  · exact .inl (Except.error.inj h).symm

theorem isConsistency_of_check (h : sc.check = .error e) : e.isConsistency = false := by
  unfold check at h
  obtain rfl | h := error_of_failIf h
  · rfl
  obtain rfl | h := error_of_failIf h
  · rfl
  obtain rfl | h := error_of_failIf h
  · rfl
  obtain rfl | h := error_of_failIf h
  · rfl
  split at h <;> cases h
  rfl

theorem exists_of_opened_eq_some {x : Sheets} (h : sc.opened o = some x) :
    ∃ o, x = .start o sc.targets := by
  obtain ⟨o, -, h⟩ := Option.bind_eq_some_iff.1 h
  split at h
  · exact ⟨o, (Option.some.inj h).symm⟩
  · cases h

/-- **A scan is prepared if nothing is missing and its sheets can be opened.** -/
theorem leads_prepare_opened : Leads (sc.prepare o) w
    (fun sheets w₁ => sc.Prepared w sheets w₁ ∧ sheets = sc.opened o ∧
      ∀ x ∈ (sc.opened o).elim [] Sheets.all, ∃ place, w.files.Takes x.path place)
    fun e w₁ => w₁.world = w.world ∧ (sc.check = .error e ∨ sc.check = .ok () ∧ e.IsUnwritten ∧
      ¬ ∀ x ∈ (sc.opened o).elim [] Sheets.all, ∃ place, w.files.Takes x.path place) := by
  unfold prepare
  rcases hcheck : sc.check with e | _
  · exact ⟨rfl, .inl rfl⟩
  simp only [Work.ofExcept, startTracks, leads_bind, leads_pure, leads_modify]
  refine leads_openSheets.mono (fun sheets w₁ h => ?_) fun e w₁ h =>
    ⟨h.world, .inr ⟨trivial, h.unwritten, h.takes⟩⟩
  obtain ⟨rfl, h⟩ := h
  exact ⟨⟨hcheck, h.world, h.tracks, h.folders, fun x hx =>
    (h.takes x hx).imp fun _ hx => hx.congr h.folders, fun x => exists_of_opened_eq_some⟩,
    rfl, h.takes⟩

theorem leads_prepare : Leads (sc.prepare o) w (fun sheets w₁ => sc.Prepared w sheets w₁)
    fun e w₁ => e.isConsistency = false ∧ w₁.world = w.world := by
  refine leads_prepare_opened.mono (fun sheets w₁ h => h.1) fun e w₁ h => ⟨?_, h.1⟩
  rcases h.2 with hcheck | ⟨-, ⟨path, fault, rfl⟩, -⟩
  · exact isConsistency_of_check hcheck
  · rfl

end Scan

end Screenmark
