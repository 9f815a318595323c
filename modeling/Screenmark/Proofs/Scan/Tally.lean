/-
  Screenmark — what a scan counts.

  A scan counts moves, images, failures and frames one at a time, where they happen. In
  front of a frame its report is that of the log (`ScanState.Counted`). Within a frame the
  image that is had for it is counted already, though the log does not have the frame yet
  (`ScanState.Tallied`); what is counted when the frame is done makes up for that
  (`ScanReport.ofLog_cons`).

  * `Scan.leads_frameImage_tallied` : the one step that counts images;
  * `Scan.Reaches.counted`, `Scan.report_of_frames` : the report of a scan is that of its log.
-/
import Screenmark.Proofs.Scan.Frames

namespace Screenmark

/-! ## Reports of logs -/

namespace ScanReport

/-- The counts of a log. -/
def ofLog (log : List FrameRecord) (aborted : Bool) (tables : List String) : ScanReport where
  frames := log.length
  decoded := log.countP (·.image = .decoded)
  seeks := log.countP (·.sought)
  failures := log.countP (·.image = .failed)
  idle := log.countP (·.isIdle)
  aborted := aborted
  tables := tables

/-- The counts of a log, and of how the image of one more frame was had. -/
def amid (log : List FrameRecord) (image : ImageUse) (sought : Bool) : ScanReport :=
  { ofLog log false [] with
    decoded := log.countP (·.image = .decoded) + if image = .decoded then 1 else 0
    seeks := log.countP (·.sought) + if sought then 1 else 0
    failures := log.countP (·.image = .failed) + if image = .failed then 1 else 0 }

variable {log : List FrameRecord} {image : ImageUse} {sought : Bool}

theorem amid_unneeded : amid log .unneeded false = ofLog log false [] := rfl

theorem countSeek_amid : (amid log image false).countSeek = amid log image true := rfl

theorem countDecoded_amid : (amid log .unneeded sought).countDecoded = amid log .decoded sought :=
  rfl

theorem countFailure_amid : (amid log .unneeded sought).countFailure = amid log .failed sought :=
  rfl

/-- **A frame that is done goes from the one being worked on into the log.** -/
theorem ofLog_cons (r : FrameRecord) : ofLog (r :: log) false [] =
    (amid log r.image r.sought).countFrame (log.length + 1) r.isIdle := by
  simp only [ofLog, amid, countFrame, List.countP_cons, List.length_cons, decide_eq_true_eq]
  cases r.isIdle <;> rfl

theorem ofLog_reverse (aborted : Bool) (tables : List String) : ofLog log.reverse aborted tables =
    { ofLog log false [] with aborted := aborted, tables := tables } := by
  simp only [ofLog, List.countP_reverse, List.length_reverse]

end ScanReport

/-! ## Within a frame -/

variable {σ : Type} {s s' : ScanState σ}

namespace ScanState

/-- The report has the counts of the log, and of the image of the frame. -/
structure Tallied (s : ScanState σ) : Prop where
  report : s.report = .amid s.log s.image.use s.sought
  /-- The footage is moved only to read the image. -/
  fresh : s.image = .untouched → s.sought = false
  frame : s.cursor.frame = s.log.length

/-- The report has the counts of the log. -/
structure Counted (s : ScanState σ) : Prop where
  report : s.report = .ofLog s.log false []
  frame : s.cursor.frame = s.log.length

theorem Counted.opened (h : s.Counted) : s.opened.Tallied :=
  ⟨h.report.trans ScanReport.amid_unneeded.symm, fun _ => rfl, h.frame⟩

/-- What is shown, the tracks and the world have nothing to do with the counts. -/
theorem Tallied.withWork (h : s.Tallied) (w : Workspace σ) : { s with work := w }.Tallied :=
  ⟨h.report, h.fresh, h.frame⟩

end ScanState

namespace Scan

open Scanning ScanState

variable {sc : Scan σ} {f : Footage σ} {t : Target} {i total : Nat} {r : FrameRecord}

/-- A move of the footage is counted; the image is none of its business. -/
theorem leads_seek_counts (h : s.Tallied) (himage : s.image = .untouched) :
    Leads (seek f) s (fun _ s' => s'.image = .untouched ∧ s'.log = s.log ∧
      s'.cursor.frame = s.cursor.frame ∧ s'.report = .amid s'.log .unneeded s'.sought)
      fun _ _ => False := by
  have hreport : s.report = .amid s.log .unneeded false := by
    rw [h.report, himage, h.fresh himage]
    rfl
  simp only [seek, leads_bind, leads_get]
  split
  · simp only [leads_bind, leads_modify, leads_use, count]
    exact ⟨himage, trivial, trivial, by rw [hreport, ScanReport.countSeek_amid]⟩
  · exact ⟨himage, rfl, rfl, by rw [hreport, h.fresh himage]⟩

/-- An image that is read is counted, before it is kept as that of the frame. -/
theorem leads_decode_counts (h : s.Tallied) (himage : s.image = .untouched) :
    Leads (decode f) s (fun x s' => s'.log = s.log ∧ s'.cursor.frame = s.cursor.frame ∧
      (∀ i, x = .ok i → s'.report = .amid s'.log .decoded s'.sought) ∧
        ∀ c, x = .error c → s'.report = .amid s'.log .unneeded s'.sought)
      fun _ _ => False := by
  simp only [decode, leads_bind, leads_get]
  refine (leads_seek_counts h himage).mono (fun b s₁ hs => ?_) fun _ _ h => h
  obtain ⟨-, hlog, hframe, hreport⟩ := hs
  rcases b
  · exact ⟨hlog, hframe, (fun _ hi => by cases hi), fun _ _ => hreport⟩
  · simp only [if_true, leads_bind, leads_get, leads_use]
    split
    · simp only [leads_bind, leads_modify, count]
      exact ⟨hlog, rfl, fun _ _ => by rw [hreport, ScanReport.countDecoded_amid],
        fun _ hc => by cases hc⟩
    · exact ⟨hlog, hframe, (fun _ hi => by cases hi), fun _ _ => hreport⟩

/-- **The image of a frame is counted once**, when it is had or not had. -/
theorem leads_frameImage_tallied (h : s.Tallied) :
    Leads (sc.frameImage t) s (fun _ s' => s'.Tallied) fun _ _ => True := by
  simp only [frameImage, leads_bind, leads_get]
  split
  · exact h
  · exact h
  · trivial
  · next himage _ =>
    simp only [leads_bind]
    refine (leads_decode_counts h himage).mono (fun x s₁ hs => ?_) fun _ _ h => h.elim
    obtain ⟨hlog, hframe, hok, herror⟩ := hs
    have hframe : s₁.cursor.frame = s₁.log.length := by rw [hframe, hlog, h.frame]
    rcases x with cause | image
    · have hfailed : s₁.report.countFailure = .amid s₁.log .failed s₁.sought := by
        rw [herror cause rfl, ScanReport.countFailure_amid]
      exact ⟨hfailed, (fun hu => by cases hu), hframe⟩
    · exact ⟨hok image rfl, (fun hu => by cases hu), hframe⟩

theorem leads_observe_tallied (h : s.Tallied) :
    Leads (sc.observe t) s (fun _ s' => s'.Tallied) fun _ _ => True := by
  unfold observe
  split
  · unfold takeElement
    split
    · exact h
    · exact h.withWork _
  · simp only [observeImage, leads_bind]
    refine (leads_frameImage_tallied h).mono (fun image s₁ h₁ => ?_) fun _ _ h => h
    rcases image with _ | image
    · exact h₁
    · simp only [leads_bind, leads_get, leads_ofExcept]
      refine ⟨fun region _ => ?_, fun _ _ => trivial⟩
      rcases region with _ | region
      · exact h₁
      dsimp only
      split
      · unfold readText
        split
        · trivial
        · exact h₁.withWork _
      · unfold lookFor
        split
        · trivial
        · split
          · exact h₁
          · split
            · trivial
            · exact h₁.withWork _

theorem leads_step_tallied (h : s.Tallied) :
    Leads (sc.step i t) s (fun _ s' => s'.Tallied) fun _ _ => True := by
  have hsettle : ∀ {b : Bool} {seen : Option Observation} {s₁ : ScanState σ}, s₁.Tallied →
      Leads (settle i t b seen) s₁ (fun _ s' => s'.Tallied) fun _ _ => True := by
    intro b seen s₁ h₁
    refine leads_settle.2 ⟨fun ts _ => ?_, fun _ _ => trivial⟩
    rcases seen with _ | o <;> exact h₁.withWork _
  refine leads_step.2 ⟨fun _ _ => trivial, fun _ => hsettle h, fun _ => ?_⟩
  refine (leads_observe_tallied (h.withWork _)).mono (fun _ s₁ h₁ => hsettle h₁) fun _ _ h => h

theorem Steps.tallied {ps : List (Nat × Target)} {entries : List LogEntry}
    (hsteps : Steps sc ps s entries s') (h : s.Tallied) : s'.Tallied := by
  induction hsteps with
  | nil => exact h
  | cons hstep _ ih => exact ih ((leads_step_tallied h).ok hstep)

/-! ## In front of the frames -/

theorem leads_pass_counted (h : s.Counted) :
    Leads (sc.pass total) s (fun _ s' => s'.Counted) fun _ _ => True := by
  have hpolled : (sc.polled s).Counted := ⟨h.report, h.frame⟩
  rw [leads_pass]
  split
  · exact hpolled
  refine .intro (fun r s₁ hframe => ?_) fun _ _ _ => trivial
  obtain ⟨hsteps, himage, hsought⟩ := frame_eq_ok hframe
  have htallied := hsteps.tallied hpolled.opened
  refine leads_writeSheets.mono (fun _ s₂ h₂ => ?_) fun _ _ _ => trivial
  obtain ⟨sheets, rfl⟩ := h₂
  refine leads_goOn.mono (fun _ s₃ h₃ => ?_) fun _ _ _ => trivial
  subst h₃
  constructor
  · show s₁.report.countFrame (s₁.cursor.frame + 1) r.isIdle = .ofLog (r :: s₁.log) false []
    rw [ScanReport.ofLog_cons, himage, hsought, ← htallied.report, htallied.frame]
  · exact congrArg (· + 1) htallied.frame

variable {w : Workspace σ} {sheets : Option Sheets} {s₀ : ScanState σ} {k : Nat} {b : Bool}

theorem Reaches.counted (h : sc.Reaches total s₀ k s) (h₀ : s₀.Counted) : s.Counted := by
  induction h with
  | start => exact h₀
  | next _ hpass ih => exact (leads_pass_counted ih).ok hpass

/-- **The report of a scan is that of its log.** -/
theorem report_of_frames (h : sc.frames total total (initial w sheets) = .ok b s) :
    s.report = .ofLog s.log false [] := by
  have h₀ : (initial w sheets).Counted := ⟨rfl, rfl⟩
  rcases frames_eq_ok .start h with ⟨-, hs⟩ | ⟨j, s₁, -, -, -, hs, hpass⟩
  · exact (hs.counted h₀).report
  · exact ((leads_pass_counted (hs.counted h₀)).ok hpass).report

end Scan

end Screenmark
