/-
  Screenmark — the footage of a scan.

  Between two frames of a scan the footage that did not fail stands behind the frame
  read last, whatever frames were passed over and whatever moves and reads failed
  (`Recorded`). So what holds of one frame holds of all frames of a scan.

  * `leads_pass_noted` : a pass leads from one frame to the next one;
  * `usesFrames_of_isSteady` : the frames of a scan, and what is counted of them.
-/
import Screenmark.Proofs.Scan.Decode

namespace Screenmark

namespace Scan

open Scanning ScanState

variable {σ : Type} {sc : Scan σ} {s s' s₀ : ScanState (Noted σ)} {place : σ → Nat}
  {image : Nat → ColourImage} {files : Tree} {k total : Nat} {c : Shot σ} {r : FrameRecord}
  {us : List Use}

/-! ## Passes -/

/-- What was used and logged at a frame that is done. -/
structure FrameNoted (sc : Scan σ) (i : GreyImage) (us : List Use) (r : FrameRecord) : Prop where
  uses : sc.UsesFrame i us
  quiet : r.triggers sc.targets Target.needsImage = false → us = []
  image : r.image = .unneeded ↔ r.triggers sc.targets Target.needsImage = false
  idle : r.isIdle = !r.triggers sc.targets fun _ => true

/-- What was used and logged at the frames that are done; the latest one stands first. -/
structure AllNoted (sc : Scan σ) (image : Nat → ColourImage) (uss : List (List Use))
    (rs : List FrameRecord) : Prop where
  length : uss.length = rs.length
  noted : ∀ f us r, uss.reverse[f]? = some us → rs.reverse[f]? = some r →
    sc.FrameNoted (image f).grey us r

theorem AllNoted.cons {uss : List (List Use)} {rs : List FrameRecord}
    (h : sc.AllNoted image uss rs) (hr : sc.FrameNoted (image rs.length).grey us r) :
    sc.AllNoted image (us :: uss) (r :: rs) := by
  refine ⟨congrArg Nat.succ h.length, fun f us' r' hus' hr' => ?_⟩
  -- The lists are of one length, so what is new in one is found beside what is new in the other.
  rcases getElem?_reverse_cons hus' with hus' | ⟨rfl, rfl⟩
  · rcases getElem?_reverse_cons hr' with hr' | ⟨rfl, rfl⟩
    · exact h.noted f us' r' hus' hr'
    · rw [List.getElem?_eq_none (by simp [h.length])] at hus'
      cases hus'
  · rcases getElem?_reverse_cons hr' with hr' | ⟨-, rfl⟩
    · rw [List.getElem?_eq_none (by simp [h.length])] at hr'
      cases hr'
    · rw [h.length]
      exact hr

/-- A state in front of a frame. -/
structure Recorded (sc : Scan σ) (place : σ → Nat) (image : Nat → ColourImage) (files : Tree)
    (k : Nat) (s : ScanState (Noted σ)) : Prop where
  files : s.work.files = files
  frame : s.cursor.frame = k
  /-- Footage that did not fail stands behind the frame read last. -/
  located : s.cursor.isLost = false → place s.work.world.world = s.cursor.upcoming
  log : s.log.length = k
  noted : sc.AllNoted image s.work.world.frames s.log

/-- The frame that is worked on in a state in front of it. -/
def shot (place : σ → Nat) (image : Nat → ColourImage) (s : ScanState (Noted σ)) : Shot σ :=
  ⟨place, image, s.work.files, s.cursor.frame, s.work.world.frames, s.log⟩

theorem Recorded.opened (hins : sc.instruments.IsSteady files place image)
    (h : sc.Recorded place image files k s) :
    sc.InFrame (shot place image s) (sc.noted.polled s).opened := by
  refine ⟨⟨rfl, rfl, rfl, fun hl => ?_, [], rfl, usesFrame_nil _ _⟩, fun _ => rfl, fun i hi => ?_⟩
  · exact (hins.poll _).trans (h.located hl)
  · cases hi

theorem isIdle_eq_not_triggers {ts : List Target}
    (h : ∀ e ∈ r.entries, ∃ t, ts[e.place]? = some t) :
    r.isIdle = !r.triggers ts fun _ => true := by
  unfold FrameRecord.isIdle FrameRecord.triggers LogEntry.triggers
  rw [List.not_any_eq_all_not, Bool.eq_iff_iff, List.all_eq_true, List.all_eq_true]
  refine forall_congr' fun e => forall_congr' fun he => ?_
  obtain ⟨t, ht⟩ := h e he
  rw [ht, Option.any_some, Bool.and_true]

/-- A frame that is done is noted. -/
theorem frameNoted_of_inFrame (h : sc.InFrame c s)
    (hu : s.image = .untouched ↔ r.triggers sc.targets Target.needsImage = false)
    (himage : r.image = s.image.use)
    (hentries : ∀ e ∈ r.entries, ∃ t, sc.targets[e.place]? = some t)
    (hus : s.work.world.frames = us :: c.before) : sc.FrameNoted c.grey us r where
  uses := by
    obtain ⟨us', hus', huses⟩ := h.uses
    obtain rfl := (List.cons.inj (hus.symm.trans hus')).1
    exact huses
  quiet hno := (List.cons.inj (hus.symm.trans (h.untouched (hu.2 hno)))).1
  image := by rw [himage, FrameImage.use_eq_unneeded_iff, hu]
  idle := isIdle_eq_not_triggers hentries

/-- What a frame that is not done leaves: there may be uses, if some target needs the
    image. -/
structure Halted (sc : Scan σ) (image : Nat → ColourImage) (s s' : ScanState (Noted σ)) : Prop where
  log : s'.log = s.log
  uses : ∃ us, s'.work.world.frames = us :: s.work.world.frames ∧
    sc.UsesFrame (image s.cursor.frame).grey us ∧
    (us ≠ [] → sc.noted.Wants sc.ordered (sc.noted.polled s).opened)

theorem halted_of_inFrame (h : sc.InFrame (shot place image s) s')
    (hw : s'.image = .untouched ∨ sc.noted.Wants sc.ordered (sc.noted.polled s).opened) :
    sc.Halted image s s' := by
  obtain ⟨us, hus, huses⟩ := h.uses
  refine ⟨h.log, us, hus, huses, fun hne => ?_⟩
  rcases hw with hu | hw
  · exact absurd (List.cons.inj (hus.symm.trans (h.untouched hu))).1 hne
  · exact hw

/-- **A pass leads from one frame to the next one.** -/
theorem leads_pass_noted (hins : sc.instruments.IsSteady files place image)
    (h : sc.Recorded place image files k s) :
    Leads (sc.noted.pass total) s
      (fun r s' =>
        match r with
        | none => sc.Halted image s s'
        | some _ => sc.Recorded place image files (k + 1) s')
      fun _ s' => sc.Halted image s s' := by
  obtain rfl := h.files
  have hframe := leads_frame_noted hins (h.opened hins)
  refine leads_pass_passed.mono (fun x s' hpass => ?_) fun e s' hpass => ?_
  · rcases x with _ | r
    · -- The frame begins in the notes, but it is not worked on.
      obtain rfl := hpass
      exact ⟨rfl, [], rfl, usesFrame_nil _ _, fun hne => absurd rfl hne⟩
    · obtain ⟨s₁, hpassed⟩ := hpass
      obtain ⟨hs, hu, -, himage, hentries⟩ := hframe.ok hpassed.frame
      obtain ⟨us, hus, -⟩ := hs.uses
      have hnoted := frameNoted_of_inFrame hs hu himage hentries hus
      have hframes : s'.work.world.frames = us :: s.work.world.frames :=
        (congrArg Noted.frames hpassed.world).trans hus
      have hlog : s'.log = r :: s.log := hpassed.log.trans (congrArg (r :: ·) hs.log)
      constructor
      · exact hpassed.files.trans hs.files
      · rw [hpassed.cursor]
        exact congrArg Nat.succ (hs.frame.trans h.frame)
      · intro hl
        rw [hpassed.cursor] at hl ⊢
        rw [hpassed.world]
        exact hs.located hl
      · rw [hlog, List.length_cons, h.log]
      · rw [hframes, hlog]
        refine h.noted.cons ?_
        rw [h.log, ← h.frame]
        exact hnoted
  · rcases hpass with hpass | ⟨r, s₁, sheets, hpass, rfl⟩
    · obtain ⟨hs, hw⟩ := hframe.error hpass
      exact halted_of_inFrame hs hw
    · obtain ⟨hs, -, hw, -⟩ := hframe.ok hpass
      exact halted_of_inFrame (hs.congr rfl rfl rfl rfl rfl) hw

theorem Reaches.recorded (hins : sc.instruments.IsSteady files place image)
    (h₀ : sc.Recorded place image files 0 s₀) (h : sc.noted.Reaches total s₀ k s) :
    sc.Recorded place image files k s := by
  induction h with
  | start => exact h₀
  | next _ hpass ih => exact (leads_pass_noted hins ih).ok hpass

/-! ## Whole scans -/

variable {o : Option Outlet} {w w' : Workspace σ} {v₁ : Workspace (Noted σ)}
  {sheets : Option Sheets} {report : ScanReport} {f : Nat}

/-- What is used at the frames of a scan, from the first one on. -/
def uses (sc : Scan σ) (total : Nat) (o : Option Outlet) (w : Workspace σ) : List (List Use) :=
  match sc.noted.run total o w.noted with
  | .ok _ v => v.world.frames.reverse
  | .error _ v => v.world.frames.reverse

theorem noted_history : sc.noted.history total o w.noted = sc.history total o w := by
  unfold history
  rw [show sc.noted.targets = sc.targets from rfl, ← sc.forget_prepare]
  split
  · rfl
  · rcases sc.noted.prepare o w.noted with ⟨sheets, v₁⟩ | ⟨e, v₁⟩
    · have hframes : sc.frames total total (initial v₁.forget sheets) =
          mapState ScanState.forget (sc.noted.frames total total (initial v₁ sheets)) :=
        same_frames total (initial v₁ sheets)
      dsimp only [mapState]
      rw [hframes]
      cases sc.noted.frames total total (initial v₁ sheets) <;> rfl
    · rfl

/-- The frames that a scan worked on are those it was prepared for. -/
theorem exists_frames (sc : Scan σ) (total : Nat) (o : Option Outlet) (w : Workspace σ) :
    (sc.uses total o w = [] ∧ sc.history total o w = []) ∨
      ∃ sheets v₁ s, sc.noted.prepare o w.noted = .ok sheets v₁ ∧
        ((∃ b, sc.noted.frames total total (initial v₁ sheets) = .ok b s) ∨
          ∃ e, sc.noted.frames total total (initial v₁ sheets) = .error e s) ∧
        sc.uses total o w = s.work.world.frames.reverse ∧ sc.history total o w = s.log.reverse := by
  rw [← noted_history]
  unfold uses history
  rw [run_apply]
  by_cases hempty : sc.noted.targets.isEmpty = true
  · refine .inl ⟨?_, if_pos hempty⟩
    rw [if_pos hempty]
    cases sc.noted.check <;> rfl
  · rw [if_neg hempty, if_neg hempty]
    rcases hprep : sc.noted.prepare o w.noted with ⟨sheets, v₁⟩ | ⟨e, v₁⟩
    · refine .inr ⟨sheets, v₁, ?_⟩
      rw [(leads_prepare.ok hprep).check]
      dsimp only
      rw [scanFrames_eq (leads_prepare.ok hprep).takes]
      rcases sc.noted.frames total total (initial v₁ sheets) with ⟨b, s⟩ | ⟨e, s⟩
      · exact ⟨s, rfl, .inl ⟨b, rfl⟩, rfl, rfl⟩
      · exact ⟨s, rfl, .inr ⟨e, rfl⟩, rfl, rfl⟩
    · -- No instrument is used before the first frame.
      have hworld : v₁.world.frames.reverse = [] :=
        congrArg (·.frames.reverse) (leads_prepare.error hprep).2
      refine .inl ⟨?_, rfl⟩
      rcases sc.noted.check with e | _
      · rfl
      · exact hworld

/-- What was used and logged in a scan of which some frames are done. -/
structure Ended (sc : Scan σ) (image : Nat → ColourImage) (total : Nat) (o : Option Outlet)
    (w : Workspace σ) (uss : List (List Use)) (rs : List FrameRecord) : Prop where
  length : rs.length ≤ uss.length
  done : ∀ f us r, uss[f]? = some us → rs[f]? = some r → sc.FrameNoted (image f).grey us r
  halted : ∀ f us, uss[f]? = some us → rs[f]? = none → sc.UsesFrame (image f).grey us ∧
    (us ≠ [] → ∃ t, t.needsImage = true ∧ sc.IsTriggeredAt total o w f t)

theorem Recorded.ended (h : sc.Recorded place image files k s) :
    sc.Ended image total o w s.work.world.frames.reverse s.log.reverse := by
  have hlength := h.noted.length
  refine ⟨by simp [hlength], h.noted.noted, fun f us hus hr => ?_⟩
  rw [List.getElem?_eq_none_iff, List.length_reverse, ← hlength] at hr
  rw [List.getElem?_eq_none (by simpa using hr)] at hus
  cases hus

theorem Halted.ended (hprep : sc.noted.prepare o w.noted = .ok sheets v₁)
    (hs : sc.noted.Reaches total (initial v₁ sheets) k s)
    (h : sc.Recorded place image files k s) (h' : sc.Halted image s s') :
    sc.Ended image total o w s'.work.world.frames.reverse s'.log.reverse := by
  obtain ⟨us, hus, huses, hwants⟩ := h'.uses
  rw [h'.log, hus]
  refine ⟨by simp [h.noted.length], fun f us' r hus' hr => ?_, fun f us' hus' hr => ?_⟩
  · rcases getElem?_reverse_cons hus' with hus' | ⟨rfl, rfl⟩
    · exact h.noted.noted f us' r hus' hr
    · rw [List.getElem?_eq_none (by simp [h.noted.length])] at hr
      cases hr
  · rcases getElem?_reverse_cons hus' with hus' | ⟨rfl, rfl⟩
    · rw [List.getElem?_eq_none_iff, List.length_reverse, ← h.noted.length] at hr
      rw [List.getElem?_eq_none (by simpa using hr)] at hus'
      cases hus'
    · have hk : s.work.world.frames.length = k := h.noted.length.trans h.log
      rw [h.frame] at huses
      rw [hk]
      refine ⟨huses, fun hne => ?_⟩
      obtain ⟨t, hneeds, hturn⟩ := hwants hne
      refine ⟨t, hneeds, sheets, v₁.forget, s.forget, ?_, hs.forget, hturn.forget⟩
      rw [← sc.forget_prepare, hprep]
      rfl

/-- Footage that starts at the first frame stands in front of it. -/
theorem recorded_initial (hworld : v₁.world = w.noted.world) (hstart : place w.world = 0) :
    sc.Recorded place image v₁.files 0 (initial v₁ sheets) := by
  refine ⟨rfl, rfl, fun _ => ?_, rfl, ?_, fun f us r _ hr => ?_⟩
  · exact (congrArg (fun v => place v.world) hworld).trans hstart
  · exact congrArg (·.frames.length) hworld
  · cases hr

theorem ended_of_run (hstart : place w.world = 0)
    (hins : ∀ sheets w₁, sc.prepare o w = .ok sheets w₁ →
      sc.instruments.IsSteady w₁.files place image) :
    sc.Ended image total o w (sc.uses total o w) (sc.history total o w) := by
  rcases exists_frames sc total o w with
    ⟨huses, hhistory⟩ | ⟨sheets, v₁, s, hprep, hs, huses, hhistory⟩
  · rw [huses, hhistory]
    exact ⟨Nat.le_refl 0, fun f us r hus => (nomatch hus), fun f us hus => (nomatch hus)⟩
  · rw [huses, hhistory]
    have hsteady : sc.instruments.IsSteady v₁.files place image := by
      refine hins sheets v₁.forget ?_
      rw [← sc.forget_prepare, hprep]
      rfl
    have h₀ : sc.Recorded place image v₁.files 0 (initial v₁ sheets) :=
      recorded_initial (leads_prepare.ok hprep).world hstart
    rcases hs with ⟨b, hs⟩ | ⟨e, hs⟩
    · rcases frames_eq_ok .start hs with ⟨-, hs⟩ | ⟨j, s₁, -, -, -, hs₁, hpass⟩
      · exact (hs.recorded hsteady h₀).ended
      · have h₁ := hs₁.recorded hsteady h₀
        exact ((leads_pass_noted hsteady h₁).ok hpass).ended hprep hs₁ h₁
    · obtain ⟨j, s₁, -, -, hs₁, hpass⟩ := frames_eq_error .start hs
      have h₁ := hs₁.recorded hsteady h₀
      exact ((leads_pass_noted hsteady h₁).error hpass).ended hprep hs₁ h₁

/-! ## Counts -/

theorem countP_decoded_add_countP_failed (rs : List FrameRecord) :
    rs.countP (·.image = .decoded) + rs.countP (·.image = .failed) =
      rs.countP fun r => !decide (r.image = .unneeded) := by
  induction rs with
  | nil => rfl
  | cons r rs ih =>
    simp only [List.countP_cons]
    rcases himage : r.image <;> simp <;> omega

theorem Ended.exists_noted {uss : List (List Use)} {rs : List FrameRecord}
    (h : sc.Ended image total o w uss rs) : ∀ r ∈ rs, ∃ i us, sc.FrameNoted i us r := by
  intro r hr
  obtain ⟨f, hf, rfl⟩ := List.getElem_of_mem hr
  have hlt : f < uss.length := Nat.lt_of_lt_of_le hf h.length
  exact ⟨_, _, h.done f _ _ (List.getElem?_eq_getElem hlt) (List.getElem?_eq_getElem hf)⟩

/-- **The footage of a scan.** The footage starts at the first frame, goes where it is
    told if it does not fail, and may be anywhere if it does. Then at every frame it is
    moved once and read once at most, and only if some target that needs the image is
    triggered; the matcher and the recogniser are given parts of the image of that frame
    only. A scan that ends counts as decoded or failed the frames at which some target
    that needs the image was triggered, and as idle those at which no target was. -/
theorem usesFrames_of_isSteady (hstart : place w.world = 0)
    (hins : ∀ sheets w₁, sc.prepare o w = .ok sheets w₁ →
      sc.instruments.IsSteady w₁.files place image) :
    mapState Workspace.forget (sc.noted.run total o w.noted) = sc.run total o w ∧
    (sc.history total o w).length ≤ (sc.uses total o w).length ∧
    (∀ f us, (sc.uses total o w)[f]? = some us → sc.UsesFrame (image f).grey us ∧
      match (sc.history total o w)[f]? with
      | some r => r.triggers sc.targets Target.needsImage = false → us = []
      | none => us ≠ [] → ∃ t, t.needsImage = true ∧ sc.IsTriggeredAt total o w f t) ∧
    ∀ report w', sc.run total o w = .ok report w' →
      report.frames = (sc.history total o w).length ∧
      report.decoded + report.failures =
        (sc.history total o w).countP (·.triggers sc.targets Target.needsImage) ∧
      report.idle = (sc.history total o w).countP (!·.triggers sc.targets fun _ => true) := by
  have hended : sc.Ended image total o w (sc.uses total o w) (sc.history total o w) :=
    ended_of_run hstart hins
  refine ⟨sc.forget_run total o w, hended.length, fun f us hus => ?_, fun report w' hrun => ?_⟩
  · split
    · next r hr =>
      have hnoted := hended.done f us r hus hr
      exact ⟨hnoted.uses, hnoted.quiet⟩
    · next hr => exact hended.halted f us hus hr
  · have hnoted := hended.exists_noted
    refine ⟨frames_eq_length hrun, ?_, ?_⟩
    · rw [report_eq_ofLog hrun]
      refine (countP_decoded_add_countP_failed _).trans (List.countP_congr fun r hr => ?_)
      obtain ⟨i, us, h⟩ := hnoted r hr
      rw [Bool.not_eq_true', decide_eq_false_iff_not, h.image, Bool.not_eq_false]
    · rw [report_eq_ofLog hrun]
      refine List.countP_congr fun r hr => ?_
      obtain ⟨i, us, h⟩ := hnoted r hr
      rw [h.idle]

/-! ## Footage that fails -/

/-- A scan in which text is read from frames of different sizes. The second frame cannot
    be read, and then the footage stands at the first one again. -/
def rewinding (p : Plan) : Scan Nat where
  plan := p
  settings := .default
  templates := .empty
  instruments :=
    { Instruments.none with
      footage := some ⟨3, Binary.one, 1, 1, fun n _ => (true, n), fun _ w =>
        if w = 1 then (none, 0) else (some (.ofFn (w + 1) 1 fun _ _ => default), w + 1)⟩
      recogniser := some fun _ _ w => ("", w) }
  stopped := false

theorem isSteady_rewinding (p : Plan) (files : Tree) :
    (rewinding p).instruments.IsSteady files id fun n => .ofFn (n + 1) 1 fun _ _ => default where
  footage f hf := by
    obtain rfl := Option.some.inj hf
    refine ⟨fun n w _ => rfl, fun w i hi => ?_⟩
    dsimp only at hi ⊢
    split at hi
    · cases hi
    · next hne =>
      rw [if_neg hne]
      exact ⟨(Option.some.inj hi).symm, rfl⟩
  matcher _ h := nomatch h
  recogniser recognise h i c w := by
    obtain rfl := Option.some.inj h
    rfl
  snapshots _ h := nomatch h
  poll _ := rfl

/-- A workspace whose footage stands at the first frame. -/
def rewound : Workspace Nat := ⟨0, .empty, .empty Settings.defaultThreshold, .initial⟩

/-- Footage that fails at the second frame is moved to the third one. -/
theorem usesFrames_of_isSteady_of_rewinding :
    ∃ p report w', Plan.compile ["detectText(a)"] [] = .ok p ∧
      (rewinding p).run 3 none rewound = .ok report w' ∧ report.seeks = 1 ∧
      report.decoded + report.failures = 3 := by
  obtain ⟨p, report, w', hp, hrun, h⟩ := exists_run ["detectText(a)"] [] rewinding 3 none rewound
    (fun p report _ => report.seeks = 1 && ((rewinding p).history 3 none rewound).countP
      (·.triggers (rewinding p).targets Target.needsImage) = 3)
    (by decide +kernel)
  rw [Bool.and_eq_true, decide_eq_true_iff, decide_eq_true_iff] at h
  obtain ⟨-, -, -, hreport⟩ := usesFrames_of_isSteady (w := rewound) rfl fun _ w₁ _ =>
    isSteady_rewinding p w₁.files
  obtain ⟨-, hcount, -⟩ := hreport report w' hrun
  exact ⟨p, report, w', hp, hrun, h.1, hcount.trans h.2⟩

end Scan

end Screenmark
