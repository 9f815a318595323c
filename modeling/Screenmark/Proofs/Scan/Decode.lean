/-
  Screenmark — the images of the frames.

  A scan only remembers which frame it read last and whether the footage failed
  since then. If the footage goes where it is told and reads what is there, this is
  enough: whenever the footage has not failed, it stands behind the frame read last
  (`Noting.located`), so the image that is read at a frame is the image of that
  frame.

  * `leads_decode_noted` : the image of a frame is had with one move and one read
    at most;
  * `UsesFrame` : what is noted at a frame, of which only parts of its image are
    handed on.
-/
import Screenmark.Proofs.Scan.History
import Screenmark.Proofs.Scan.Region
import Screenmark.Proofs.Scan.Uses

namespace Screenmark

variable {σ : Type}

/-! ## Footage that goes where it is told -/

/-- Footage that stands at the frame `place`: a move that succeeds leads to the frame
    asked for, and a read that succeeds gives the image of the frame and goes on to the
    next one. Nothing is said of moves and reads that fail. -/
structure Footage.Delivers (f : Footage σ) (files : Tree) (place : σ → Nat)
    (image : Nat → ColourImage) : Prop where
  seek : ∀ n w, (f.seek n w).1 = true → place (f.seek n w).2 = n
  read : ∀ w i, (f.read files w).1 = some i →
    i = image (place w) ∧ place (f.read files w).2 = place w + 1

/-- Instruments of which only the footage moves the place of the footage. -/
structure Instruments.IsSteady (ins : Instruments σ) (files : Tree) (place : σ → Nat)
    (image : Nat → ColourImage) : Prop where
  footage : ∀ f, ins.footage = some f → f.Delivers files place image
  matcher : ∀ find, ins.matcher = some find → ∀ i t w, place (find i t w).2 = place w
  recogniser : ∀ recognise, ins.recogniser = some recognise → ∀ i c w,
    place (recognise i c w).2 = place w
  snapshots : ∀ snapshot, ins.snapshots = some snapshot → ∀ n w, place (snapshot n w).2 = place w
  poll : ∀ w, place (ins.poll w).2 = place w

namespace Use

/-- Whether the footage was moved. -/
def isSeek : Use → Bool
  | .seek _ => true
  | _ => false

/-- Whether the footage was read. -/
def isRead : Use → Bool
  | .read => true
  | _ => false

end Use

/-- Whether the target was triggered and has the property. -/
def LogEntry.triggers (e : LogEntry) (ts : List Target) (P : Target → Bool) : Bool :=
  e.triggered && ts[e.place]?.any P

/-- Whether some target with the property was triggered. -/
def FrameRecord.triggers (r : FrameRecord) (ts : List Target) (P : Target → Bool) : Bool :=
  r.entries.any (·.triggers ts P)

theorem FrameImage.use_eq_unneeded_iff {i : FrameImage} : i.use = .unneeded ↔ i = .untouched := by
  cases i <;> simp [FrameImage.use]

namespace Scan

open Scanning ScanState

/-- What is used at a frame with an image: the footage is moved once and read once at
    most, the matcher is given parts of the image, and the recogniser too, in black and
    white if the settings ask for it. -/
structure UsesFrame (sc : Scan σ) (image : GreyImage) (us : List Use) : Prop where
  seeks : us.countP Use.isSeek ≤ 1
  reads : us.countP Use.isRead ≤ 1
  finds : ∀ i, .find i ∈ us →
    ∃ region : Rect, region.IsWithin image.width image.height ∧ i = image.crop region
  recognitions : ∀ i, .recognise i ∈ us →
    ∃ region : Rect, region.IsWithin image.width image.height ∧
      (i = image.crop region ∨
        sc.settings.binarizeText = true ∧ i = GreyImage.blackAndWhite (image.crop region))

/-- A frame that is worked on in a scan: the place and the images of the footage, the
    files, the number of the frame, and what was noted and logged before. -/
structure Shot (σ : Type) where
  place : σ → Nat
  image : Nat → ColourImage
  files : Tree
  frame : Nat
  before : List (List Use)
  log : List FrameRecord

/-- The image of the frame, in grey. -/
def Shot.grey (c : Shot σ) : GreyImage := (c.image c.frame).grey

/-- A state in the middle of a frame. -/
structure Noting (sc : Scan σ) (c : Shot σ) (s : ScanState (Noted σ)) : Prop where
  files : s.work.files = c.files
  frame : s.cursor.frame = c.frame
  log : s.log = c.log
  /-- Footage that did not fail stands behind the frame read last. -/
  located : s.cursor.isLost = false → c.place s.work.world.world = s.cursor.upcoming
  uses : ∃ us, s.work.world.frames = us :: c.before ∧ sc.UsesFrame c.grey us

/-- A state in which targets are worked out. -/
structure InFrame (sc : Scan σ) (c : Shot σ) (s : ScanState (Noted σ)) : Prop extends
    Noting sc c s where
  untouched : s.image = .untouched → s.work.world.frames = [] :: c.before
  ready : ∀ i, s.image = .ready i → i = c.grey

variable {sc : Scan σ} {c : Shot σ} {s s' : ScanState (Noted σ)} {us : List Use} {i : GreyImage}
  {region : Rect} {f : Footage σ} {t : Target}

theorem usesFrame_nil (sc : Scan σ) (i : GreyImage) : sc.UsesFrame i [] :=
  ⟨Nat.zero_le 1, Nat.zero_le 1, by simp, by simp⟩

theorem UsesFrame.find (h : sc.UsesFrame i us) (hr : region.IsWithin i.width i.height) :
    sc.UsesFrame i (.find (i.crop region) :: us) where
  seeks := by simpa [Use.isSeek] using h.seeks
  reads := by simpa [Use.isRead] using h.reads
  finds j hj := by
    rcases List.mem_cons.1 hj with hj | hj
    · obtain rfl := Use.find.inj hj
      exact ⟨region, hr, rfl⟩
    · exact h.finds j hj
  recognitions j hj := h.recognitions j (by simpa using hj)

theorem UsesFrame.recognise (h : sc.UsesFrame i us) (hr : region.IsWithin i.width i.height)
    (t : Target) : sc.UsesFrame i (.recognise (sc.prepared t (i.crop region)) :: us) where
  seeks := by simpa [Use.isSeek] using h.seeks
  reads := by simpa [Use.isRead] using h.reads
  finds j hj := h.finds j (by simpa using hj)
  recognitions j hj := by
    rcases List.mem_cons.1 hj with hj | hj
    · obtain rfl := Use.recognise.inj hj
      refine ⟨region, hr, ?_⟩
      unfold prepared
      split
      · next hb => exact .inr ⟨hb.1, rfl⟩
      · exact .inl rfl
    · exact h.recognitions j hj

/-! ## Reading the image -/

/-- The state after the footage was moved, if it had to be. -/
theorem leads_seek_noted (hf : f.Delivers c.files c.place c.image) (h : sc.Noting c s)
    (hu : s.work.world.frames = [] :: c.before) :
    Leads (seek f.noted) s
      (fun b s' => s'.work.files = c.files ∧ s'.cursor = s.cursor ∧ s'.log = c.log ∧
        s'.image = s.image ∧ (b = true → c.place s'.work.world.world = c.frame) ∧
        ∃ us, s'.work.world.frames = us :: c.before ∧ (us = [] ∨ ∃ n, us = [.seek n]))
      fun _ _ => False := by
  simp only [seek, leads_bind, leads_get]
  split
  · simp only [leads_bind, leads_modify, leads_use]
    refine ⟨h.files, rfl, h.log, rfl, fun hb => ?_, [.seek s.cursor.frame], ?_,
      .inr ⟨_, rfl⟩⟩
    · exact (hf.seek _ _ hb).trans h.frame
    · exact congrArg (Noted.note _) hu
  · next hno =>
    -- The footage did not fail, and the frame read next is the one that is asked for.
    rw [Bool.not_eq_true, Cursor.needsSeek, Bool.or_eq_false_iff, bne_eq_false_iff_eq] at hno
    refine ⟨h.files, rfl, h.log, rfl, fun _ => ?_, [], hu, .inl rfl⟩
    exact (h.located hno.1).trans (hno.2.trans h.frame)

/-- **The image of a frame is had with one move and one read at most**, and it is the
    image of that frame. -/
theorem leads_decode_noted (hf : f.Delivers c.files c.place c.image) (h : sc.Noting c s)
    (hu : s.work.world.frames = [] :: c.before) :
    Leads (decode f.noted) s
      (fun x s' => sc.Noting c s' ∧ s'.image = s.image ∧ ∀ i, x = .ok i → i = c.grey)
      fun _ _ => False := by
  simp only [decode, leads_bind, leads_get]
  refine (leads_seek_noted hf h hu).mono (fun b s₁ hs => ?_) fun _ _ h => h
  obtain ⟨hfiles, hcursor, hlog, himage, hplace, us, hus, hseeks⟩ := hs
  have hframe : s₁.cursor.frame = c.frame := by rw [hcursor, h.frame]
  rcases b
  · have huses : sc.UsesFrame c.grey us := by
      rcases hseeks with rfl | ⟨n, rfl⟩
      · exact usesFrame_nil sc _
      · exact ⟨Nat.le_refl 1, Nat.zero_le 1, by simp, by simp⟩
    exact ⟨⟨hfiles, hframe, hlog, (fun hl => by cases hl), us, hus, huses⟩, himage,
      fun i hi => by cases hi⟩
  · have huses : sc.UsesFrame c.grey (.read :: us) := by
      rcases hseeks with rfl | ⟨n, rfl⟩
      · exact ⟨Nat.zero_le 1, Nat.le_refl 1, by simp, by simp⟩
      · exact ⟨Nat.le_refl 1, Nat.le_refl 1, by simp, by simp⟩
    have hnoted : Noted.note .read s₁.work.world.frames = (.read :: us) :: c.before :=
      congrArg (Noted.note .read) hus
    simp only [if_true, leads_bind, leads_get, leads_use]
    split
    · next image hread =>
      have hread : (f.read c.files s₁.work.world.world).1 = some image := hfiles ▸ hread
      obtain ⟨rfl, hnext⟩ := hf.read _ _ hread
      refine ⟨⟨hfiles, h.frame, hlog, fun _ => ?_, _, hnoted, huses⟩, himage, fun i hi => ?_⟩
      · have hfiles : s₁.work.files = c.files := hfiles
        show c.place (f.read s₁.work.files s₁.work.world.world).2 = s.cursor.frame + 1
        rw [hfiles, hnext, hplace rfl, h.frame]
      · obtain rfl := Except.ok.inj hi
        rw [hplace rfl]
        rfl
    · exact ⟨⟨hfiles, hframe, hlog, (fun hl => by cases hl), _, hnoted, huses⟩, himage,
        fun i hi => by cases hi⟩

/-- The image is read for the first target that needs it. -/
theorem leads_frameImage_noted (hins : sc.instruments.IsSteady c.files c.place c.image)
    (h : sc.InFrame c s) :
    Leads (sc.noted.frameImage t) s
      (fun x s' => sc.InFrame c s' ∧ s'.image ≠ .untouched ∧ ∀ i, x = some i → i = c.grey)
      fun _ s' => sc.InFrame c s' ∧ s'.image = s.image := by
  simp only [frameImage, leads_bind, leads_get]
  rcases himage : s.image with _ | _ | i
  · rw [show sc.noted.instruments.footage = sc.instruments.footage.map Footage.noted from rfl]
    rcases hfoot : sc.instruments.footage with _ | f
    · exact ⟨h, himage⟩
    · simp only [Option.map_some, leads_bind]
      refine (leads_decode_noted (hins.footage f hfoot) h.toNoting (h.untouched himage)).mono
        (fun x s₁ hs => ?_) fun _ _ h => h.elim
      obtain ⟨hs, -, hx⟩ := hs
      rcases x with cause | i
      · refine ⟨⟨⟨hs.files, hs.frame, hs.log, hs.located, hs.uses⟩, ?_, ?_⟩, ?_, ?_⟩
        · exact fun hu => by cases hu
        · exact fun i hi => by cases hi
        · exact fun hu => by cases hu
        · exact fun i hi => by cases hi
      · refine ⟨⟨⟨hs.files, hs.frame, hs.log, hs.located, hs.uses⟩, ?_, fun j hj => ?_⟩, ?_,
          fun j hj => ?_⟩
        · exact fun hu => by cases hu
        · exact FrameImage.ready.inj hj ▸ hx i rfl
        · exact fun hu => by cases hu
        · exact Option.some.inj hj ▸ hx i rfl
  · exact ⟨h, by simp [himage], fun i hi => by cases hi⟩
  · exact ⟨h, by simp [himage], fun j hj => Option.some.inj hj ▸ h.ready i himage⟩

/-! ## Handing on the image -/

/-- What is shown, the tracks and the sheets may change in the middle of a frame. -/
theorem InFrame.congr (h : sc.InFrame c s) (hfiles : s'.work.files = s.work.files)
    (hworld : s'.work.world = s.work.world) (hcursor : s'.cursor = s.cursor)
    (himage : s'.image = s.image) (hlog : s'.log = s.log) : sc.InFrame c s' := by
  constructor
  · constructor
    · exact hfiles.trans h.files
    · exact hcursor ▸ h.frame
    · exact hlog.trans h.log
    · rw [hworld, hcursor]
      exact h.located
    · rw [hworld]
      exact h.uses
  · rw [hworld, himage]
    exact h.untouched
  · rw [himage]
    exact h.ready

/-- A use that does not touch the footage goes into the notes of the frame. -/
theorem InFrame.hand (h : sc.InFrame c s) {u : Use} {w : σ}
    (hw : c.place w = c.place s.work.world.world) (himage : s.image ≠ .untouched)
    (hu : ∀ us, sc.UsesFrame c.grey us → sc.UsesFrame c.grey (u :: us)) :
    sc.InFrame c
      { s with work := { s.work with world := ⟨w, Noted.note u s.work.world.frames⟩ } } := by
  obtain ⟨us, hus, huses⟩ := h.uses
  refine ⟨⟨h.files, h.frame, h.log, fun hl => hw.trans (h.located hl), u :: us, ?_, hu us huses⟩,
    fun hun => absurd hun himage, h.ready⟩
  exact congrArg (Noted.note u) hus

theorem leads_lookFor_noted (hins : sc.instruments.IsSteady c.files c.place c.image)
    (h : sc.InFrame c s) (himage : s.image ≠ .untouched)
    (hr : region.IsWithin c.grey.width c.grey.height) :
    Leads (sc.noted.lookFor t c.grey region) s
      (fun _ s' => sc.InFrame c s' ∧ s'.image ≠ .untouched)
      fun _ s' => sc.InFrame c s' ∧ s'.image ≠ .untouched := by
  simp only [lookFor]
  rw [show sc.noted.instruments.matcher = sc.instruments.matcher.map _ from rfl]
  split
  · exact ⟨h, himage⟩
  · split
    · exact ⟨h, himage⟩
    · rcases hfind : sc.instruments.matcher with _ | find
      · exact ⟨h, himage⟩
      · simp only [Option.map_some, leads_bind, leads_use, leads_pure]
        exact ⟨h.hand (hins.matcher find hfind _ _ _) himage fun _ hus => hus.find hr, himage⟩

theorem leads_readText_noted (hins : sc.instruments.IsSteady c.files c.place c.image)
    (h : sc.InFrame c s) (himage : s.image ≠ .untouched)
    (hr : region.IsWithin c.grey.width c.grey.height) (characters : Charset) :
    Leads (sc.noted.readText t characters c.grey region) s
      (fun _ s' => sc.InFrame c s' ∧ s'.image ≠ .untouched)
      fun _ s' => sc.InFrame c s' ∧ s'.image ≠ .untouched := by
  simp only [readText]
  rw [show sc.noted.instruments.recogniser = sc.instruments.recogniser.map _ from rfl]
  rcases hrec : sc.instruments.recogniser with _ | recognise
  · exact ⟨h, himage⟩
  · simp only [Option.map_some, leads_bind, leads_use, leads_pure]
    exact ⟨h.hand (hins.recogniser recognise hrec _ _ _) himage fun _ hus => hus.recognise hr t,
      himage⟩

theorem leads_takeElement_noted (hins : sc.instruments.IsSteady c.files c.place c.image)
    (h : sc.InFrame c s) :
    Leads (sc.noted.takeElement t) s (fun _ s' => sc.InFrame c s' ∧ s'.image = s.image)
      fun _ s' => sc.InFrame c s' ∧ s'.image = s.image := by
  simp only [takeElement]
  rw [show sc.noted.instruments.snapshots = sc.instruments.snapshots.map _ from rfl]
  rcases hsnap : sc.instruments.snapshots with _ | snapshot
  · exact ⟨h, rfl⟩
  · simp only [Option.map_some, leads_bind, leads_get, leads_use, leads_pure]
    refine ⟨⟨⟨h.files, h.frame, h.log, fun hl => ?_, h.uses⟩, h.untouched, h.ready⟩, trivial⟩
    exact (hins.snapshots snapshot hsnap _ _).trans (h.located hl)

theorem leads_observeImage_noted (hins : sc.instruments.IsSteady c.files c.place c.image)
    (h : sc.InFrame c s) :
    Leads (sc.noted.observeImage t) s (fun _ s' => sc.InFrame c s' ∧ s'.image ≠ .untouched)
      fun _ s' => sc.InFrame c s' := by
  simp only [observeImage, leads_bind]
  refine (leads_frameImage_noted hins h).mono (fun x s₁ hs => ?_) fun _ s₁ hs => hs.1
  obtain ⟨hs, himage, hx⟩ := hs
  rcases x with _ | i
  · exact ⟨hs, himage⟩
  · obtain rfl := hx i rfl
    simp only [leads_bind, leads_get, leads_ofExcept]
    refine ⟨fun region hregion => ?_, fun e _ => hs⟩
    rcases region with _ | region
    · exact ⟨hs, himage⟩
    · have hr := Target.isWithin_of_region hregion
      dsimp only
      split
      · exact (leads_readText_noted hins hs himage hr _).mono (fun _ _ h => h) fun _ _ h => h.1
      · exact (leads_lookFor_noted hins hs himage hr).mono (fun _ _ h => h) fun _ _ h => h.1

/-- **Looking at a frame**: only a target that needs the image has it read, and what is
    handed on is part of the image of the frame. -/
theorem leads_observe_noted (hins : sc.instruments.IsSteady c.files c.place c.image)
    (h : sc.InFrame c s) :
    Leads (sc.noted.observe t) s
      (fun _ s' => sc.InFrame c s' ∧
        (s'.image = .untouched ↔ s.image = .untouched ∧ t.needsImage = false))
      fun _ s' => sc.InFrame c s' ∧ (t.needsImage = false → s'.image = s.image) := by
  unfold observe
  split
  · next hstage =>
    have hneeds : t.needsImage = false := by simp [Target.needsImage, hstage]
    refine (leads_takeElement_noted hins h).mono (fun _ s₁ hs => ⟨hs.1, ?_⟩) fun _ s₁ hs =>
      ⟨hs.1, fun _ => hs.2⟩
    rw [hs.2]
    exact ⟨fun hu => ⟨hu, hneeds⟩, fun hu => hu.1⟩
  · next hstage =>
    have hneeds : t.needsImage = true := by simp [Target.needsImage, hstage]
    refine (leads_observeImage_noted hins h).mono (fun _ s₁ hs => ⟨hs.1, ?_⟩) fun _ s₁ hs =>
      ⟨hs, fun hno => ?_⟩
    · exact ⟨fun hu => absurd hu hs.2, fun hu => by simp [hneeds] at hu⟩
    · simp [hneeds] at hno

/-! ## Working out targets -/

variable {j : Nat} {ps : List (Nat × Target)} {entries : List LogEntry}

theorem InFrame.looked (h : sc.InFrame c s) (seen : Option Observation) :
    sc.InFrame c (s.looked seen) := by
  cases seen
  · exact h.congr rfl rfl rfl rfl rfl
  · exact h

theorem image_looked (s : ScanState σ) (seen : Option Observation) :
    (s.looked seen).image = s.image := by
  cases seen <;> rfl

theorem leads_settle_noted {b : Bool} {seen : Option Observation} (h : sc.InFrame c s) :
    Leads (settle j t b seen) s
      (fun entry s' => sc.InFrame c s' ∧ s'.image = s.image ∧ entry.triggered = b)
      fun _ s' => sc.InFrame c s' ∧ s'.image = s.image := by
  rw [leads_settle]
  have hl := h.looked seen
  have himage := image_looked s seen
  exact ⟨fun ts _ => ⟨hl.congr rfl rfl rfl rfl rfl, himage, rfl⟩, fun e _ => ⟨hl, himage⟩⟩

/-- Working out a target touches the image only if the target is triggered and needs
    it. -/
theorem leads_step_noted (hins : sc.instruments.IsSteady c.files c.place c.image)
    (h : sc.InFrame c s) :
    Leads (sc.noted.step j t) s
      (fun entry s' => sc.InFrame c s' ∧
        (s'.image = .untouched ↔
          s.image = .untouched ∧ (entry.triggered && t.needsImage) = false))
      fun _ s' => sc.InFrame c s' ∧ (s'.image = .untouched ∨ s.image ≠ .untouched ∨
        t.needsImage = true ∧
          t.isTriggered sc.plan.prerequisites s.work.tracks s.cursor.frame = .ok true) := by
  rw [leads_step, show sc.noted.plan = sc.plan from rfl]
  have kept : ∀ {P : Prop}, s.image = .untouched ∨ s.image ≠ .untouched ∨ P := fun {P} =>
    (Classical.em _).imp_right .inl
  refine ⟨fun e _ => ⟨h, kept⟩, fun _ => ?_, fun htrue => ?_⟩
  · refine (leads_settle_noted h).mono (fun entry s₁ hs => ?_) fun e s₁ hs => ⟨hs.1, ?_⟩
    · obtain ⟨hs, himage, hb⟩ := hs
      rw [himage, hb]
      exact ⟨hs, fun hu => ⟨hu, rfl⟩, fun hu => hu.1⟩
    · rw [hs.2]
      exact kept
  · have hentered : sc.InFrame c (s.entered .computing) := h.congr rfl rfl rfl rfl rfl
    refine (leads_observe_noted hins hentered).mono (fun seen s₁ hs => ?_) fun e s₁ hs =>
      ⟨hs.1, ?_⟩
    · refine (leads_settle_noted hs.1).mono (fun entry s₂ hs' => ?_) fun e s₂ hs' => ⟨hs'.1, ?_⟩
      · obtain ⟨hs', himage, hb⟩ := hs'
        rw [himage, hb, Bool.true_and]
        exact ⟨hs', hs.2⟩
      · rw [hs'.2]
        by_cases hneeds : t.needsImage = true
        · exact .inr (.inr ⟨hneeds, htrue⟩)
        · rw [Bool.not_eq_true] at hneeds
          by_cases hu : s.image = .untouched
          · exact .inl (hs.2.2 ⟨hu, hneeds⟩)
          · exact .inr (.inl hu)
    · by_cases hneeds : t.needsImage = true
      · exact .inr (.inr ⟨hneeds, htrue⟩)
      · rw [Bool.not_eq_true] at hneeds
        rw [hs.2 hneeds]
        exact kept

theorem Steps.inFrame (hins : sc.instruments.IsSteady c.files c.place c.image)
    (hsteps : Steps sc.noted ps s entries s') (h : sc.InFrame c s)
    (hps : ∀ p ∈ ps, sc.targets[p.1]? = some p.2) :
    sc.InFrame c s' ∧
      (s'.image = .untouched ↔ s.image = .untouched ∧
        entries.any (·.triggers sc.targets Target.needsImage) = false) := by
  induction hsteps with
  | nil => exact ⟨h, by simp⟩
  | @cons i t ps s s₁ s₂ entry entries hstep hsteps ih =>
    rw [List.forall_mem_cons] at hps
    obtain ⟨hs, himage⟩ := (leads_step_noted hins h).ok hstep
    obtain ⟨hs₂, himage₂⟩ := ih hs hps.2
    have ht : sc.targets[entry.place]? = some t := (entry_of_step hstep).1 ▸ hps.1
    refine ⟨hs₂, ?_⟩
    rw [himage₂, himage, List.any_cons, LogEntry.triggers, ht, Option.any_some,
      Bool.or_eq_false_iff, and_assoc]

/-! ## Frames -/

theorem getElem?_of_ordered {p : Nat × Target} (hp : p ∈ sc.ordered) :
    sc.targets[p.1]? = some p.2 := by
  obtain ⟨i, -, hi⟩ := List.mem_filterMap.1 hp
  obtain ⟨t, ht, rfl⟩ := Option.map_eq_some_iff.1 hi
  exact ht

theorem Steps.wants (hsteps : Steps sc.noted ps s entries s')
    (hps : ∀ p ∈ ps, sc.targets[p.1]? = some p.2)
    (hany : entries.any (·.triggers sc.targets Target.needsImage) = true) :
    sc.noted.Wants ps s := by
  obtain ⟨e, he, hany⟩ := List.any_eq_true.1 hany
  obtain ⟨t, ht, hturn⟩ := hsteps.exists_target e he
  have hplace : sc.targets[e.place]? = some t := hps _ ht
  rw [LogEntry.triggers, hplace, Option.any_some, Bool.and_eq_true] at hany
  exact ⟨t, hany.2, hturn hany.1⟩

/-- **A frame**: its image is touched exactly when a target that needs it is triggered. -/
theorem leads_frame_noted (hins : sc.instruments.IsSteady c.files c.place c.image)
    (h : sc.InFrame c s.opened) :
    Leads sc.noted.frame s
      (fun r s' => sc.InFrame c s' ∧
        (s'.image = .untouched ↔ r.triggers sc.targets Target.needsImage = false) ∧
        (s'.image = .untouched ∨ sc.noted.Wants sc.ordered s.opened) ∧
        r.image = s'.image.use ∧ ∀ e ∈ r.entries, ∃ t, sc.targets[e.place]? = some t)
      fun _ s' => sc.InFrame c s' ∧
        (s'.image = .untouched ∨ sc.noted.Wants sc.ordered s.opened) := by
  refine .intro (fun r s₁ hframe => ?_) fun e s₁ hframe => ?_
  · obtain ⟨hsteps, himage, -⟩ := frame_eq_ok hframe
    have hordered : ∀ p ∈ sc.ordered, sc.targets[p.1]? = some p.2 := fun p => getElem?_of_ordered
    obtain ⟨hs, hu⟩ := hsteps.inFrame hins h hordered
    have huntouched : s₁.image = .untouched ↔ r.triggers sc.targets Target.needsImage = false := by
      rw [hu]
      exact ⟨fun hu => hu.2, fun hno => ⟨rfl, hno⟩⟩
    refine ⟨hs, huntouched, ?_, himage, fun e he => ?_⟩
    · by_cases hno : r.triggers sc.targets Target.needsImage = false
      · exact .inl (huntouched.2 hno)
      · rw [Bool.not_eq_false] at hno
        exact .inr (hsteps.wants hordered hno)
    · obtain ⟨t, ht, -⟩ := hsteps.exists_target e he
      exact ⟨t, hordered _ ht⟩
  · obtain ⟨done, i, t, entries, s₂, ⟨rest, hrest⟩, hsteps, hstep⟩ := frame_eq_error hframe
    have hrest : sc.ordered = done ++ (i, t) :: rest := hrest
    have hdone : ∀ p ∈ done, sc.targets[p.1]? = some p.2 := fun p hp =>
      getElem?_of_ordered (hrest ▸ List.mem_append_left _ hp)
    obtain ⟨hs₂, hu⟩ := hsteps.inFrame hins h hdone
    obtain ⟨hs₁, himage⟩ := (leads_step_noted hins hs₂).error hstep
    refine ⟨hs₁, ?_⟩
    -- The image was touched by an earlier target, or by the one that failed.
    rcases himage with himage | himage | ⟨hneeds, htrue⟩
    · exact .inl himage
    · refine .inr ?_
      have hany : entries.any (·.triggers sc.targets Target.needsImage) = true := by
        rw [← Bool.not_eq_false]
        exact fun hno => himage (hu.2 ⟨rfl, hno⟩)
      obtain ⟨u, hneeds, hturn⟩ := hsteps.wants hdone hany
      exact ⟨u, hneeds, hrest ▸ hturn.append _⟩
    · exact .inr ⟨t, hneeds, done, i, rest, entries, s₂, hrest, hsteps, htrue⟩

end Scan

end Screenmark
