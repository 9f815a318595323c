/-
  Screenmark — scanning a recording.

  At every frame the targets are worked out in their order: a target that is not
  triggered, or for which nothing can be observed, gets the observation where
  nothing was seen, so that every frame adds one observation to every track. The
  image of a frame is read at most once, and only if some triggered target needs
  it; the footage is moved only if the frame does not follow the one read last.

  * `Scan.step` works out one target, `Scan.frame` all targets of a frame;
  * `Scan.frames` goes through the frames until the last one or until the
    session is to stop;
  * `Scan.run` first checks that nothing is missing, and writes the sheets.
-/
import Screenmark.Scan.State

namespace Screenmark

/-- What stays the same during a scan. -/
structure Scan (σ : Type) where
  plan : Plan
  settings : Settings
  /-- The images of templates. -/
  templates : NameMap GreyImage
  instruments : Instruments σ
  /-- Whether the session was told to stop before the scan. -/
  stopped : Bool

namespace Scan

variable {σ : Type} (sc : Scan σ)

/-- The targets of the scan. -/
def targets : List Target := sc.plan.targets

/-- The targets with their places, in the order in which they are worked out. -/
def ordered : List (Nat × Target) :=
  sc.plan.order.filterMap fun i => sc.targets[i]?.map (i, ·)

/-! ## Checks -/

/-- Fails if the condition holds. -/
def failIf (b : Bool) (e : Failure) : Except Failure Unit := if b then .error e else .ok ()

/-- Whether some target is worked out in a stage of the given rank. -/
def usesRank (rank : Nat) : Bool := sc.targets.any (·.stage.rank = rank)

/-- The first target without an image of its template. -/
def unloaded? : Option Target :=
  sc.targets.find? fun t => t.stage = .template && !sc.templates.contains t.name

/-- Fails if an instrument or a template is missing. -/
def check : Except Failure Unit := do
  failIf (sc.targets.any Target.needsImage && sc.instruments.footage.isNone) (.missing .footage)
  failIf (sc.usesRank Stage.template.rank && sc.instruments.matcher.isNone) (.missing .matcher)
  failIf (sc.usesRank (Stage.text .digits).rank && sc.instruments.recogniser.isNone)
    (.missing .recogniser)
  failIf (sc.usesRank Stage.accessibility.rank && sc.instruments.snapshots.isNone)
    (.missing .snapshots)
  match sc.unloaded? with
  | some t => .error (.template t.name .notLoaded)
  | none => .ok ()

/-! ## The image of a frame -/

/-- Moves the footage to the frame, if it has to be moved; false if that fails. -/
def seek (f : Footage σ) : Scanning σ Bool := do
  let c := (← get).cursor
  if c.needsSeek then
    modify fun s => { s with sought := true }
    Scanning.count .countSeek
    Scanning.use (f.seek c.frame)
  else pure true

/-- The image of the frame, or why there is none. -/
def decode (f : Footage σ) : Scanning σ (Except DecodeCause GreyImage) := do
  let frame := (← get).cursor.frame
  if ← seek f then
    match ← Scanning.use (f.read (← get).work.files) with
    | some image =>
      modify fun s => { s with cursor := ⟨frame, some frame, false⟩ }
      Scanning.count .countDecoded
      return .ok (ColourImage.grey image)
    | none =>
      modify fun s => { s with cursor := { s.cursor with isLost := true } }
      return .error (.unreadable frame)
  else
    modify fun s => { s with cursor := { s.cursor with isLost := true } }
    return .error (.unreachable frame)

/-- The image of the frame, which is read for the first target that needs it; a
    failure is a warning about that target. -/
def frameImage (t : Target) : Scanning σ (Option GreyImage) := do
  match (← get).image, sc.instruments.footage with
  | .ready image, _ => return some image
  | .failed, _ => return none
  | .untouched, none => throw (.missing .footage)
  | .untouched, some f =>
    match ← decode f with
    | .ok image =>
      modify fun s => { s with image := .ready image }
      return some image
    | .error cause =>
      Scanning.onWork (Work.warn ("target '" ++ t.name ++ "'") (Failure.decode cause).message)
      Scanning.count .countFailure
      modify fun s => { s with image := .failed }
      return none

/-! ## Targets -/

/-- Looks for a template in a region of an image; a region that is smaller than
    the template holds none. -/
def lookFor (t : Target) (image : GreyImage) (region : Rect) : Scanning σ (Option Observation) := do
  match sc.templates.find? t.name, sc.instruments.matcher with
  | none, _ => throw (.template t.name .notLoaded)
  | some template, matcher =>
    if region.width < template.width ∨ region.height < template.height then return none
    match matcher with
    | none => throw (.missing .matcher)
    | some find =>
      let m ← Scanning.use (find (image.crop region) template)
      return some ⟨m.x + Binary.ofInt region.x, m.y + Binary.ofInt region.y, .number m.confidence⟩

/-- The image in which text is read: black and white, if the settings ask for
    it and the text is no number. -/
def prepared (t : Target) (patch : GreyImage) : GreyImage :=
  if sc.settings.binarizeText ∧ t.action ≠ .detectNumber then GreyImage.blackAndWhite patch
  else patch

/-- Reads the text in a region of an image. -/
def readText (t : Target) (characters : Charset) (image : GreyImage) (region : Rect) :
    Scanning σ (Option Observation) := do
  match sc.instruments.recogniser with
  | none => throw (.missing .recogniser)
  | some recognise =>
    let raw ← Scanning.use (recognise (sc.prepared t (image.crop region)) characters)
    return some ⟨Binary.ofInt region.x, Binary.ofInt region.y, .text (cleanText raw t.action)⟩

/-- The element that a target asks for, unless it lies outside of the rectangle
    of its rule. -/
def elementOf (t : Target) (s : Snapshot) : Option Element :=
  let element := if t.action = .accessibilityFocus then s.focused else s.hovered
  match t.rule.bind Rule.rect? with
  | some r => element.filter (·.isInside r)
  | none => element

/-- Takes the element of a target from a snapshot. -/
def takeElement (t : Target) : Scanning σ (Option Observation) := do
  match sc.instruments.snapshots with
  | none => return none
  | some snapshot =>
    let s ← Scanning.use (snapshot (← get).cursor.frame)
    return (s.bind (elementOf t)).map fun e => ⟨e.x, e.y, .text e.text⟩

/-- Works out a target that needs the image of the frame. -/
def observeImage (t : Target) : Scanning σ (Option Observation) := do
  match ← sc.frameImage t with
  | none => return none
  | some image =>
    let s ← get
    match ← Scanning.ofExcept
      (t.region s.work.tracks s.cursor.frame image.width image.height) with
    | none => return none
    | some region =>
      match t.stage with
      | .text characters => sc.readText t characters image region
      | _ => sc.lookFor t image region

/-- Works out a target. -/
def observe (t : Target) : Scanning σ (Option Observation) :=
  if t.stage = .accessibility then sc.takeElement t else sc.observeImage t

/-- Works out a target if it is triggered, and adds the observation to its
    track. -/
def step (place : Nat) (t : Target) : Scanning σ LogEntry := do
  let s ← get
  let triggered ← Scanning.ofExcept
    (t.isTriggered sc.plan.prerequisites s.work.tracks s.cursor.frame)
  let seen ← if triggered then do
      Scanning.onWork (Work.enter .computing)
      sc.observe t
    else pure none
  let observed ← match seen with
    | some o => pure o
    | none => do
      Scanning.onWork (Work.enter .defaulting)
      pure (Observation.neutral t.kind)
  let tracks ← Scanning.ofExcept ((← get).work.tracks.append t.name observed)
  modify fun s => { s with work := { s.work with tracks := tracks } }
  return ⟨place, triggered, observed⟩

/-! ## Frames -/

/-- Works out the targets of a frame. -/
def frame : Scanning σ FrameRecord := do
  modify fun s => { s with image := .untouched, sought := false }
  Scanning.onWork (Work.enter .scanning)
  let entries ← sc.ordered.mapM fun (i, t) => sc.step i t
  let s ← get
  return ⟨entries, s.image.use, s.sought⟩

/-- Writes what happened at a frame into the sheets. -/
def writeSheets (r : FrameRecord) : Scanning σ Unit := do
  let s ← get
  match s.sheets with
  | none => return ()
  | some sheets =>
    let sheets ← Scanning.ofExcept (sheets.write s.cursor.frame (r.row sc.targets))
    modify fun s => { s with sheets := some sheets }

/-- Goes on to the next frame. -/
def goOn (total : Nat) (r : FrameRecord) : Scanning σ Unit := do
  let frame := (← get).cursor.frame
  Scanning.ofExcept
    ((← get).work.tracks.checkInStep (sc.targets.map (·.name)) (frame + 1))
  Scanning.onWork (Work.enter .advancing)
  Scanning.count (·.countFrame (frame + 1) r.isIdle)
  modify fun s => { s with cursor := { s.cursor with frame := frame + 1 }, log := r :: s.log }
  Scanning.onWork (Work.advance (Binary.ofNat (frame + 1) / Binary.ofNat total))

/-- Whether the session is to stop. -/
def isStopped : Scanning σ Bool := do
  let polled ← Scanning.use sc.instruments.poll
  return sc.stopped || polled

/-- Goes through the last `remaining` of `total` frames; true if the session is
    to stop before the end. -/
def frames (total : Nat) : (remaining : Nat) → Scanning σ Bool
  | 0 => pure false
  | remaining + 1 => do
    if ← sc.isStopped then return true
    let r ← sc.frame
    sc.writeSheets r
    sc.goOn total r
    frames total remaining

/-! ## The scan -/

/-- Starts the track of every target. -/
def startTracks : Work σ Unit := modify fun w =>
  { w with tracks := sc.targets.foldl (fun ts t =>
      let ts := ts.start t.name t.kind .extracted
      match sc.templates.find? t.name with
      | some image => ts.setTemplate t.name (image.width, image.height)
      | none => ts) w.tracks }

/-- Opens the sheets of the targets, if sheets are wanted. -/
def openSheets (o : Option Outlet) : Work σ (Option Sheets) := do
  match o with
  | none => return none
  | some o =>
    if o.outputs.tables then
      let sheets := Sheets.start o sc.targets
      sheets.own.forM Work.openSheet
      Work.openSheet sheets.combined
      return some sheets
    else return none

/-- The state before the first frame. -/
def initial (w : Workspace σ) (sheets : Option Sheets) : ScanState σ :=
  ⟨w, .start, .untouched, false, sheets, .empty, []⟩

/-- The sheets of a state. -/
def sheetsOf (s : ScanState σ) : List Sheet := (s.sheets.map Sheets.all).getD []

/-- The paths of the sheets. -/
def tables (s : ScanState σ) : List String := (sheetsOf s).map (·.path)

/-- Goes through all frames, and keeps the sheets whether that fails or not; a fault
    in keeping them is told if nothing failed before. -/
def scanFrames (total : Nat) (sheets : Option Sheets) : Work σ ScanReport := fun w =>
  match sc.frames total total (initial w sheets) with
  | .ok aborted s =>
    match Work.keepSheets (sheetsOf s) s.work with
    | .ok _ w => .ok { s.report with aborted := aborted, tables := tables s } w
    | .error e w => .error e w
  | .error e s =>
    match Work.keepSheets (sheetsOf s) s.work with
    | .ok _ w | .error _ w => .error e w

/-- Scans the first `total` frames. -/
def run (total : Nat) (o : Option Outlet) : Work σ ScanReport := do
  Work.ofExcept sc.check
  if sc.targets.isEmpty then return .empty
  sc.startTracks
  let sheets ← sc.openSheets o
  sc.scanFrames total sheets

end Scan

end Screenmark
