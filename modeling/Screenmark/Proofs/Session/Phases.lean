/-
  Screenmark — the parts of a run.

  A run sets up its scan, surveys the frames and, unless it was stopped by then, finishes
  behind them (`phases_eq`). What is written on the way leaves the tracks as they are
  (`KeepsTracks`), so that up to the last part only the scan changes them, and only those of
  its targets: `isSetUp_of_setUp`, `IsSurveyed.find?_eq`.
-/
import Screenmark.Proofs.Derivation.Writing
import Screenmark.Proofs.Scan.Lockstep
import Screenmark.Session.Run

namespace Screenmark

/-! ## Steps that keep the tracks -/

namespace Work

variable {σ α β : Type} {m : Work σ α} {f : α → Work σ β}

/-- A step that leaves the tracks where it succeeds. -/
def KeepsTracks (m : Work σ α) : Prop := ∀ w a w', m w = .ok a w' → w'.tracks = w.tracks

theorem OnlyWrites.keepsTracks (h : OnlyWrites m) : KeepsTracks m :=
  fun _ _ _ hrun => (h.keeps hrun).1

namespace KeepsTracks

theorem pure (a : α) : KeepsTracks (Pure.pure a : Work σ α) := (OnlyWrites.pure a).keepsTracks

theorem bind (h : KeepsTracks m) (hf : ∀ a, KeepsTracks (f a)) : KeepsTracks (m >>= f) := by
  intro w b w' hrun
  obtain ⟨a, u, hm, hrest⟩ := bind_eq_ok_iff.1 hrun
  exact (hf a _ _ _ hrest).trans (h _ _ _ hm)

theorem get : KeepsTracks (MonadState.get : Work σ (Workspace σ)) := by
  intro w a w' h
  cases h
  rfl

theorem ofExcept (x : Except Failure α) : KeepsTracks (Work.ofExcept x : Work σ α) :=
  (OnlyWrites.ofExcept x).keepsTracks

theorem throw (e : Failure) : KeepsTracks (MonadExcept.throw e : Work σ α) := by
  intro w a w' h
  cases h

theorem enter (p : Phase) : KeepsTracks (Work.enter p : Work σ Unit) := by
  intro w a w' h
  cases h
  rfl

theorem use (g : σ → α × σ) : KeepsTracks (Session.use g) := by
  intro w a w' h
  cases h
  rfl

theorem changeFiles (g : Tree → Except Failure (Tree × α)) :
    KeepsTracks (Work.changeFiles g : Work σ α) := by
  refine get.bind fun w => ?_
  rcases g w.files with e | ⟨t, a⟩
  · exact throw e
  · intro v b v' h
    cases h
    rfl

theorem forM {ι : Type} {g : ι → Work σ PUnit} (h : ∀ i, KeepsTracks (g i)) (is : List ι) :
    KeepsTracks (is.forM g) := by
  induction is with
  | nil => exact .pure _
  | cons i is ih => exact (h i).bind fun _ => ih

theorem collect {g : α → Work σ (List String)} (h : ∀ a, KeepsTracks (g a)) (as : List α) :
    KeepsTracks (Session.collect g as) := by
  induction as with
  | nil => exact .pure []
  | cons a as ih => exact (h a).bind fun files => ih.bind fun more => .pure _

end KeepsTracks

end Work

namespace Session

open Work

variable {σ : Type} {s : Session σ} {rules : List String} {w w' : Workspace σ} {m : Summary}

/-! ## What is written on the way -/

theorem keepsTracks_writeTrack (s : Session σ) (o : Outlet) (sh : Shape) (name : String) (t : Track)
    (hasOverlays : Bool) (p : Provenance) :
    KeepsTracks (s.writeTrack o sh name t hasOverlays p) := by
  refine (OnlyWrites.writeSegments _ _ _ _ _).keepsTracks.bind fun files => ?_
  split
  · exact (OnlyWrites.writeOverlays _ _ _ _ _).keepsTracks.bind fun more => .pure _
  · exact .pure _

theorem keepsTracks_writeLogged (s : Session σ) (o : Outlet) (sh : Shape) (name : String) :
    KeepsTracks (s.writeLogged o sh name) := by
  refine KeepsTracks.get.bind fun w => ?_
  split
  · exact .pure []
  · exact keepsTracks_writeTrack _ _ _ _ _ _ _

theorem keepsTracks_writeTarget (s : Session σ) (o : Outlet) (sh : Shape) (t : Target) :
    KeepsTracks (s.writeTarget o sh t) := by
  refine KeepsTracks.get.bind fun w => ?_
  split
  · exact .pure []
  · exact keepsTracks_writeTrack _ _ _ _ _ _ _

theorem keepsTracks_cutTemplate (s : Session σ)
    (recordings : Tree → String → σ → Except Failure (Footage σ) × σ) (r : Rule) :
    KeepsTracks (s.cutTemplate recordings r) := by
  refine (KeepsTracks.ofExcept _).bind fun cut => KeepsTracks.get.bind fun w =>
    (KeepsTracks.use _).bind fun opened => (KeepsTracks.ofExcept _).bind fun footage =>
      (KeepsTracks.use _).bind fun isThere => ?_
  dsimp only
  split
  · intro v image v' h
    cases h
  · refine (KeepsTracks.use _).bind fun image => ?_
    split
    · exact .throw _
    · exact .ofExcept _

theorem keepsTracks_makeTemplate (s : Session σ) (r : Rule) : KeepsTracks (s.makeTemplate r) := by
  unfold makeTemplate
  dsimp only
  split
  · refine KeepsTracks.get.bind fun w => ?_
    split
    · exact .pure _
    · exact .throw _
  · exact (keepsTracks_cutTemplate s _ r).bind fun image => .changeFiles _

/-! ## Three parts -/

/-- Writes the timelines of the logged tracks, if they are wanted. -/
def writeAllLogged (s : Session σ) (o : Outlet) (sh : Shape) (names : List String) :
    Work σ (List String) :=
  if s.settings.outputs.loggedTimelines then collect (s.writeLogged o sh) names else pure []

/-- What a run has before the scan. -/
structure SetUp (σ : Type) where
  scan : Scan σ
  outlet : Outlet
  shape : Shape
  /-- The timelines of the logged tracks. -/
  timelines : List String

/-- Makes what a run has before the scan. -/
def setUp (s : Session σ) (rules : List String) : Work σ (SetUp σ) := do
  Work.enter .compiling
  let tracks := (← get).tracks
  let plan ← Work.ofExcept ((Plan.compile rules tracks.loggedNames).mapError .rules)
  let sh ← Work.ofExcept (s.shape tracks)
  let o := s.outlet sh.fps
  createFolder o.folder
  let logged ← s.writeAllLogged o sh tracks.loggedNames
  Work.enter .preparing
  s.makeTemplates plan
  let templates ← Work.ofExcept (s.loadTemplates plan (← get).files)
  return ⟨⟨plan, s.settings, templates, s.instruments, s.stopped⟩, o, sh, logged⟩

/-- Scans the frames and writes the timelines of the targets. -/
def survey (s : Session σ) (u : SetUp σ) : Work σ Summary := do
  let report ← u.scan.run u.shape.frames (some u.outlet)
  let timelines ← collect (s.writeTarget u.outlet u.shape) u.scan.targets
  return {
    stem := s.stem
    frames := u.shape.frames
    fps := u.shape.fps
    rules := u.scan.plan.rules.length
    scan := report
    hookSegments := 0
    derivation := Derivation.noReport
    files := u.timelines ++ report.tables ++ timelines
    aborted := report.aborted
    counts := (← get).tracks.counts }

/-- **The parts of a run.** -/
theorem phases_eq (s : Session σ) (rules : List String) : s.phases rules = (do
    let u ← s.setUp rules
    let m ← s.survey u
    if m.aborted then return m else s.finish u.scan.plan u.outlet u.shape m) := by
  unfold phases setUp survey writeAllLogged
  by_cases hlogged : s.settings.outputs.loggedTimelines = true
  · simp only [if_pos hlogged, bind_assoc, pure_bind]
  · simp only [if_neg hlogged, bind_assoc, pure_bind]

/-- A session for which rules make no plan, or that cannot know its frames. -/
def IsLost (s : Session σ) (rules : List String) : Prop :=
  (∀ p, Plan.compile rules s.work.tracks.loggedNames ≠ .ok p) ∨
    ∀ sh, s.shape s.work.tracks ≠ .ok sh

theorem isLost_or (s : Session σ) (rules : List String) : s.IsLost rules ∨
    ∃ p sh, Plan.compile rules s.work.tracks.loggedNames = .ok p ∧
      s.shape s.work.tracks = .ok sh := by
  rcases hplan : Plan.compile rules s.work.tracks.loggedNames with e | p
  · refine .inl (.inl fun p hp => ?_)
    cases hplan.symm.trans hp
  rcases hshape : s.shape s.work.tracks with e | sh
  · refine .inl (.inr fun sh hsh => ?_)
    cases hshape.symm.trans hsh
  · exact .inr ⟨p, sh, rfl, rfl⟩

/-- A run without a plan or without a shape fails at once. -/
theorem exists_phases_eq_error (h : s.IsLost rules) : ∃ e, s.phases rules s.work =
    .error e { s.work with status := s.work.status.enter .compiling } := by
  have hphases : Leads (s.phases rules) s.work (fun _ _ => False)
      fun _ w' => w' = { s.work with status := s.work.status.enter .compiling } := by
    unfold phases
    simp only [Work.enter, leads_bind, leads_modify, leads_get]
    rcases hplan : Plan.compile rules s.work.tracks.loggedNames with e | p
    · exact rfl
    rcases hshape : s.shape s.work.tracks with e | sh
    · exact rfl
    · exact (h.elim (· p hplan) (· sh hshape)).elim
  rcases hrun : s.phases rules s.work with ⟨m, w⟩ | ⟨e, w⟩
  · exact (hphases.ok hrun).elim
  · exact ⟨e, congrArg _ (hphases.error hrun)⟩

/-! ## What the parts leave -/

variable {u : SetUp σ}

/-- What is set up is what the session and its tracks ask for. -/
structure IsSetUp (s : Session σ) (rules : List String) (w : Workspace σ) (u : SetUp σ)
    (w' : Workspace σ) : Prop where
  compiled : Plan.compile rules w.tracks.loggedNames = .ok u.scan.plan
  instruments : u.scan.instruments = s.instruments
  stopped : u.scan.stopped = s.stopped
  shape : s.shape w.tracks = .ok u.shape
  outlet : u.outlet = s.outlet u.shape.fps
  tracks : w'.tracks = w.tracks

theorem keepsTracks_writeAllLogged (s : Session σ) (o : Outlet) (sh : Shape)
    (names : List String) : KeepsTracks (s.writeAllLogged o sh names) := by
  unfold writeAllLogged
  split
  · exact .collect (keepsTracks_writeLogged s o sh) names
  · exact .pure []

theorem isSetUp_of_setUp (h : s.setUp rules w = .ok u w') : s.IsSetUp rules w u w' := by
  obtain ⟨_, w₁, hentered, hafter⟩ := bind_eq_ok_iff.1 h
  cases hentered
  obtain ⟨_, _, hgot, hread⟩ := bind_eq_ok_iff.1 hafter
  cases hgot
  obtain ⟨plan, w₂, hcompiled, hplanned⟩ := bind_eq_ok_iff.1 hread
  obtain ⟨hplan, rfl⟩ := ofExcept_eq_ok_iff.1 hcompiled
  obtain ⟨sh, w₃, hmeasured, hshaped⟩ := bind_eq_ok_iff.1 hplanned
  obtain ⟨hshape, rfl⟩ := ofExcept_eq_ok_iff.1 hmeasured
  obtain ⟨_, w₄, hfolder, hcreated⟩ := bind_eq_ok_iff.1 hshaped
  obtain ⟨logged, w₅, hlogged, hwritten⟩ := bind_eq_ok_iff.1 hcreated
  obtain ⟨_, w₆, hprepared, hbegun⟩ := bind_eq_ok_iff.1 hwritten
  obtain ⟨_, w₇, hmade, hcut⟩ := bind_eq_ok_iff.1 hbegun
  obtain ⟨_, _, hgot, hfound⟩ := bind_eq_ok_iff.1 hcut
  cases hgot
  obtain ⟨templates, w₈, hloaded, hend⟩ := bind_eq_ok_iff.1 hfound
  obtain ⟨-, rfl⟩ := ofExcept_eq_ok_iff.1 hloaded
  cases hend
  refine ⟨eq_ok_of_mapError hplan, rfl, rfl, hshape, rfl, ?_⟩
  rw [KeepsTracks.forM (keepsTracks_makeTemplate s) _ _ _ _ hmade,
    KeepsTracks.enter _ _ _ _ hprepared,
    keepsTracks_writeAllLogged s _ _ _ _ _ _ hlogged, KeepsTracks.changeFiles _ _ _ _ hfolder]

/-- What is surveyed is what the scan reports; nothing is counted for the parts behind it. -/
structure IsSurveyed (u : SetUp σ) (w : Workspace σ) (m : Summary) (report : ScanReport)
    (w₁ w' : Workspace σ) : Prop where
  run : u.scan.run u.shape.frames (some u.outlet) w = .ok report w₁
  tracks : w'.tracks = w₁.tracks
  aborted : m.aborted = report.aborted
  hookSegments : m.hookSegments = 0
  derivation : m.derivation = Derivation.noReport

theorem exists_isSurveyed_of_survey (h : s.survey u w = .ok m w') :
    ∃ report w₁, IsSurveyed u w m report w₁ w' := by
  obtain ⟨report, w₁, hrun, h⟩ := bind_eq_ok_iff.1 h
  obtain ⟨timelines, w₂, htimelines, h⟩ := bind_eq_ok_iff.1 h
  cases h
  have htracks := KeepsTracks.collect (keepsTracks_writeTarget s _ _) _ _ _ _ htimelines
  exact ⟨report, w₁, hrun, htracks, rfl, rfl, rfl⟩

/-- Behind the scan the rules for events are applied and then the conversions; the summary changes
    in what they tell. -/
theorem exists_of_finish {p : Plan} {o : Outlet} {sh : Shape} {m' : Summary}
    (h : s.finish p o sh m w = .ok m' w') : ∃ w₁ hooks w₂ report w₃,
      w₁.tracks = w.tracks ∧
      s.applyHooks p o sh.frames sh.width sh.height w₁ = .ok hooks w₂ ∧
      Derivation.run s.settings p sh.frames (some o) w₂ = .ok report w₃ ∧
      w'.tracks = w₃.tracks ∧
      m' = { m with
        hookSegments := hooks.1
        derivation := report
        files := m.files ++ hooks.2 ++ report.files
        counts := w'.tracks.counts } := by
  obtain ⟨_, w₁, hentered, hafter⟩ := bind_eq_ok_iff.1 h
  cases hentered
  obtain ⟨hooks, w₂, hhooked, hderiving⟩ := bind_eq_ok_iff.1 hafter
  obtain ⟨report, w₃, hderived, hadvancing⟩ := bind_eq_ok_iff.1 hderiving
  obtain ⟨_, w₄, hadvanced, hend⟩ := bind_eq_ok_iff.1 hadvancing
  cases hadvanced
  cases hend
  refine ⟨_, hooks, w₂, report, w₃, ?_, hhooked, hderived, rfl, rfl⟩
  rfl

variable {report : ScanReport} {w₁ : Workspace σ} {logged : List String} {n : String} {t : Target}

/-- The scan leaves the tracks of all names but those of its targets. -/
theorem IsSurveyed.find?_eq (h : IsSurveyed u w m report w₁ w')
    (hc : u.scan.plan.IsCompiled logged) (hn : ∀ t ∈ u.scan.targets, t.name ≠ n) :
    w'.tracks.find? n = w.tracks.find? n := by
  rw [h.tracks]
  exact ((Scan.keepsLockstep_of_isCompiled hc _ _ _).finished _ _ h.run).others n hn

theorem IsSurveyed.exists_find? (h : IsSurveyed u w m report w₁ w')
    (hc : u.scan.plan.IsCompiled logged) (ht : t ∈ u.scan.targets) :
    ∃ track, w'.tracks.find? t.name = some track := by
  obtain ⟨track, htrack, -⟩ :=
    ((Scan.keepsLockstep_of_isCompiled hc _ _ _).finished _ _ h.run).rows t ht
  rw [h.tracks]
  exact ⟨track, htrack⟩

end Session

end Screenmark
