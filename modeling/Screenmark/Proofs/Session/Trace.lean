/-
  Screenmark — what a run writes.

  A run makes its folder, writes the timelines of the logged tracks and the pictures of
  templates, scans and writes the timelines of its targets, and then, unless it was stopped,
  those of the rules for events and for complete series. So its exports are known in advance
  (`Session.exports`): a run that is finished has written all of them and nothing else, and
  any other run the first few (`exists_isLog`).

  The frames of a run bound what it marks, with one exception: a logged track is written as
  it is, and may be true behind them (`Session.Overhangs`).
-/
import Screenmark.Proofs.Derivation.Trace
import Screenmark.Proofs.Events.Placement
import Screenmark.Proofs.Scan.History
import Screenmark.Proofs.Scan.Trace
import Screenmark.Proofs.Session.Turns

namespace Screenmark

/-! ## The exports of a run -/

/-- The timelines of a target. -/
def Target.exports (t : Target) : List Export := Export.timelines t.name (t.stage = .template)

/-- The timelines of a logged track. -/
def Tracks.exportsAs (ts : Tracks) (name : String) : List Export :=
  match ts.find? name with
  | none => []
  | some t => Export.timelines name t.template.isSome

namespace Session

open Work

variable {σ : Type} {s : Session σ} {rules : List String} {p : Plan} {sh : Shape} {o : Outlet}
  {w w' : Workspace σ} {E : List Export} {P : Writing → Prop} {t : Target} {r : Rule}
  {name : String} {frames : Nat}

/-- The exports of the logged tracks. -/
def loggedExports (s : Session σ) : List Export :=
  if s.settings.outputs.loggedTimelines then
    s.work.tracks.loggedNames.flatMap s.work.tracks.exportsAs
  else []

/-- The exports of a scan. -/
def surveyExports (p : Plan) : List Export :=
  Scan.sheetExports p.targets ++ p.targets.flatMap Target.exports

/-- The exports of what comes after the scan. -/
def finishExports (p : Plan) : List Export :=
  (p.ofFamily .inputHook).flatMap Rule.exports ++ (p.ofFamily .conversion).flatMap Rule.exports

/-- All exports of a run, in their order, if every one is to be written. -/
def exports (s : Session σ) (p : Plan) : List Export :=
  s.loggedExports ++ surveyExports p ++ finishExports p

/-! ## What the writings are -/

/-- A timeline shows a logged track that is true behind the first frames. -/
def Overhangs (s : Session σ) (frames : Nat) (name : String) (p : Provenance) : Prop :=
  p.algorithm = "logged" ∧ ∃ t, s.work.tracks.find? name = some t ∧
    t.IsTrueBehind s.settings.threshold frames

/-- What a run of some shape may write: sheets that it exports, and timelines of its frames
    that lie within them unless they show what is behind. -/
def Expects (s : Session σ) (sh : Shape) (E : List Export) : Writing → Prop
  | .kept e _ _ => e ∈ E
  | .timeline name entries frames p => frames = sh.frames ∧
      (entries.IsWithin frames ↔ (s.Overhangs frames name p → entries.size = 0))
  | .folder _ | .picture .. | .opened .. => True

theorem expects_of_isWithin {entries : Entries} {p : Provenance}
    (h : entries.IsWithin sh.frames) (hp : p.algorithm ≠ "logged") :
    s.Expects sh E (.timeline name entries sh.frames p) :=
  ⟨rfl, iff_of_true h fun hover => absurd hover.1 hp⟩

theorem name_ne_logged (a : Action) : a.name ≠ "logged" := by cases a <;> decide

/-! ## Timelines of tracks -/

theorem writes_writeTrack {track : Track} {hasOverlays : Bool} {q : Provenance}
    (hsegments : P (.timeline name (.segments (track.segments s.settings.threshold name))
      sh.frames q))
    (hoverlays : hasOverlays = true → P (.timeline name
      (.overlays (track.overlays s.settings.threshold sh.width sh.height name)) sh.frames q)) :
    Writes o P (o.wanted (Export.timelines name hasOverlays))
      (s.writeTrack o sh name track hasOverlays q) w fun files w' =>
        files = (o.wanted (Export.timelines name hasOverlays)).map o.pathOf ∧
          w'.tracks = w.tracks := by
  have hwanted : o.wanted (Export.timelines name hasOverlays) = o.wanted [.segments name] ++
      o.wanted (if hasOverlays then [.overlays name] else []) :=
    o.wanted_append [_] _
  rw [hwanted]
  refine (writes_writeSegments hsegments).bind fun files w₁ hfiles => ?_
  obtain ⟨rfl, htracks⟩ := hfiles
  split
  · next htrue =>
    refine (writes_writeOverlays (hoverlays htrue)).bind_right fun more w₂ hmore => ?_
    obtain ⟨rfl, htracks'⟩ := hmore
    exact .pure ⟨List.map_append.symm, htracks'.trans htracks⟩
  · refine .pure ⟨?_, htracks⟩
    rw [o.wanted_nil, List.append_nil]

/-- A logged track is written as it is. -/
theorem writes_writeLogged (hw : w.tracks = s.work.tracks) :
    Writes o (s.Expects sh E) (o.wanted (s.work.tracks.exportsAs name)) (s.writeLogged o sh name) w
      fun files w' => files = (o.wanted (s.work.tracks.exportsAs name)).map o.pathOf ∧
        w'.tracks = s.work.tracks := by
  unfold writeLogged Tracks.exportsAs
  refine .get_bind ?_
  rw [← hw]
  rcases htrack : w.tracks.find? name with _ | track
  · exact .pure ⟨rfl, rfl⟩
  · have hover : s.Overhangs sh.frames name ⟨name, "logged", .vision⟩ ↔
        track.IsTrueBehind s.settings.threshold sh.frames := by
      unfold Overhangs
      rw [← hw, htrack]
      simp
    refine writes_writeTrack ⟨rfl, ?_⟩ fun _ => ⟨rfl, ?_⟩
    · rw [hover, Track.isWithin_segments_iff]
      refine imp_congr_right fun hbehind => ?_
      exact iff_of_false id fun hsize =>
        track.segments_ne_nil hbehind (List.length_eq_zero_iff.1 hsize)
    · rw [hover, Track.isWithin_overlays_iff]
      exact imp_congr_right fun _ => List.length_eq_zero_iff.symm

/-- The track of a target has no more frames than the run, so its marks lie within them. -/
theorem writes_writeTarget {ts : Tracks} {rows : Nat} (hw : w.tracks = ts)
    (hrows : ts.HasRows t.name t.kind rows) (hle : rows ≤ sh.frames) :
    Writes o (s.Expects sh E) (o.wanted t.exports) (s.writeTarget o sh t) w fun files w' =>
      files = (o.wanted t.exports).map o.pathOf ∧ w'.tracks = ts := by
  obtain ⟨track, htrack, -, hsize, -⟩ := hrows
  have hbehind : ¬ track.IsTrueBehind s.settings.threshold sh.frames := by
    have hframes : track.size = rows := hsize
    exact Track.not_isTrueBehind (hframes ▸ hle)
  unfold writeTarget
  refine .get_bind ?_
  rw [hw, htrack, ← hw]
  exact writes_writeTrack
    (expects_of_isWithin (Track.isWithin_segments_iff.2 hbehind) (name_ne_logged t.action))
    fun _ => expects_of_isWithin
      (Track.isWithin_overlays_iff.2 fun htrue => absurd htrue hbehind) (name_ne_logged t.action)

/-! ## Up to the scan -/

theorem writes_cutTemplate
    (recordings : Tree → String → σ → Except Failure (Footage σ) × σ) :
    Writes o P [] (s.cutTemplate recordings r) w fun _ _ => True := by
  unfold cutTemplate
  refine .ofExcept_bind fun cut _ => .get_bind ?_
  refine .quiet_bind (Q := fun _ _ => True) ⟨trivial, rfl⟩ fun opened w₁ _ =>
    .ofExcept_bind fun footage _ => ?_
  refine .quiet_bind (Q := fun _ _ => True) ⟨trivial, rfl⟩ fun isThere w₂ _ => ?_
  dsimp only
  split
  · exact .throw _
  · refine .quiet_bind (Q := fun _ _ => True) ⟨trivial, rfl⟩ fun image w₃ _ => ?_
    rcases image with _ | image
    · exact .throw _
    · dsimp only
      rcases Template.cutFrom r cut (ColourImage.grey image) with e | cutting
      · exact .throw e
      · exact .pure trivial

theorem writes_makeTemplate (hP : ∀ path image, P (.picture path image)) :
    Writes o P [] (s.makeTemplate r) w fun _ _ => True := by
  unfold makeTemplate
  dsimp only
  split
  · refine .get_bind ?_
    split
    · exact .pure trivial
    · exact .throw _
  · refine (writes_cutTemplate _).bind fun image w₁ _ => .changeFiles fun t _ h => ?_
    refine ⟨trivial, ?_⟩
    split at h
    · next t' hwrite =>
      cases h
      have hperform : o.perform w₁.files (.picture (s.templatePath (r.name.getD "")) image) =
          some t := by
        rw [Outlet.perform, hwrite]
        rfl
      exact .one hperform (hP _ _)
    · cases h

theorem writes_createFolder {path : String} (hP : P (.folder path)) :
    Writes o P [] (createFolder path) w fun _ w' => w'.tracks = w.tracks := by
  refine .changeFiles fun t _ h => ?_
  split at h
  · next t' hcreate =>
    cases h
    have hperform : o.perform w.files (.folder path) = some t := by
      rw [Outlet.perform, hcreate]
      rfl
    exact ⟨rfl, .one hperform hP⟩
  · cases h

theorem writes_writeAllLogged (hw : w.tracks = s.work.tracks) :
    Writes o (s.Expects sh E) (o.wanted s.loggedExports)
      (s.writeAllLogged o sh s.work.tracks.loggedNames) w fun files _ =>
        files = (o.wanted s.loggedExports).map o.pathOf := by
  unfold writeAllLogged loggedExports
  split
  · rw [o.wanted_flatMap]
    exact (Writes.collect (I := fun w => w.tracks = s.work.tracks)
      (fun n _ w hw => writes_writeLogged hw) hw).mono fun _ _ h => h.1
  · exact .pure rfl

/-- Up to the scan, the exports are the timelines of the logged tracks. -/
theorem writes_setUp (hp : Plan.compile rules s.work.tracks.loggedNames = .ok p)
    (hsh : s.shape s.work.tracks = .ok sh) :
    Writes (s.outlet sh.fps) (s.Expects sh E) ((s.outlet sh.fps).wanted s.loggedExports)
      (s.setUp rules) s.work fun u w' => s.IsSetUp rules s.work u w' ∧ u.timelines =
        ((s.outlet sh.fps).wanted s.loggedExports).map (s.outlet sh.fps).pathOf := by
  refine Writes.mono (Q := fun u w' => u.timelines =
    ((s.outlet sh.fps).wanted s.loggedExports).map (s.outlet sh.fps).pathOf ∧
      s.IsSetUp rules s.work u w') (.and ?_ fun u w' h => isSetUp_of_setUp h) fun _ _ h => h.symm
  unfold setUp
  refine .modify_bind rfl (.get_bind ?_)
  dsimp only
  rw [hp]
  refine .ofExcept_bind fun plan hplan => ?_
  rw [hsh]
  refine .ofExcept_bind fun sh' hsh' => ?_
  cases hsh'
  refine (writes_createFolder trivial).bind_left fun _ w₁ hw₁ => ?_
  refine (writes_writeAllLogged hw₁).bind_right fun logged w₂ hlogged => ?_
  refine .modify_bind rfl ?_
  refine (Writes.forM (I := fun _ => True) (fun r _ _ _ => writes_makeTemplate fun _ _ => trivial)
    trivial).bind_left fun _ w₃ _ => .get_bind (.ofExcept_bind fun templates _ => .pure hlogged)

/-! ## The scan -/

/-- The exports of a scan are its sheets and the timelines of its targets. -/
theorem writes_survey {u : SetUp σ} {logged : List String} (hc : u.scan.plan.IsCompiled logged)
    (hE : surveyExports u.scan.plan ⊆ E) :
    Writes u.outlet (s.Expects u.shape E) (u.outlet.wanted (surveyExports u.scan.plan))
      (s.survey u) w fun m _ => m.files.Perm
        (u.timelines ++ (u.outlet.wanted (surveyExports u.scan.plan)).map u.outlet.pathOf) := by
  have hkept : ∀ e ∈ u.outlet.wanted (Scan.sheetExports u.scan.targets), ∀ columns latest,
      s.Expects u.shape E (.kept e columns latest) := fun e he _ _ =>
    hE (List.mem_append_left _ (List.mem_filter.1 he).1)
  have hscanned : ∀ report w', u.scan.run u.shape.frames (some u.outlet) w = .ok report w' →
      u.scan.Lockstep w.tracks report.frames w'.tracks ∧ report.frames ≤ u.shape.frames :=
    fun report w' hrun => ⟨(Scan.keepsLockstep_of_isCompiled hc _ _ _).finished report w' hrun,
      Scan.frames_le_total hc hrun⟩
  unfold survey surveyExports
  rw [u.outlet.wanted_append, u.outlet.wanted_flatMap]
  refine ((Scan.writes_run (fun _ _ => trivial) hkept).and hscanned).bind
    fun report w₁ hreport => ?_
  obtain ⟨htables, hlock, hle⟩ := hreport
  refine (Writes.collect (I := fun w => w.tracks = w₁.tracks)
    (fun t ht w hw => writes_writeTarget hw (hlock.rows t ht) hle) rfl).bind_right
      fun timelines w₂ htimelines => .get_bind (.pure ?_)
  rw [htimelines.1, List.map_append, List.append_assoc]
  exact (htables.append_right _).append_left _

/-! ## Behind the scan -/

/-- The segments for events lie within the frames, and clicks have a track of them. -/
theorem isWithin_of_hookTrack {es : List Event} {c : Clock} {gate : Option (List Bool)}
    {track : Track} {segments : List Segment}
    (h : s.hookTrack es c frames name r gate = .ok (track, segments)) :
    (Entries.segments segments).IsWithin frames ∧
      (r.action = .mouseClicks → track.size = frames) := by
  unfold hookTrack at h
  split at h
  · next haction =>
    cases h
    refine ⟨fun _ hs => Events.isWithin_of_mem_typedTrack hs, fun hclicks => ?_⟩
    rw [haction] at hclicks
    cases hclicks
  · cases h
    have hsize := Events.size_clickTrack es c frames (allows gate)
    exact ⟨Track.isWithin_segments_iff.2 (Track.not_isTrueBehind (Nat.le_of_eq hsize)),
      fun _ => hsize⟩
  · cases h

theorem writes_applyHook {es : List Event} {width height : Nat} {done : Nat × List String}
    (hfamily : r.action.family = .inputHook) (houtputs : r.outputs = [r.operands.headD ""]) :
    Writes o (s.Expects sh E) (o.wanted r.exports)
      (s.applyHook o sh.frames width height es done r) w fun done' _ =>
        done'.2 = done.2 ++ (o.wanted r.exports).map o.pathOf := by
  have hexports : r.exports = [.segments (r.operands.headD "")] ++
      if r.action = .mouseClicks then [.overlays (r.operands.headD "")] else [] := by
    unfold Rule.exports Rule.exportsAs
    rw [houtputs, List.flatMap_singleton]
    rcases haction : r.action <;> first | rfl | (rw [haction] at hfamily; cases hfamily)
  unfold applyHook
  refine .get_bind (.ofExcept_bind fun gate _ => .ofExcept_bind fun marks hmarks => ?_)
  obtain ⟨track, segments⟩ := marks
  obtain ⟨hwithin, hsize⟩ := isWithin_of_hookTrack hmarks
  have hname := name_ne_logged r.action
  rw [hexports, o.wanted_append]
  refine (writes_writeSegments (expects_of_isWithin hwithin hname)).bind fun files w₁ hfiles => ?_
  obtain ⟨rfl, -⟩ := hfiles
  split
  · next hclicks =>
    have hbehind : ¬ track.IsTrueBehind s.settings.threshold sh.frames :=
      Track.not_isTrueBehind (Nat.le_of_eq (hsize hclicks))
    refine (writes_writeOverlays (expects_of_isWithin
      (Track.isWithin_overlays_iff.2 fun htrue => absurd htrue hbehind) hname)).bind_right
        fun more w₂ hmore => .modify_bind rfl (.pure ?_)
    obtain ⟨rfl, -⟩ := hmore
    rw [List.map_append, List.append_assoc]
  · refine (Writes.pure (Q := fun more _ => more = []) rfl).bind_right
      fun more w₂ hmore => .modify_bind rfl (.pure ?_)
    subst hmore
    rw [o.wanted_nil, List.append_nil, List.append_nil]

/-- The exports of the rules for events are those of each, in their order. -/
theorem writes_applyHooks {width height : Nat}
    (hp : Plan.compile rules s.work.tracks.loggedNames = .ok p) :
    Writes o (s.Expects sh E) (o.wanted ((p.ofFamily .inputHook).flatMap Rule.exports))
      (s.applyHooks p o sh.frames width height) w fun done _ =>
        done.2 = (o.wanted ((p.ofFamily .inputHook).flatMap Rule.exports)).map o.pathOf := by
  have hrules : ∀ r ∈ p.ofFamily .inputHook, r.action.family = .inputHook ∧
      r.outputs = [r.operands.headD ""] := by
    intro r hr
    obtain ⟨hmem, hfamily⟩ := List.mem_filter.1 hr
    have hsound := (Plan.isCompiled_of_compile hp).sound r hmem
    exact ⟨hsound.family_eq ▸ of_decide_eq_true hfamily, outputs_of_mem_inputHooks hp hr⟩
  unfold applyHooks
  dsimp only
  split
  · next hempty =>
    rw [List.isEmpty_iff.1 hempty]
    exact .pure rfl
  · split
    · exact .throw _
    · refine .get_bind (.quiet_bind (Q := fun _ _ => True) ⟨trivial, rfl⟩ fun read w₁ _ =>
        .ofExcept_bind fun es _ => ?_)
      rw [o.wanted_flatMap]
      exact (Writes.foldlM Prod.snd fun r hr done w =>
        writes_applyHook (hrules r hr).1 (hrules r hr).2).mono fun _ _ h => h

end Session

namespace Session

open Work Screenmark.Derivation

variable {σ : Type} {s : Session σ} {rules : List String} {p : Plan} {sh : Shape} {o : Outlet}
  {w : Workspace σ} {E : List Export} {r : Rule}

theorem writes_derive (hE : (p.ofFamily .conversion).flatMap Rule.exports ⊆ E) :
    Writes o (s.Expects sh E) (o.wanted ((p.ofFamily .conversion).flatMap Rule.exports))
      (Derivation.run s.settings p sh.frames (some o)) w fun report _ =>
        report.files =
          (o.wanted ((p.ofFamily .conversion).flatMap Rule.exports)).map o.pathOf :=
  Derivation.writes_run (fun _ _ a h => expects_of_isWithin h (name_ne_logged a))
    (fun _ _ => trivial) fun _ he _ _ => hE he

/-! ## Whole runs -/

theorem writes_finish {m : Summary} (hp : Plan.compile rules s.work.tracks.loggedNames = .ok p)
    (hE : finishExports p ⊆ E) :
    Writes o (s.Expects sh E) (o.wanted (finishExports p)) (s.finish p o sh m) w fun m' _ =>
      m'.files = m.files ++ (o.wanted (finishExports p)).map o.pathOf ∧
        m'.aborted = m.aborted := by
  unfold finish finishExports
  rw [o.wanted_append]
  refine .modify_bind rfl ((writes_applyHooks hp).bind fun done w₁ hdone => ?_)
  obtain ⟨segments, hookFiles⟩ := done
  refine (writes_derive fun e he => hE (List.mem_append_right _ he)).bind_right
    fun report w₂ hreport => .modify_bind rfl (.get_bind (.pure ⟨?_, rfl⟩))
  have hhooks : hookFiles = _ := hdone
  rw [hhooks, hreport, List.map_append, List.append_assoc]

/-- What a run that succeeds has exported: all that there is to export, or, if it was
    aborted, what comes up to the end of the scan. -/
def doneExports (s : Session σ) (p : Plan) (m : Summary) : List Export :=
  if m.aborted then s.loggedExports ++ surveyExports p else s.exports p

theorem leads_phases (hp : Plan.compile rules s.work.tracks.loggedNames = .ok p)
    (hsh : s.shape s.work.tracks = .ok sh) : Leads (s.phases rules) s.work
      (fun m w' => m.files.Perm
          (((s.outlet sh.fps).wanted (s.doneExports p m)).map (s.outlet sh.fps).pathOf) ∧
        (s.outlet sh.fps).Wrote (s.Expects sh (s.exports p))
          ((s.outlet sh.fps).wanted (s.doneExports p m)) s.work.files w'.files)
      fun _ w' => (s.outlet sh.fps).WroteSome (s.Expects sh (s.exports p))
        ((s.outlet sh.fps).wanted (s.exports p)) s.work.files w'.files := by
  have hsurvey : surveyExports p ⊆ s.exports p := fun e he =>
    List.mem_append_left _ (List.mem_append_right _ he)
  have hfinish : finishExports p ⊆ s.exports p := fun e he => List.mem_append_right _ he
  have hexports : (s.outlet sh.fps).wanted (s.exports p) =
      (s.outlet sh.fps).wanted s.loggedExports ++ ((s.outlet sh.fps).wanted (surveyExports p) ++
        (s.outlet sh.fps).wanted (finishExports p)) := by
    rw [exports, Outlet.wanted_append, Outlet.wanted_append, List.append_assoc]
  rw [phases_eq, leads_bind, hexports]
  refine Leads.mono (writes_setUp hp hsh) (fun u w₁ hu => ?_) fun e w₁ he => he.append_right _
  obtain ⟨⟨hsetUp, htimelines⟩, hlogged⟩ := hu
  obtain ⟨hcompiled, -, -, hshape, houtlet, -⟩ := hsetUp
  obtain ⟨⟨plan, settings, templates, instruments, stopped⟩, outlet, shape, timelines⟩ := u
  cases hp.symm.trans hcompiled
  cases hsh.symm.trans hshape
  dsimp only at houtlet htimelines ⊢
  subst houtlet
  rw [leads_bind]
  refine Leads.mono (writes_survey (Plan.isCompiled_of_compile hp) hsurvey) (fun m w₂ hm => ?_)
    fun e w₂ he => hlogged.append_some (he.append_right _)
  obtain ⟨hfiles, hsurveyed⟩ := hm
  dsimp only at hfiles
  rw [htimelines, ← List.map_append] at hfiles
  split
  · next haborted =>
    rw [leads_pure, doneExports, if_pos haborted, Outlet.wanted_append]
    exact ⟨hfiles, hlogged.append hsurveyed⟩
  · next haborted =>
    refine Leads.mono (writes_finish hp hfinish) (fun m' w₃ hm' => ?_)
      fun e w₃ he => hlogged.append_some (hsurveyed.append_some he)
    obtain ⟨⟨hmore, habort⟩, hfinished⟩ := hm'
    rw [doneExports, if_neg (habort ▸ haborted), hexports]
    refine ⟨?_, hlogged.append (hsurveyed.append hfinished)⟩
    rw [hmore, ← List.append_assoc, List.map_append]
    exact hfiles.append_right _

/-- Some writings are those of a run: they lead to its files, and are as they should be. They
    begin the first few exports, and in a run that succeeds just those of its summary. -/
structure IsLog (s : Session σ) (rules : List String) (p : Plan) (sh : Shape)
    (log : List Writing) : Prop where
  replay : (s.outlet sh.fps).replay s.work.files log = some (s.run rules).2.work.files
  expects : ∀ x ∈ log, s.Expects sh (s.exports p) x
  begun : log.filterMap Writing.begun? <+: (s.outlet sh.fps).wanted (s.exports p)
  summary : ∀ m, (s.run rules).1 = .ok m →
    m.files.Perm ((log.filterMap Writing.begun?).map (s.outlet sh.fps).pathOf) ∧
      log.filterMap Writing.begun? = (s.outlet sh.fps).wanted (s.doneExports p m)

theorem run_of_phases_eq_ok {m : Summary} {w : Workspace σ}
    (h : s.phases rules s.work = .ok m w) :
    (s.run rules).1 = .ok m ∧ (s.run rules).2.work.files = w.files := by
  rw [run, after, h]
  exact ⟨rfl, rfl⟩

theorem run_of_phases_eq_error {e : Failure} {w : Workspace σ}
    (h : s.phases rules s.work = .error e w) :
    (s.run rules).1 = .error e ∧ (s.run rules).2.work.files = w.files := by
  rw [run, after, h]
  exact ⟨rfl, rfl⟩

/-- **What a run writes is known in advance.** -/
theorem exists_isLog (hp : Plan.compile rules s.work.tracks.loggedNames = .ok p)
    (hsh : s.shape s.work.tracks = .ok sh) : ∃ log, s.IsLog rules p sh log := by
  have hphases := leads_phases hp hsh
  rcases hrun : s.phases rules s.work with ⟨m, w⟩ | ⟨e, w⟩
  · obtain ⟨hfiles, log, hreplay, hexpects, hbegun⟩ := hphases.ok hrun
    obtain ⟨hm, hw⟩ := run_of_phases_eq_ok hrun
    refine ⟨log, hw ▸ hreplay, hexpects, ?_, fun m' hm' => ?_⟩
    · rw [hbegun]
      unfold doneExports
      split
      · rw [exports, Outlet.wanted_append _ (s.loggedExports ++ surveyExports p)]
        exact List.prefix_append _ _
      · exact List.prefix_refl _
    · cases hm.symm.trans hm'
      rw [hbegun]
      exact ⟨hfiles, rfl⟩
  · obtain ⟨xs, hxs, log, hreplay, hexpects, hbegun⟩ := hphases.error hrun
    obtain ⟨he, hw⟩ := run_of_phases_eq_error hrun
    refine ⟨log, hw ▸ hreplay, hexpects, hbegun ▸ hxs, fun m' hm' => ?_⟩
    cases he.symm.trans hm'

/-- A run that has no plan or no shape fails and writes nothing. -/
theorem exists_error_of_run (h : (∀ p, Plan.compile rules s.work.tracks.loggedNames ≠ .ok p) ∨
    ∀ sh, s.shape s.work.tracks ≠ .ok sh) :
    ∃ e, (s.run rules).1 = .error e ∧ (s.run rules).2.work.files = s.work.files := by
  obtain ⟨e, hphases⟩ := exists_phases_eq_error h
  obtain ⟨he, hw⟩ := run_of_phases_eq_error hphases
  exact ⟨e, he, hw⟩

end Session

end Screenmark
