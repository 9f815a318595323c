/-
  Screenmark — the course of a run.

  What a run may show is known from its plan (`Plan.IsCourse`): two phases before the scan,
  a frame for each frame of the recording, and one or two phases behind them. A run that is
  done has shown all of that, a run that was aborted what comes up to the end of a frame,
  and a run that failed the first few phases. Then the status tells how it ended: the
  progress is one, the part of the frames that are done, or -1 (`exists_isCourse_of_run`).
-/
import Screenmark.Proofs.Scan.Phases
import Screenmark.Proofs.Session.Abort

namespace Screenmark

/-! ## Kinds of phases -/

namespace Plan

/-- The phases up to the end of so many frames. -/
def IsOpening (p : Plan) (frames : Nat) : List Phase → Prop :=
  Followed (· = [.compiling, .preparing]) (Repeated (IsFrame p.targets.length) frames)

/-- The phases of the conversion rules: none without such a rule. -/
def derivingPhases (p : Plan) : List Phase :=
  if (p.ofFamily .conversion).isEmpty then [] else [.deriving]

/-- The phases behind the frames. -/
def closing (p : Plan) : List Phase := .inputHooks :: p.derivingPhases

/-- The phases of a whole run. -/
def IsCourse (p : Plan) (frames : Nat) : List Phase → Prop :=
  Followed (p.IsOpening (p.due frames)) (· = p.closing)

end Plan

/-! ## Conversion rules -/

namespace Derivation

open Work

variable {σ : Type}

theorem hushes_writeNested (o : Outlet) (n : Nested) :
    Hushes Workspace.status (writeNested o n : Work σ (List String)) :=
  Shows.hush (hushes_changeFiles _) fun _ => Shows.hush (hushes_changeFiles _) fun _ =>
    (hushes_ofExcept _).hush fun _ => (hushes_ofExcept _).hush fun _ =>
      (hushes_keepSheets _).hush fun _ => .pure _

theorem hushes_writeTo (o : Option Outlet) (frames : Nat) (r : Rule) (d : Derived)
    (nested : Option Nested) :
    Hushes Workspace.status (writeTo o frames r d nested : Work σ (List String)) := by
  rcases o with _ | o
  · exact .pure []
  · refine Shows.hush (hushes_changeFiles _) fun files => ?_
    rcases nested with _ | n
    · exact .pure files
    · dsimp only
      split
      · exact (hushes_writeNested o n).hush fun sheets => .pure _
      · exact .pure files

/-- A rule shows no phase, whatever warnings it gives. -/
theorem hushes_apply (s : Settings) (o : Option Outlet) (frames : Nat) (report : DerivationReport)
    (r : Rule) : Hushes Workspace.status (apply s o frames report r : Work σ _) := by
  have htell : ∀ ms, Hushes Workspace.status (tell r ms : Work σ PUnit) := fun ms =>
    Shows.hush (.forIn (fun message => (hushes_warn _ message).hush fun _ => .pure _) ms)
      fun _ => .pure _
  rw [apply_eq]
  refine Shows.get.hush fun w => (hushes_ofExcept _).hush fun result => ?_
  exact (htell _).hush fun _ => (hushes_writeTo o frames r _ _).hush fun files =>
    (hushes_insert _ _).hush fun _ => .pure _

theorem shows_run (s : Settings) (p : Plan) (frames : Nat) (o : Option Outlet) :
    Shows Workspace.status (· = p.derivingPhases)
      (run s p frames o : Work σ DerivationReport) := by
  unfold run Plan.derivingPhases
  dsimp only
  split
  · exact .pure noReport
  · exact (shows_enter .deriving).bind_right fun _ => Shows.foldlM (hushes_apply s o frames) _ _

end Derivation

namespace Session

open Work

variable {σ : Type} {s s' : Session σ} {rules : List String} {p : Plan} {sh : Shape}
  {w w' : Workspace σ} {m : Summary} {u : SetUp σ} {logged : List String}

/-! ## Before the scan -/

theorem hushes_use {α : Type} (g : σ → α × σ) : Hushes Workspace.status (Session.use g) :=
  fun _ => ⟨[], rfl, .refl _⟩

theorem hushes_collect {α : Type} {g : α → Work σ (List String)}
    (h : ∀ a, Hushes Workspace.status (g a)) (as : List α) :
    Hushes Workspace.status (collect g as) := by
  induction as with
  | nil => exact .pure []
  | cons a as ih => exact (h a).hush fun files => ih.hush fun more => .pure _

theorem hushes_writeTrack (s : Session σ) (o : Outlet) (sh : Shape) (name : String) (t : Track)
    (hasOverlays : Bool) (q : Provenance) :
    Hushes Workspace.status (s.writeTrack o sh name t hasOverlays q) := by
  refine Shows.hush (hushes_changeFiles _) fun files => ?_
  split
  · exact Shows.hush (hushes_changeFiles _) fun more => .pure _
  · exact .pure _

theorem hushes_writeAllLogged (s : Session σ) (o : Outlet) (sh : Shape) (names : List String) :
    Hushes Workspace.status (s.writeAllLogged o sh names) := by
  unfold writeAllLogged
  split
  · refine hushes_collect (fun name => Shows.get.hush fun w => ?_) names
    split
    · exact .pure []
    · exact hushes_writeTrack s o sh name _ _ _
  · exact .pure []

theorem hushes_writeTarget (s : Session σ) (o : Outlet) (sh : Shape) (t : Target) :
    Hushes Workspace.status (s.writeTarget o sh t) := by
  refine Shows.get.hush fun w => ?_
  split
  · exact .pure []
  · exact hushes_writeTrack s o sh _ _ _ _

theorem hushes_cutTemplate (s : Session σ)
    (recordings : Tree → String → σ → Except Failure (Footage σ) × σ) (r : Rule) :
    Hushes Workspace.status (s.cutTemplate recordings r) := by
  refine (hushes_ofExcept _).hush fun cut => Shows.get.hush fun w => (hushes_use _).hush
    fun opened => (hushes_ofExcept _).hush fun footage => (hushes_use _).hush fun isThere => ?_
  dsimp only
  split
  · exact .throw _
  · refine (hushes_use _).hush fun image => ?_
    split
    · exact .throw _
    · exact hushes_ofExcept _

theorem hushes_makeTemplate (s : Session σ) (r : Rule) :
    Hushes Workspace.status (s.makeTemplate r) := by
  unfold makeTemplate
  dsimp only
  split
  · refine Shows.get.hush fun w => ?_
    split
    · exact .pure _
    · exact .throw _
  · exact (hushes_cutTemplate s _ r).hush fun image => hushes_changeFiles _

/-- A run shows two phases before its scan; if it does not come to the scan, it has shown at
    least the first of them. -/
theorem leads_setUp_showed (s : Session σ) (rules : List String) (w : Workspace σ) :
    Leads (s.setUp rules) w
      (fun _ w' => ∃ ps, ps = [.preparing] ∧ w.status.Showed (.compiling :: ps) w'.status)
      fun _ w' => ∃ ps, Begins (· = [.preparing]) ps ∧
        w.status.Showed (.compiling :: ps) w'.status := by
  have hpreparing : ∃ ps : List Phase, ps = [.preparing] := ⟨_, rfl⟩
  refine leads_enter_bind (fun _ => Shows.get.bind_left (fun w => ?_) hpreparing) w
  refine (hushes_ofExcept _).bind_left (fun plan => ?_) hpreparing
  refine (hushes_ofExcept _).bind_left (fun sh => ?_) hpreparing
  refine Shows.bind_left (hushes_changeFiles _) (fun _ => ?_) hpreparing
  refine (hushes_writeAllLogged s _ sh _).bind_left (fun logged => ?_) hpreparing
  refine (shows_enter .preparing).bind_right fun _ => ?_
  refine Shows.hush (.forM (hushes_makeTemplate s) _) fun _ => Shows.get.hush fun w => ?_
  exact (hushes_ofExcept _).hush fun templates => .pure _

/-! ## The scan -/

theorem leads_survey_showed (hc : u.scan.plan.IsCompiled logged) (s : Session σ)
    (w : Workspace σ) : Leads (s.survey u) w
      (fun m w' => m.frames = u.shape.frames ∧ m.aborted = m.scan.aborted ∧
        u.scan.Ends u.shape.frames w.status m.scan w'.status)
      fun _ w' => u.scan.Fails u.shape.frames w.status w'.status := by
  refine leads_bind.2 ((Scan.leads_run_showed hc _ _ w).mono (fun report w₁ h => ?_)
    fun e w₁ h => h)
  have hcollect := hushes_iff.1 (hushes_collect (hushes_writeTarget s u.outlet u.shape)
    u.scan.targets) w₁
  refine leads_bind.2 (hcollect.mono (fun timelines w₂ h' => ?_) fun e w₂ h' => ?_)
  · exact ⟨rfl, rfl, h.hush h'⟩
  · exact h.fails.hush h'

/-! ## Behind the scan -/

theorem hushes_applyHook (s : Session σ) (o : Outlet) (frames width height : Nat)
    (es : List Event) (done : Nat × List String) (r : Rule) :
    Hushes Workspace.status (s.applyHook o frames width height es done r) := by
  refine Shows.get.hush fun w => (hushes_ofExcept _).hush fun gate =>
    (hushes_ofExcept _).hush fun _ => Shows.hush (hushes_changeFiles _) fun files => ?_
  dsimp only
  split
  · exact Shows.hush (hushes_changeFiles _) fun more => (hushes_insert _ _).hush fun _ => .pure _
  · exact (hushes_insert _ _).hush fun _ => .pure _

theorem hushes_applyHooks (s : Session σ) (p : Plan) (o : Outlet) (frames width height : Nat) :
    Hushes Workspace.status (s.applyHooks p o frames width height) := by
  unfold applyHooks
  dsimp only
  split
  · exact .pure _
  · split
    · exact .throw _
    · exact Shows.get.hush fun w => (hushes_use _).hush fun read => (hushes_ofExcept _).hush
        fun es => Shows.foldlM (hushes_applyHook s o frames width height es) _ _

/-- The results of a run that ends in front of its message: the segments and files of its
    rules for events, and the report of its conversion rules. -/
def conclude (s : Session σ) (p : Plan) (o : Outlet) (sh : Shape) :
    Work σ ((Nat × List String) × DerivationReport) := do
  Work.enter .inputHooks
  let hooks ← s.applyHooks p o sh.frames sh.width sh.height
  let derivation ← Derivation.run s.settings p sh.frames (some o)
  return (hooks, derivation)

theorem finish_eq (s : Session σ) (p : Plan) (o : Outlet) (sh : Shape) (m : Summary) :
    s.finish p o sh m = (do
      let (hooks, derivation) ← s.conclude p o sh
      Work.advance .one
      return { m with
        hookSegments := hooks.1
        derivation := derivation
        files := m.files ++ hooks.2 ++ derivation.files
        counts := (← get).tracks.counts }) := by
  simp only [finish, conclude, bind_assoc, pure_bind]

theorem shows_conclude (s : Session σ) (p : Plan) (o : Outlet) (sh : Shape) :
    Shows Workspace.status (· = p.closing) (s.conclude p o sh) := by
  have hderiving : ∃ ps, ps = p.derivingPhases := ⟨_, rfl⟩
  refine Shows.congr (.bind (shows_enter .inputHooks) (fun _ => ?_) hderiving)
    fun _ => followed_eq_iff
  refine (hushes_applyHooks s p o _ _ _).bind_left (fun hooks => ?_) hderiving
  exact (Derivation.shows_run s.settings p sh.frames (some o)).bind_right fun _ => .pure _

/-- A run that is finished has shown the last phases, and that it is. -/
theorem leads_finish_showed (s : Session σ) (p : Plan) (o : Outlet) (sh : Shape) (m : Summary)
    (w : Workspace σ) : Leads (s.finish p o sh m) w
      (fun m' w' => m'.frames = m.frames ∧ m'.scan = m.scan ∧ m'.aborted = m.aborted ∧
        (w.status.withProgress .one).Showed p.closing w'.status)
      fun _ w' => ∃ ps, Begins (· = p.closing) ps ∧ w.status.Showed ps w'.status := by
  rw [finish_eq]
  refine leads_bind.2 ((shows_conclude s p o sh w).mono (fun x w₁ h => ?_) fun _ _ h => h)
  obtain ⟨ps, rfl, hshowed⟩ := h
  have hfull : w₁.status.advance .one = w₁.status.withProgress .one := by
    rw [Status.advance, Binary.clamp_one Format.fits_one_single]
    rfl
  have hadvanced : (w.status.withProgress .one).Showed p.closing (w₁.status.advance .one) :=
    hfull ▸ hshowed.withProgress .one
  exact ⟨rfl, rfl, rfl, hadvanced⟩

/-! ## Whole runs -/

/-- The phases and the progress of a run that ends: it went through all frames, or it was
    aborted behind some of them. -/
structure IsEnd (p : Plan) (sh : Shape) (m : Summary) (ps : List Phase) (progress : Single) :
    Prop where
  frames : m.frames = sh.frames
  aborted : m.aborted = true → m.scan.frames < p.due sh.frames ∧ p.IsOpening m.scan.frames ps ∧
    progress = Binary.ofNat m.scan.frames / Binary.ofNat m.frames
  done : m.aborted = false → p.IsCourse sh.frames ps ∧ progress = .one

/-- What a run has shown that ends. -/
def Ends (p : Plan) (sh : Shape) (before : Status) (m : Summary) (after : Status) : Prop :=
  ∃ ps, IsEnd p sh m (.compiling :: ps) after.progress ∧
    (before.withProgress after.progress).Showed (.compiling :: ps) after

/-- What a run has shown that fails. -/
def Fails (p : Plan) (sh : Shape) (before after : Status) : Prop :=
  ∃ ps, Begins (p.IsCourse sh.frames) (.compiling :: ps) ∧
    (before.withProgress after.progress).Showed (.compiling :: ps) after

variable {before : Status} {ps : List Phase}

/-- Behind all frames a run is finished, or it fails there. -/
theorem leads_finish_ends (s : Session σ) (o : Outlet) (hframes : m.frames = sh.frames)
    (hgone : m.aborted = false) (hps : p.IsOpening (p.due sh.frames) (.compiling :: ps))
    (hshown : (before.withProgress w.status.progress).Showed (.compiling :: ps) w.status) :
    Leads (s.finish p o sh m) w (fun m' w' => Ends p sh before m' w'.status)
      fun _ w' => Fails p sh before w'.status := by
  refine (leads_finish_showed s p o sh m w).mono (fun m' w' h => ?_) fun e w' h => ?_
  · obtain ⟨hframes', hscan, hgone', hclosed⟩ := h
    have hprogress : w'.status.progress = .one :=
      hclosed.progress.trans (w.status.progress_withProgress .one)
    refine ⟨ps ++ p.closing, ⟨hframes'.trans hframes, fun htrue => ?_,
      fun _ => ⟨?_, hprogress⟩⟩, ?_⟩
    · exact absurd ((hgone'.trans hgone).symm.trans htrue) Bool.false_ne_true
    · exact ⟨_, _, hps, rfl, rfl⟩
    · rw [hprogress]
      exact (hshown.withProgress .one).trans hclosed
  · obtain ⟨qs, hqs, hclosed⟩ := h
    refine ⟨ps ++ qs, .append hps hqs, ?_⟩
    rw [hclosed.progress]
    exact hshown.trans hclosed

/-- A run that is set up scans its frames, and is finished unless it is aborted. -/
theorem leads_survey_ends (hc : u.scan.plan.IsCompiled logged) (s : Session σ)
    (hopened : before.Showed [.compiling, .preparing] w.status) (hzero : before.progress = .zero) :
    Leads (do
        let m ← s.survey u
        if m.aborted then return m else s.finish u.scan.plan u.outlet u.shape m) w
      (fun m w' => Ends u.scan.plan u.shape before m w'.status)
      fun _ w' => Fails u.scan.plan u.shape before w'.status := by
  refine leads_bind.2 ((leads_survey_showed hc s w).mono (fun m w₁ h => ?_) fun e w₁ h => ?_)
  · obtain ⟨hframes, haborted, hends⟩ := h
    obtain ⟨qs, hqs, hshowed⟩ := hends.showed
    have hopening : u.scan.plan.IsOpening m.scan.frames (.compiling :: .preparing :: qs) :=
      ⟨[.compiling, .preparing], qs, rfl, hqs, rfl⟩
    have hshown := (hopened.withProgress w₁.status.progress).trans hshowed
    rcases hb : m.aborted
    · rw [if_neg Bool.false_ne_true]
      rw [hends.frames (haborted.symm.trans hb)] at hopening
      exact leads_finish_ends s u.outlet hframes hb hopening hshown
    · obtain ⟨hlt, hprogress⟩ := hends.aborted (haborted.symm.trans hb)
      refine ⟨.preparing :: qs, ⟨hframes, fun _ => ⟨hlt, hopening, ?_⟩, fun hfalse => ?_⟩, hshown⟩
      · rw [hframes]
        exact hprogress (hopened.progress.trans hzero)
      · exact absurd (hfalse.symm.trans hb) Bool.false_ne_true
  · obtain ⟨qs, hqs, hshowed⟩ := h
    refine ⟨.preparing :: qs, ?_, (hopened.withProgress _).trans hshowed⟩
    have hbegun : Begins (u.scan.plan.IsOpening (u.scan.plan.due u.shape.frames))
      ([.compiling, .preparing] ++ qs) := .append rfl hqs
    exact hbegun.followed ⟨u.scan.plan.closing, rfl⟩

/-- **What the parts of a run show.** -/
theorem leads_phases_ends (hp : Plan.compile rules s.work.tracks.loggedNames = .ok p)
    (hsh : s.shape s.work.tracks = .ok sh) (hzero : s.work.status.progress = .zero) :
    Leads (s.phases rules) s.work (fun m w' => Ends p sh s.work.status m w'.status)
      fun _ w' => Fails p sh s.work.status w'.status := by
  have hframes : ∃ ps, Repeated (IsFrame p.targets.length) (p.due sh.frames) ps :=
    exists_repeated (exists_isFrame _) _
  rw [phases_eq, leads_bind]
  refine .intro (fun u w₁ hsetUp => ?_) fun e w₁ hsetUp => ?_
  · obtain ⟨ps, rfl, hopened⟩ := (leads_setUp_showed s rules s.work).ok hsetUp
    obtain ⟨hcompiled, -, -, hshape, -, -⟩ := isSetUp_of_setUp hsetUp
    cases hp.symm.trans hcompiled
    cases hsh.symm.trans hshape
    exact leads_survey_ends (Plan.isCompiled_of_compile hp) s hopened hzero
  · obtain ⟨ps, ⟨qs, rfl, hprefix⟩, hshowed⟩ := (leads_setUp_showed s rules s.work).error hsetUp
    have hbegun : Begins (· = [.compiling, .preparing]) (.compiling :: ps) :=
      ⟨_, rfl, (List.prefix_cons_inj _).2 hprefix⟩
    exact ⟨ps, (hbegun.followed hframes).followed ⟨p.closing, rfl⟩, hshowed.progress ▸ hshowed⟩

theorem IsEnd.begins {progress : Single} (h : IsEnd p sh m ps progress) :
    Begins (p.IsCourse sh.frames) ps := by
  rcases hb : m.aborted
  · exact begins_self (h.done hb).1
  · obtain ⟨hlt, ⟨qs, rs, hqs, hrs, rfl⟩, -⟩ := h.aborted hb
    have hbegun : Begins (p.IsOpening (p.due sh.frames)) (qs ++ rs) :=
      .append hqs (.of_repeated hrs (Nat.le_of_lt hlt) (exists_isFrame _))
    exact hbegun.followed ⟨p.closing, rfl⟩

theorem exists_ends_of_phases_eq_ok (hzero : s.work.status.progress = .zero)
    (h : s.phases rules s.work = .ok m w) :
    ∃ p sh, Plan.compile rules s.work.tracks.loggedNames = .ok p ∧
      s.shape s.work.tracks = .ok sh ∧ Ends p sh s.work.status m w.status := by
  rcases s.isLost_or rules with hlost | ⟨p, sh, hp, hsh⟩
  · obtain ⟨e, hphases⟩ := exists_phases_eq_error hlost
    rw [h] at hphases
    cases hphases
  · exact ⟨p, sh, hp, hsh, (leads_phases_ends hp hsh hzero).ok h⟩

/-- What a run has shown that fails, with or without a plan. -/
theorem exists_showed_of_phases_eq_error {e : Failure} (hzero : s.work.status.progress = .zero)
    (h : s.phases rules s.work = .error e w) : ∃ ps,
      (s.work.status.withProgress w.status.progress).Showed (.compiling :: ps) w.status ∧
      (∀ p sh, Plan.compile rules s.work.tracks.loggedNames = .ok p →
        s.shape s.work.tracks = .ok sh → Begins (p.IsCourse sh.frames) (.compiling :: ps)) ∧
      (s.IsLost rules → ps = []) := by
  rcases s.isLost_or rules with hlost | ⟨p, sh, hp, hsh⟩
  · obtain ⟨e', hphases⟩ := exists_phases_eq_error hlost
    rw [h] at hphases
    cases hphases
    refine ⟨[], s.work.status.showed_enter .compiling, fun p sh hp hsh => ?_, fun _ => rfl⟩
    exact (hlost.elim (· p hp) (· sh hsh)).elim
  · obtain ⟨ps, hps, hshown⟩ := (leads_phases_ends hp hsh hzero).error h
    refine ⟨ps, hshown, fun p' sh' hp' hsh' => ?_, fun hlost => ?_⟩
    · cases hp.symm.trans hp'
      cases hsh.symm.trans hsh'
      exact hps
    · exact (hlost.elim (· p hp) (· sh hsh)).elim

/-! ## Sessions that were not run yet -/

/-- A session that was not run yet shows no progress. -/
def IsFresh (s : Session σ) : Prop := s.work.status.progress = .zero

theorem isFresh_start (settings : Settings) (dataFolder video : String)
    (instruments : Instruments σ) (world : σ) (files : Tree) :
    (start settings dataFolder video instruments world files).IsFresh := by
  simp only [IsFresh, start, Status.initial]

theorem IsFresh.stop (h : s.IsFresh) : s.stop.IsFresh := h

theorem hushes_addLogged (s : Session σ) (a : LoggedAnnotation) :
    Hushes Workspace.status (s.addLogged a) := by
  refine Shows.get.hush fun w => ?_
  dsimp only
  split
  · exact (hushes_ofExcept _).hush fun p => hushes_insert _ _
  · exact hushes_insert _ _

theorem hushes_takeIn (s : Session σ) (f : LoggedFile) :
    Hushes Workspace.status (s.takeIn f) := by
  rcases f with ⟨frames, as⟩ | first
  · exact (Shows.forM (hushes_addLogged s) as).hush fun _ => Shows.get.hush fun w =>
      (hushes_ofExcept _).hush fun _ => .pure _
  · exact .pure _

theorem IsFresh.ingest (h : s.IsFresh) (path : String) : (s.ingest path).2.IsFresh := by
  have hread : Shows Workspace.status (· = [.ingesting]) (s.readLogged path) :=
    (shows_enter .ingesting).bind_right fun _ => Shows.get.hush fun w =>
      (hushes_ofExcept _).hush fun f => hushes_takeIn s f
  unfold IsFresh Session.ingest after
  rcases hrun : s.readLogged path s.work with ⟨first, w⟩ | ⟨e, w⟩
  · obtain ⟨ps, -, hshowed⟩ := (hread s.work).ok hrun
    exact hshowed.progress.trans h
  · obtain ⟨ps, -, hshowed⟩ := (hread s.work).error hrun
    exact hshowed.progress.trans h

/-! ## The course of a run -/

/-- **The course of a run.** The status shows one phase after another and then how the run
    ended. With a plan and a shape these are the first few phases of a whole course; all of
    them if the run is done, and those of the frames that are done if it was aborted. Without
    one of the two it is the first phase only. A run that is done shows a full progress, one
    that was aborted the part of its frames, and one that failed shows -1 and its last phase
    with the failure. -/
theorem exists_isCourse_of_run {r : Except Failure Summary} (hfresh : s.IsFresh)
    (h : s.run rules = (r, s')) : ∃ ps last, ps.getLast? = some last ∧
      s'.work.status.shown = s'.work.status.phase :: (ps.reverse ++ s.work.status.shown) ∧
      (∀ p sh, Plan.compile rules s.work.tracks.loggedNames = .ok p →
        s.shape s.work.tracks = .ok sh →
        (∃ course, p.IsCourse sh.frames course ∧ ps <+: course) ∧
        ∀ m, r = .ok m → m.frames = sh.frames ∧
          if m.aborted then m.scan.frames < p.due sh.frames ∧ p.IsOpening m.scan.frames ps
          else p.IsCourse sh.frames ps) ∧
      (s.IsLost rules → ps = [.compiling] ∧ ∃ e, r = .error e) ∧
      match r with
      | .ok m =>
        if m.aborted then s'.work.status.phase = .aborted ∧
          s'.work.status.progress = Binary.ofNat m.scan.frames / Binary.ofNat m.frames
        else s'.work.status.phase = .done ∧ s'.work.status.progress = .one
      | .error e => s'.work.status.phase = .failed ∧ s'.work.status.progress = -Binary.one ∧
        s'.work.status.error = some (last.name ++ ": " ++ e.message) := by
  unfold run after at h
  rcases hphases : s.phases rules s.work with ⟨m, w⟩ | ⟨e, w⟩
  · rw [hphases] at h
    obtain ⟨rfl, rfl⟩ := Prod.mk.inj h
    obtain ⟨p, sh, hp, hsh, ps, hend, hshown⟩ := exists_ends_of_phases_eq_ok hfresh hphases
    refine ⟨.compiling :: ps, w.status.phase, hshown.getLast?_eq, ?_, fun p' sh' hp' hsh' => ?_,
      fun hlost => ?_, ?_⟩
    · exact congrArg (List.cons _) hshown.shown
    · cases hp.symm.trans hp'
      cases hsh.symm.trans hsh'
      refine ⟨hend.begins, fun m' hm => ?_⟩
      obtain rfl := Except.ok.inj hm
      refine ⟨hend.frames, ?_⟩
      split
      · next htrue => exact ⟨(hend.aborted htrue).1, (hend.aborted htrue).2.1⟩
      · next hfalse => exact (hend.done (Bool.eq_false_iff.2 hfalse)).1
    · exact (hlost.elim (· p hp) (· sh hsh)).elim
    · dsimp only
      split
      · next htrue => exact ⟨if_pos htrue, (hend.aborted htrue).2.2⟩
      · next hfalse => exact ⟨if_neg hfalse, (hend.done (Bool.eq_false_iff.2 hfalse)).2⟩
  · rw [hphases] at h
    obtain ⟨rfl, rfl⟩ := Prod.mk.inj h
    obtain ⟨ps, hshown, hcourse, hnone⟩ := exists_showed_of_phases_eq_error hfresh hphases
    refine ⟨.compiling :: ps, w.status.phase, hshown.getLast?_eq, ?_,
      fun p sh hp hsh => ⟨hcourse p sh hp hsh, fun m hm => ?_⟩, fun hlost => ?_, rfl, rfl, rfl⟩
    · exact congrArg (Phase.failed :: ·) hshown.shown
    · cases hm
    · exact ⟨congrArg _ (hnone hlost), e, rfl⟩

/-- Of two frames one is done, so the progress is a half. -/
theorem exists_isCourse_of_run_of_interrupted : ∃ m s' p ps,
    (interrupted 2).IsFresh ∧
    (interrupted 2).run ["accessibilityHover(h)", "x=eval(on)"] = (.ok m, s') ∧
    Plan.compile ["accessibilityHover(h)", "x=eval(on)"]
      (interrupted 2).work.tracks.loggedNames = .ok p ∧
    s'.work.status.shown = .aborted :: ps.reverse ∧ p.IsOpening 1 ps ∧
    (∃ course, p.IsCourse 2 course ∧ ps <+: course) ∧
    s'.work.status.progress = Binary.ofNat 1 / Binary.ofNat 2 := by
  have hfresh : (interrupted 2).IsFresh := by simp only [IsFresh, interrupted, Status.initial]
  have hrun : (match (interrupted 2).run ["accessibilityHover(h)", "x=eval(on)"] with
      | (.ok m, _) => decide (m.aborted = true ∧ m.scan.frames = 1 ∧ m.frames = 2)
      | (.error _, _) => false) = true := by decide +kernel
  split at hrun
  · next m s' hs' =>
    obtain ⟨haborted, hdone, htotal⟩ := of_decide_eq_true hrun
    obtain ⟨ps, last, -, hshown, hcourse, hlost, hend⟩ := exists_isCourse_of_run hfresh hs'
    rcases isLost_or _ _ with h | ⟨p, sh, hp, hsh⟩
    · obtain ⟨-, e, he⟩ := hlost h
      cases he
    obtain ⟨hbegun, hopening⟩ := hcourse p sh hp hsh
    obtain ⟨hframes, hopening⟩ := hopening m rfl
    rw [if_pos haborted, hdone] at hopening
    dsimp only at hend
    rw [if_pos haborted, hdone, htotal] at hend
    rw [hend.1] at hshown
    rw [← hframes, htotal] at hbegun
    refine ⟨m, s', p, ps, hfresh, hs', hp, ?_, hopening.2, hbegun, hend.2⟩
    rw [hshown]
    exact congrArg (List.cons _) (List.append_nil _)
  · cases hrun

end Session

end Screenmark
