/-
  Screenmark — the same scan in another world.

  A scan knows its world only by the answers of its instruments. So it does the same in a
  world that holds more, as long as the instruments answer as before: a function `φ` takes
  away what was added, such as notes or a sign to stop, and a scan is *over* another one
  (`Scan.IsOver`) if its instruments are those of the other one, seen through `φ`. Only
  what they answer when they are asked whether to stop may differ.

  * `IsOver.prepare`, `IsOver.frame` : both scans do the same before and within a frame;
  * `IsOver.pass` : and in a whole pass, if both are told the same about stopping;
  * `Reaches.through` : so they come to the same frames in the same states.
-/
import Screenmark.Proofs.Scan.Stop

namespace Screenmark

/-! ## Steps in other states -/

section

variable {τ τ' α β : Type} {φ : τ' → τ}

/-- What comes of a step, in other states. -/
def mapState (φ : τ' → τ) : EStateM.Result Failure τ' α → EStateM.Result Failure τ α
  | .ok a s => .ok a (φ s)
  | .error e s => .error e (φ s)

/-- A step does, in the states that `φ` gives, what another one does. -/
def Forgets (φ : τ' → τ) (m' : EStateM Failure τ' α) (m : EStateM Failure τ α) : Prop :=
  ∀ s, m (φ s) = mapState φ (m' s)

namespace Forgets

variable {m' : EStateM Failure τ' α} {m : EStateM Failure τ α}
  {f' : α → EStateM Failure τ' β} {f : α → EStateM Failure τ β}

theorem pure (a : α) : Forgets φ (Pure.pure a) (Pure.pure a) := fun _ => rfl

theorem throw (e : Failure) :
    Forgets φ (MonadExcept.throw e : EStateM Failure τ' α) (MonadExcept.throw e) := fun _ => rfl

theorem bind (h : Forgets φ m' m) (hf : ∀ a, Forgets φ (f' a) (f a)) :
    Forgets φ (m' >>= f') (m >>= f) := fun s => by
  rw [bind_apply, bind_apply, h s]
  rcases m' s with ⟨a, s'⟩ | ⟨e, s'⟩
  · exact hf a s'
  · rfl

theorem get_bind {f' : τ' → EStateM Failure τ' β} {f : τ → EStateM Failure τ β}
    (h : ∀ s, Forgets φ (f' s) (f (φ s))) : Forgets φ (get >>= f') (get >>= f) := fun s => by
  rw [bind_apply, bind_apply, get_apply, get_apply]
  exact h s s

theorem modify {g' : τ' → τ'} {g : τ → τ} (h : ∀ s, g (φ s) = φ (g' s)) :
    Forgets φ (modify g' : EStateM Failure τ' Unit) (modify g) := fun s => by
  rw [modify_apply, modify_apply, h s]
  rfl

theorem mapM {ι : Type} {f' : ι → EStateM Failure τ' α} {f : ι → EStateM Failure τ α}
    (h : ∀ i, Forgets φ (f' i) (f i)) : ∀ is : List ι, Forgets φ (is.mapM f') (is.mapM f)
  | [] => .pure []
  | i :: is => by
    rw [List.mapM_cons, List.mapM_cons]
    exact (h i).bind fun a => (mapM h is).bind fun as => .pure _

theorem forM {ι : Type} {f' : ι → EStateM Failure τ' PUnit} {f : ι → EStateM Failure τ PUnit}
    (h : ∀ i, Forgets φ (f' i) (f i)) : ∀ is : List ι, Forgets φ (is.forM f') (is.forM f)
  | [] => .pure _
  | i :: is => (h i).bind fun _ => forM h is

end Forgets

end

variable {σ τ α : Type} {φ : τ → σ}

/-! ## Instruments -/

/-- The answer of an instrument, and what is left of its world. -/
def Through (φ : τ → σ) (x : α × τ) : α × σ := (x.1, φ x.2)

/-- An instrument answers what another one does, and does to its world what that one does. -/
def AnswersAs (φ : τ → σ) (g' : τ → α × τ) (g : σ → α × σ) : Prop := ∀ v, g (φ v) = Through φ (g' v)

/-- Footage that delivers the frames of other footage. -/
structure Footage.IsOver (φ : τ → σ) (f' : Footage τ) (f : Footage σ) : Prop where
  seek : ∀ n, AnswersAs φ (f'.seek n) (f.seek n)
  read : ∀ files, AnswersAs φ (f'.read files) (f.read files)

/-- Instruments that answer as others do about frames. -/
structure Instruments.IsOver (φ : τ → σ) (ins' : Instruments τ) (ins : Instruments σ) : Prop where
  footage : Option.Rel (Footage.IsOver φ) ins'.footage ins.footage
  matcher : Option.Rel (fun find' find => ∀ image template,
    AnswersAs φ (find' image template) (find image template)) ins'.matcher ins.matcher
  recogniser : Option.Rel (fun recognise' recognise => ∀ image characters,
    AnswersAs φ (recognise' image characters) (recognise image characters))
    ins'.recogniser ins.recogniser
  snapshots : Option.Rel (fun snapshot' snapshot => ∀ frame,
    AnswersAs φ (snapshot' frame) (snapshot frame)) ins'.snapshots ins.snapshots
  poll : ∀ v, (ins.poll (φ v)).2 = φ (ins'.poll v).2

/-- A scan that looks for the same as another one, with instruments that answer alike. -/
structure Scan.IsOver (φ : τ → σ) (sc' : Scan τ) (sc : Scan σ) : Prop where
  plan : sc'.plan = sc.plan
  settings : sc'.settings = sc.settings
  templates : sc'.templates = sc.templates
  instruments : sc'.instruments.IsOver φ sc.instruments

/-- The workspace, with what is left of its world. -/
def Workspace.through (φ : τ → σ) (w : Workspace τ) : Workspace σ :=
  ⟨φ w.world, w.files, w.tracks, w.status⟩

/-- The state, with what is left of its world. -/
def ScanState.through (φ : τ → σ) (s : ScanState τ) : ScanState σ :=
  ⟨s.work.through φ, s.cursor, s.image, s.sought, s.sheets, s.report, s.log⟩

namespace Scanning

theorem forgets_ofExcept (x : Except Failure α) :
    Forgets (ScanState.through φ) (ofExcept x) (ofExcept x) := by
  cases x
  · exact .throw _
  · exact .pure _

theorem forgets_use {g' : τ → α × τ} {g : σ → α × σ} (h : AnswersAs φ g' g) :
    Forgets (ScanState.through φ) (use g') (use g) := fun s => by
  unfold use
  rw [show (s.through φ).work.world = φ s.work.world from rfl, h]
  rfl

theorem forgets_onWork {m' : Work τ α} {m : Work σ α} (h : Forgets (Workspace.through φ) m' m) :
    Forgets (ScanState.through φ) (onWork m') (onWork m) := fun s => by
  unfold onWork
  rw [show (s.through φ).work = s.work.through φ from rfl, h s.work]
  cases m' s.work <;> rfl

theorem forgets_count (g : ScanReport → ScanReport) :
    Forgets (ScanState.through φ) (count g) (count g) := .modify fun _ => rfl

end Scanning

namespace Scan

open Scanning

variable {sc' : Scan τ} {sc : Scan σ} {t : Target} {total : Nat}

/-! ## Frames -/

theorem forgets_seek {f' : Footage τ} {f : Footage σ} (h : f'.IsOver φ f) :
    Forgets (ScanState.through φ) (seek f') (seek f) := by
  refine .get_bind fun s => ?_
  rw [show (s.through φ).cursor = s.cursor from rfl]
  dsimp only
  split
  · exact .bind (.modify fun _ => rfl) fun _ => (forgets_count _).bind fun _ =>
      forgets_use (h.seek _)
  · exact .pure true

theorem forgets_decode {f' : Footage τ} {f : Footage σ} (h : f'.IsOver φ f) :
    Forgets (ScanState.through φ) (decode f') (decode f) := by
  refine .get_bind fun s => (forgets_seek h).bind fun b => ?_
  rw [show (s.through φ).cursor = s.cursor from rfl]
  rcases b
  · exact .bind (.modify fun _ => rfl) fun _ => .pure _
  · refine .get_bind fun s => (forgets_use (h.read s.work.files)).bind fun image => ?_
    rcases image with _ | image
    · exact .bind (.modify fun _ => rfl) fun _ => .pure _
    · exact .bind (.modify fun _ => rfl) fun _ => (forgets_count _).bind fun _ => .pure _

namespace IsOver

theorem targets (h : sc'.IsOver φ sc) : sc'.targets = sc.targets := congrArg Plan.targets h.plan

theorem ordered (h : sc'.IsOver φ sc) : sc'.ordered = sc.ordered := by
  rw [Scan.ordered, Scan.ordered, h.targets, h.plan]

theorem frameImage (h : sc'.IsOver φ sc) :
    Forgets (ScanState.through φ) (sc'.frameImage t) (sc.frameImage t) := by
  refine .get_bind fun s => ?_
  rw [show (s.through φ).image = s.image from rfl]
  have hfootage := h.instruments.footage
  generalize sc'.instruments.footage = f', sc.instruments.footage = f at hfootage
  rcases s.image with _ | _ | image
  · rcases hfootage with hf | _
    · refine (forgets_decode hf).bind fun x => ?_
      rcases x with cause | image
      · refine .bind (forgets_onWork (.modify fun _ => rfl)) fun _ => ?_
        exact (forgets_count _).bind fun _ => .bind (.modify fun _ => rfl) fun _ => .pure _
      · exact .bind (.modify fun _ => rfl) fun _ => .pure _
    · exact .throw _
  · exact .pure _
  · exact .pure _

theorem lookFor (h : sc'.IsOver φ sc) (image : GreyImage) (region : Rect) :
    Forgets (ScanState.through φ) (sc'.lookFor t image region) (sc.lookFor t image region) := by
  unfold Scan.lookFor
  have hmatcher := h.instruments.matcher
  generalize sc'.instruments.matcher = m', sc.instruments.matcher = m at hmatcher
  rw [h.templates]
  rcases sc.templates.find? t.name with _ | template
  · exact .throw _
  · dsimp only
    split
    · exact .pure _
    · rcases hmatcher with hfind | _
      · exact (forgets_use (hfind _ _)).bind fun _ => .pure _
      · exact .throw _

theorem readText (h : sc'.IsOver φ sc) (characters : Charset) (image : GreyImage)
    (region : Rect) : Forgets (ScanState.through φ) (sc'.readText t characters image region)
      (sc.readText t characters image region) := by
  unfold Scan.readText
  have hrecogniser := h.instruments.recogniser
  generalize sc'.instruments.recogniser = r', sc.instruments.recogniser = r at hrecogniser
  rcases hrecogniser with hread | _
  · dsimp only
    rw [prepared, prepared, h.settings]
    exact (forgets_use (hread _ _)).bind fun _ => .pure _
  · exact .throw _

theorem takeElement (h : sc'.IsOver φ sc) :
    Forgets (ScanState.through φ) (sc'.takeElement t) (sc.takeElement t) := by
  unfold Scan.takeElement
  have hsnapshots := h.instruments.snapshots
  generalize sc'.instruments.snapshots = x', sc.instruments.snapshots = x at hsnapshots
  rcases hsnapshots with hsnapshot | _
  · exact .get_bind fun s => (forgets_use (hsnapshot _)).bind fun _ => .pure _
  · exact .pure _

theorem observe (h : sc'.IsOver φ sc) :
    Forgets (ScanState.through φ) (sc'.observe t) (sc.observe t) := by
  unfold Scan.observe
  split
  · exact h.takeElement
  · refine h.frameImage.bind fun image => ?_
    rcases image with _ | image
    · exact .pure _
    · refine .get_bind fun s => (forgets_ofExcept _).bind fun region => ?_
      rcases region with _ | region
      · exact .pure _
      · dsimp only
        split
        · exact h.readText _ _ _
        · exact h.lookFor _ _

end IsOver

theorem forgets_settle (i : Nat) (b : Bool) (seen : Option Observation) :
    Forgets (ScanState.through φ) (settle i t b seen) (settle i t b seen) := fun s => by
  unfold settle
  rw [show (s.through φ).work.tracks = s.work.tracks from rfl]
  rcases s.work.tracks.append t.name (seen.getD (.neutral t.kind)) with e | ts
  · cases seen <;> rfl
  · cases seen <;> rfl

namespace IsOver

theorem step (h : sc'.IsOver φ sc) (i : Nat) (t : Target) :
    Forgets (ScanState.through φ) (sc'.step i t) (sc.step i t) := fun s => by
  rw [step_apply, step_apply, show (s.through φ).work.tracks = s.work.tracks from rfl,
    show (s.through φ).cursor = s.cursor from rfl, h.plan]
  rcases t.isTriggered sc.plan.prerequisites s.work.tracks s.cursor.frame with e | b
  · rfl
  rcases b
  · exact forgets_settle i false none s
  · dsimp only
    rw [show (s.through φ).entered .computing = (s.entered .computing).through φ from rfl,
      h.observe (s.entered .computing)]
    rcases sc'.observe t (s.entered .computing) with ⟨seen, s₁⟩ | ⟨e, s₁⟩
    · exact forgets_settle i true seen s₁
    · rfl

/-- **A frame is worked out alike.** -/
theorem frame (h : sc'.IsOver φ sc) :
    Forgets (ScanState.through φ) sc'.frame sc.frame := fun s => by
  have hsteps : Forgets (ScanState.through φ) (sc.ordered.mapM fun p => sc'.step p.1 p.2)
      (sc.ordered.mapM fun p => sc.step p.1 p.2) :=
    Forgets.mapM (fun p => h.step p.1 p.2) sc.ordered
  rw [frame_apply, frame_apply, show (s.through φ).opened = s.opened.through φ from rfl,
    hsteps s.opened, h.ordered]
  cases (sc.ordered.mapM fun p => sc'.step p.1 p.2) s.opened <;> rfl

theorem writeSheets (h : sc'.IsOver φ sc) (r : FrameRecord) :
    Forgets (ScanState.through φ) (sc'.writeSheets r) (sc.writeSheets r) := by
  refine .get_bind fun s => ?_
  rw [show (s.through φ).sheets = s.sheets from rfl, h.targets]
  rcases s.sheets with _ | sheets
  · exact .pure _
  · exact (forgets_ofExcept _).bind fun _ => .modify fun _ => rfl

theorem goOn (h : sc'.IsOver φ sc) (r : FrameRecord) :
    Forgets (ScanState.through φ) (sc'.goOn total r) (sc.goOn total r) := fun s => by
  rw [goOn_apply, goOn_apply, show (s.through φ).work.tracks = s.work.tracks from rfl,
    show (s.through φ).cursor = s.cursor from rfl, h.targets]
  cases s.work.tracks.checkInStep (sc.targets.map (·.name)) (s.cursor.frame + 1) <;> rfl

/-! ## Passes -/

variable {s s' s₀ : ScanState τ} {k : Nat}

/-- **A pass is the same in both worlds**, if both scans are told the same about stopping. -/
theorem pass (h : sc'.IsOver φ sc) (htold : sc'.IsTold s ↔ sc.IsTold (s.through φ)) :
    sc.pass total (s.through φ) = mapState (ScanState.through φ) (sc'.pass total s) := by
  have hpolled : sc.polled (s.through φ) = (sc'.polled s).through φ :=
    congrArg (fun v => (⟨⟨v, s.work.files, s.work.tracks, s.work.status⟩, s.cursor, s.image,
      s.sought, s.sheets, s.report, s.log⟩ : ScanState σ)) (h.instruments.poll s.work.world)
  by_cases hstop : sc'.IsTold s
  · rw [pass_eq_none_iff.2 ⟨hstop, rfl⟩, pass_eq_none_iff.2 ⟨htold.1 hstop, rfl⟩, hpolled]
    rfl
  · rw [pass_of_not_isTold hstop, pass_of_not_isTold (mt htold.2 hstop), hpolled]
    exact (h.frame.bind fun r => (h.writeSheets r).bind fun _ => (h.goOn r).bind fun _ =>
      .pure _) (sc'.polled s)

/-- A scan comes to the same states as the one that it is over, if that one is never told to
    stop. -/
theorem reaches (h : sc'.IsOver φ sc)
    (hgoes : ∀ j u, sc.Reaches total (s₀.through φ) j u → ¬sc.IsTold u)
    (hs : sc'.Reaches total s₀ k s) : sc.Reaches total (s₀.through φ) k (s.through φ) := by
  induction hs with
  | start => exact .start
  | @next k s s' r hs hpass ih =>
    have hon : ¬sc'.IsTold s := fun htold => by
      rw [pass_eq_none_iff.2 ⟨htold, rfl⟩] at hpass
      cases hpass
    have hsame : sc.pass total (s.through φ) = _ :=
      h.pass (iff_of_false hon (hgoes k _ ih))
    rw [hpass] at hsame
    exact ih.next hsame

/-! ## Whole scans -/

variable {o : Option Outlet} {w : Workspace τ}

/-- An instrument is missing in both worlds or in none. -/
theorem check (h : sc'.IsOver φ sc) : sc'.check = sc.check := by
  have hnone : ∀ {α β : Type} {r : α → β → Prop} {x : Option α} {y : Option β},
      Option.Rel r x y → x.isNone = y.isNone := fun hr => by cases hr <;> rfl
  unfold Scan.check
  rw [hnone h.instruments.footage, hnone h.instruments.matcher, hnone h.instruments.recogniser,
    hnone h.instruments.snapshots, usesRank, usesRank, usesRank, unloaded?, h.targets, h.templates]
  rfl

end IsOver

section

variable {ψ : Workspace τ → Workspace σ}

theorem forgets_openSheet (hfiles : ∀ w, (ψ w).files = w.files)
    (hset : ∀ w files, ψ { w with files := files } = { ψ w with files := files })
    (sheet : Sheet) : Forgets ψ (Work.openSheet sheet) (Work.openSheet sheet) := by
  refine .get_bind fun w => ?_
  rw [hfiles]
  dsimp only
  rcases (Outlet.openSheet w.files sheet).map (·, ()) with e | ⟨files, _⟩
  · exact .throw e
  · exact .bind (.modify fun w => (hset w files).symm) fun _ => .pure ()

/-- Sheets are opened alike in workspaces that have the same files. -/
theorem forgets_openSheets (hfiles : ∀ w, (ψ w).files = w.files)
    (hset : ∀ w files, ψ { w with files := files } = { ψ w with files := files })
    (htargets : sc'.targets = sc.targets) (o : Option Outlet) :
    Forgets ψ (sc'.openSheets o) (sc.openSheets o) := by
  unfold openSheets
  rw [htargets]
  rcases o with _ | o
  · exact .pure none
  · dsimp only
    split
    · refine .bind (.forM (forgets_openSheet hfiles hset) _) fun _ => ?_
      exact .bind (forgets_openSheet hfiles hset _) fun _ => .pure _
    · exact .pure none

end

namespace IsOver

variable {o : Option Outlet} {w : Workspace τ}

/-- **The same is done before the first frame.** -/
theorem prepare (h : sc'.IsOver φ sc) :
    Forgets (Workspace.through φ) (sc'.prepare o) (sc.prepare o) := by
  unfold Scan.prepare
  rw [h.check]
  refine .bind ?_ fun _ => .bind (.modify fun w => ?_) fun _ => ?_
  · cases sc.check
    · exact .throw _
    · exact .pure ()
  · rw [h.targets, h.templates]
    rfl
  · exact forgets_openSheets (ψ := Workspace.through φ) (fun _ => rfl) (fun _ _ => rfl) h.targets o

/-- A scan comes to the same states as the one that it is over. -/
theorem meets {s : ScanState τ} {k : Nat} (h : sc'.IsOver φ sc)
    (hgoes : ∀ j u, sc.Meets total o (w.through φ) j u → ¬sc.IsTold u)
    (hs : sc'.Meets total o w k s) : sc.Meets total o (w.through φ) k (s.through φ) := by
  obtain ⟨hne, sheets, w₁, hprep, hreaches⟩ := hs
  rw [h.targets] at hne
  have hsame := h.prepare (o := o) w
  rw [hprep] at hsame
  refine ⟨hne, sheets, w₁.through φ, hsame, ?_⟩
  exact h.reaches (fun j u hu => hgoes j u ⟨hne, sheets, w₁.through φ, hsame, hu⟩) hreaches

end IsOver

end Scan

end Screenmark
