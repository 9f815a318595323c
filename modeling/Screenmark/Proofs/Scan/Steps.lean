/-
  Screenmark — the steps of a scan.

  What one target changes is said once: a target that is triggered is looked at,
  and then its own track grows, by the observation that is noted in the log.

  * `Scan.leads_observe` : looking at a frame changes nothing but the world, what
    is known of the image, and the status;
  * `Scan.leads_step` : the parts of working out a target, and
    `Scan.leads_step_stepped` : what comes of them.
-/
import Screenmark.Proofs.Scan.Targets
import Screenmark.Proofs.Series.Growth
import Screenmark.Proofs.Workspace
import Screenmark.Scan.Run

namespace Screenmark

namespace Scanning

variable {σ α : Type} {s : ScanState σ} {Q : α → ScanState σ → Prop}
  {E : Failure → ScanState σ → Prop}

@[simp] theorem leads_ofExcept {x : Except Failure α} :
    Leads (ofExcept x) s Q E ↔ (∀ a, x = .ok a → Q a s) ∧ ∀ e, x = .error e → E e s := by
  cases x <;> simp [ofExcept]

@[simp] theorem leads_use {g : σ → α × σ} : Leads (use g) s Q E ↔
    Q (g s.work.world).1 { s with work := { s.work with world := (g s.work.world).2 } } :=
  Iff.rfl

theorem ofExcept_apply {x : Except Failure α} : ofExcept x s =
    match x with
    | .ok a => .ok a s
    | .error e => .error e s := by
  cases x <;> rfl

end Scanning

namespace ScanState

variable {σ : Type} {s s' s'' : ScanState σ}

/-- The state with a phase shown. -/
def entered (s : ScanState σ) (p : Phase) : ScanState σ :=
  { s with work := { s.work with status := s.work.status.enter p } }

@[simp] theorem entered_tracks {p : Phase} : (s.entered p).work.tracks = s.work.tracks := rfl

/-- The state in which the tracks have grown. -/
def withTracks (s : ScanState σ) (ts : Tracks) : ScanState σ :=
  { s with work := { s.work with tracks := ts } }

/-- The state after a target was looked at; it is shown if nothing was seen. -/
def looked (s : ScanState σ) : Option Observation → ScanState σ
  | some _ => s
  | none => s.entered .defaulting

/-- What looking at a frame does not change. -/
structure Kept (s s' : ScanState σ) : Prop where
  tracks : s'.work.tracks = s.work.tracks
  files : s'.work.files = s.work.files
  sheets : s'.sheets = s.sheets
  log : s'.log = s.log
  frame : s'.cursor.frame = s.cursor.frame

theorem Kept.refl (s : ScanState σ) : s.Kept s := ⟨rfl, rfl, rfl, rfl, rfl⟩

theorem Kept.trans (h : s.Kept s') (h' : s'.Kept s'') : s.Kept s'' where
  tracks := h'.tracks.trans h.tracks
  files := h'.files.trans h.files
  sheets := h'.sheets.trans h.sheets
  log := h'.log.trans h.log
  frame := h'.frame.trans h.frame

end ScanState

theorem Scanning.enter_apply {σ : Type} {s : ScanState σ} {p : Phase} :
    Scanning.onWork (Work.enter p) s = .ok () (s.entered p) := rfl

/-! ## Looking at a frame -/

namespace Target

variable {t : Target} {ts : Tracks} {e : Failure} {frame width height : Nat}

theorem error_of_map {α β : Type} {g : α → β} {x : Except Failure α} (h : x.map g = .error e) :
    x = .error e := by
  cases x with
  | error e' => exact congrArg _ (Except.error.inj h)
  | ok a => cases h

/-- There is no region only where a dependency is not resolved. -/
theorem isConsistency_of_anchor {n : String} (h : t.anchor ts frame n = .error e) :
    e.isConsistency = false := by
  unfold anchor at h
  split at h
  · cases h
    rfl
  · split at h <;> cases h
    rfl

theorem isConsistency_of_wholeRegion (h : t.wholeRegion ts frame width height = .error e) :
    e.isConsistency = false := by
  unfold wholeRegion at h
  split at h
  · cases h
  · split at h
    · cases h
    · exact isConsistency_of_anchor (error_of_map h)
    · exact isConsistency_of_anchor (error_of_map h)
    · split at h
      · next ha =>
        cases h
        exact isConsistency_of_anchor ha
      · exact isConsistency_of_anchor (error_of_map h)
    · cases h

theorem isConsistency_of_region (h : t.region ts frame width height = .error e) :
    e.isConsistency = false :=
  isConsistency_of_wholeRegion (error_of_map h)

end Target

/-- What is neither a snapshot nor a text is a template. -/
theorem Stage.eq_template {stage : Stage} (hs : stage ≠ .accessibility)
    (hno : ∀ characters, stage ≠ .text characters) : stage = .template := by
  cases stage with
  | template => rfl
  | text characters => exact absurd rfl (hno characters)
  | accessibility => exact absurd rfl hs

namespace Scan

variable {σ : Type} {sc : Scan σ} {s : ScanState σ} {t : Target} {f : Footage σ}

open Scanning ScanState

theorem leads_seek : Leads (seek f) s (fun _ s' => s.Kept s') fun _ _ => False := by
  simp only [seek, leads_bind, leads_get]
  split
  · simp only [leads_bind, leads_modify, leads_use]
    exact ⟨rfl, rfl, rfl, rfl, rfl⟩
  · exact .refl s

theorem leads_decode : Leads (decode f) s (fun _ s' => s.Kept s') fun _ _ => False := by
  simp only [decode, leads_bind, leads_get]
  refine leads_seek.mono (fun b s₁ hs => ?_) fun _ _ h => h
  rcases b
  · exact hs.trans ⟨rfl, rfl, rfl, rfl, rfl⟩
  · simp only [if_true, leads_bind, leads_get, leads_use]
    split
    · exact hs.trans ⟨rfl, rfl, rfl, rfl, hs.frame.symm⟩
    · exact hs.trans ⟨rfl, rfl, rfl, rfl, rfl⟩

theorem leads_frameImage : Leads (sc.frameImage t) s (fun _ s' => s.Kept s')
    fun e s' => e = .missing .footage ∧ s.Kept s' := by
  simp only [frameImage, leads_bind, leads_get]
  split
  · exact .refl s
  · exact .refl s
  · exact ⟨rfl, .refl s⟩
  · simp only [leads_bind]
    refine leads_decode.mono (fun x s₁ hs => ?_) fun _ _ h => h.elim
    rcases x with cause | image
    · exact hs.trans ⟨rfl, rfl, rfl, rfl, rfl⟩
    · exact hs.trans ⟨rfl, rfl, rfl, rfl, rfl⟩

/-- What an observation of a target leaves. -/
abbrev Observes (s : ScanState σ) (t : Target) (seen : Option Observation) (s' : ScanState σ) :
    Prop :=
  s.Kept s' ∧ ∀ o ∈ seen, o.sample.kind = t.stage.kind

/-- What a failed observation leaves. -/
abbrev ObservesNothing (s : ScanState σ) (e : Failure) (s' : ScanState σ) : Prop :=
  s.Kept s' ∧ e.isConsistency = false

theorem leads_lookFor {image : GreyImage} {region : Rect} (hs : t.stage = .template) :
    Leads (sc.lookFor t image region) s (Observes s t) (ObservesNothing s) := by
  simp only [lookFor]
  split
  · exact ⟨.refl s, rfl⟩
  · split
    · exact ⟨.refl s, by simp⟩
    · split
      · exact ⟨.refl s, rfl⟩
      · simp only [leads_bind, leads_use, leads_pure]
        exact ⟨⟨rfl, rfl, rfl, rfl, rfl⟩, by simp [hs, Stage.kind, Sample.kind]⟩

theorem leads_readText {characters c : Charset} {image : GreyImage} {region : Rect}
    (hs : t.stage = .text c) :
    Leads (sc.readText t characters image region) s (Observes s t) (ObservesNothing s) := by
  simp only [readText]
  split
  · exact ⟨.refl s, rfl⟩
  · simp only [leads_bind, leads_use, leads_pure]
    exact ⟨⟨rfl, rfl, rfl, rfl, rfl⟩, by simp [hs, Stage.kind, Sample.kind]⟩

theorem leads_takeElement (hs : t.stage = .accessibility) :
    Leads (sc.takeElement t) s (Observes s t) (ObservesNothing s) := by
  simp only [takeElement]
  split
  · exact ⟨.refl s, by simp⟩
  · simp only [leads_bind, leads_get, leads_use, leads_pure]
    refine ⟨⟨rfl, rfl, rfl, rfl, rfl⟩, fun o ho => ?_⟩
    obtain ⟨e, -, rfl⟩ := Option.map_eq_some_iff.1 ho
    rw [hs]
    rfl

theorem leads_observeImage (hs : t.stage ≠ .accessibility) :
    Leads (sc.observeImage t) s (Observes s t) (ObservesNothing s) := by
  simp only [observeImage, leads_bind]
  refine leads_frameImage.mono (fun image s₁ hkept => ?_) fun e s₁ h => ⟨h.2, by rw [h.1]; rfl⟩
  rcases image with _ | image
  · exact ⟨hkept, by simp⟩
  · simp only [leads_bind, leads_get, leads_ofExcept]
    refine ⟨fun region _ => ?_, fun e he => ⟨hkept, Target.isConsistency_of_region he⟩⟩
    rcases region with _ | region
    · exact ⟨hkept, by simp⟩
    · dsimp only
      split
      · next characters hstage =>
        exact (leads_readText hstage).mono (fun _ _ h => ⟨hkept.trans h.1, h.2⟩)
          fun _ _ h => ⟨hkept.trans h.1, h.2⟩
      · next hno =>
        have hstage := Stage.eq_template hs hno
        exact (leads_lookFor hstage).mono (fun _ _ h => ⟨hkept.trans h.1, h.2⟩)
          fun _ _ h => ⟨hkept.trans h.1, h.2⟩

/-- **Looking at a frame gives an observation of the kind of the stage, and changes no
    track.** -/
theorem leads_observe : Leads (sc.observe t) s (Observes s t) (ObservesNothing s) := by
  unfold observe
  split
  · next hs => exact leads_takeElement hs
  · next hs => exact leads_observeImage hs

/-! ## Working out one target -/

variable {i : Nat}

/-- Adds what was seen of a target to its track. -/
def settle (i : Nat) (t : Target) (b : Bool) (seen : Option Observation) : Scanning σ LogEntry :=
  fun s =>
    match s.work.tracks.append t.name (seen.getD (.neutral t.kind)) with
    | .ok ts => .ok ⟨i, b, seen.getD (.neutral t.kind)⟩ ((s.looked seen).withTracks ts)
    | .error e => .error e (s.looked seen)

/-- A target is looked at if it is triggered, and then settled. -/
theorem step_apply : sc.step i t s =
    match t.isTriggered sc.plan.prerequisites s.work.tracks s.cursor.frame with
    | .error e => .error e s
    | .ok false => settle i t false none s
    | .ok true =>
      match sc.observe t (s.entered .computing) with
      | .ok seen s₁ => settle i t true seen s₁
      | .error e s₁ => .error e s₁ := by
  simp only [step, bind_apply, get_apply, ofExcept_apply]
  rcases t.isTriggered sc.plan.prerequisites s.work.tracks s.cursor.frame with e | b
  · rfl
  cases b
  · simp only [Bool.false_eq_true, if_false, pure_apply, bind_apply, get_apply, modify_apply,
      ofExcept_apply, enter_apply, settle, entered_tracks, Option.getD_none]
    cases s.work.tracks.append t.name (.neutral t.kind) <;> rfl
  · simp only [if_true, bind_apply, enter_apply]
    rcases sc.observe t (s.entered .computing) with ⟨seen, s₁⟩ | ⟨e, s₁⟩
    · rcases seen with _ | o
      · simp only [pure_apply, bind_apply, get_apply, modify_apply, ofExcept_apply, enter_apply,
          settle, entered_tracks, Option.getD_none]
        cases s₁.work.tracks.append t.name (.neutral t.kind) <;> rfl
      · simp only [pure_apply, bind_apply, get_apply, modify_apply, ofExcept_apply, settle,
          Option.getD_some]
        cases s₁.work.tracks.append t.name o <;> rfl
    · rfl

theorem leads_settle {b : Bool} {seen : Option Observation} {Q : LogEntry → ScanState σ → Prop}
    {E : Failure → ScanState σ → Prop} : Leads (settle i t b seen) s Q E ↔
      (∀ ts, s.work.tracks.append t.name (seen.getD (.neutral t.kind)) = .ok ts →
        Q ⟨i, b, seen.getD (.neutral t.kind)⟩ ((s.looked seen).withTracks ts)) ∧
      ∀ e, s.work.tracks.append t.name (seen.getD (.neutral t.kind)) = .error e →
        E e (s.looked seen) := by
  unfold Leads settle
  cases s.work.tracks.append t.name (seen.getD (.neutral t.kind)) <;> simp

theorem leads_step {Q : LogEntry → ScanState σ → Prop} {E : Failure → ScanState σ → Prop} :
    Leads (sc.step i t) s Q E ↔
      (∀ e, t.isTriggered sc.plan.prerequisites s.work.tracks s.cursor.frame = .error e → E e s) ∧
      (t.isTriggered sc.plan.prerequisites s.work.tracks s.cursor.frame = .ok false →
        Leads (settle i t false none) s Q E) ∧
      (t.isTriggered sc.plan.prerequisites s.work.tracks s.cursor.frame = .ok true →
        Leads (sc.observe t) (s.entered .computing)
          (fun seen s₁ => Leads (settle i t true seen) s₁ Q E) E) := by
  unfold Leads
  rw [step_apply]
  rcases t.isTriggered sc.plan.prerequisites s.work.tracks s.cursor.frame with e | b
  · simp
  cases b
  · simp
  · rcases sc.observe t (s.entered .computing) with ⟨seen, s₁⟩ | ⟨e, s₁⟩ <;> simp

/-- A target that was worked out got what was seen of it, if it was looked at. -/
theorem step_eq_ok {entry : LogEntry} {s' : ScanState σ} (h : sc.step i t s = .ok entry s') :
    ∃ seen s₁, entry.place = i ∧
      t.isTriggered sc.plan.prerequisites s.work.tracks s.cursor.frame = .ok entry.triggered ∧
      (seen = none ∧ s₁ = s ∨ sc.observe t (s.entered .computing) = .ok seen s₁) ∧
      entry.observed = seen.getD (.neutral t.kind) ∧
      s₁.work.tracks.append t.name entry.observed = .ok s'.work.tracks := by
  have hsettle : ∀ {b : Bool} {seen : Option Observation} {s₁ : ScanState σ},
      settle i t b seen s₁ = .ok entry s' → entry.place = i ∧ entry.triggered = b ∧
        entry.observed = seen.getD (.neutral t.kind) ∧
        s₁.work.tracks.append t.name entry.observed = .ok s'.work.tracks := by
    intro b seen s₁ h
    unfold settle at h
    split at h
    · next ts hts =>
      cases h
      exact ⟨rfl, rfl, rfl, hts⟩
    · cases h
  rw [step_apply] at h
  split at h
  · cases h
  · next hb =>
    obtain ⟨hplace, htriggered, hobserved, happend⟩ := hsettle h
    exact ⟨none, s, hplace, htriggered ▸ hb, .inl ⟨rfl, rfl⟩, hobserved, happend⟩
  · next hb =>
    split at h
    · next seen s₁ hobs =>
      obtain ⟨hplace, htriggered, hobserved, happend⟩ := hsettle h
      exact ⟨seen, s₁, hplace, htriggered ▸ hb, .inr hobs, hobserved, happend⟩
    · cases h

/-- What working out a target does. -/
structure Stepped (sc : Scan σ) (i : Nat) (t : Target) (s : ScanState σ) (entry : LogEntry)
    (s' : ScanState σ) : Prop where
  place : entry.place = i
  triggered : t.isTriggered sc.plan.prerequisites s.work.tracks s.cursor.frame =
    .ok entry.triggered
  kind : entry.observed.sample.kind = t.kind
  append : s.work.tracks.append t.name entry.observed = .ok s'.work.tracks
  files : s'.work.files = s.work.files
  sheets : s'.sheets = s.sheets
  log : s'.log = s.log
  frame : s'.cursor.frame = s.cursor.frame

theorem isConsistency_of_isTriggered {g : Prerequisites} {ts : Tracks} {frame : Nat} {e : Failure}
    (h : t.isTriggered g ts frame = .error e) : e.isConsistency = false := by
  unfold Target.isTriggered at h
  split at h
  · cases h
  · dsimp only at h
    generalize (g.predecessors t.name).logged ++ (g.predecessors t.name).new = ns at h
    induction ns with
    | nil => cases h
    | cons n ns ih =>
      rw [Target.allTrue] at h
      split at h
      · exact ih h
      · cases h
      · cases h
        rfl

theorem leads_settle_stepped {b : Bool} {seen : Option Observation} {s₁ : ScanState σ} {rows : Nat}
    (hb : t.isTriggered sc.plan.prerequisites s.work.tracks s.cursor.frame = .ok b)
    (hk : t.kind = t.stage.kind) (hrows : s.work.tracks.HasRows t.name t.kind rows)
    (hseen : Observes s t seen s₁) :
    Leads (settle i t b seen) s₁ (sc.Stepped i t s) (ObservesNothing s) := by
  have hkind : (seen.getD (.neutral t.kind)).sample.kind = t.kind := by
    rcases seen with _ | o
    · exact Sample.kind_neutral _
    · exact (hseen.2 o rfl).trans hk.symm
  have hkept : s.Kept (s₁.looked seen) := by
    rcases seen with _ | o
    · exact hseen.1.trans ⟨rfl, rfl, rfl, rfl, rfl⟩
    · exact hseen.1
  rw [leads_settle, hseen.1.tracks]
  obtain ⟨us, hus, -⟩ := hrows.exists_append hkind
  rw [hus]
  refine ⟨fun ts hts => ?_, fun e he => nomatch he⟩
  obtain rfl := Except.ok.inj hts
  exact ⟨rfl, hb, hkind, hus, hkept.files, hkept.sheets, hkept.log, hkept.frame⟩

/-- **A target whose track has rows of its kind is worked out, and gets one row more;
    or it cannot be looked at.** -/
theorem leads_step_stepped {rows : Nat} (hk : t.kind = t.stage.kind)
    (hrows : s.work.tracks.HasRows t.name t.kind rows) :
    Leads (sc.step i t) s (sc.Stepped i t s) (ObservesNothing s) := by
  refine leads_step.2 ⟨fun e he => ⟨.refl s, isConsistency_of_isTriggered he⟩, fun hb => ?_,
    fun hb => ?_⟩
  · exact leads_settle_stepped hb hk hrows ⟨.refl s, by simp⟩
  · have hentered : s.Kept (s.entered .computing) := ⟨rfl, rfl, rfl, rfl, rfl⟩
    refine leads_observe.mono (fun seen s₁ h => ?_) fun e s₁ h => ⟨hentered.trans h.1, h.2⟩
    exact leads_settle_stepped hb hk hrows ⟨hentered.trans h.1, h.2⟩

end Scan

end Screenmark
