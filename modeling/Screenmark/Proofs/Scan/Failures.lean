/-
  Screenmark — what can go wrong in a scan.

  A scan checks that nothing is missing before it changes anything, so a failure that says
  so leaves the workspace as it was. The same causes stand again in the middle of a frame,
  where instruments and templates are used; behind the check none of them is met
  (`leads_observe_equipped`).

  Two things are left for a scan of a plan that was made for the tracks at hand: a sheet that
  cannot be opened, and an anchor without a template size. That a gate has no track is no such
  thing, since a gate is a target or was logged (`Faces.exists_track`).
-/
import Screenmark.Proofs.Scan.Sheets
import Screenmark.Proofs.Scan.View
import Screenmark.Proofs.Series.Alignment

namespace Screenmark

/-- Whether a failure says that an instrument or the image of a template is missing. -/
def Failure.isMissing : Failure → Bool
  | .missing _ | .template _ _ => true
  | _ => false

/-! ## Anchors -/

namespace Target

variable {t : Target} {ts : Tracks} {g : Prerequisites} {frame width height : Nat} {n : String}
  {ns : List String} {e : Failure}

/-- The templates beside which a target is looked for. -/
def anchors (t : Target) : List String :=
  match t.test with
  | some .below | some .rightOf | some .between => t.gates
  | _ => []

theorem mem_gates_of_mem_anchors (h : n ∈ t.anchors) : n ∈ t.gates := by
  unfold anchors at h
  split at h
  · exact h
  · exact h
  · exact h
  · cases h

theorem mem_anchors {r : Rule} (hr : t.rule = some r)
    (htest : r.test = some .below ∨ r.test = some .rightOf ∨ r.test = some .between)
    (hn : n ∈ r.dependencies) : n ∈ t.anchors := by
  have hgates : t.gates = r.dependencies := by
    rw [gates, hr, Option.map_some, Option.getD_some]
    refine Rule.namedDependencies_of_ne fun hin => ?_
    rcases htest with h | h | h <;> rw [hin] at h <;> cases h
  have hself : t.test = r.test := by
    rw [test, hr]
    rfl
  unfold anchors
  rw [hself, hgates]
  rcases htest with h | h | h <;> rw [h] <;> exact hn

/-- An anchor of the target has no template size. -/
structure Lacks (t : Target) (ts : Tracks) (n : String) : Prop where
  anchor : n ∈ t.anchors
  template : ∀ track, ts.find? n = some track → track.template = none

theorem eq_of_anchor (h : t.anchor ts frame n = .error e) :
    e = t.unresolved n ∧ ∀ track, ts.find? n = some track → track.template = none := by
  unfold anchor at h
  split at h
  · next hnone =>
    cases h
    exact ⟨rfl, fun track htrack => by rw [hnone] at htrack; cases htrack⟩
  · next track htrack =>
    split at h
    · next hno =>
      cases h
      exact ⟨rfl, fun u hu => Option.some.inj (htrack.symm.trans hu) ▸ hno⟩
    · cases h

/-- A target has no region only where an anchor has no template size. -/
theorem exists_lacks_of_region (h : t.region ts frame width height = .error e) :
    ∃ n, t.Lacks ts n ∧ e = t.unresolved n := by
  have hanchor : ∀ {r n}, t.rule = some r → r.test = some .below ∨ r.test = some .rightOf ∨
      r.test = some .between → n ∈ r.dependencies → t.anchor ts frame n = .error e →
      ∃ n, t.Lacks ts n ∧ e = t.unresolved n := fun hr htest hn h =>
    ⟨_, ⟨mem_anchors hr htest hn, (eq_of_anchor h).2⟩, (eq_of_anchor h).1⟩
  have hwhole := error_of_map h
  unfold wholeRegion at hwhole
  split at hwhole
  · cases hwhole
  · next r hr =>
    split at hwhole
    · cases hwhole
    · next htest hdep =>
      exact hanchor hr (.inl htest) (by simp [hdep]) (error_of_map hwhole)
    · next htest hdep =>
      exact hanchor hr (.inr (.inl htest)) (by simp [hdep]) (error_of_map hwhole)
    · next htest hdep =>
      split at hwhole
      · next hfirst =>
        cases hwhole
        exact hanchor hr (.inr (.inr htest)) (by simp [hdep]) hfirst
      · exact hanchor hr (.inr (.inr htest)) (by simp [hdep]) (error_of_map hwhole)
    · cases hwhole

/-! ## Gates -/

theorem exists_of_allTrue_error (h : t.allTrue ts frame ns = .error e) :
    ∃ n ∈ ns, ts.find? n = none ∧ e = t.unresolved n := by
  induction ns with
  | nil => cases h
  | cons n ns ih =>
    rw [allTrue] at h
    split at h
    · obtain ⟨m, hm, hrest⟩ := ih h
      exact ⟨m, List.mem_cons_of_mem n hm, hrest⟩
    · cases h
    · next hnone =>
      cases h
      rw [Tracks.isTrueAt, Option.map_eq_none_iff, Tracks.series?, Option.map_eq_none_iff] at hnone
      exact ⟨n, List.mem_cons_self, hnone, rfl⟩

/-- It cannot be told whether a target is worked out only if a name that it waits for has no
    track. -/
theorem exists_of_isTriggered_error (h : t.isTriggered g ts frame = .error e) :
    ∃ n ∈ (g.predecessors t.name).logged ++ (g.predecessors t.name).new,
      ts.find? n = none ∧ e = t.unresolved n := by
  unfold isTriggered at h
  split at h
  · cases h
  · exact exists_of_allTrue_error h

end Target

/-! ## Failures of the parts -/

theorem eq_error_of_bind {α β : Type} {x : Except Failure α} {g : α → Except Failure β}
    {e : Failure} (h : x >>= g = .error e) : x = .error e ∨ ∃ a, x = .ok a ∧ g a = .error e := by
  rcases x with e' | a
  · exact .inl (congrArg Except.error (Except.error.inj h))
  · exact .inr ⟨a, rfl, h⟩

theorem Sheet.isConsistency_of_writeFrame {x : Sheet} {frame : Nat} {row : List Observation}
    {e : Failure} (h : x.writeFrame frame row = .error e) : e.isConsistency = true := by
  unfold writeFrame write at h
  split at h
  · cases h
  · cases h
    rfl

theorem Sheets.isConsistency_of_writeOwn {frame : Nat} {e : Failure} :
    ∀ {own : List Sheet} {row : List Observation}, writeOwn frame own row = .error e →
      e.isConsistency = true := by
  intro own
  induction own with
  | nil =>
    intro row h
    cases h
  | cons x own ih =>
    rintro (_ | ⟨o, row⟩) h
    · cases h
    · rcases eq_error_of_bind h with hfirst | ⟨_, -, hrest⟩
      · exact Sheet.isConsistency_of_writeFrame hfirst
      · rcases eq_error_of_bind hrest with hown | ⟨_, -, hdone⟩
        · exact ih hown
        · cases hdone

theorem Sheets.isConsistency_of_write {xs : Sheets} {frame : Nat} {row : List Observation}
    {e : Failure} (h : xs.write frame row = .error e) : e.isConsistency = true := by
  rcases eq_error_of_bind h with hcombined | ⟨_, -, hrest⟩
  · exact Sheet.isConsistency_of_writeFrame hcombined
  · rcases eq_error_of_bind hrest with hown | ⟨_, -, hdone⟩
    · exact isConsistency_of_writeOwn hown
    · cases hdone

namespace Tracks

variable {ts : Tracks} {n : String} {o : Observation} {e : Failure}

theorem isConsistency_of_append (h : ts.append n o = .error e) : e.isConsistency = true := by
  rcases append_eq_error_iff.1 h with ⟨-, rfl⟩ | ⟨t, -, -, rfl⟩
  · rfl
  · rfl

theorem isConsistency_of_checkInStep {ns : List String} {k : Nat}
    (h : ts.checkInStep ns k = .error e) : e.isConsistency = true := by
  unfold checkInStep at h
  split at h
  · cases h
    rfl
  · cases h

end Tracks

namespace Scan

open Scanning ScanState

variable {σ : Type} {sc : Scan σ} {s s' s₀ : ScanState σ} {t : Target} {i total : Nat}
  {e : Failure} {logged : List String} {ts₀ : Tracks}

/-! ## Targets that have what they need -/

theorem leads_frameImage_equipped (h : sc.instruments.footage ≠ none) :
    Leads (sc.frameImage t) s (fun _ s' => s.Kept s') fun _ _ => False := by
  simp only [frameImage, leads_bind, leads_get]
  split
  · exact .refl s
  · exact .refl s
  · next hnone => exact h hnone
  · simp only [leads_bind]
    refine leads_decode.mono (fun x s₁ hs => ?_) fun _ _ h => h.elim
    rcases x with cause | image
    · exact hs.trans ⟨rfl, rfl, rfl, rfl, rfl⟩
    · exact hs.trans ⟨rfl, rfl, rfl, rfl, rfl⟩

theorem leads_lookFor_equipped {image : GreyImage} {region : Rect} (h : sc.IsEquipped t)
    (ht : t.stage = .template) :
    Leads (sc.lookFor t image region) s (fun _ _ => True) fun _ _ => False := by
  simp only [lookFor]
  split
  · next hnone => exact h.template ht hnone
  · split
    · exact trivial
    · split
      · next hnone => exact h.matcher ht hnone
      · exact trivial

theorem leads_readText_equipped {characters c : Charset} {image : GreyImage} {region : Rect}
    (h : sc.IsEquipped t) (ht : t.stage = .text c) :
    Leads (sc.readText t characters image region) s (fun _ _ => True) fun _ _ => False := by
  simp only [readText]
  split
  · next hnone => exact h.recogniser c ht hnone
  · exact trivial

/-- What stops a target that has what it needs. -/
abbrev Stops (t : Target) (s : ScanState σ) (e : Failure) (s' : ScanState σ) : Prop :=
  s'.work.tracks = s.work.tracks ∧ ∃ n, t.Lacks s.work.tracks n ∧ e = t.unresolved n

/-- **A target that has what it needs is worked out, or an anchor has no template size.** -/
theorem leads_observe_equipped (h : sc.IsEquipped t) :
    Leads (sc.observe t) s (fun _ _ => True) (Stops t s) := by
  unfold observe
  split
  · simp only [takeElement]
    split
    · exact trivial
    · exact trivial
  · next hstage =>
    simp only [observeImage, leads_bind]
    refine (leads_frameImage_equipped (h.footage hstage)).mono (fun image s₁ hkept => ?_)
      fun _ _ h => h.elim
    rcases image with _ | image
    · exact trivial
    · simp only [leads_bind, leads_get, leads_ofExcept]
      refine ⟨fun region _ => ?_, fun e he => ⟨hkept.tracks, ?_⟩⟩
      · rcases region with _ | region
        · exact trivial
        · dsimp only
          split
          · next characters ht =>
            exact (leads_readText_equipped h ht).mono (fun _ _ h => h) fun _ _ h => h.elim
          · next hno =>
            have ht : t.stage = .template := by
              rcases ht : t.stage with _ | characters | _
              · rfl
              · exact absurd ht (hno characters)
              · exact absurd ht hstage
            exact (leads_lookFor_equipped h ht).mono (fun _ _ h => h) fun _ _ h => h.elim
      · rw [← hkept.tracks]
        exact Target.exists_lacks_of_region he

/-- What stops the step of a target: its trigger, an anchor, or tracks that do not fit. -/
theorem step_eq_error (h : sc.IsEquipped t) (hstep : sc.step i t s = .error e s') :
    t.isTriggered sc.plan.prerequisites s.work.tracks s.cursor.frame = .error e ∨
      Stops t s e s' ∨ e.isConsistency = true := by
  have hsettle : ∀ {b : Bool} {seen : Option Observation} {s₁ : ScanState σ},
      settle i t b seen s₁ = .error e s' → e.isConsistency = true := by
    intro b seen s₁ h
    unfold settle at h
    split at h
    · cases h
    · next happend =>
      cases h
      exact Tracks.isConsistency_of_append happend
  rw [step_apply] at hstep
  split at hstep
  · next htriggered =>
    cases hstep
    exact .inl htriggered
  · exact .inr (.inr (hsettle hstep))
  · split at hstep
    · exact .inr (.inr (hsettle hstep))
    · next hobserve =>
      cases hstep
      have hstops : Stops t (s.entered .computing) e s' := (leads_observe_equipped h).error hobserve
      exact .inr (.inl hstops)

/-! ## Failures of a frame -/

/-- A pass fails at one of its targets, or since something does not fit. -/
theorem pass_eq_error (h : sc.pass total s = .error e s') : e.isConsistency = true ∨
    ∃ done i t entries s₁, Stuck sc sc.ordered (sc.polled s).opened e s' done i t entries s₁ := by
  refine Leads.error (leads_pass.2 ?_) h (Q := fun _ _ => True)
    (E := fun e s' => e.isConsistency = true ∨
      ∃ done i t entries s₁, Stuck sc sc.ordered (sc.polled s).opened e s' done i t entries s₁)
  split
  · exact trivial
  · refine .intro (fun r s₁ _ => ?_) fun e s₁ hframe => .inr (frame_eq_error hframe)
    refine .intro (fun _ s₂ _ => ?_) fun e s₂ hwrite => .inl ?_
    · refine .intro (fun _ _ _ => trivial) fun e s₃ hgoOn => .inl ?_
      rw [goOn_apply] at hgoOn
      split at hgoOn
      · cases hgoOn
      · next hcheck =>
        cases hgoOn
        exact Tracks.isConsistency_of_checkInStep hcheck
    · rw [writeSheets_apply] at hwrite
      split at hwrite
      · cases hwrite
      · split at hwrite
        · cases hwrite
        · next hsheets =>
          cases hwrite
          exact Sheets.isConsistency_of_write hsheets

/-- A state of the scan in which it is the turn of a target. -/
def Faces (sc : Scan σ) (total : Nat) (s₀ : ScanState σ) (t : Target) (s : ScanState σ) : Prop :=
  ∃ k s₁ done i rest entries, sc.Reaches total s₀ k s₁ ∧ sc.ordered = done ++ (i, t) :: rest ∧
    Steps sc done (sc.polled s₁).opened entries s

theorem Faces.mem_targets (h : sc.Faces total s₀ t s) : t ∈ sc.targets := by
  obtain ⟨k, s₁, done, i, rest, entries, -, hordered, -⟩ := h
  have hp : (i, t) ∈ sc.ordered := hordered ▸ List.mem_append_right done List.mem_cons_self
  exact mem_targets_of_ordered hp

/-- When it is the turn of a target, each of its gates has a track: it is a target, or it
    was logged. -/
theorem Faces.exists_track (hc : sc.plan.IsCompiled logged) (h₀ : sc.InStep ts₀ 0 s₀)
    (hlogged : ∀ n ∈ logged, ∃ track, ts₀.find? n = some track) (h : sc.Faces total s₀ t s)
    {n : String} (hn : n ∈ t.gates) : ∃ track, s.work.tracks.find? n = some track := by
  have ht := h.mem_targets
  obtain ⟨k, s₁, done, i, rest, entries, hreaches, hordered, hsteps⟩ := h
  have hlock : sc.Lockstep ts₀ k (sc.polled s₁).opened.work.tracks :=
    (hreaches.inStep hc h₀).tracks
  have hsub : done.Sublist sc.ordered := hordered ▸ List.sublist_append_left ..
  have htorn := hlock.torn hc (hlock.within_ordered hc hsteps hsub) fun p hp =>
    mem_targets_of_ordered (hsub.subset hp)
  by_cases hname : ∃ u ∈ sc.targets, u.name = n
  · obtain ⟨u, hu, rfl⟩ := hname
    rcases htorn.rows u hu with ⟨track, htrack, -⟩ | ⟨track, htrack, -⟩
    · exact ⟨track, htrack⟩
    · exact ⟨track, htrack⟩
  · rw [htorn.others n fun u hu heq => hname ⟨u, hu, heq⟩]
    refine hlogged n (Decidable.byContradiction fun hl => hname ?_)
    exact hc.exists_target_of_gate ht hn hl

/-- The trigger of a target never fails. -/
theorem Faces.exists_isTriggered (hc : sc.plan.IsCompiled logged) (h₀ : sc.InStep ts₀ 0 s₀)
    (hlogged : ∀ n ∈ logged, ∃ track, ts₀.find? n = some track) (h : sc.Faces total s₀ t s) :
    ∃ b, t.isTriggered sc.plan.prerequisites s.work.tracks s.cursor.frame = .ok b := by
  rcases htriggered : t.isTriggered sc.plan.prerequisites s.work.tracks s.cursor.frame with e | b
  · obtain ⟨n, hn, hnone, -⟩ := Target.exists_of_isTriggered_error htriggered
    obtain ⟨track, htrack⟩ :=
      h.exists_track hc h₀ hlogged ((hc.mem_gates_iff h.mem_targets).1 hn)
    rw [hnone] at htrack
    cases htrack
  · exact ⟨b, rfl⟩

/-- When it is the turn of a target that has what it needs, an anchor without a template size
    stops it, or something does not fit. -/
theorem Faces.step_eq_error (hc : sc.plan.IsCompiled logged) (h₀ : sc.InStep ts₀ 0 s₀)
    (hlogged : ∀ n ∈ logged, ∃ track, ts₀.find? n = some track) (h : sc.Faces total s₀ t s)
    (hequipped : sc.IsEquipped t) (hstep : sc.step i t s = .error e s') :
    (∃ n ∈ t.anchors, ∃ track, s'.work.tracks.find? n = some track ∧ track.template = none ∧
      e = t.unresolved n) ∨ e.isConsistency = true := by
  rcases Scan.step_eq_error hequipped hstep with htriggered | ⟨htracks, n, hlacks, rfl⟩ | hfit
  · obtain ⟨b, hb⟩ := h.exists_isTriggered hc h₀ hlogged
    rw [htriggered] at hb
    cases hb
  · obtain ⟨track, htrack⟩ :=
      h.exists_track hc h₀ hlogged (Target.mem_gates_of_mem_anchors hlacks.anchor)
    exact .inl ⟨n, hlacks.anchor, track, htracks ▸ htrack, hlacks.template track htrack, rfl⟩
  · exact .inr hfit

/-! ## Failures of a scan -/

variable {o : Option Outlet} {w w' : Workspace σ}

/-- Behind the check, a scan is prepared unless a sheet cannot be opened. -/
theorem leads_prepare_unwritten (hcheck : sc.check = .ok ()) :
    Leads (sc.prepare o) w (fun _ _ => True) fun e _ => e.IsUnwritten := by
  refine leads_prepare_opened.mono (fun _ _ _ => trivial) fun e _ h => ?_
  rcases h.2 with herror | ⟨-, hunwritten, -⟩
  · cases hcheck.symm.trans herror
  · exact hunwritten

/-- Behind the check, a scan fails since a sheet cannot be opened, since something does not
    fit, or at a target. -/
theorem run_eq_error_of_check (hcheck : sc.check = .ok ()) (h : sc.run total o w = .error e w') :
    e.IsUnwritten ∨ e.isConsistency = true ∨ ∃ sheets w₁ t i s s', sc.prepare o w = .ok sheets w₁ ∧
      sc.Faces total (initial w₁ sheets) t s ∧ sc.step i t s = .error e s' ∧ w' = keep s' := by
  rw [run_apply, hcheck] at h
  dsimp only at h
  split at h
  · cases h
  split at h
  · next sheets w₁ hprep =>
    rw [scanFrames_eq (leads_prepare.ok hprep).takes] at h
    split at h
    · cases h
    · next s' hframes =>
      cases h
      obtain ⟨k, s₁, -, -, hreaches, hpass⟩ := frames_eq_error .start hframes
      rcases pass_eq_error hpass with hfit | hstuck
      · exact .inr (.inl hfit)
      · obtain ⟨done, i, t, entries, s, ⟨rest, hordered⟩, hsteps, hstep⟩ := hstuck
        exact .inr (.inr ⟨sheets, w₁, t, i, s, s', hprep,
          ⟨k, s₁, done, i, rest, entries, hreaches, hordered, hsteps⟩, hstep, rfl⟩)
  · next hprep =>
    cases h
    exact .inl ((leads_prepare_unwritten hcheck).error hprep)

/-- Behind the check nothing is missing. -/
theorem isMissing_of_check (hcheck : sc.check = .ok ()) (h : sc.run total o w = .error e w') :
    e.isMissing = false := by
  have hfits : ∀ {e : Failure}, e.isConsistency = true → e.isMissing = false := by
    rintro (_ | _ | _ | _ | _ | _ | _ | _ | _ | _ | _) he <;> first | rfl | cases he
  rcases run_eq_error_of_check hcheck h with ⟨path, fault, rfl⟩ | hfit | hstep
  · rfl
  · exact hfits hfit
  · obtain ⟨_, _, t, i, s, s', -, hfaces, hstep, -⟩ := hstep
    rcases step_eq_error (check_eq_ok_iff.1 hcheck t hfaces.mem_targets) hstep with
      htriggered | ⟨-, n, -, rfl⟩ | hfit
    · obtain ⟨n, -, -, rfl⟩ := Target.exists_of_isTriggered_error htriggered
      rfl
    · rfl
    · exact hfits hfit

/-- **What is missing is found before anything is changed**, and behind the check a scan of a
    plan for the logged names at hand fails only since an anchor of a target has no template
    size, or since a sheet cannot be opened: no trigger fails, and no instrument or template
    that a target uses is missing. -/
theorem failures_of_run (sc : Scan σ) (total : Nat) (o : Option Outlet) (w : Workspace σ) :
    (∀ e w', sc.run total o w = .error e w' → e.isMissing = true → w' = w) ∧
    ∀ sources, Plan.compile sources w.tracks.loggedNames = .ok sc.plan → sc.check = .ok () →
      (∀ e w', sc.run total o w = .error e w' →
        (∃ t ∈ sc.targets, ∃ n ∈ t.anchors, ∃ track, w'.tracks.find? n = some track ∧
          track.template = none ∧ e = t.unresolved n) ∨ e.IsUnwritten) ∧
      ∀ sheets w₁ t s, sc.prepare o w = .ok sheets w₁ → sc.Faces total (initial w₁ sheets) t s →
        (∃ b, t.isTriggered sc.plan.prerequisites s.work.tracks s.cursor.frame = .ok b) ∧
        Leads (sc.observe t) (s.entered .computing) (fun _ _ => True)
          fun e _ => e.isMissing = false := by
  refine ⟨fun e w' hrun hmissing => ?_, fun sources hplan hcheck => ?_⟩
  · rcases hcheck : sc.check with e' | _
    · rw [run_apply, hcheck] at hrun
      cases hrun
      rfl
    · rw [isMissing_of_check hcheck hrun] at hmissing
      cases hmissing
  · have hc := Plan.isCompiled_of_compile hplan
    have hlogged : ∀ n ∈ w.tracks.loggedNames, ∃ track, w.tracks.find? n = some track := by
      intro n hn
      obtain ⟨track, htrack, -⟩ := Tracks.mem_loggedNames.1 hn
      exact ⟨track, htrack⟩
    have hequipped := check_eq_ok_iff.1 hcheck
    refine ⟨fun e w' hrun => ?_, fun sheets w₁ t s hprep hfaces => ⟨?_, ?_⟩⟩
    · have hfits := (keepsLockstep_of_isCompiled hc total o w).consistent e w' hrun
      rcases run_eq_error_of_check hcheck hrun with hunwritten | hfit | hstep
      · exact .inr hunwritten
      · exact absurd (hfits.symm.trans hfit) Bool.false_ne_true
      · obtain ⟨sheets, w₁, t, i, s, s', hprep, hfaces, hstep, rfl⟩ := hstep
        have h₀ := (leads_prepare.ok hprep).inStep hc
        rcases hfaces.step_eq_error hc h₀ hlogged (hequipped t hfaces.mem_targets) hstep with
          hanchor | hfit
        · exact .inl ⟨t, hfaces.mem_targets, hanchor⟩
        · exact absurd (hfits.symm.trans hfit) Bool.false_ne_true
    · exact hfaces.exists_isTriggered hc ((leads_prepare.ok hprep).inStep hc) hlogged
    · refine (leads_observe_equipped (hequipped t hfaces.mem_targets)).mono
        (fun _ _ _ => trivial) fun e s' hstops => ?_
      obtain ⟨-, n, -, rfl⟩ := hstops
      rfl

/-- A caption below another one, which has no template. -/
def captionRules : List String := ["detectText(a)", "below(a)\x7bdetectText(b)\x7d"]

/-- A scan of blank frames, in which every text is read as a cross, if texts can be read. -/
def blankFrames (reads : Bool) (p : Plan) : Scan Unit where
  plan := p
  settings := .default
  templates := .empty
  instruments :=
    { Instruments.none with
      footage := some {
        frames := 1, fps := Binary.one, width := 4, height := 4
        seek := fun _ w => (true, w)
        read := fun _ w => (some (.ofFn 4 4 fun _ _ => default), w) }
      recogniser := if reads then some fun _ _ w => ("x", w) else none }
  stopped := false

/-- Without a way to read texts nothing is changed; with one, the second caption has no anchor
    with a template size. -/
theorem failures_of_run_of_blankFrames : ∃ p w' w'',
    Plan.compile captionRules unwritten.tracks.loggedNames = .ok p ∧
    (blankFrames true p).check = .ok () ∧
    (blankFrames false p).run 1 none unwritten = .error (.missing .recogniser) w' ∧
    w' = unwritten ∧
    (blankFrames true p).run 1 none unwritten =
      .error (.unresolved "below(a)\x7bdetectText(b)\x7d" "a") w'' ∧
    ∃ t ∈ (blankFrames true p).targets, ∃ n ∈ t.anchors, ∃ track,
      w''.tracks.find? n = some track ∧ track.template = none ∧
      Failure.unresolved "below(a)\x7bdetectText(b)\x7d" "a" = t.unresolved n := by
  have hfound : ((Plan.compile captionRules unwritten.tracks.loggedNames).toOption.any fun p =>
      (blankFrames true p).check.toOption.isSome &&
      decide ((blankFrames false p).failure? 1 none unwritten = some (.missing .recogniser)) &&
      decide ((blankFrames true p).failure? 1 none unwritten =
        some (.unresolved "below(a)\x7bdetectText(b)\x7d" "a"))) = true := by
    decide +kernel
  obtain ⟨p, hp, hruns⟩ := Plan.exists_of_any_toOption hfound
  simp only [Bool.and_eq_true, decide_eq_true_iff] at hruns
  obtain ⟨⟨hsome, hmissing⟩, hunsized⟩ := hruns
  obtain ⟨⟨⟩, hcheck⟩ := Plan.exists_of_isSome_toOption hsome
  obtain ⟨w', hw'⟩ := exists_of_failure? hmissing
  obtain ⟨w'', hw''⟩ := exists_of_failure? hunsized
  have hkept := (failures_of_run (blankFrames false p) 1 none unwritten).1 _ w' hw' rfl
  have hplan : Plan.compile captionRules unwritten.tracks.loggedNames =
      .ok (blankFrames true p).plan := hp
  obtain ⟨hlate, -⟩ := (failures_of_run (blankFrames true p) 1 none unwritten).2 _ hplan hcheck
  refine ⟨p, w', w'', hp, hcheck, hw', hkept, hw'', ?_⟩
  rcases hlate _ w'' hw'' with hanchor | ⟨path, fault, hunwritten⟩
  · exact hanchor
  · cases hunwritten

end Scan

end Screenmark
