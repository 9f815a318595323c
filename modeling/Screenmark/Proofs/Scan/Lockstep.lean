/-
  Screenmark — the tracks of a scan grow in lockstep.

  In front of every frame the track of each target has one row for each frame that
  is done, and all other tracks are as they were before the scan (`Lockstep`).
  Within a frame the targets that were worked out have one row more (`Within`).
  So no target finds its track in another state than it expects, and the check at
  the end of a frame never fails.

  * `Scan.reaches_inStep` : the states in front of the frames are in step;
  * `Scan.keepsLockstep_of_compile` : what this says about a whole scan, however it
    ends.
-/
import Screenmark.Proofs.Output.Sheet
import Screenmark.Proofs.Scan.Whole

namespace Screenmark

open Scanning ScanState

variable {σ : Type} {sc : Scan σ} {logged : List String}

namespace Scan

/-! ## Tracks in lockstep -/

/-- The track of every target has so many rows, and the other tracks are those of
    `ts₀`. -/
structure Lockstep (sc : Scan σ) (ts₀ : Tracks) (k : Nat) (ts : Tracks) : Prop where
  rows : ∀ t ∈ sc.targets, ts.HasRows t.name t.kind k
  others : ∀ n, (∀ t ∈ sc.targets, t.name ≠ n) → ts.find? n = ts₀.find? n
  threshold : ts.threshold = ts₀.threshold

variable {ts : Tracks} {t : Target} {n : String}

/-- The track of a target before the first frame. -/
def startedTrack (sc : Scan σ) (t : Target) : Track :=
  { Track.empty t.kind .extracted with
    template := (sc.templates.find? t.name).map fun image => (image.width, image.height) }

theorem find?_startTarget_self :
    (sc.startTarget ts t).find? t.name = some (sc.startedTrack t) := by
  unfold startTarget startedTrack
  have hstart : (ts.start t.name t.kind .extracted).find? t.name =
      some (.empty t.kind .extracted) := (Tracks.find?_insert ..).trans (if_pos rfl)
  rcases sc.templates.find? t.name with _ | image
  · exact hstart
  · exact (NameMap.find?_modify ..).trans (by
      rw [if_pos rfl]
      exact congrArg (Option.map _) hstart)

theorem find?_startTarget_of_ne (h : t.name ≠ n) :
    (sc.startTarget ts t).find? n = ts.find? n := by
  unfold startTarget
  have hstart : (ts.start t.name t.kind .extracted).find? n = ts.find? n :=
    (Tracks.find?_insert ..).trans (if_neg h)
  rcases sc.templates.find? t.name with _ | image
  · exact hstart
  · exact (NameMap.find?_modify ..).trans ((if_neg h).trans hstart)

theorem threshold_startTarget : (sc.startTarget ts t).threshold = ts.threshold := by
  unfold startTarget
  rcases sc.templates.find? t.name with _ | image <;> rfl

theorem find?_foldl_startTarget : ∀ {us : List Target} {ts : Tracks},
    (∀ t ∈ us, t.name ≠ n) → (us.foldl sc.startTarget ts).find? n = ts.find? n
  | [], _, _ => rfl
  | t :: us, ts, h => by
    rw [List.forall_mem_cons] at h
    rw [List.foldl_cons, find?_foldl_startTarget h.2, find?_startTarget_of_ne h.1]

theorem find?_foldl_startTarget_of_mem : ∀ {us : List Target} {ts : Tracks},
    (us.map (·.name)).Nodup → ∀ t ∈ us,
      (us.foldl sc.startTarget ts).find? t.name = some (sc.startedTrack t)
  | [], _, _ => by simp
  | u :: us, ts, hnd => by
    rw [List.map_cons, List.nodup_cons] at hnd
    rw [List.foldl_cons, List.forall_mem_cons]
    refine ⟨?_, find?_foldl_startTarget_of_mem hnd.2⟩
    rw [find?_foldl_startTarget fun t ht heq => hnd.1 (List.mem_map.2 ⟨t, ht, heq⟩)]
    exact find?_startTarget_self

/-- A target starts with a track of its own. -/
theorem find?_startedTracks (hc : sc.plan.IsCompiled logged) (ht : t ∈ sc.targets) :
    (sc.startedTracks ts).find? t.name = some (sc.startedTrack t) :=
  find?_foldl_startTarget_of_mem hc.nodup_names t ht

theorem threshold_foldl_startTarget : ∀ (us : List Target) (ts : Tracks),
    (us.foldl sc.startTarget ts).threshold = ts.threshold
  | [], _ => rfl
  | _ :: us, _ => (threshold_foldl_startTarget us _).trans threshold_startTarget

/-- The tracks that are started have no rows. -/
theorem lockstep_startedTracks (hc : sc.plan.IsCompiled logged) :
    sc.Lockstep ts 0 (sc.startedTracks ts) where
  rows _ ht := ⟨_, find?_startedTracks hc ht, Series.kind_empty _, Series.size_empty _, rfl, rfl⟩
  others _ h := find?_foldl_startTarget h
  threshold := threshold_foldl_startTarget sc.targets ts

/-! ## The targets of a frame -/

theorem filterMap_getElem?_range {α : Type} (xs : List α) :
    (List.range xs.length).filterMap (xs[·]?) = xs := by
  have h : (List.range xs.length).map (xs[·]?) = xs.map some :=
    List.ext_getElem (by simp) fun i h₁ h₂ => by simp
  calc (List.range xs.length).filterMap (xs[·]?)
      = ((List.range xs.length).map (xs[·]?)).filterMap id := by
        rw [List.filterMap_map]
        rfl
    _ = (xs.map some).filterMap id := by rw [h]
    _ = xs := by
        rw [List.filterMap_map]
        exact List.filterMap_some

/-- Every target is worked out once in a frame. -/
theorem ordered_perm (sc : Scan σ) : (sc.ordered.map (·.2)).Perm sc.targets := by
  have h := (Order.places_perm sc.plan.prerequisites sc.targets).filterMap (sc.targets[·]?)
  rw [filterMap_getElem?_range] at h
  refine .trans (.of_eq ?_) h
  rw [ordered, List.map_filterMap]
  refine congrArg (List.filterMap · _) (funext fun i => ?_)
  rcases sc.targets[i]? <;> rfl

theorem mem_targets_of_ordered {p : Nat × Target} (hp : p ∈ sc.ordered) : p.2 ∈ sc.targets :=
  (ordered_perm sc).mem_iff.1 (List.mem_map_of_mem hp)

theorem exists_mem_ordered {t : Target} (ht : t ∈ sc.targets) : ∃ i, (i, t) ∈ sc.ordered := by
  obtain ⟨⟨i, u⟩, hp, rfl⟩ := List.mem_map.1 ((ordered_perm sc).mem_iff.2 ht)
  exact ⟨i, hp⟩

theorem nodup_ordered (hc : sc.plan.IsCompiled logged) :
    (sc.ordered.map (·.2.name)).Nodup := by
  have h := (ordered_perm sc).map (·.name)
  rw [List.map_map] at h
  exact h.nodup_iff.2 hc.nodup_names

/-- What working out some targets does, when all of them had so many rows. -/
structure Within (ps : List (Nat × Target)) (k : Nat) (s s' : ScanState σ) : Prop where
  rows : ∀ p ∈ ps, s'.work.tracks.HasRows p.2.name p.2.kind (k + 1)
  others : ∀ n, (∀ p ∈ ps, p.2.name ≠ n) → s'.work.tracks.find? n = s.work.tracks.find? n
  grown : s.work.tracks.Grown s'.work.tracks
  files : s'.work.files = s.work.files
  sheets : s'.sheets = s.sheets
  log : s'.log = s.log
  frame : s'.cursor.frame = s.cursor.frame

variable {ps : List (Nat × Target)} {k i : Nat} {s s' : ScanState σ} {entries : List LogEntry}
  {entry : LogEntry} {e : Failure}

theorem Stepped.hasRows (h : sc.Stepped i t s entry s')
    (hrows : s.work.tracks.HasRows t.name t.kind k) :
    s'.work.tracks.HasRows t.name t.kind (k + 1) := by
  obtain ⟨us, hus, hrows⟩ := hrows.exists_append h.kind
  rw [h.append] at hus
  exact Except.ok.inj hus ▸ hrows

theorem Steps.within (hc : sc.plan.IsCompiled logged) (h : Steps sc ps s entries s')
    (hnd : (ps.map (·.2.name)).Nodup)
    (hps : ∀ p ∈ ps, p.2 ∈ sc.targets ∧ s.work.tracks.HasRows p.2.name p.2.kind k) :
    Within ps k s s' := by
  induction h with
  | nil => exact ⟨by simp, fun _ _ => rfl, .refl _, rfl, rfl, rfl, rfl⟩
  | @cons i t ps s s₁ s₂ entry entries hstep hsteps ih =>
    rw [List.map_cons, List.nodup_cons] at hnd
    rw [List.forall_mem_cons] at hps
    obtain ⟨⟨ht, hrows⟩, hps⟩ := hps
    have hs := (leads_step_stepped (hc.kind_eq ht) hrows).ok hstep
    have hkeep : ∀ n, t.name ≠ n → s₁.work.tracks.find? n = s.work.tracks.find? n :=
      fun n hn => Tracks.find?_of_append_of_ne hs.append hn
    -- The later targets have other names, so their tracks are as they were.
    have hne : ∀ p ∈ ps, t.name ≠ p.2.name := fun p hp heq =>
      hnd.1 (heq ▸ List.mem_map_of_mem (f := fun p : Nat × Target => p.2.name) hp)
    have hw := ih hnd.2 fun p hp => ⟨(hps p hp).1, (hps p hp).2.congr (hkeep _ (hne p hp))⟩
    refine ⟨List.forall_mem_cons.2 ⟨?_, hw.rows⟩, fun n hn => ?_, ?_, hw.files.trans hs.files,
      hw.sheets.trans hs.sheets, hw.log.trans hs.log, hw.frame.trans hs.frame⟩
    · exact (hs.hasRows hrows).congr (hw.others _ fun p hp heq => hne p hp heq.symm)
    · rw [List.forall_mem_cons] at hn
      rw [hw.others n hn.2, hkeep n hn.1]
    · exact (Tracks.grown_of_append hs.append).trans hw.grown

/-! ## Frames -/

/-- The track of every target has so many rows or one more, and the other tracks are
    those of `ts₀`. -/
structure Torn (sc : Scan σ) (ts₀ : Tracks) (k : Nat) (ts : Tracks) : Prop where
  rows : ∀ t ∈ sc.targets, ts.HasRows t.name t.kind k ∨ ts.HasRows t.name t.kind (k + 1)
  others : ∀ n, (∀ t ∈ sc.targets, t.name ≠ n) → ts.find? n = ts₀.find? n

variable {ts₀ : Tracks} {r : FrameRecord} {total : Nat} {done : List (Nat × Target)}

theorem Lockstep.within_ordered (hc : sc.plan.IsCompiled logged)
    (h : sc.Lockstep ts₀ k s.work.tracks) (hsteps : Steps sc done s entries s')
    (hdone : done.Sublist sc.ordered) : Within done k s s' :=
  hsteps.within hc ((hdone.map _).nodup (nodup_ordered hc)) fun p hp =>
    have ht := mem_targets_of_ordered (hdone.subset hp)
    ⟨ht, h.rows p.2 ht⟩

theorem Lockstep.succ (h : sc.Lockstep ts₀ k s.work.tracks) (hw : Within sc.ordered k s s') :
    sc.Lockstep ts₀ (k + 1) s'.work.tracks where
  rows t ht := by
    obtain ⟨i, hi⟩ := exists_mem_ordered ht
    exact hw.rows _ hi
  others n hn := by
    rw [hw.others n fun p hp => hn p.2 (mem_targets_of_ordered hp), h.others n hn]
  threshold := hw.grown.threshold.trans h.threshold

theorem Lockstep.torn (hc : sc.plan.IsCompiled logged) (h : sc.Lockstep ts₀ k s.work.tracks)
    (hw : Within done k s s') (hdone : ∀ p ∈ done, p.2 ∈ sc.targets) :
    sc.Torn ts₀ k s'.work.tracks where
  rows t ht := by
    -- A target got its row if it is among those that were done before the failure.
    by_cases hmem : ∃ p ∈ done, p.2.name = t.name
    · obtain ⟨p, hp, heq⟩ := hmem
      exact .inr (hc.eq_of_name_eq (hdone p hp) ht heq ▸ hw.rows p hp)
    · exact .inl ((h.rows t ht).congr (hw.others _ fun p hp heq => hmem ⟨p, hp, heq⟩))
  others n hn := by
    rw [hw.others n fun p hp => hn p.2 (hdone p hp), h.others n hn]

/-- The targets behind those that were worked out still have as many rows as before. -/
theorem Lockstep.behind {pre post : List (Nat × Target)} (hc : sc.plan.IsCompiled logged)
    (h : sc.Lockstep ts₀ k s.work.tracks) (hw : Within pre k s s')
    (hordered : sc.ordered = pre ++ post) :
    ∀ p ∈ post, p.2 ∈ sc.targets ∧ s'.work.tracks.HasRows p.2.name p.2.kind k := by
  intro p hp
  have ht := mem_targets_of_ordered (hordered ▸ List.mem_append_right pre hp)
  have hnd := nodup_ordered hc
  rw [hordered, List.map_append, List.nodup_append] at hnd
  have hne : ∀ q ∈ pre, q.2.name ≠ p.2.name := fun q hq =>
    hnd.2.2 _ (List.mem_map_of_mem hq) _ (List.mem_map_of_mem hp)
  exact ⟨ht, (h.rows p.2 ht).congr (hw.others _ hne)⟩

/-- A frame adds one row to the track of every target, or fails at one of them. -/
theorem leads_frame_lockstep (hc : sc.plan.IsCompiled logged)
    (h : sc.Lockstep ts₀ k s.work.tracks) :
    Leads sc.frame s (fun _ s' => Within sc.ordered k s.opened s')
      fun e s' => e.isConsistency = false ∧ sc.Torn ts₀ k s'.work.tracks := by
  have hopened : sc.Lockstep ts₀ k s.opened.work.tracks := h
  refine .intro (fun r s' hframe => ?_) fun e s' hframe => ?_
  · exact hopened.within_ordered hc (frame_eq_ok hframe).1 (.refl _)
  · obtain ⟨done, i, t, entries, s₁, ⟨rest, hrest⟩, hsteps, hstep⟩ := frame_eq_error hframe
    have hsub : done.Sublist sc.ordered := hrest ▸ List.sublist_append_left ..
    have hw := hopened.within_ordered hc hsteps hsub
    obtain ⟨ht, hrows⟩ := hopened.behind hc hw hrest (i, t) List.mem_cons_self
    obtain ⟨hkept, he⟩ := (leads_step_stepped (hc.kind_eq ht) hrows).error hstep
    refine ⟨he, hkept.tracks ▸ hopened.torn hc hw fun p hp => ?_⟩
    exact mem_targets_of_ordered (hsub.subset hp)

/-! ## Passes -/

/-- What holds in front of a frame. -/
structure InStep (sc : Scan σ) (ts₀ : Tracks) (k : Nat) (s : ScanState σ) : Prop where
  frame : s.cursor.frame = k
  log : s.log.length = k
  tracks : sc.Lockstep ts₀ k s.work.tracks
  sheets : ∀ x, s.sheets = some x → x.Fits sc.targets

theorem leads_writeSheets_fits (h : ∀ x, s.sheets = some x → x.Fits sc.targets) :
    Leads (sc.writeSheets r) s
      (fun _ s' => ∃ sheets, s' = { s with sheets := sheets } ∧
        ∀ x, sheets = some x → x.Fits sc.targets) fun _ _ => False := by
  unfold Leads
  rw [writeSheets_apply]
  rcases hs : s.sheets with _ | x
  · exact ⟨s.sheets, rfl, h⟩
  · obtain ⟨x', hx', hfits⟩ := (h x hs).exists_write s.cursor.frame (r.row sc.targets)
      (by simp [FrameRecord.row])
    dsimp only
    rw [hx']
    exact ⟨some x', rfl, fun y hy => Option.some.inj hy ▸ hfits⟩

theorem leads_goOn_lockstep (h : sc.Lockstep ts₀ (s.cursor.frame + 1) s.work.tracks) :
    Leads (sc.goOn total r) s (fun _ s' => s' = s.next total r) fun _ _ => False := by
  have hcheck : s.work.tracks.checkInStep (sc.targets.map (·.name)) (s.cursor.frame + 1) =
      .ok () := by
    refine Tracks.checkInStep_of_hasRows fun n hn => ?_
    obtain ⟨t, ht, rfl⟩ := List.mem_map.1 hn
    exact (h.rows t ht).sizeOf_eq
  unfold Leads
  rw [goOn_apply, hcheck]

/-- **A pass keeps the tracks in step, or stops, or fails in the middle of a frame.** -/
theorem leads_pass_inStep (hc : sc.plan.IsCompiled logged) (h : sc.InStep ts₀ k s) :
    Leads (sc.pass total) s
      (fun r s' =>
        match r with
        | none => s' = sc.polled s
        | some r => sc.InStep ts₀ (k + 1) s' ∧ s.work.tracks.Grown s'.work.tracks ∧
          s'.log = r :: s.log)
      fun e s' => e.isConsistency = false ∧ sc.Torn ts₀ k s'.work.tracks := by
  rw [leads_pass]
  split
  · rfl
  · have hpolled : sc.Lockstep ts₀ k (sc.polled s).work.tracks := h.tracks
    refine (leads_frame_lockstep hc hpolled).mono (fun r s₁ hw => ?_) fun e s₁ he => he
    have hlock : sc.Lockstep ts₀ (k + 1) s₁.work.tracks :=
      Lockstep.succ (s := (sc.polled s).opened) hpolled hw
    have hframe : s₁.cursor.frame = k := hw.frame.trans h.frame
    have hsheets : ∀ x, s₁.sheets = some x → x.Fits sc.targets := fun x hx =>
      h.sheets x (hw.sheets.symm.trans hx)
    refine (leads_writeSheets_fits hsheets).mono (fun _ s₂ hs => ?_) fun e s₂ he => he.elim
    obtain ⟨sheets, rfl, hfits⟩ := hs
    rw [← hframe] at hlock
    refine (leads_goOn_lockstep (s := { s₁ with sheets := sheets }) hlock).mono
      (fun _ s₃ hs => ?_) fun e s₃ he => he.elim
    subst hs
    refine ⟨⟨congrArg (· + 1) hframe, ?_, hframe ▸ hlock, hfits⟩, hw.grown,
      congrArg (r :: ·) hw.log⟩
    exact congrArg (· + 1) ((congrArg List.length hw.log).trans h.log)

variable {s₀ : ScanState σ}

/-- **In front of every frame the tracks are in step**, and they only grow. -/
theorem reaches_inStep {j : Nat} (hc : sc.plan.IsCompiled logged) (h₀ : sc.InStep ts₀ j s₀)
    (h : sc.Reaches total s₀ k s) :
    sc.InStep ts₀ (j + k) s ∧ s₀.work.tracks.Grown s.work.tracks := by
  induction h with
  | start => exact ⟨h₀, .refl _⟩
  | next _ hpass ih =>
    obtain ⟨hs, hgrown, -⟩ := (leads_pass_inStep hc ih.1).ok hpass
    exact ⟨hs, ih.2.trans hgrown⟩

theorem Reaches.inStep (hc : sc.plan.IsCompiled logged) (h₀ : sc.InStep ts₀ 0 s₀)
    (h : sc.Reaches total s₀ k s) : sc.InStep ts₀ k s :=
  Nat.zero_add k ▸ (reaches_inStep hc h₀ h).1

/-! ## Whole scans -/

variable {o : Option Outlet} {w w₁ : Workspace σ} {sheets : Option Sheets}

theorem Prepared.inStep (hc : sc.plan.IsCompiled logged) (h : sc.Prepared w sheets w₁) :
    sc.InStep w.tracks 0 (initial w₁ sheets) where
  frame := rfl
  log := rfl
  tracks := by
    have hw : (initial w₁ sheets).work.tracks = sc.startedTracks w.tracks := h.tracks
    rw [hw]
    exact lockstep_startedTracks hc
  sheets x hx := by
    obtain ⟨o, rfl⟩ := h.sheets x hx
    exact Sheets.fits_start o sc.targets

/-- What is true of the tracks of a scan: after `k` frames they are in lockstep, and
    where the scan fails in frame `k` they are so but for this frame. It never fails
    because tracks do not fit together. -/
structure KeepsLockstep (sc : Scan σ) (total : Nat) (o : Option Outlet) (w : Workspace σ) :
    Prop where
  reached : ∀ sheets w₁ k s, sc.prepare o w = .ok sheets w₁ →
    sc.Reaches total (initial w₁ sheets) k s →
      s.log.length = k ∧ sc.Lockstep w.tracks k s.work.tracks
  finished : ∀ report w', sc.run total o w = .ok report w' →
    sc.Lockstep w.tracks report.frames w'.tracks
  consistent : ∀ e w', sc.run total o w = .error e w' → e.isConsistency = false
  torn : ∀ e w', sc.run total o w = .error e w' → ∀ sheets w₁, sc.prepare o w = .ok sheets w₁ →
    ∃ k s, k < total ∧ sc.Reaches total (initial w₁ sheets) k s ∧ s.log.length = k ∧
      (∃ s', sc.pass total s = .error e s' ∧ w' = keep s') ∧ sc.Torn w.tracks k w'.tracks

theorem keepsLockstep_of_isCompiled (hc : sc.plan.IsCompiled logged) (total : Nat)
    (o : Option Outlet) (w : Workspace σ) : sc.KeepsLockstep total o w := by
  have hstart : ∀ {sheets w₁}, sc.prepare o w = .ok sheets w₁ →
      sc.InStep w.tracks 0 (initial w₁ sheets) := fun hprep => (leads_prepare.ok hprep).inStep hc
  refine ⟨fun sheets w₁ k s hprep hr => ?_, fun report w' hrun => ?_, fun e w' hrun => ?_,
    fun e w' hrun sheets w₁ hprep => ?_⟩
  · have hs := hr.inStep hc (hstart hprep)
    exact ⟨hs.log, hs.tracks⟩
  · rcases run_eq_ok hrun with ⟨hnil, rfl, rfl⟩ | ⟨sheets, w₁, b, s, -, hprep, hframes, rfl, rfl⟩
    · exact ⟨fun t ht => by simp [hnil] at ht, fun _ _ => rfl, rfl⟩
    · have hlog : (ScanReport.ofLog s.log.reverse b (tables s)).frames = s.log.length :=
        List.length_reverse
      rw [hlog]
      rcases frames_eq_ok .start hframes with ⟨-, hr⟩ | ⟨j, s₁, -, -, -, hr, hpass⟩
      · have hs := hr.inStep hc (hstart hprep)
        exact hs.log.symm ▸ hs.tracks
      · have hs := hr.inStep hc (hstart hprep)
        obtain rfl := (leads_pass_inStep hc hs).ok hpass
        exact hs.log.symm ▸ hs.tracks
  · rcases run_eq_error hrun with ⟨he, -⟩ | ⟨sheets, w₁, s, -, hprep, hframes, -⟩
    · exact he
    · obtain ⟨j, s₁, -, -, hr, hpass⟩ := frames_eq_error .start hframes
      exact ((leads_pass_inStep hc (hr.inStep hc (hstart hprep))).error hpass).1
  · rcases run_eq_error hrun with ⟨-, hno⟩ | ⟨sheets', w₁', s, -, hprep', hframes, rfl⟩
    · exact absurd hprep (hno sheets w₁)
    · rw [hprep] at hprep'
      cases hprep'
      obtain ⟨j, s₁, -, hj, hr, hpass⟩ := frames_eq_error .start hframes
      have hs := hr.inStep hc (hstart hprep)
      exact ⟨j, s₁, by omega, hr, hs.log, ⟨s, hpass, rfl⟩,
        ((leads_pass_inStep hc hs).error hpass).2⟩

/-- **A scan for a plan that was made from texts keeps its tracks in lockstep**,
    whatever its instruments do. -/
theorem keepsLockstep_of_compile {sources : List String}
    (h : Plan.compile sources logged = .ok sc.plan) (total : Nat) (o : Option Outlet)
    (w : Workspace σ) : sc.KeepsLockstep total o w :=
  keepsLockstep_of_isCompiled (Plan.isCompiled_of_compile h) total o w

/-- Text is to be read from footage that cannot be read. -/
theorem keepsLockstep_of_unreadable_footage :
    ∃ p, Plan.compile ["detectText(a)"] [] = .ok p ∧
      (⟨p, .default, .empty,
        { Instruments.none with
          footage := some ⟨2, Binary.one, 4, 4, fun _ w => (true, w), fun _ w => (none, w + 1)⟩
          recogniser := some fun _ _ w => ("", w) }, false⟩ : Scan Nat).KeepsLockstep
        2 none ⟨0, .empty, .empty Settings.defaultThreshold, .initial⟩ := by
  have hp : (Plan.compile ["detectText(a)"] []).toOption.isSome = true := by decide +kernel
  obtain ⟨p, hp⟩ := Plan.exists_of_isSome_toOption hp
  exact ⟨p, hp, keepsLockstep_of_compile hp 2 none _⟩

end Scan

end Screenmark
