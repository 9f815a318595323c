/-
  Screenmark — when targets are triggered.

  Whether a target is triggered is decided in the middle of a frame, when the
  tracks of some targets have a row for it and those of others have none. A gate
  whose track is still without the row is false (`isTrueAt_within_iff`). So a
  target is triggered exactly when all that it waits for is true in the end and,
  as far as it is produced in the scan, was worked out before
  (`isTriggered_iff_of_history`).

  A target comes after those that it waits for and that are not logged
  (`mem_ahead_of_not_logged`). A dependency that was logged, and is produced again,
  may come after it: then its gate is false whatever is observed for it.
-/
import Screenmark.Proofs.Scan.History

namespace Screenmark

namespace Scan

open Scanning ScanState

variable {σ : Type} {sc : Scan σ} {logged : List String} {t : Target} {d : String} {i : Nat}

/-! ## The targets ahead -/

/-- The names of the targets that are worked out before a target. -/
def ahead (sc : Scan σ) (t : Target) : List String :=
  (sc.ordered.takeWhile (·.2 ≠ t)).map (·.2.name)

theorem ahead_eq {pre post : List (Nat × Target)} (hc : sc.plan.IsCompiled logged)
    (h : sc.ordered = pre ++ (i, t) :: post) : sc.ahead t = pre.map (·.2.name) := by
  have hnd := nodup_ordered hc
  rw [h, List.map_append, List.nodup_append] at hnd
  have hne : ∀ p ∈ pre, decide (p.2 ≠ t) = true := fun p hp => by
    refine decide_eq_true fun heq => ?_
    exact hnd.2.2 _ (List.mem_map_of_mem hp) _ List.mem_cons_self (congrArg (·.name) heq)
  rw [ahead, h, List.takeWhile_append_of_pos hne, List.takeWhile_cons_of_neg (by simp),
    List.append_nil]

/-- The place of a target in the order. -/
theorem exists_order_eq (hi : sc.targets[i]? = some t) :
    ∃ pre post, sc.plan.order = pre ++ i :: post ∧ sc.ordered =
      pre.filterMap (fun i => sc.targets[i]?.map (i, ·)) ++
        (i, t) :: post.filterMap (fun i => sc.targets[i]?.map (i, ·)) := by
  have hlt := (List.getElem?_eq_some_iff.1 hi).1
  have hmem : i ∈ sc.plan.order :=
    (Order.places_perm sc.plan.prerequisites sc.targets).mem_iff.2 (List.mem_range.2 hlt)
  obtain ⟨pre, post, horder⟩ := List.append_of_mem hmem
  refine ⟨pre, post, horder, ?_⟩
  rw [ordered, horder, List.filterMap_append, List.filterMap_cons, hi]
  rfl

/-- **What a target waits for and is not logged was worked out before.** -/
theorem mem_ahead_of_not_logged (hc : sc.plan.IsCompiled logged) (ht : t ∈ sc.targets)
    (hd : d ∈ t.gates) (hl : d ∉ logged) : d ∈ sc.ahead t := by
  obtain ⟨i, hlt, hi⟩ := List.getElem_of_mem ht
  have hi : sc.targets[i]? = some t := List.getElem?_eq_some_iff.2 ⟨hlt, hi⟩
  obtain ⟨pre, post, horder, hordered⟩ := exists_order_eq hi
  obtain ⟨u, hu, rfl⟩ := hc.exists_target_of_gate ht hd hl
  obtain ⟨j, hj⟩ := Order.exists_placeOf? hu
  obtain ⟨-, v, hv, hvname⟩ := Order.placeOf?_eq_some hj
  have hnew : u.name ∈ (sc.plan.prerequisites.predecessors t.name).new := by
    rw [hc.predecessors_eq ht]
    exact Predecessors.mem_new_ofDependencies.2 ⟨hd, hl⟩
  have hwait : j ∈ pre := (Order.isSchedule_places hc.acyclic).waits pre i post horder j
    ((Order.mem_waitsFor hi).2 ⟨u.name, hnew, hj⟩)
  rw [ahead_eq hc hordered, List.mem_map]
  refine ⟨(j, v), List.mem_filterMap.2 ⟨j, hwait, ?_⟩, hvname⟩
  exact congrArg (Option.map (j, ·)) hv

/-! ## Gates in the middle of a frame -/

variable {ts₀ us : Tracks} {pre : List (Nat × Target)} {f : Nat} {s sA : ScanState σ}

/-- **The gate of a name in the middle of a frame** is its gate in the end, if the name
    is no target or was worked out before; else it is false. -/
theorem isTrueAt_within_iff (hs : sc.Lockstep ts₀ f s.work.tracks) (hw : Within pre f s sA)
    (hgrown : sA.work.tracks.Grown us)
    (hus : ∀ n, (∀ t ∈ sc.targets, t.name ≠ n) → us.find? n = ts₀.find? n) :
    sA.work.tracks.isTrueAt d f = some true ↔ us.isTrueAt d f = some true ∧
      (d ∈ sc.targets.map (·.name) → d ∈ pre.map (·.2.name)) := by
  by_cases hpre : d ∈ pre.map (·.2.name)
  · obtain ⟨p, hp, rfl⟩ := List.mem_map.1 hpre
    obtain ⟨tr, htr, -, hsize, -⟩ := hw.rows p hp
    have hlt : f < tr.size := by
      simp only [Track.size]
      omega
    rw [Tracks.isTrueAt_of_lt hgrown htr hlt]
    exact ⟨fun h => ⟨h, fun _ => hpre⟩, fun h => h.1⟩
  · have hkeep : sA.work.tracks.find? d = s.work.tracks.find? d :=
      hw.others d fun p hp heq => hpre (List.mem_map.2 ⟨p, hp, heq⟩)
    by_cases htarget : d ∈ sc.targets.map (·.name)
    · obtain ⟨t, ht, rfl⟩ := List.mem_map.1 htarget
      rw [((hs.rows t ht).congr hkeep).isTrueAt_self]
      exact ⟨fun h => by simp at h, fun h => absurd (h.2 htarget) hpre⟩
    · have hno : ∀ t ∈ sc.targets, t.name ≠ d := fun t ht heq =>
        htarget (List.mem_map.2 ⟨t, ht, heq⟩)
      have hsame : sA.work.tracks.find? d = us.find? d := by
        rw [hkeep, hs.others d hno, hus d hno]
      rw [Tracks.isTrueAt_congr hgrown.threshold.symm hsame]
      exact ⟨fun h => ⟨h, fun h => absurd h htarget⟩, fun h => h.1⟩

/-! ## Triggered targets -/

variable {total : Nat} {o : Option Outlet} {w w' : Workspace σ} {report : ScanReport}
  {r : FrameRecord}

theorem isTriggered_eq_of_nodup {before after : List LogEntry} {entry : LogEntry}
    (h : r.entries = before ++ entry :: after) (hnd : (r.entries.map (·.place)).Nodup) :
    r.isTriggered entry.place = entry.triggered := by
  rw [h, List.map_append, List.nodup_append, List.map_cons, List.nodup_cons] at hnd
  obtain ⟨-, ⟨hafter, -⟩, hbefore⟩ := hnd
  have no : ∀ {es : List LogEntry}, (∀ e ∈ es, e.place ≠ entry.place) →
      (es.any fun e => e.place = entry.place && e.triggered) = false := fun hes => by
    refine List.any_eq_false.2 fun e he => ?_
    simp [hes e he]
  rw [FrameRecord.isTriggered, h, List.any_append, List.any_cons, no, no]
  · simp
  · exact fun e he heq => hafter (heq ▸ List.mem_map_of_mem he)
  · exact fun e he => hbefore _ (List.mem_map_of_mem he) _ List.mem_cons_self

/-- **A target is triggered when all that it waits for is true in the end**, and was
    worked out before it if it is a target itself. -/
theorem isTriggered_iff_of_history (hc : sc.plan.IsCompiled logged)
    (hrun : sc.run total o w = .ok report w') (hr : (sc.history total o w)[f]? = some r)
    (hi : sc.targets[i]? = some t) :
    r.isTriggered i = true ↔ ∀ d ∈ t.gates, w'.tracks.isTrueAt d f = some true ∧
      (d ∈ sc.targets.map (·.name) → d ∈ sc.ahead t) := by
  obtain ⟨s, s', hin, hpass, hgrown⟩ := exists_pass_of_history hc hrun hr
  obtain ⟨s₁, hpassed⟩ := leads_pass_passed.ok hpass
  have hsteps := (frame_eq_ok hpassed.frame).1
  obtain ⟨pre, post, -, hordered⟩ := exists_order_eq hi
  have hnd : (r.entries.map (·.place)).Nodup := hsteps.places ▸ nodup_places
  rw [hordered] at hsteps
  obtain ⟨before, entry, after, sA, sB, hentries, hbefore, hstep, hafter⟩ := hsteps.split
  -- In front of the target, and from there to the end of the scan.
  have hlock : sc.Lockstep w.tracks f (sc.polled s).opened.work.tracks := hin.tracks
  have hw := hlock.within_ordered hc hbefore (hordered ▸ List.sublist_append_left ..)
  have hbehind := hlock.behind hc hw hordered
  have hrest := (Steps.cons hstep hafter).within hc
    ((hordered ▸ nodup_ordered hc).sublist ((List.sublist_append_right ..).map _)) hbehind
  obtain ⟨ht, hrows⟩ := hbehind _ List.mem_cons_self
  have hstepped := (leads_step_stepped (hc.kind_eq ht) hrows).ok hstep
  have hfinal : sA.work.tracks.Grown w'.tracks :=
    hrest.grown.trans (hpassed.tracks ▸ hgrown)
  have hframe : sA.cursor.frame = f := hw.frame.trans hin.frame
  have hdecided := hstepped.triggered
  rw [hframe] at hdecided
  have hothers := ((keepsLockstep_of_isCompiled hc total o w).finished report w' hrun).others
  calc r.isTriggered i = true
      ↔ entry.triggered = true := by
        rw [← hstepped.place, isTriggered_eq_of_nodup hentries hnd]
    _ ↔ t.isTriggered sc.plan.prerequisites sA.work.tracks f = .ok true := by
        rw [hdecided, Except.ok.injEq]
    _ ↔ ∀ d ∈ t.gates, sA.work.tracks.isTrueAt d f = some true := hc.isTriggered_iff ht
    _ ↔ _ := by
        refine forall_congr' fun d => imp_congr_right fun _ => ?_
        rw [isTrueAt_within_iff hlock hw hfinal hothers, ahead_eq hc hordered]

/-- **What triggers the targets of a scan.** A target with a fixed rectangle or without
    a test is triggered at every frame. Any other one is triggered at the frames at
    which all its dependencies are true in the end, as long as none of them was logged
    and is produced again by a target that does not come before it. -/
theorem triggered_iff_of_run {sources : List String}
    (h : Plan.compile sources logged = .ok sc.plan) (hrun : sc.run total o w = .ok report w') :
    (sc.history total o w).length = report.frames ∧
    (report.aborted = false → sc.targets ≠ [] → report.frames = total) ∧
    ∀ f r i t, (sc.history total o w)[f]? = some r → sc.targets[i]? = some t →
      (t.test = none ∨ t.test = some .inRect → r.isTriggered i = true) ∧
      ∀ rule test, t.rule = some rule → rule.test = some test → test ≠ .inRect →
        (r.isTriggered i = true ↔
          (∀ d ∈ rule.dependencies, w'.tracks.isTrueAt d f = some true) ∧
          ∀ d ∈ rule.dependencies, d ∈ logged → d ∈ sc.targets.map (·.name) →
            d ∈ sc.ahead t) := by
  have hc := Plan.isCompiled_of_compile h
  refine ⟨(frames_eq_length hrun).symm, fun ha hne => frames_eq_total hc hrun hne ha,
    fun f r i t hr hi => ?_⟩
  have ht : t ∈ sc.targets := List.mem_of_getElem? hi
  have htriggered := isTriggered_iff_of_history hc hrun hr hi
  refine ⟨fun htest => ?_, fun rule test hrule htest hne => ?_⟩
  · rw [htriggered, hc.gates_eq_nil ht htest]
    simp
  · have hgates : t.gates = rule.dependencies := by
      have hin : rule.test ≠ some .inRect := by simpa [htest] using hne
      rw [Target.gates, hrule, Option.map_some, Option.getD_some, Rule.namedDependencies_of_ne hin]
    rw [htriggered, hgates]
    constructor
    · exact fun h => ⟨fun d hd => (h d hd).1, fun d hd _ => (h d hd).2⟩
    · rintro ⟨htrue, hlogged⟩ d hd
      refine ⟨htrue d hd, fun htarget => ?_⟩
      by_cases hl : d ∈ logged
      · exact hlogged d hd hl htarget
      · exact mem_ahead_of_not_logged hc ht (hgates ▸ hd) hl

/-! ## A text that is read again -/

/-- A scan of one frame, in which the text `new` is read. -/
def rereading (p : Plan) : Scan Unit where
  plan := p
  settings := .default
  templates := NameMap.empty.insert "b" (.ofFn 1 1 fun _ _ => 0)
  instruments :=
    { Instruments.none with
      footage := some ⟨1, Binary.one, 1, 1, fun _ w => (true, w), fun _ w =>
        (some (.ofFn 1 1 fun _ _ => default), w)⟩
      matcher := some fun _ _ w => (⟨.zero, .zero, Binary.one⟩, w)
      recogniser := some fun _ _ w => ("new", w) }
  stopped := false

/-- A workspace in which the text `a` was logged. -/
def relogged : Workspace Unit where
  world := ()
  files := .empty
  tracks := (Tracks.empty Settings.defaultThreshold).insert "a"
    (.ofSeries (.texts #["old"]) .logged)
  status := .initial

/-- The rules that read `a` again, and look for `b` where it shows. -/
def rereadingRules : List String := ["detectText(a)", "if(a){matchTemplate(b)}"]

/-- In the scan that reads `a` again, `a` is triggered at its only frame. -/
theorem triggered_iff_of_run_of_rereading :
    ∃ p report w', Plan.compile rereadingRules relogged.tracks.loggedNames = .ok p ∧
      (rereading p).run 1 none relogged = .ok report w' ∧ report.frames = 1 ∧
      ∀ r, ((rereading p).history 1 none relogged)[0]? = some r → r.isTriggered 0 = true := by
  obtain ⟨p, report, w', hp, hrun, h⟩ := exists_run rereadingRules
    relogged.tracks.loggedNames rereading 1 none relogged
    (fun p report _ => !report.aborted && (rereading p).targets[0]?.any (·.test = none))
    (by decide +kernel)
  rw [Bool.and_eq_true, Bool.not_eq_true'] at h
  obtain ⟨ha, h⟩ := h
  obtain ⟨t, ht, htest⟩ := (Option.any_eq_true _ _).1 h
  obtain ⟨-, hframes, htriggered⟩ := triggered_iff_of_run hp hrun
  refine ⟨p, report, w', hp, hrun, hframes ha ?_, fun r hr => ?_⟩
  · exact List.ne_nil_of_mem (List.mem_of_getElem? ht)
  · exact (htriggered 0 r 0 t hr ht).1 (.inl (of_decide_eq_true htest))

/-- **A dependency that was logged and is read again may come too late.** The template
    `b` waits for `a` only, and `a` is true in the end, but `b` is not triggered. -/
theorem not_triggered_before_rereading :
    ∃ p report w' r t rule, Plan.compile rereadingRules relogged.tracks.loggedNames = .ok p ∧
      (rereading p).run 1 none relogged = .ok report w' ∧ report.aborted = false ∧
      ((rereading p).history 1 none relogged)[0]? = some r ∧
      (rereading p).targets[1]? = some t ∧ t.rule = some rule ∧ rule.test = some .ifTrue ∧
      (∀ d ∈ rule.dependencies, w'.tracks.isTrueAt d 0 = some true) ∧
      r.isTriggered 1 = false := by
  obtain ⟨p, report, w', hp, hrun, h⟩ := exists_run rereadingRules
    relogged.tracks.loggedNames rereading 1 none relogged
    (fun p report w' => !report.aborted &&
      ((rereading p).history 1 none relogged)[0]?.any (!·.isTriggered 1) &&
      (rereading p).targets[1]?.any fun t => t.rule.any fun rule =>
        rule.test = some .ifTrue && rule.dependencies.all (w'.tracks.isTrueAt · 0 = some true))
    (by decide +kernel)
  simp only [Bool.and_eq_true, Bool.not_eq_true', Option.any_eq_true, decide_eq_true_eq,
    List.all_eq_true] at h
  obtain ⟨⟨ha, r, hr, hno⟩, t, ht, rule, hrule, htest, hall⟩ := h
  exact ⟨p, report, w', r, t, rule, hp, hrun, ha, hr, ht, hrule, htest, hall, hno⟩

end Scan

end Screenmark
