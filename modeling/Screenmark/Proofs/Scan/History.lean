/-
  Screenmark — the history of a scan.

  The log of a scan, from its first frame on, is its history; a scan that ends
  reports the counts of its history (`report_eq_ofLog`).

  * `Reaches.exists_pass` : every record of the log was made by a pass, between a
    state in front of its frame and the state at the end;
  * `Steps.places` : a record has one entry for each target, in the order in which
    they are worked out.
-/
import Screenmark.Proofs.Scan.Lockstep

namespace Screenmark

/-- Whether the target at a place was worked out. -/
def FrameRecord.isTriggered (r : FrameRecord) (place : Nat) : Bool :=
  r.entries.any fun entry => entry.place = place && entry.triggered

namespace Scan

open Scanning ScanState

variable {σ : Type} {sc : Scan σ} {s s' s₀ : ScanState σ} {ps : List (Nat × Target)} {k f : Nat}
  {entries : List LogEntry} {r : FrameRecord} {total : Nat} {o : Option Outlet}
  {w w' : Workspace σ} {report : ScanReport}

/-- What happened at the frames of a scan, from the first one on. -/
def history (sc : Scan σ) (total : Nat) (o : Option Outlet) (w : Workspace σ) :
    List FrameRecord :=
  if sc.targets.isEmpty then []
  else
    match sc.prepare o w with
    | .ok sheets w₁ =>
      match sc.frames total total (initial w₁ sheets) with
      | .ok _ s => s.log.reverse
      | .error _ s => s.log.reverse
    | .error _ _ => []

/-- A target that is triggered at a frame of a scan; the frame need not be done. -/
def IsTriggeredAt (sc : Scan σ) (total : Nat) (o : Option Outlet) (w : Workspace σ) (f : Nat)
    (t : Target) : Prop :=
  ∃ sheets w₁ s, sc.prepare o w = .ok sheets w₁ ∧
    sc.Reaches total (initial w₁ sheets) f s ∧ sc.Triggers sc.ordered (sc.polled s).opened t

/-! ## Entries -/

theorem entry_of_step {i : Nat} {t : Target} {entry : LogEntry}
    (h : sc.step i t s = .ok entry s') : entry.place = i ∧
      t.isTriggered sc.plan.prerequisites s.work.tracks s.cursor.frame = .ok entry.triggered := by
  obtain ⟨_, _, hplace, htriggered, -⟩ := step_eq_ok h
  exact ⟨hplace, htriggered⟩

theorem Steps.places (h : Steps sc ps s entries s') : entries.map (·.place) = ps.map (·.1) := by
  induction h with
  | nil => rfl
  | cons hstep _ ih => rw [List.map_cons, List.map_cons, ih, (entry_of_step hstep).1]

/-- Every entry is that of a target, and says whether the target was triggered. -/
theorem Steps.exists_target (h : Steps sc ps s entries s') : ∀ entry ∈ entries, ∃ t,
    (entry.place, t) ∈ ps ∧ (entry.triggered = true → sc.Triggers ps s t) := by
  induction h with
  | nil => simp
  | @cons i t ps s s₁ s₂ entry entries hstep hsteps ih =>
    obtain ⟨rfl, htriggered⟩ := entry_of_step hstep
    rw [List.forall_mem_cons]
    refine ⟨⟨t, List.mem_cons_self, fun htrue => ?_⟩, fun e he => ?_⟩
    · exact ⟨[], _, ps, [], s, rfl, .nil, htrue ▸ htriggered⟩
    · obtain ⟨u, hu, hturn⟩ := ih e he
      refine ⟨u, List.mem_cons_of_mem _ hu, fun htrue => ?_⟩
      obtain ⟨done, j, rest, entries', s₃, rfl, hdone, hj⟩ := hturn htrue
      exact ⟨(_, t) :: done, j, rest, entry :: entries', s₃, rfl, .cons hstep hdone, hj⟩

theorem places_sublist (ts : List Target) : ∀ is : List Nat,
    ((is.filterMap fun i => ts[i]?.map (i, ·)).map (·.1)).Sublist is
  | [] => .slnil
  | i :: is => by
    rw [List.filterMap_cons]
    rcases ts[i]? with _ | t
    · exact (places_sublist ts is).cons i
    · exact (places_sublist ts is).cons_cons i

/-- No place is worked out twice in a frame. -/
theorem nodup_places : (sc.ordered.map (·.1)).Nodup :=
  (places_sublist sc.targets sc.plan.order).nodup
    ((Order.places_perm sc.plan.prerequisites sc.targets).nodup_iff.2 List.nodup_range)

/-! ## Records -/

variable {logged : List String} {ts₀ : Tracks}

/-- What is found among entries that are put in front is the last one of them, or was
    there. -/
theorem getElem?_reverse_cons {α : Type} {a b : α} {l : List α}
    (h : (a :: l).reverse[f]? = some b) :
    l.reverse[f]? = some b ∨ f = l.length ∧ b = a := by
  rw [List.reverse_cons, List.getElem?_append, List.length_reverse] at h
  split at h
  · exact .inl h
  · next hle =>
    rcases hf : f - l.length with _ | m
    · rw [hf] at h
      exact .inr ⟨by omega, (Option.some.inj h).symm⟩
    · rw [hf] at h
      cases h

/-- **A record of the log comes from a pass.** -/
theorem Reaches.exists_pass (hc : sc.plan.IsCompiled logged) (h₀ : sc.InStep ts₀ 0 s₀)
    (hlog : s₀.log = []) (h : sc.Reaches total s₀ k s) (hr : s.log.reverse[f]? = some r) :
    ∃ s₁ s₂ n, sc.Reaches total s₀ f s₁ ∧ sc.pass total s₁ = .ok (some r) s₂ ∧
      sc.Reaches total s₂ n s := by
  induction h with
  | start => simp [hlog] at hr
  | @next k s s' r' hs hpass ih =>
    have hin := hs.inStep hc h₀
    rw [((leads_pass_inStep hc hin).ok hpass).2.2] at hr
    rcases getElem?_reverse_cons hr with hr | ⟨hf, rfl⟩
    · obtain ⟨s₁, s₂, n, hs₁, hpass₁, hs₂⟩ := ih hr
      exact ⟨s₁, s₂, n + 1, hs₁, hpass₁, hs₂.next hpass⟩
    · rw [hin.log] at hf
      exact ⟨s, s', 0, hf ▸ hs, hpass, .start⟩

/-- **A scan that ends reports the counts of its history.** -/
theorem report_eq_ofLog (h : sc.run total o w = .ok report w') :
    report = .ofLog (sc.history total o w) report.aborted report.tables := by
  rcases run_eq_ok h with ⟨hnil, rfl, rfl⟩ | ⟨sheets, w₁, b, s, hne, hprep, hframes, rfl, rfl⟩
  · rw [history, if_pos (List.isEmpty_iff.2 hnil)]
    rfl
  · rw [history, if_neg (fun hnil => hne (List.isEmpty_iff.1 hnil)), hprep]
    dsimp only
    rw [hframes]
    rfl

theorem frames_eq_length (h : sc.run total o w = .ok report w') :
    report.frames = (sc.history total o w).length :=
  congrArg ScanReport.frames (report_eq_ofLog h)

/-- A scan that is not stopped goes through all frames. -/
theorem frames_eq_total (hc : sc.plan.IsCompiled logged) (h : sc.run total o w = .ok report w')
    (hne : sc.targets ≠ []) (ha : report.aborted = false) : report.frames = total := by
  rcases run_eq_ok h with ⟨hnil, -⟩ | ⟨sheets, w₁, b, s, -, hprep, hframes, rfl, -⟩
  · exact absurd hnil hne
  · rcases frames_eq_ok .start hframes with ⟨-, hs⟩ | ⟨j, s₁, hb, -⟩
    · have hlog := (hs.inStep hc ((leads_prepare.ok hprep).inStep hc)).log
      exact List.length_reverse.trans (hlog.trans (Nat.zero_add total))
    · exact absurd ha (by simp [ScanReport.ofLog, hb])

/-- A scan goes through no more frames than it is told. -/
theorem frames_le_total (hc : sc.plan.IsCompiled logged) (h : sc.run total o w = .ok report w') :
    report.frames ≤ total := by
  rcases run_eq_ok h with ⟨-, rfl, -⟩ | ⟨sheets, w₁, b, s, -, hprep, hframes, rfl, -⟩
  · exact Nat.zero_le total
  · have h₀ := (leads_prepare.ok hprep).inStep hc
    have hlength : (ScanReport.ofLog s.log.reverse b (tables s)).frames = s.log.length :=
      List.length_reverse
    rcases frames_eq_ok .start hframes with ⟨-, hs⟩ | ⟨j, s₁, -, -, hj, hs, hpass⟩
    · have hlog := (hs.inStep hc h₀).log
      exact Nat.le_of_eq (hlength.trans (hlog.trans (Nat.zero_add total)))
    · have hs₁ := hs.inStep hc h₀
      obtain rfl := (leads_pass_inStep hc hs₁).ok hpass
      have hlog : (sc.polled s₁).log.length = j := hs₁.log
      omega

/-- A record of the history of a scan that ends comes from a pass, after which the
    tracks only grow. -/
theorem exists_pass_of_history (hc : sc.plan.IsCompiled logged)
    (h : sc.run total o w = .ok report w') (hr : (sc.history total o w)[f]? = some r) :
    ∃ s s', sc.InStep w.tracks f s ∧ sc.pass total s = .ok (some r) s' ∧
      s'.work.tracks.Grown w'.tracks := by
  rcases run_eq_ok h with ⟨hnil, rfl, rfl⟩ | ⟨sheets, w₁, b, s, hne, hprep, hframes, rfl, rfl⟩
  · rw [history, if_pos (List.isEmpty_iff.2 hnil)] at hr
    cases hr
  · rw [history, if_neg (fun hnil => hne (List.isEmpty_iff.1 hnil)), hprep] at hr
    dsimp only at hr
    rw [hframes] at hr
    dsimp only at hr
    have h₀ := (leads_prepare.ok hprep).inStep hc
    obtain ⟨k, s₃, hs₃, hlog, htracks⟩ : ∃ k s₃, sc.Reaches total (initial w₁ sheets) k s₃ ∧
        s₃.log = s.log ∧ s₃.work.tracks = s.work.tracks := by
      rcases frames_eq_ok .start hframes with ⟨-, hs⟩ | ⟨j, s₃, -, -, -, hs, hpass⟩
      · exact ⟨_, s, hs, rfl, rfl⟩
      · obtain rfl := (leads_pass_inStep hc (hs.inStep hc h₀)).ok hpass
        exact ⟨j, s₃, hs, rfl, rfl⟩
    rw [← hlog] at hr
    obtain ⟨s₁, s₂, n, hs₁, hpass, hs₂⟩ := hs₃.exists_pass hc h₀ rfl hr
    have hin := hs₁.inStep hc h₀
    have hin₂ := ((leads_pass_inStep hc hin).ok hpass).1
    refine ⟨s₁, s₂, hin, hpass, ?_⟩
    rw [show (keep s).tracks = s.work.tracks from rfl, ← htracks]
    exact (reaches_inStep hc hin₂ hs₂).2

/-- A plan that is made from texts and a scan for it that ends, as found by running
    them. -/
theorem exists_run (sources logged : List String) (sc : Plan → Scan σ) (total : Nat)
    (o : Option Outlet) (w : Workspace σ) (P : Plan → ScanReport → Workspace σ → Bool)
    (h : ((Plan.compile sources logged).toOption.any fun p =>
      match (sc p).run total o w with
      | .ok report w' => P p report w'
      | .error _ _ => false) = true) :
    ∃ p report w', Plan.compile sources logged = .ok p ∧ (sc p).run total o w = .ok report w' ∧
      P p report w' = true := by
  obtain ⟨p, hp, h⟩ := Plan.exists_of_any_toOption h
  split at h
  · next report w' hrun => exact ⟨p, report, w', hp, hrun, h⟩
  · cases h

/-- What a scan fails with, if it fails. -/
def failure? (sc : Scan σ) (total : Nat) (o : Option Outlet) (w : Workspace σ) : Option Failure :=
  match sc.run total o w with
  | .ok _ _ => none
  | .error e _ => some e

theorem exists_of_failure? {e : Failure} (h : sc.failure? total o w = some e) :
    ∃ w', sc.run total o w = .error e w' := by
  unfold failure? at h
  split at h
  · cases h
  · next w' hrun => exact ⟨w', Option.some.inj h ▸ hrun⟩

end Scan

end Screenmark
