/-
  Screenmark — the turns of rules.

  In a run the rules that work frame by frame have their turn first, then those for events,
  and the conversions last. A plan keeps this order, except that a rule for events may be
  guarded by what a conversion puts out. Such a rule, and one guarded by a rule for events
  that does not stand before it, lacks its guard when its turn comes, and the run fails:
  `turn_le_iff_of_compile`.
-/
import Screenmark.Proofs.Plan.Coherence
import Screenmark.Proofs.Session.Hooks
import Screenmark.Proofs.Session.Phases

namespace Screenmark

/-- When the rules of a family have their turn in a run. -/
def Family.turn : Family → Nat
  | .extraction | .accessibility => 0
  | .inputHook => 1
  | .conversion => 2

/-- A plan lets no rule depend on a later turn, but for events on conversions. -/
theorem Plan.IsCompiled.turn_le_iff {logged : List String} {p : Plan} (hc : p.IsCompiled logged)
    {r q : Rule} {d : String} (hr : r ∈ p.rules) (hd : d ∈ r.namedDependencies)
    (hl : d ∉ logged) (hq : q ∈ p.rules) (hdq : d ∈ q.outputs) :
    q.family.turn ≤ r.family.turn ↔ ¬ (r.family = .inputHook ∧ q.family = .conversion) := by
  have hturn : ∀ {a b : Family}, (a.isPerFrame = true → b.isPerFrame = true) →
      (b.turn ≤ a.turn ↔ ¬ (a = .inputHook ∧ b = .conversion)) := by
    intro a b
    rcases a with _ | _ | _ | _ <;> rcases b with _ | _ | _ | _ <;> decide
  have hmet := ((dependencyFault?_eq_none_iff hc.nodup_outputs).1 (hc.met r hr d hd)).2 hl
  exact hturn fun hf => hmet hf q hq hdq

namespace Session

variable {σ : Type} {s : Session σ} {rules logged : List String} {before : List Rule} {r q : Rule}
  {v w w' : Workspace σ} {p : Plan} {d n : String}

/-! ## The turn of a rule for events -/

/-- Asks for the events. -/
def readEvents (events : Tree → σ → Except Failure (List Event) × σ) : Work σ (List Event) := do
  Work.ofExcept (← use (events (← get).files))

/-- In the run of the session the rule for events has its turn, behind those before it. -/
def HasTurn (s : Session σ) (rules : List String) (before : List Rule) (r : Rule)
    (v : Workspace σ) : Prop :=
  ∃ u w m w₁ events es w₂ after done, s.setUp rules s.work = .ok u w ∧
    s.survey u w = .ok m w₁ ∧ m.aborted = false ∧ s.instruments.events = some events ∧
    readEvents events { w₁ with status := w₁.status.enter .inputHooks } = .ok es w₂ ∧
    u.scan.plan.ofFamily .inputHook = before ++ r :: after ∧
    before.foldlM (s.applyHook u.outlet u.shape.frames u.shape.width u.shape.height es) (0, []) w₂ =
      .ok done v

theorem keepsTracks_readEvents (events : Tree → σ → Except Failure (List Event) × σ) :
    Work.KeepsTracks (readEvents events) :=
  Work.KeepsTracks.get.bind fun _ => (Work.KeepsTracks.use _).bind fun _ => .ofExcept _

/-- Each of the rules for events of a plan puts out its operand. -/
theorem outputs_of_mem_inputHooks (hp : Plan.compile rules logged = .ok p)
    (hr : r ∈ p.ofFamily .inputHook) : r.outputs = [r.operands.headD ""] := by
  obtain ⟨hmem, hfamily⟩ := List.mem_filter.1 hr
  obtain ⟨source, -, hread⟩ := Plan.exists_read_of_compile hp hmem
  exact Rule.outputs_of_read_of_inputHook hread (of_decide_eq_true hfamily)

theorem HasTurn.mem_inputHooks (h : s.HasTurn rules before r v)
    (hp : Plan.compile rules s.work.tracks.loggedNames = .ok p) :
    r ∈ p.ofFamily .inputHook ∧ ∀ b ∈ before, b ∈ p.ofFamily .inputHook := by
  obtain ⟨u, w, m, w₁, events, es, w₂, after, done, hsetUp, -, -, -, -, hrules, -⟩ := h
  obtain rfl := Except.ok.inj ((isSetUp_of_setUp hsetUp).compiled.symm.trans hp)
  rw [hrules]
  exact ⟨List.mem_append_right _ List.mem_cons_self, fun b hb => List.mem_append_left _ hb⟩

/-- A track is missing at the turn of a rule if it was before the run, and neither the scan
    nor a rule for events before this one puts it out. -/
theorem HasTurn.find?_eq_none_iff (h : s.HasTurn rules before r v)
    (hp : Plan.compile rules s.work.tracks.loggedNames = .ok p) : v.tracks.find? n = none ↔
      s.work.tracks.find? n = none ∧ (∀ t ∈ p.targets, t.name ≠ n) ∧
        ∀ b ∈ before, n ∉ b.outputs := by
  have houtputs : ∀ b ∈ before, b.outputs = [b.operands.headD ""] := fun b hb =>
    outputs_of_mem_inputHooks hp ((h.mem_inputHooks hp).2 b hb)
  obtain ⟨u, w, m, w₁, events, es, w₂, after, done, hsetUp, hsurvey, -, -, hread, -, happlied⟩ := h
  have hu := isSetUp_of_setUp hsetUp
  obtain rfl : u.scan.plan = p := Except.ok.inj (hu.compiled.symm.trans hp)
  obtain ⟨report, w₀, hs⟩ := exists_isSurveyed_of_survey hsurvey
  have hc := Plan.isCompiled_of_compile hp
  rw [find?_eq_none_iff_of_applyHooks houtputs happlied, keepsTracks_readEvents _ _ _ _ hread]
  by_cases htarget : ∃ t ∈ u.scan.targets, t.name = n
  · obtain ⟨t, ht, rfl⟩ := htarget
    obtain ⟨track, htrack⟩ := hs.exists_find? hc ht
    refine iff_of_false ?_ fun hnone => hnone.2.1 t ht rfl
    rintro ⟨hnone, -⟩
    rw [htrack] at hnone
    cases hnone
  · have hno : ∀ t ∈ u.scan.targets, t.name ≠ n := fun t ht hname => htarget ⟨t, ht, hname⟩
    rw [hs.find?_eq hc hno, hu.tracks]
    exact and_congr_right fun _ => (and_iff_right hno).symm

/-- What a rule of the plan puts out is missing at a turn if it was before the run, and the
    rule has its own turn later. -/
theorem HasTurn.lacks_iff (h : s.HasTurn rules before r v)
    (hp : Plan.compile rules s.work.tracks.loggedNames = .ok p) (hq : q ∈ p.rules)
    (hdq : d ∈ q.outputs) : v.tracks.find? d = none ↔ s.work.tracks.find? d = none ∧
      (q.family = .conversion ∨ q.family = .inputHook ∧ q ∉ before) := by
  have hc := Plan.isCompiled_of_compile hp
  have hhook : ∀ b ∈ before, b ∈ p.rules ∧ b.family = .inputHook := fun b hb =>
    (List.mem_filter.1 ((h.mem_inputHooks hp).2 b hb)).imp_right of_decide_eq_true
  have htargets : (∀ t ∈ p.targets, t.name ≠ d) ↔ q.family.isPerFrame = false := by
    constructor
    · intro hno
      refine Bool.eq_false_iff.2 fun hf => ?_
      obtain ⟨t, ht, hname⟩ := hc.exists_target_of_output hq hf hdq
      exact hno t ht hname
    · exact fun hf t ht => hc.name_ne hq hf hdq ht
  -- No other rule puts the name out, so it is there only if this one stands before.
  have hbefore : (∀ b ∈ before, d ∉ b.outputs) ↔ q ∉ before := by
    constructor
    · exact fun hno hmem => hno q hmem hdq
    · intro hnot b hb hdb
      obtain rfl := Plan.eq_of_mem_outputs hc.nodup_outputs (hhook b hb).1 hq hdb hdq
      exact hnot hb
  have hconversion : q.family = .conversion → q ∉ before := by
    intro hqf hmem
    rw [(hhook q hmem).2] at hqf
    cases hqf
  rw [h.find?_eq_none_iff hp, htargets, hbefore]
  refine and_congr_right fun _ => ?_
  rcases hqf : q.family with _ | _ | _ | _ <;> simp [Family.isPerFrame, hconversion, hqf]

/-! ## Rules that lack their guard -/

theorem applyHooks_eq {o : Outlet} {frames width height : Nat}
    {events : Tree → σ → Except Failure (List Event) × σ} (hne : p.ofFamily .inputHook ≠ [])
    (hevents : s.instruments.events = some events) :
    s.applyHooks p o frames width height = (do
      let es ← readEvents events
      (p.ofFamily .inputHook).foldlM (s.applyHook o frames width height es) (0, [])) := by
  unfold applyHooks readEvents
  rw [hevents]
  simp only [List.isEmpty_iff, if_neg hne, bind_assoc]

theorem applyHook_eq_error {o : Outlet} {frames width height : Nat} {es : List Event}
    {done : Nat × List String} {e : Failure} (h : s.hookGate v.tracks frames r = .error e) :
    s.applyHook o frames width height es done r v = .error e v := by
  unfold applyHook
  rw [bind_apply, get_apply]
  dsimp only
  rw [h]
  rfl

/-- A run fails at the turn of a rule that lacks its guard. -/
theorem HasTurn.run_eq_error (h : s.HasTurn rules before r v) (htest : r.test = some .during)
    (hdep : r.dependencies = [d]) (hnone : v.tracks.series? d = none) :
    (s.run rules).1 = .error (.unresolved r.source d) := by
  obtain ⟨u, w, m, w₁, events, es, w₂, after, done, hsetUp, hsurvey, hgoes, hevents, hread, hrules,
    happlied⟩ := h
  have hhooks : s.applyHooks u.scan.plan u.outlet u.shape.frames u.shape.width u.shape.height
      { w₁ with status := w₁.status.enter .inputHooks } = .error (.unresolved r.source d) v := by
    rw [applyHooks_eq (by simp [hrules]) hevents, bind_apply, hread]
    dsimp only
    rw [hrules, List.foldlM_append, bind_apply, happlied]
    dsimp only
    rw [List.foldlM_cons, bind_apply, applyHook_eq_error (hookGate_of_none htest hdep hnone)]
  have hphases : s.phases rules s.work = .error (.unresolved r.source d) v := by
    rw [phases_eq, bind_apply, hsetUp]
    dsimp only
    rw [bind_apply, hsurvey]
    dsimp only
    rw [if_neg (Bool.eq_false_iff.1 hgoes), finish, bind_apply, Work.enter, modify_apply]
    dsimp only
    rw [bind_apply, hhooks]
  rw [run, Session.after, hphases]

/-! ## Plans -/

/-- **Plans and the turns of rules.** A rule of a plan depends on a name that is not logged
    and that a rule puts out. Then that rule does not have a later turn, unless the first one
    is for events and the other one a conversion. And when the turn of a rule for events
    comes in a run, the run fails for want of the name exactly if there was no such track
    before, and the rule that puts it out is a conversion, or is for events as well and does
    not stand before. -/
theorem turn_le_iff_of_compile (hp : Plan.compile rules logged = .ok p) (hr : r ∈ p.rules)
    (hd : d ∈ r.namedDependencies) (hl : d ∉ logged) (hq : q ∈ p.rules) (hdq : d ∈ q.outputs) :
    (q.family.turn ≤ r.family.turn ↔ ¬ (r.family = .inputHook ∧ q.family = .conversion)) ∧
    ∀ (s : Session σ) (before : List Rule) (v : Workspace σ),
      s.work.tracks.loggedNames = logged → s.HasTurn rules before r v →
      (v.tracks.series? d = none ∧ (s.run rules).1 = .error (.unresolved r.source d) ↔
        s.work.tracks.series? d = none ∧
          (q.family = .conversion ∨ q.family = .inputHook ∧ q ∉ before)) := by
  have hc := Plan.isCompiled_of_compile hp
  refine ⟨hc.turn_le_iff hr hd hl hq hdq, fun s before v hlogged hturn => ?_⟩
  subst hlogged
  obtain ⟨hturn_r, -⟩ := hturn.mem_inputHooks hp
  have hfamily := of_decide_eq_true (List.mem_filter.1 hturn_r).2
  obtain ⟨htest, hdep⟩ := (hc.sound r hr).guard_of_inputHook hfamily hd
  simp only [Tracks.series?, Option.map_eq_none_iff]
  rw [← hturn.lacks_iff hp hq hdq]
  constructor
  · rintro ⟨hnone, -⟩
    exact hnone
  · intro hnone
    exact ⟨hnone, hturn.run_eq_error htest hdep (by rw [Tracks.series?, hnone]; rfl)⟩

/-- A recording of one frame at which `on` was logged, and nothing was typed. -/
def quiet : Session Unit where
  settings := { Settings.default with fps := some Binary.one, outputs := .none }
  dataFolder := "data"
  stem := "rec"
  instruments := { Instruments.none with events := some fun _ w => (.ok [], w) }
  firstMinute := none
  stopped := false
  work := ⟨(), .empty, (Tracks.empty Settings.defaultThreshold).insert "on"
    (.ofSeries (.numbers #[.one]) .logged), .initial⟩

/-- Typed words, guarded by what is only derived later. -/
def guardedEarly : List String := ["during(shown)\x7btypedWords(word)\x7d", "shown=eval(on)"]

/-- The rule has its turn without its guard. -/
theorem turn_le_iff_of_compile_of_guardedEarly : ∃ p r q v,
    Plan.compile guardedEarly ["on"] = .ok p ∧ r ∈ p.rules ∧ "shown" ∈ r.namedDependencies ∧
    q ∈ p.rules ∧ "shown" ∈ q.outputs ∧ ¬ q.family.turn ≤ r.family.turn ∧
    quiet.work.tracks.loggedNames = ["on"] ∧ quiet.HasTurn guardedEarly [] r v ∧
    (quiet.run guardedEarly).1 = .error (.unresolved r.source "shown") := by
  have hrun : (match quiet.setUp guardedEarly quiet.work with
      | .ok u w => match quiet.survey u w with
        | .ok m _ => !m.aborted && u.scan.plan.rules.any fun r => u.scan.plan.rules.any fun q =>
          decide (u.scan.plan.ofFamily .inputHook = [r] ∧ r.family = .inputHook ∧
            "shown" ∈ r.namedDependencies ∧ q.family = .conversion ∧ "shown" ∈ q.outputs)
        | .error _ _ => false
      | .error _ _ => false) = true := by decide +kernel
  have hlogged : quiet.work.tracks.loggedNames = ["on"] := by decide +kernel
  have hshown : quiet.work.tracks.series? "shown" = none := by decide +kernel
  split at hrun
  · next u w hsetUp =>
    split at hrun
    · next m w₁ hsurvey =>
      obtain ⟨hgoes, hrun⟩ := Bool.and_eq_true_iff.1 hrun
      obtain ⟨r, hr, hrun⟩ := List.any_eq_true.1 hrun
      obtain ⟨q, hq, hrun⟩ := List.any_eq_true.1 hrun
      obtain ⟨hhooks, hrf, hd, hqf, hdq⟩ := of_decide_eq_true hrun
      have hp := (isSetUp_of_setUp hsetUp).compiled
      rw [hlogged] at hp
      have hturn : quiet.HasTurn guardedEarly [] r
          { w₁ with status := w₁.status.enter .inputHooks } :=
        ⟨u, w, m, w₁, _, [], _, [], (0, []), hsetUp, hsurvey, by simpa using hgoes, rfl,
          rfl, hhooks, rfl⟩
      obtain ⟨hle, hfails⟩ := turn_le_iff_of_compile hp hr hd (by decide) hq hdq
      exact ⟨_, r, q, _, hp, hr, hd, hq, hdq, fun h => hle.1 h ⟨hrf, hqf⟩, hlogged, hturn,
        ((hfails quiet [] _ hlogged hturn).2 ⟨hshown, .inl hqf⟩).2⟩
    · cases hrun
  · cases hrun

/-- **A plan may depend on a later turn.** The rule for typed words is guarded by what a
    conversion puts out; the plan is made, and the run fails at the turn of the rule. -/
theorem fails_for_later_conversion : ∃ p r q s', Plan.compile guardedEarly ["on"] = .ok p ∧
    r ∈ p.rules ∧ q ∈ p.rules ∧ "shown" ∈ r.namedDependencies ∧ "shown" ∈ q.outputs ∧
    r.family = .inputHook ∧ q.family = .conversion ∧
    quiet.run guardedEarly = (.error (.unresolved r.source "shown"), s') ∧
    s'.work.status.shown.head? = some .failed ∧ s'.work.status.shown[1]? = some .inputHooks := by
  have hrun : ((Plan.compile guardedEarly ["on"]).toOption.any fun p => p.rules.any fun r =>
      p.rules.any fun q => decide ("shown" ∈ r.namedDependencies ∧ "shown" ∈ q.outputs ∧
        r.family = .inputHook ∧ q.family = .conversion) &&
        match quiet.run guardedEarly with
        | (.error e, s') => decide (e = .unresolved r.source "shown" ∧
            s'.work.status.shown.head? = some .failed ∧
            s'.work.status.shown[1]? = some .inputHooks)
        | (.ok _, _) => false) = true := by decide +kernel
  obtain ⟨p, hp, hrun⟩ := Plan.exists_of_any_toOption hrun
  obtain ⟨r, hr, hrun⟩ := List.any_eq_true.1 hrun
  obtain ⟨q, hq, hrun⟩ := List.any_eq_true.1 hrun
  obtain ⟨hrules, hrun⟩ := Bool.and_eq_true_iff.1 hrun
  obtain ⟨hd, hdq, hrf, hqf⟩ := of_decide_eq_true hrules
  split at hrun
  · next e s' hs' =>
    obtain ⟨rfl, hfailed, hphase⟩ := of_decide_eq_true hrun
    exact ⟨p, r, q, s', hp, hr, hq, hd, hdq, hrf, hqf, hs', hfailed, hphase⟩
  · cases hrun

end Session

end Screenmark
