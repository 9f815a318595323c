/-
  Screenmark — the order of conversion rules.

  A run of conversion rules is a chain of results (`exists_chain_of_run`), and every
  chain is a run (`exists_run_of_chain`). So the rules of a plan may stand in any order
  in which those that read from each other stand as before: `run_conversions_perm`.
-/
import Screenmark.Proofs.Derivation.Commuting
import Screenmark.Proofs.Derivation.Writing
import Screenmark.Proofs.Plan.Permutation

namespace Screenmark

namespace Derivation

open Work

variable {σ : Type} {s : Settings} {frames : Nat} {o : Option Outlet} {w w' v v' : Workspace σ}
  {report report' : DerivationReport} {rules : List Rule} {ds : List (Rule × Derived)}
  {r : Rule} {d : Derived} {p q : Plan}

/-! ## What rules yield -/

/-- When its turn comes, the rule gives the result. -/
def YieldsIn (s : Settings) (frames : Nat) (o : Option Outlet) (rules : List Rule)
    (report : DerivationReport) (v : Workspace σ) (r : Rule) (d : Derived) : Prop :=
  ∃ before after report' v', rules = before ++ r :: after ∧
    before.foldlM (apply s o frames) report v = .ok report' v' ∧
    ∃ nested warnings, derive v'.tracks s.threshold r frames = .ok (d, nested, warnings)

/-- In the run of a plan, the rule gives the result when its turn comes. -/
def Yields (s : Settings) (p : Plan) (frames : Nat) (o : Option Outlet) (w : Workspace σ) (r : Rule)
    (d : Derived) : Prop :=
  YieldsIn s frames o (p.ofFamily .conversion) noReport
    { w with status := w.status.enter .deriving } r d

/-! ## Runs are chains -/

theorem yieldsIn_cons {nested : Option Nested} {warnings : List String} {e : Derived} {a : Rule}
    (hderive : derive v.tracks s.threshold a frames = .ok (e, nested, warnings))
    (happly : apply s o frames report a v = .ok report' v') :
    YieldsIn s frames o (a :: rules) report v r d ↔
      (r, d) = (a, e) ∨ YieldsIn s frames o rules report' v' r d := by
  constructor
  · rintro ⟨_ | ⟨b, before⟩, after, report'', u, hsplit, hrun, nested', warnings', hd⟩
    · obtain ⟨rfl, rfl⟩ := List.cons.inj hsplit
      cases hrun
      rw [hderive] at hd
      cases hd
      exact .inl rfl
    · obtain ⟨rfl, rfl⟩ := List.cons.inj hsplit
      rw [List.foldlM_cons, bind_apply, happly] at hrun
      exact .inr ⟨before, after, report'', u, rfl, hrun, nested', warnings', hd⟩
  · rintro (heq | ⟨before, after, report'', u, rfl, hrun, hd⟩)
    · cases heq
      exact ⟨[], rules, report, v, rfl, rfl, nested, warnings, hderive⟩
    · refine ⟨a :: before, after, report'', u, rfl, ?_, hd⟩
      rw [List.foldlM_cons, bind_apply, happly]
      exact hrun

/-- Rules that are applied one after the other make a chain of what they yield. -/
theorem exists_chain_of_foldlM (hsame : w.files.SameFolders v.files)
    (h : rules.foldlM (apply s o frames) report v = .ok report' v') :
    ∃ ds, Chain s.threshold frames (Fits o frames w) v.tracks rules ds v'.tracks ∧
      ∀ r d, YieldsIn s frames o rules report v r d ↔ (r, d) ∈ ds := by
  induction rules generalizing report v with
  | nil =>
    cases h
    refine ⟨[], .nil, fun r d => ?_⟩
    constructor
    · rintro ⟨before, after, -, -, hsplit, -⟩
      exact absurd hsplit (by simp)
    · intro hmem
      cases hmem
  | cons a rules ih =>
    rw [List.foldlM_cons] at h
    obtain ⟨report₁, v₁, happly, hrest⟩ := bind_eq_ok_iff.1 h
    obtain ⟨e, nested, warnings, hderive, hfits, htracks, hfolders⟩ := exists_of_apply happly
    obtain ⟨ds, hchain, hyields⟩ := ih (hsame.trans hfolders) hrest
    refine ⟨(a, e) :: ds, .cons ⟨nested, warnings, hderive, hfits.congr hsame.symm⟩ ?_, ?_⟩
    · rw [← htracks]
      exact hchain
    · intro r d
      rw [yieldsIn_cons hderive happly, hyields, List.mem_cons]

/-- Rules that make a chain can be applied one after the other. -/
theorem exists_foldlM_of_chain {ts : Tracks} (hsame : w.files.SameFolders v.files)
    (h : Chain s.threshold frames (Fits o frames w) v.tracks rules ds ts) :
    ∃ report' v', rules.foldlM (apply s o frames) report v = .ok report' v' := by
  induction rules generalizing report v ds with
  | nil => exact ⟨report, v, rfl⟩
  | cons a rules ih =>
    obtain ⟨e, rest, rfl, ⟨nested, warnings, hderive, hfits⟩, hrest⟩ := h.exists_of_cons
    obtain ⟨report₁, v₁, happly⟩ := exists_apply report hderive (hfits.congr hsame)
    obtain ⟨e', nested', warnings', hderive', -, htracks, hfolders⟩ := exists_of_apply happly
    rw [hderive] at hderive'
    cases hderive'
    rw [← htracks] at hrest
    rw [List.foldlM_cons, bind_apply, happly]
    exact ih (hsame.trans hfolders) hrest

theorem run_apply : run s p frames o w =
    if (p.ofFamily .conversion).isEmpty then .ok noReport w
    else (p.ofFamily .conversion).foldlM (apply s o frames) noReport
      { w with status := w.status.enter .deriving } := by
  unfold run
  split
  · rfl
  · rfl

theorem exists_chain_of_run (h : run s p frames o w = .ok report w') :
    ∃ ds, Chain s.threshold frames (Fits o frames w) w.tracks (p.ofFamily .conversion) ds
      w'.tracks ∧ ∀ r d, Yields s p frames o w r d ↔ (r, d) ∈ ds := by
  rw [run_apply] at h
  split at h
  · next hempty =>
    cases h
    have hrun : ([] : List Rule).foldlM (apply s o frames) noReport
      { w with status := w.status.enter .deriving } =
        .ok noReport { w with status := w.status.enter .deriving } := rfl
    unfold Yields
    rw [List.isEmpty_iff.1 hempty]
    refine exists_chain_of_foldlM ?_ hrun
    exact .refl w.files
  · exact exists_chain_of_foldlM (v := { w with status := w.status.enter .deriving })
      (.refl w.files) h

theorem exists_run_of_chain {ts : Tracks}
    (h : Chain s.threshold frames (Fits o frames w) w.tracks (p.ofFamily .conversion) ds ts) :
    ∃ report w', run s p frames o w = .ok report w' := by
  rw [run_apply]
  split
  · exact ⟨noReport, w, rfl⟩
  · exact exists_foldlM_of_chain (v := { w with status := w.status.enter .deriving })
      (.refl w.files) h

/-! ## Orders -/

theorem nodup_outputs_of_compile {sources logged : List String}
    (h : Plan.compile sources logged = .ok p) (f : Family) :
    ((p.ofFamily f).flatMap Rule.outputs).Nodup := by
  obtain ⟨rules, -, hrules⟩ := Plan.compile_eq_ok_iff.1 h
  obtain ⟨hnd, -, -, rfl⟩ := Plan.ofRules_eq_ok_iff.1 hrules
  exact Plan.nodup_outputs_ofFamily hnd f

/-- A run goes as well in an order that keeps the rules that read from each other. -/
theorem exists_run_of_keepsOrder (hperm : (p.ofFamily .conversion).Perm (q.ofFamily .conversion))
    (horder : KeepsOrder (p.ofFamily .conversion) (q.ofFamily .conversion))
    (hnd : ((p.ofFamily .conversion).flatMap Rule.outputs).Nodup)
    (h : run s p frames o w = .ok report w') :
    ∃ report' v', run s q frames o w = .ok report' v' ∧ v'.tracks = w'.tracks ∧
      ∀ r d, Yields s q frames o w r d ↔ Yields s p frames o w r d := by
  obtain ⟨ds, hchain, hyields⟩ := exists_chain_of_run h
  obtain ⟨ds', hchain', hds⟩ := hchain.perm hperm horder hnd
  obtain ⟨report', v', hrun⟩ := exists_run_of_chain hchain'
  obtain ⟨es, hes, hyields'⟩ := exists_chain_of_run hrun
  obtain ⟨rfl, htracks⟩ := hchain'.unique hes
  refine ⟨report', v', hrun, htracks.symm, fun r d => ?_⟩
  rw [hyields', hyields, hds.mem_iff]

/-- **Conversion rules that do not read from each other commute.** The conversion rules
    of a plan stand in another order, in which of two rules of which one reads what the
    other puts out the same one stands first. Then both runs succeed or neither does;
    every rule yields the same, and the tracks are the same at the end. -/
theorem run_conversions_perm {sources logged : List String}
    (hp : Plan.compile sources logged = .ok p)
    (hperm : (p.ofFamily .conversion).Perm (q.ofFamily .conversion))
    (horder : KeepsOrder (p.ofFamily .conversion) (q.ofFamily .conversion)) (s : Settings)
    (frames : Nat) (o : Option Outlet) (w : Workspace σ) :
    ((∃ report w₁, run s p frames o w = .ok report w₁) ↔
      ∃ report w₂, run s q frames o w = .ok report w₂) ∧
    ∀ report w₁ report' w₂, run s p frames o w = .ok report w₁ →
      run s q frames o w = .ok report' w₂ →
        w₁.tracks = w₂.tracks ∧
        (∀ r ∈ p.ofFamily .conversion, ∃ d, Yields s p frames o w r d) ∧
        ∀ r d, Yields s p frames o w r d ↔ Yields s q frames o w r d := by
  have hnd := nodup_outputs_of_compile hp .conversion
  refine ⟨⟨?_, ?_⟩, ?_⟩
  · rintro ⟨report, w₁, hrun⟩
    obtain ⟨report', w₂, hrun', -⟩ := exists_run_of_keepsOrder hperm horder hnd hrun
    exact ⟨report', w₂, hrun'⟩
  · rintro ⟨report', w₂, hrun'⟩
    have hnd' := (hperm.flatMap_right Rule.outputs).nodup_iff.1 hnd
    obtain ⟨ds, hchain, -⟩ := exists_chain_of_run hrun'
    have horder' := horder.symm hperm
      (hperm.nodup_iff.2 (nodup_of_outputs hchain.outputs_ne_nil hnd'))
    obtain ⟨report, w₁, hrun, -⟩ := exists_run_of_keepsOrder hperm.symm horder' hnd' hrun'
    exact ⟨report, w₁, hrun⟩
  · intro report w₁ report' w₂ hrun hrun'
    obtain ⟨ds, hchain, hyields⟩ := exists_chain_of_run hrun
    obtain ⟨report'', w₃, hrun'', htracks, hsame⟩ :=
      exists_run_of_keepsOrder hperm horder hnd hrun
    rw [hrun'] at hrun''
    cases hrun''
    refine ⟨htracks.symm, fun r hr => ?_, fun r d => (hsame r d).symm⟩
    obtain ⟨d, hd⟩ := hchain.exists_mem r hr
    exact ⟨d, (hyields r d).2 hd⟩

/-- Two frames with a logo in the first one, and a title in the second one. -/
def logged : Workspace Unit where
  world := ()
  files := .empty
  tracks := ((Tracks.empty Settings.defaultThreshold).insert "logo"
    (.ofSeries (.numbers #[.one, .zero]) .logged)).insert "title"
      (.ofSeries (.texts #[" ", "Level 1"]) .logged)
  status := .initial

/-- The logged logo is read before a rule puts another one in its place; the heading, which
    reads neither of them, may stand first or last. -/
theorem run_conversions_perm_of_heading : ∃ p q report w₁ report' w₂,
    Plan.compile ["shown=eval(logo)", "logo=eval(title)",
      "during(title)\x7bheading=matchFirstValueOf(title)\x7d"] ["logo", "title"] = .ok p ∧
    Plan.compile ["during(title)\x7bheading=matchFirstValueOf(title)\x7d", "shown=eval(logo)",
      "logo=eval(title)"] ["logo", "title"] = .ok q ∧
    (p.ofFamily .conversion).Perm (q.ofFamily .conversion) ∧
    KeepsOrder (p.ofFamily .conversion) (q.ofFamily .conversion) ∧
    run .default p 2 none logged = .ok report w₁ ∧ run .default q 2 none logged = .ok report' w₂ ∧
    w₁.tracks.series? "shown" = some (.numbers #[.one, .zero]) ∧
    w₁.tracks.series? "logo" = some (.numbers #[.zero, .one]) ∧ w₁.tracks = w₂.tracks := by
  have hrun : ((Plan.compile ["shown=eval(logo)", "logo=eval(title)",
      "during(title)\x7bheading=matchFirstValueOf(title)\x7d"] ["logo", "title"]).toOption.any
      fun p => (Plan.compile ["during(title)\x7bheading=matchFirstValueOf(title)\x7d",
        "shown=eval(logo)", "logo=eval(title)"] ["logo", "title"]).toOption.any fun q =>
        decide ((p.ofFamily .conversion).Perm (q.ofFamily .conversion) ∧
          KeepsOrder (p.ofFamily .conversion) (q.ofFamily .conversion)) &&
        match run .default p 2 none logged with
        | .ok _ w₁ => w₁.tracks.series? "shown" = some (.numbers #[.one, .zero]) ∧
            w₁.tracks.series? "logo" = some (.numbers #[.zero, .one])
        | .error _ _ => false) = true := by decide +kernel
  obtain ⟨p, hp, hrun⟩ := Plan.exists_of_any_toOption hrun
  obtain ⟨q, hq, hrun⟩ := Plan.exists_of_any_toOption hrun
  obtain ⟨horder, hrun⟩ := Bool.and_eq_true_iff.1 hrun
  obtain ⟨hperm, horder⟩ := of_decide_eq_true horder
  split at hrun
  · next report w₁ hp₁ =>
    obtain ⟨hok, hsame⟩ := run_conversions_perm hp hperm horder .default 2 none logged
    obtain ⟨report', w₂, hq₂⟩ := hok.1 ⟨report, w₁, hp₁⟩
    obtain ⟨hshown, hlogo⟩ := of_decide_eq_true hrun
    exact ⟨p, q, report, w₁, report', w₂, hp, hq, hperm, horder, hp₁, hq₂, hshown, hlogo,
      (hsame report w₁ report' w₂ hp₁ hq₂).1⟩
  · cases hrun

end Derivation

end Screenmark
