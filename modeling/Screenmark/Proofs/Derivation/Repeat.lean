/-
  Screenmark — deriving again.

  Rules that read only what stands before them find, when they are applied again, what
  they read the first time: what a rule reads is not written any more once its turn has
  come (`Chain.find?_eq`), and its result stands where it puts it (`Chain.again`). So a
  second run gives the same results and leaves the tracks as they are: `run_again`.
-/
import Screenmark.Proofs.Derivation.Order

namespace Screenmark

namespace Derivation

variable {threshold : Single} {frames : Nat} {fits fits' : Rule → Derived → Option Nested → Prop}
  {ts ts' : Tracks} {r : Rule} {d : Derived} {rules : List Rule} {ds : List (Rule × Derived)}
  {n : String} {ns : List String}

/-! ## Rules that read only what stands before them -/

/-- No rule reads what it puts out itself, or what a later one puts out. -/
structure ReadsBack (rules : List Rule) : Prop where
  own : ∀ r ∈ rules, ¬ r.ReadsFrom r
  later : rules.Pairwise fun a b => ¬ a.ReadsFrom b

instance (rules : List Rule) : Decidable (ReadsBack rules) :=
  decidable_of_iff ((∀ r ∈ rules, ¬ r.ReadsFrom r) ∧ rules.Pairwise fun a b => ¬ a.ReadsFrom b)
    ⟨fun h => ⟨h.1, h.2⟩, fun h => ⟨h.own, h.later⟩⟩

theorem ReadsBack.head (h : ReadsBack (r :: rules)) : ∀ b ∈ r :: rules, ¬ r.ReadsFrom b :=
  List.forall_mem_cons.2 ⟨h.own r List.mem_cons_self, (List.pairwise_cons.1 h.later).1⟩

theorem ReadsBack.tail (h : ReadsBack (r :: rules)) : ReadsBack rules :=
  ⟨fun a ha => h.own a (List.mem_cons_of_mem r ha), (List.pairwise_cons.1 h.later).2⟩

/-! ## What a chain leaves -/

theorem Chain.mono (hfits : ∀ r d nested, fits r d nested → fits' r d nested)
    (h : Chain threshold frames fits ts rules ds ts') :
    Chain threshold frames fits' ts rules ds ts' := by
  induction h with
  | nil => exact .nil
  | cons hgives _ ih =>
    obtain ⟨nested, warnings, hderive, hf⟩ := hgives
    exact .cons ⟨nested, warnings, hderive, hfits _ _ _ hf⟩ ih

theorem Chain.threshold_eq (h : Chain threshold frames fits ts rules ds ts') :
    ts'.threshold = ts.threshold := by
  induction h with
  | nil => rfl
  | cons _ _ ih => exact ih

/-- Rules leave the tracks that none of them puts out. -/
theorem Chain.find?_eq (h : Chain threshold frames fits ts rules ds ts')
    (hn : ∀ b ∈ rules, n ∉ b.outputs) : ts'.find? n = ts.find? n := by
  induction h with
  | nil => rfl
  | cons hgives _ ih =>
    rw [List.forall_mem_cons, hgives.outputs, List.mem_singleton] at hn
    rw [ih hn.2, Tracks.find?_insert, if_neg (Ne.symm hn.1)]

theorem Chain.agree (h : Chain threshold frames fits ts rules ds ts')
    (hns : ∀ b ∈ rules, ∀ n ∈ b.outputs, n ∉ ns) : Tracks.Agree ns ts ts' := by
  refine ⟨h.threshold_eq.symm, fun n hn => ?_⟩
  rw [Tracks.series?, Tracks.series?, h.find?_eq fun b hb hnb => hns b hb n hnb hn]

/-- **The same results again.** Rules that read only what stands before them give the same
    over the tracks with their results, which stay as they are. -/
theorem Chain.again (h : Chain threshold frames fits ts rules ds ts') (hback : ReadsBack rules)
    (hnd : (rules.flatMap Rule.outputs).Nodup) :
    Chain threshold frames fits ts' rules ds ts' := by
  induction h with
  | nil => exact .nil
  | @cons ts ts' r d rules ds hgives hrest ih =>
    rw [List.flatMap_cons, hgives.outputs, List.singleton_append, List.nodup_cons] at hnd
    have hagree : Tracks.Agree r.reads ts ts' :=
      (Chain.cons hgives hrest).agree fun b hb n hnb hn => hback.head b hb ⟨n, hnb, hn⟩
    have hkept : ts'.find? d.name = (ts.insert d.name d.track).find? d.name :=
      hrest.find?_eq fun b hb hn => hnd.1 (List.mem_flatMap.2 ⟨b, hb, hn⟩)
    rw [Tracks.find?_insert, if_pos rfl] at hkept
    refine .cons (hgives.congr hagree) ?_
    rw [Tracks.insert_eq_self hkept]
    exact ih hback.tail hnd.2

/-! ## What is counted -/

/-- A report counts some results beside those of an earlier report. -/
structure Counts (before : DerivationReport) (ds : List (Rule × Derived))
    (report : DerivationReport) : Prop where
  rules : report.rules = ds.foldl (fun n _ => n + 1) before.rules
  segments : report.segments = ds.foldl (fun n e => n + e.2.segments.length) before.segments
  failures : report.failures = ds.foldl (fun n e => n + e.2.failures) before.failures

open Work

variable {σ : Type} {s : Settings} {o : Option Outlet} {w w' v v' : Workspace σ}
  {report report' : DerivationReport} {p : Plan}

theorem counts_of_apply {nested : Option Nested} {warnings : List String}
    (h : apply s o frames report r w = .ok report' w')
    (hderive : derive w.tracks s.threshold r frames = .ok (d, nested, warnings)) :
    Counts report [(r, d)] report' := by
  rw [apply_eq, bind_apply, get_apply] at h
  obtain ⟨_, u, hx, htold⟩ := bind_eq_ok_iff.1 h
  obtain ⟨hd, rfl⟩ := ofExcept_eq_ok_iff.1 hx
  rw [hderive] at hd
  cases hd
  obtain ⟨_, u₁, -, hwritten⟩ := bind_eq_ok_iff.1 htold
  obtain ⟨files, u₂, -, hput⟩ := bind_eq_ok_iff.1 hwritten
  cases hput
  exact ⟨rfl, rfl, rfl⟩

theorem counts_of_foldlM (h : rules.foldlM (apply s o frames) report v = .ok report' v')
    (hchain : Chain s.threshold frames fits v.tracks rules ds ts') : Counts report ds report' := by
  induction rules generalizing report v ds with
  | nil =>
    cases h
    cases hchain
    exact ⟨rfl, rfl, rfl⟩
  | cons a rules ih =>
    rw [List.foldlM_cons] at h
    obtain ⟨report₁, v₁, happly, hfold⟩ := bind_eq_ok_iff.1 h
    obtain ⟨e, nested, warnings, hderive, -, htracks, -⟩ := exists_of_apply happly
    obtain ⟨d, rest, rfl, ⟨nested', warnings', hderive', -⟩, hrest⟩ := hchain.exists_of_cons
    rw [hderive] at hderive'
    cases hderive'
    rw [← htracks] at hrest
    have hone := counts_of_apply happly hderive
    have hrest := ih hfold hrest
    refine ⟨?_, ?_, ?_⟩
    · rw [hrest.rules, hone.rules]
      rfl
    · rw [hrest.segments, hone.segments]
      rfl
    · rw [hrest.failures, hone.failures]
      rfl

theorem counts_of_run (h : run s p frames o w = .ok report w')
    (hchain : Chain s.threshold frames fits w.tracks (p.ofFamily .conversion) ds ts') :
    Counts noReport ds report := by
  rw [run_apply] at h
  split at h
  · next hempty =>
    cases h
    rw [List.isEmpty_iff.1 hempty] at hchain
    cases hchain
    exact ⟨rfl, rfl, rfl⟩
  · exact counts_of_foldlM (v := { w with status := w.status.enter .deriving }) h hchain

/-! ## A second run -/

theorem sameFolders_of_foldlM (h : rules.foldlM (apply s o frames) report v = .ok report' v') :
    v.files.SameFolders v'.files := by
  induction rules generalizing report v with
  | nil =>
    cases h
    exact .refl _
  | cons a rules ih =>
    rw [List.foldlM_cons] at h
    obtain ⟨report₁, v₁, happly, hfold⟩ := bind_eq_ok_iff.1 h
    obtain ⟨-, -, -, -, -, -, hfolders⟩ := exists_of_apply happly
    exact hfolders.trans (ih hfold)

theorem sameFolders_of_run (h : run s p frames o w = .ok report w') :
    w.files.SameFolders w'.files := by
  rw [run_apply] at h
  split at h
  · cases h
    exact .refl w.files
  · exact sameFolders_of_foldlM (v := { w with status := w.status.enter .deriving }) h

/-- **Deriving again changes nothing.** No conversion rule of a plan reads what it puts out
    itself, or what a later one puts out. Then, after a run that succeeds, a second one
    succeeds as well; it counts the same, every rule yields the same, and the tracks stay
    as they are. -/
theorem run_again {sources logged : List String} (hp : Plan.compile sources logged = .ok p)
    (hback : ReadsBack (p.ofFamily .conversion)) (h : run s p frames o w = .ok report w') :
    ∃ report' w'', run s p frames o w' = .ok report' w'' ∧ w''.tracks = w'.tracks ∧
      report'.rules = report.rules ∧ report'.segments = report.segments ∧
      report'.failures = report.failures ∧
      (∀ r ∈ p.ofFamily .conversion, ∃ d, Yields s p frames o w r d) ∧
      ∀ r d, Yields s p frames o w' r d ↔ Yields s p frames o w r d := by
  obtain ⟨ds, hchain, hyields⟩ := exists_chain_of_run h
  have hagain : Chain s.threshold frames (Fits o frames w') w'.tracks (p.ofFamily .conversion) ds
      w'.tracks :=
    (hchain.again hback (nodup_outputs_of_compile hp .conversion)).mono
      fun r d nested hfits => hfits.congr (sameFolders_of_run h)
  obtain ⟨report', w'', hrun⟩ := exists_run_of_chain hagain
  obtain ⟨es, hes, hyields'⟩ := exists_chain_of_run hrun
  obtain ⟨rfl, htracks⟩ := hagain.unique hes
  have hcounts := counts_of_run h hchain
  have hcounts' := counts_of_run hrun hagain
  refine ⟨report', w'', hrun, htracks.symm, ?_, ?_, ?_, fun r hr => ?_, fun r d => ?_⟩
  · rw [hcounts'.rules, hcounts.rules]
  · rw [hcounts'.segments, hcounts.segments]
  · rw [hcounts'.failures, hcounts.failures]
  · obtain ⟨d, hd⟩ := hchain.exists_mem r hr
    exact ⟨d, (hyields r d).2 hd⟩
  · rw [hyields', hyields]

/-- A heading, the frames with a heading but without the logo, and both of them nested: each
    rule reads what those before it put out. -/
theorem run_again_of_heading : ∃ p report w₁ report' w₂,
    Plan.compile ["during(title)\x7bheading=matchFirstValueOf(title)\x7d",
      "shown=eval(!(logo)&&heading)", "nested=nestByLastVariable(heading,shown)"]
      ["logo", "title"] = .ok p ∧
    ReadsBack (p.ofFamily .conversion) ∧
    run .default p 2 none logged = .ok report w₁ ∧ report.rules = 3 ∧ report.segments = 3 ∧
    run .default p 2 none w₁ = .ok report' w₂ ∧ w₂.tracks = w₁.tracks ∧ report'.rules = 3 ∧
    report'.segments = 3 := by
  have hrun : ((Plan.compile ["during(title)\x7bheading=matchFirstValueOf(title)\x7d",
      "shown=eval(!(logo)&&heading)", "nested=nestByLastVariable(heading,shown)"]
      ["logo", "title"]).toOption.any fun p =>
        decide (ReadsBack (p.ofFamily .conversion)) &&
        match run .default p 2 none logged with
        | .ok report _ => report.rules = 3 ∧ report.segments = 3
        | .error _ _ => false) = true := by decide +kernel
  obtain ⟨p, hp, hrun⟩ := Plan.exists_of_any_toOption hrun
  obtain ⟨hback, hrun⟩ := Bool.and_eq_true_iff.1 hrun
  split at hrun
  · next report w₁ hp₁ =>
    obtain ⟨hrules, hsegments⟩ := of_decide_eq_true hrun
    obtain ⟨report', w₂, hp₂, htracks, hrules', hsegments', -⟩ :=
      run_again hp (of_decide_eq_true hback) hp₁
    exact ⟨p, report, w₁, report', w₂, hp, of_decide_eq_true hback, hp₁, hrules, hsegments, hp₂,
      htracks, hrules'.trans hrules, hsegments'.trans hsegments⟩
  · cases hrun

end Derivation

end Screenmark
