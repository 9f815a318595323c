/-
  Screenmark — the origins of tracks behind a run.

  The scan puts in tracks that are extracted, and so do the rules for events, whose tracks
  are not worked out before the scan is over; conversions put in derived ones. Together with
  the tracks that no part of the run puts in, this gives the origin of every track behind a
  run that is done, and how many there are of each: `origins_of_run`.
-/
import Screenmark.Proofs.Derivation.Order
import Screenmark.Proofs.Scan.Prefix
import Screenmark.Proofs.Series.Origins
import Screenmark.Proofs.Session.Abort
import Screenmark.Proofs.Session.Guard
import Screenmark.Proofs.Session.Turns

namespace Screenmark

open Tracks

/-! ## Scans -/

namespace Scan

variable {σ : Type} {sc : Scan σ} {ts : Tracks} {t : Target} {total : Nat} {o : Option Outlet}
  {w w' : Workspace σ} {report : ScanReport}

theorem stamps_startTarget : ts.Stamps [t.name] .extracted (sc.startTarget ts t) where
  written n hn := by
    rw [List.mem_singleton.1 hn, originOf?, find?_startTarget_self]
    rfl
  others n hn := by
    rw [originOf?, find?_startTarget_of_ne fun h => hn (List.mem_singleton.2 h.symm), originOf?]

theorem stamps_foldl_startTarget (us : List Target) :
    ts.Stamps (us.map (·.name)) .extracted (us.foldl sc.startTarget ts) := by
  induction us generalizing ts with
  | nil => exact .refl ts .extracted
  | cons t us ih => exact stamps_startTarget.append ih

/-- A scan puts in extracted tracks, one for every target. -/
theorem stamps_of_run (h : sc.run total o w = .ok report w') :
    w.tracks.Stamps (sc.targets.map (·.name)) .extracted w'.tracks := by
  rcases run_eq_ok h with ⟨hnil, -, rfl⟩ | ⟨sheets, w₁, b, s, -, hprep, hframes, -, rfl⟩
  · rw [hnil]
    exact .refl _ _
  · have hstarted : w.tracks.Stamps (sc.targets.map (·.name)) .extracted w₁.tracks := by
      rw [(leads_prepare.ok hprep).tracks]
      exact stamps_foldl_startTarget sc.targets
    have hgrown : Continues (initial w₁ sheets) s := leads_frames_continues.ok hframes
    exact hstarted.begins hgrown.tracks

end Scan

/-! ## Conversions -/

namespace Derivation

variable {ts ts' : Tracks} {threshold : Single} {frames : Nat} {r : Rule} {d : Derived}
  {rules : List Rule} {ds : List (Rule × Derived)}
  {fits : Rule → Derived → Option Nested → Prop}

theorem origin_of_derive {nested : Option Nested} {warnings : List String}
    (h : derive ts threshold r frames = .ok (d, nested, warnings)) :
    d.track.origin = .derived := by
  unfold derive at h
  split at h
  · obtain ⟨⟨d, ws⟩, heval, heq⟩ := exists_of_map_eq_ok h
    cases heq
    obtain ⟨name, guard, -, -, heq⟩ := exists_of_eval heval
    cases heq
    rfl
  · obtain ⟨d, hfirst, heq⟩ := exists_of_map_eq_ok h
    cases heq
    obtain ⟨name, guard, s, -, -, -, rfl⟩ := exists_of_matchFirstValueOf hfirst
    rfl
  · obtain ⟨d, htrigger, heq⟩ := exists_of_map_eq_ok h
    cases heq
    obtain ⟨name, guard, s, -, -, -, rfl⟩ := exists_of_triggerBySegmentsOf htrigger
    rfl
  · obtain ⟨nested, hnest, heq⟩ := exists_of_map_eq_ok h
    cases heq
    obtain ⟨name, guard, ss, -, -, rfl⟩ := exists_of_nestByLastVariable hnest
    rfl
  · cases h

/-- A chain of results puts in derived tracks. -/
theorem Chain.stamps (h : Chain threshold frames fits ts rules ds ts') :
    ts.Stamps (rules.flatMap Rule.outputs) .derived ts' := by
  induction h with
  | nil => exact .refl _ _
  | @cons ts ts' r d rules ds hgives _ ih =>
    obtain ⟨nested, warnings, hderive, -⟩ := hgives
    rw [List.flatMap_cons, outputs_of_derive hderive]
    exact (origin_of_derive hderive ▸ stamps_insert ts d.name d.track).append ih

end Derivation

/-! ## Plans -/

namespace Plan

variable {p : Plan} {logged : List String} {n : String} {o : Origin} {ts : Tracks}

/-- What the rules of a family put out. -/
def outputsOf (p : Plan) (f : Family) : List String := (p.ofFamily f).flatMap Rule.outputs

/-- What the scan puts out. -/
def targetNames (p : Plan) : List String := p.targets.map (·.name)

/-- What a run puts out. -/
def written (p : Plan) : List String :=
  p.targetNames ++ (p.outputsOf .inputHook ++ p.outputsOf .conversion)

theorem mem_outputsOf {f : Family} :
    n ∈ p.outputsOf f ↔ ∃ r ∈ p.rules, r.family = f ∧ n ∈ r.outputs := by
  simp only [outputsOf, List.mem_flatMap, ofFamily, List.mem_filter, decide_eq_true_eq, and_assoc]

/-- What one family puts out no other one does. -/
theorem IsCompiled.family_unique (hc : p.IsCompiled logged) {f g : Family}
    (hf : n ∈ p.outputsOf f) (hg : n ∈ p.outputsOf g) : f = g := by
  obtain ⟨q, hq, rfl, hnq⟩ := mem_outputsOf.1 hf
  obtain ⟨r, hr, rfl, hnr⟩ := mem_outputsOf.1 hg
  rw [eq_of_mem_outputs hc.nodup_outputs hq hr hnq hnr]

theorem IsCompiled.not_mem_targetNames (hc : p.IsCompiled logged) {f : Family}
    (hf : f.isPerFrame = false) (hn : n ∈ p.outputsOf f) : n ∉ p.targetNames := by
  obtain ⟨r, hr, rfl, hnr⟩ := mem_outputsOf.1 hn
  intro hmem
  obtain ⟨t, ht, hname⟩ := List.mem_map.1 hmem
  exact hc.name_ne hr hf hnr ht hname

theorem IsCompiled.nodup_written (hc : p.IsCompiled logged) : p.written.Nodup := by
  have houtputs : (p.outputsOf .inputHook ++ p.outputsOf .conversion).Nodup := by
    refine List.nodup_append.2 ⟨nodup_outputs_ofFamily hc.nodup_outputs _,
      nodup_outputs_ofFamily hc.nodup_outputs _, ?_⟩
    rintro n hhook m hconversion rfl
    cases hc.family_unique hhook hconversion
  refine List.nodup_append.2 ⟨hc.nodup_names, houtputs, ?_⟩
  rintro n htarget m hm rfl
  rcases List.mem_append.1 hm with hhook | hconversion
  · exact hc.not_mem_targetNames rfl hhook htarget
  · exact hc.not_mem_targetNames rfl hconversion htarget

/-- What a run puts out is extracted, or it is a conversion that puts it out. -/
theorem mem_written : n ∈ p.written ↔
    n ∈ p.targetNames ++ p.outputsOf .inputHook ∨ n ∈ p.outputsOf .conversion := by
  rw [written, ← List.append_assoc, List.mem_append]

/-- The origin of a track as it is told: what the scan finds is extracted, what comes behind
    it is derived, and the rest was logged. -/
def toldOrigin (p : Plan) (n : String) : Origin :=
  if n ∈ p.outputsOf .conversion ∨ n ∈ p.outputsOf .inputHook then .derived
  else if n ∈ p.targetNames then .extracted
  else .logged

/-- Every track has the origin that is told of it. -/
def TellsOrigins (p : Plan) (ts : Tracks) : Prop :=
  ∀ n o, ts.originOf? n = some o → o = p.toldOrigin n

/-- The origin of a track behind a run over the given ones: also what comes from events is
    extracted, and what the run does not put out is as it was. -/
def originAfter (p : Plan) (ts : Tracks) (n : String) : Option Origin :=
  if n ∈ p.outputsOf .conversion then some .derived
  else if n ∈ p.outputsOf .inputHook ∨ n ∈ p.targetNames then some .extracted
  else ts.originOf? n

/-- The tracks of an origin that a run does not put out. -/
def kept (p : Plan) (ts : Tracks) (o : Origin) : List String :=
  (ts.namesOf o).filter fun n => n ∉ p.written

theorem mem_kept : n ∈ p.kept ts o ↔ ts.originOf? n = some o ∧ n ∉ p.written := by
  simp only [kept, List.mem_filter, mem_namesOf, decide_eq_true_eq]

theorem not_mem_written : n ∉ p.written ↔ n ∉ p.targetNames ∧ n ∉ p.outputsOf .inputHook ∧
    n ∉ p.outputsOf .conversion := by
  simp only [written, List.mem_append, not_or]

theorem originAfter_of_conversion (h : n ∈ p.outputsOf .conversion) :
    p.originAfter ts n = some .derived := if_pos h

theorem originAfter_of_not_mem (h : n ∉ p.written) : p.originAfter ts n = ts.originOf? n := by
  obtain ⟨htarget, hhook, hconversion⟩ := not_mem_written.1 h
  rw [originAfter, if_neg hconversion, if_neg (not_or.2 ⟨hhook, htarget⟩)]

theorem toldOrigin_of_not_mem (h : n ∉ p.written) : p.toldOrigin n = .logged := by
  obtain ⟨htarget, hhook, hconversion⟩ := not_mem_written.1 h
  rw [toldOrigin, if_neg (not_or.2 ⟨hconversion, hhook⟩), if_neg htarget]

theorem nodup_append_kept {ns : List String} (hnd : ns.Nodup) (hsub : ∀ n ∈ ns, n ∈ p.written) :
    (ns ++ p.kept ts o).Nodup := by
  refine List.nodup_append.2 ⟨hnd, (nodup_namesOf ts o).filter _, ?_⟩
  rintro n hn m hm rfl
  exact (mem_kept.1 hm).2 (hsub n hn)

/-- The tracks of an origin behind a run are those that it puts out with this origin and those
    that it leaves. -/
theorem count_after {us : Tracks} {ns : List String}
    (h : ∀ n, us.originOf? n = p.originAfter ts n) (hnd : ns.Nodup)
    (hsub : ∀ n ∈ ns, n ∈ p.written)
    (horigin : ∀ n ∈ p.written, n ∈ ns ↔ p.originAfter ts n = some o) :
    us.count o = ns.length + (p.kept ts o).length := by
  rw [← List.length_append]
  refine count_eq_length (nodup_append_kept hnd hsub) fun n => ?_
  rw [List.mem_append, mem_kept, h]
  by_cases hn : n ∈ p.written
  · rw [← horigin n hn]
    exact or_iff_left fun hkept => hkept.2 hn
  · rw [originAfter_of_not_mem hn]
    constructor
    · rintro (hmem | hkept)
      · exact absurd (hsub n hmem) hn
      · exact hkept.1
    · exact fun ho => .inr ⟨ho, hn⟩

namespace IsCompiled

variable (hc : p.IsCompiled logged)
include hc

theorem originAfter_of_inputHook (h : n ∈ p.outputsOf .inputHook) :
    p.originAfter ts n = some .extracted := by
  have hno : n ∉ p.outputsOf .conversion := fun hn => by cases hc.family_unique h hn
  rw [originAfter, if_neg hno, if_pos (.inl h)]

theorem originAfter_of_target (h : n ∈ p.targetNames) : p.originAfter ts n = some .extracted := by
  rw [originAfter, if_neg fun hn => hc.not_mem_targetNames rfl hn h, if_pos (.inr h)]

/-- The origins are as they are told exactly if no rule asks for events and what a run does
    not put out was logged. -/
theorem tellsOrigins_iff {us : Tracks} (h : ∀ n, us.originOf? n = p.originAfter ts n) :
    p.TellsOrigins us ↔ p.outputsOf .inputHook = [] ∧
      ∀ n o, ts.originOf? n = some o → n ∉ p.written → o = .logged := by
  constructor
  · intro htold
    refine ⟨List.eq_nil_iff_forall_not_mem.2 fun n hn => ?_, fun n o ho hn => ?_⟩
    · have horigin := htold n .extracted ((h n).trans (hc.originAfter_of_inputHook hn))
      rw [toldOrigin, if_pos (.inr hn)] at horigin
      cases horigin
    · rw [htold n o ((h n).trans ((originAfter_of_not_mem hn).trans ho)), toldOrigin_of_not_mem hn]
  · rintro ⟨hnil, hkept⟩ n o ho
    rw [h] at ho
    by_cases hn : n ∈ p.written
    · have hno : n ∉ p.outputsOf .inputHook := hnil ▸ List.not_mem_nil
      rcases List.mem_append.1 hn with htarget | hn
      · rw [hc.originAfter_of_target htarget] at ho
        cases ho
        have hconversion : n ∉ p.outputsOf .conversion := fun hn =>
          hc.not_mem_targetNames rfl hn htarget
        rw [toldOrigin, if_neg (not_or.2 ⟨hconversion, hno⟩), if_pos htarget]
      · have hconversion := (List.mem_append.1 hn).resolve_left hno
        rw [originAfter_of_conversion hconversion] at ho
        cases ho
        rw [toldOrigin, if_pos (.inl hconversion)]
    · rw [originAfter_of_not_mem hn] at ho
      rw [hkept n o ho hn, toldOrigin_of_not_mem hn]

theorem mem_conversions_iff (hn : n ∈ p.written) :
    n ∈ p.outputsOf .conversion ↔ p.originAfter ts n = some .derived := by
  refine ⟨originAfter_of_conversion, fun horigin => ?_⟩
  rcases List.mem_append.1 hn with htarget | hn
  · rw [hc.originAfter_of_target htarget] at horigin
    cases horigin
  rcases List.mem_append.1 hn with hhook | hconversion
  · rw [hc.originAfter_of_inputHook hhook] at horigin
    cases horigin
  · exact hconversion

theorem mem_extracted_iff (hn : n ∈ p.written) : n ∈ p.targetNames ++ p.outputsOf .inputHook ↔
    p.originAfter ts n = some .extracted := by
  constructor
  · intro hmem
    rcases List.mem_append.1 hmem with htarget | hhook
    · exact hc.originAfter_of_target htarget
    · exact hc.originAfter_of_inputHook hhook
  · intro horigin
    refine (mem_written.1 hn).resolve_right fun hconversion => ?_
    rw [originAfter_of_conversion hconversion] at horigin
    cases horigin

/-- How many tracks there are of each origin. -/
theorem counts_after {us : Tracks} (h : ∀ n, us.originOf? n = p.originAfter ts n) :
    us.count .logged = (p.kept ts .logged).length ∧
    us.count .extracted = p.targets.length + (p.outputsOf .inputHook).length +
      (p.kept ts .extracted).length ∧
    us.count .derived = (p.outputsOf .conversion).length + (p.kept ts .derived).length := by
  have hsplit : (p.targetNames ++ p.outputsOf .inputHook ++ p.outputsOf .conversion).Nodup :=
    List.append_assoc .. ▸ hc.nodup_written
  obtain ⟨hextracted, hderived, -⟩ := List.nodup_append.1 hsplit
  refine ⟨?_, ?_, ?_⟩
  · have hno : ∀ n ∈ p.written, n ∈ [] ↔ p.originAfter ts n = some .logged := fun n hn => by
      refine iff_of_false List.not_mem_nil fun horigin => ?_
      rcases mem_written.1 hn with hfound | hconversion
      · rw [(hc.mem_extracted_iff hn).1 hfound] at horigin
        cases horigin
      · rw [originAfter_of_conversion hconversion] at horigin
        cases horigin
    rw [count_after h List.nodup_nil (fun n hn => absurd hn List.not_mem_nil) hno,
      List.length_nil, Nat.zero_add]
  · rw [count_after h hextracted (fun n hn => mem_written.2 (.inl hn))
      fun n hn => hc.mem_extracted_iff hn, List.length_append, targetNames, List.length_map]
  · exact count_after h hderived (fun n hn => mem_written.2 (.inr hn))
      fun n hn => hc.mem_conversions_iff hn

end IsCompiled

end Plan

namespace Session

variable {σ : Type} {s s' : Session σ} {es : List Event} {o : Outlet} {c : Clock}
  {frames width height : Nat} {p : Plan} {rules logged : List String} {hooks : List Rule}
  {w w' : Workspace σ} {m m' : Summary} {done done' : Nat × List String} {sh : Shape}

/-! ## Rules for events -/

theorem origin_of_hookTrack {name : String} {r : Rule} {gate : Option (List Bool)} {t : Track}
    {segments : List Segment} (h : s.hookTrack es c frames name r gate = .ok (t, segments)) :
    t.origin = .extracted := by
  unfold hookTrack at h
  split at h
  · obtain rfl : _ = t := congrArg Prod.fst (Except.ok.inj h)
    rfl
  · obtain rfl : _ = t := congrArg Prod.fst (Except.ok.inj h)
    rfl
  · cases h

/-- Rules for events put in extracted tracks. -/
theorem stamps_of_foldlM_applyHook (houtputs : ∀ r ∈ hooks, r.outputs = [r.operands.headD ""])
    (h : hooks.foldlM (s.applyHook o frames width height es) done w = .ok done' w') :
    w.tracks.Stamps (hooks.flatMap Rule.outputs) .extracted w'.tracks := by
  induction hooks generalizing done w with
  | nil =>
    cases h
    exact .refl _ _
  | cons r hooks ih =>
    rw [List.forall_mem_cons] at houtputs
    rw [List.foldlM_cons] at h
    obtain ⟨done₁, w₁, happly, hrest⟩ := bind_eq_ok_iff.1 h
    obtain ⟨gate, t, segments, -, htrack, htracks⟩ := exists_of_applyHook happly
    have hput : w.tracks.Stamps [r.operands.headD ""] .extracted w₁.tracks := by
      rw [htracks, ← origin_of_hookTrack htrack]
      exact stamps_insert _ _ t
    rw [List.flatMap_cons, houtputs.1]
    exact hput.append (ih houtputs.2 hrest)

theorem stamps_of_applyHooks (hp : Plan.compile rules logged = .ok p)
    (h : s.applyHooks p o frames width height w = .ok done w') :
    w.tracks.Stamps (p.outputsOf .inputHook) .extracted w'.tracks := by
  by_cases hnil : p.ofFamily .inputHook = []
  · unfold applyHooks at h
    rw [hnil] at h
    cases h
    rw [Plan.outputsOf, hnil]
    exact .refl _ _
  rcases hevents : s.instruments.events with _ | events
  · unfold applyHooks at h
    rw [hevents, if_neg (by simpa using hnil)] at h
    cases h
  · rw [applyHooks_eq hnil hevents] at h
    obtain ⟨es, w₁, hread, happly⟩ := bind_eq_ok_iff.1 h
    rw [← keepsTracks_readEvents _ _ _ _ hread]
    exact stamps_of_foldlM_applyHook (fun r hr => outputs_of_mem_inputHooks hp hr) happly

/-! ## Whole runs -/

/-- What comes behind the scan puts in the tracks of the rules for events, and over them
    those of the conversions. -/
theorem stamps_of_finish (hp : Plan.compile rules logged = .ok p)
    (h : s.finish p o sh m w = .ok m' w') : ∃ ts,
      w.tracks.Stamps (p.outputsOf .inputHook) .extracted ts ∧
      ts.Stamps (p.outputsOf .conversion) .derived w'.tracks ∧
      m'.counts = w'.tracks.counts := by
  obtain ⟨w₁, hooks, w₂, report, w₃, hentered, hhooked, hderived, hends, rfl⟩ := exists_of_finish h
  have hhooks := stamps_of_applyHooks hp hhooked
  obtain ⟨ds, hchain, -⟩ := Derivation.exists_chain_of_run hderived
  exact ⟨w₂.tracks, hentered ▸ hhooks, hends ▸ hchain.stamps, rfl⟩

/-- A run that is done puts in the tracks of its targets, then those of the rules for events
    and then those of the conversions. -/
theorem stamps_of_run (h : s.run rules = (.ok m, s')) (hdone : m.aborted = false) :
    ∃ p ts us, Plan.compile rules s.work.tracks.loggedNames = .ok p ∧
      s.work.tracks.Stamps p.targetNames .extracted ts ∧
      ts.Stamps (p.outputsOf .inputHook) .extracted us ∧
      us.Stamps (p.outputsOf .conversion) .derived s'.work.tracks ∧
      m.counts = s'.work.tracks.counts := by
  obtain ⟨w', hphases, hwork⟩ := run_eq_ok h
  rw [phases_eq] at hphases
  obtain ⟨u, w, hsetUp, hready⟩ := bind_eq_ok_iff.1 hphases
  obtain ⟨m₀, w₂, hsurvey, hend⟩ := bind_eq_ok_iff.1 hready
  have hu := isSetUp_of_setUp hsetUp
  obtain ⟨report, w₁, hs⟩ := exists_isSurveyed_of_survey hsurvey
  have hscan := Scan.stamps_of_run hs.run
  rw [hu.tracks, ← hs.tracks] at hscan
  split at hend
  · next haborted =>
    cases hend
    rw [haborted] at hdone
    cases hdone
  · obtain ⟨ts, hhooks, hconversions, hcounts⟩ := stamps_of_finish hu.compiled hend
    rw [hwork]
    exact ⟨u.scan.plan, w₂.tracks, ts, hu.compiled, hscan, hhooks, hconversions, hcounts⟩

/-- **The origins of tracks behind a run.** Behind a run that is done, what its conversions put
    out is derived, what its targets and its rules for events put out is extracted, and every
    other track has the origin that it had before. So the origins are as they are told, with
    what comes from events among the derived tracks, exactly if no rule asks for events and
    every track that the run did not put out was logged. The summary counts the tracks of each
    origin: those that were put out with it and those that were left. -/
theorem origins_of_run (h : s.run rules = (.ok m, s')) (hdone : m.aborted = false) :
    ∃ p, Plan.compile rules s.work.tracks.loggedNames = .ok p ∧
      (∀ n, s'.work.tracks.originOf? n = p.originAfter s.work.tracks n) ∧
      (p.TellsOrigins s'.work.tracks ↔ p.outputsOf .inputHook = [] ∧
        ∀ n o, s.work.tracks.originOf? n = some o → n ∉ p.written → o = .logged) ∧
      m.counts = s'.work.tracks.counts ∧
      m.counts.logged = (p.kept s.work.tracks .logged).length ∧
      m.counts.extracted = p.targets.length + (p.outputsOf .inputHook).length +
        (p.kept s.work.tracks .extracted).length ∧
      m.counts.derived = (p.outputsOf .conversion).length +
        (p.kept s.work.tracks .derived).length := by
  obtain ⟨p, ts, us, hp, htargets, hhooks, hconversions, hcounts⟩ := stamps_of_run h hdone
  have hc := Plan.isCompiled_of_compile hp
  have hafter : ∀ n, s'.work.tracks.originOf? n = p.originAfter s.work.tracks n := fun n => by
    unfold Plan.originAfter
    split
    · next hn => exact hconversions.written n hn
    · next hn =>
      rw [hconversions.others n hn]
      split
      · next hfound =>
        by_cases hhook : n ∈ p.outputsOf .inputHook
        · exact hhooks.written n hhook
        · rw [hhooks.others n hhook]
          exact htargets.written n (hfound.resolve_left hhook)
      · next hnone =>
        obtain ⟨hhook, htarget⟩ := not_or.1 hnone
        rw [hhooks.others n hhook, htargets.others n htarget]
  obtain ⟨hlogged, hextracted, hderived⟩ := hc.counts_after hafter
  refine ⟨p, hp, hafter, hc.tellsOrigins_iff hafter, hcounts, ?_, ?_, ?_⟩
  · rw [hcounts]
    exact hlogged
  · rw [hcounts]
    exact hextracted
  · rw [hcounts]
    exact hderived

/-- The recording with what is typed, in which also the screen can be looked at. -/
def typingInView : Session Unit :=
  { typing with
    instruments := { typing.instruments with snapshots := some fun _ w => (none, w) } }

/-- One track was logged, one is found on the screen and one is derived. -/
theorem origins_of_run_of_typingInView : ∃ m s' p,
    typingInView.run ["accessibilityHover(h)", "seen=eval(on)"] = (.ok m, s') ∧
    m.aborted = false ∧ Plan.compile ["accessibilityHover(h)", "seen=eval(on)"]
      typingInView.work.tracks.loggedNames = .ok p ∧
    p.TellsOrigins s'.work.tracks ∧ s'.work.tracks.originOf? "h" = some .extracted ∧
    m.counts.logged = 1 ∧ m.counts.extracted = 1 ∧ m.counts.derived = 1 := by
  have hrun : (match typingInView.run ["accessibilityHover(h)", "seen=eval(on)"] with
      | (.ok m, _) => !m.aborted
      | (.error _, _) => false) = true := by decide +kernel
  have hplan : ((Plan.compile ["accessibilityHover(h)", "seen=eval(on)"]
      typingInView.work.tracks.loggedNames).toOption.any fun p => decide
        (p.outputsOf .inputHook = [] ∧ p.targets.length = 1 ∧
          (p.outputsOf .conversion).length = 1 ∧
          p.originAfter typingInView.work.tracks "h" = some .extracted ∧
          (p.kept typingInView.work.tracks .logged).length = 1 ∧
          (p.kept typingInView.work.tracks .extracted).length = 0 ∧
          (p.kept typingInView.work.tracks .derived).length = 0)) = true := by decide +kernel
  have hbefore : ∀ n o, typingInView.work.tracks.originOf? n = some o → o = .logged :=
    fun n o ho => by
      obtain ⟨t, ht, rfl⟩ := Option.map_eq_some_iff.1 ho
      have hfound := (find?_insert (.empty Settings.defaultThreshold) "on" n
        (.ofSeries (.numbers #[.one, .zero, .zero]) .logged)).symm.trans ht
      split at hfound
      · cases hfound
        rfl
      · cases hfound
  obtain ⟨p, hp, hplan⟩ := Plan.exists_of_any_toOption hplan
  obtain ⟨hnil, htargets, hconversions, hh, hkept, hnone, hno⟩ := of_decide_eq_true hplan
  split at hrun
  · next m s' hs' =>
    have hdone : m.aborted = false := by simpa using hrun
    obtain ⟨q, hq, hafter, htold, -, hlogged, hextracted, hderived⟩ := origins_of_run hs' hdone
    obtain rfl := Except.ok.inj (hp.symm.trans hq)
    refine ⟨m, s', p, hs', hdone, hp, htold.2 ⟨hnil, fun n o ho _ => hbefore n o ho⟩, ?_, ?_, ?_,
      ?_⟩
    · rw [hafter, hh]
    · rw [hlogged, hkept]
    · rw [hextracted, htargets, hnil, hnone]
      rfl
    · rw [hderived, hconversions, hno]
  · cases hrun

/-- **What comes from events is not told apart from what the scan finds.** The word that was
    typed is put in behind a scan without any target, and its track is extracted. -/
theorem not_tellsOrigins_of_typing : ∃ m s' p,
    typing.run ["typedWords(word)"] = (.ok m, s') ∧ m.aborted = false ∧
    Plan.compile ["typedWords(word)"] typing.work.tracks.loggedNames = .ok p ∧
    p.targets = [] ∧ p.toldOrigin "word" = .derived ∧
    s'.work.tracks.originOf? "word" = some .extracted ∧ ¬ p.TellsOrigins s'.work.tracks ∧
    m.counts = ⟨1, 1, 0, 3⟩ := by
  have hrun : ((Plan.compile ["typedWords(word)"] typing.work.tracks.loggedNames).toOption.any
      fun p => match typing.run ["typedWords(word)"] with
        | (.ok m, s') => decide (m.aborted = false ∧ p.targets = [] ∧
            p.toldOrigin "word" = .derived ∧
            s'.work.tracks.originOf? "word" = some .extracted ∧ m.counts = ⟨1, 1, 0, 3⟩)
        | (.error _, _) => false) = true := by decide +kernel
  obtain ⟨p, hp, hrun⟩ := Plan.exists_of_any_toOption hrun
  split at hrun
  · next m s' hs' =>
    obtain ⟨hdone, htargets, htold, horigin, hcounts⟩ := of_decide_eq_true hrun
    refine ⟨m, s', p, hs', hdone, hp, htargets, htold, horigin, fun htells => ?_, hcounts⟩
    have heq := htells "word" .extracted horigin
    rw [htold] at heq
    cases heq
  · cases hrun

end Session

end Screenmark
