/-
  Screenmark — applying one rule to events.

  A rule for events asks for the gate of its guard, and then puts its track under its
  only operand (`exists_of_applyHook`). Whatever it writes, the other tracks stay as they
  are; so rules that are applied one after the other add the tracks that they put out, and
  no others (`find?_eq_none_iff_of_applyHooks`).
-/
import Screenmark.Proofs.Derivation.Writing
import Screenmark.Proofs.Rule.Shown
import Screenmark.Proofs.Series.Runs
import Screenmark.Session.Hooks

namespace Screenmark

namespace Rule

variable {r : Rule} {source : String}

/-- A rule for events that depends on something is guarded by it. -/
theorem IsSound.guard_of_inputHook (h : r.IsSound) (hf : r.family = .inputHook) {d : String}
    (hd : d ∈ r.namedDependencies) : r.test = some .during ∧ r.dependencies = [d] := by
  have hd : d ∈ r.dependencies := by
    unfold namedDependencies at hd
    split at hd
    · cases hd
    · exact hd
  have htest : r.test = some .during := by
    have haccepts := h.accepts
    rw [hf, Family.accepts, Bool.and_eq_true] at haccepts
    rcases htest : r.test with _ | t
    · rw [h.noTest htest] at hd
      cases hd
    · have ht : t ∈ [Test.during] := by
        simpa [htest, Family.tests] using haccepts.2
      rw [List.mem_singleton.1 ht]
  obtain ⟨g, hg⟩ := h.dependencies_of_during htest
  rw [hg, List.mem_singleton] at hd
  exact ⟨htest, hd ▸ hg⟩

/-- A rule for events puts out its only operand. -/
theorem outputs_of_read_of_inputHook (h : read source = .ok r) (hfamily : r.family = .inputHook) :
    r.outputs = [r.operands.headD ""] := by
  have hadmits := admits_of_read h
  rw [(isSound_of_read h).family_eq] at hfamily
  have hone : actionArity r.action = .exactly 1 ∧ r.outputs = r.operands := by
    unfold outputs
    rcases haction : r.action <;> rw [haction] at hfamily <;>
      first | exact ⟨rfl, rfl⟩ | cases hfamily
  obtain ⟨n, hn⟩ := eq_singleton_of_admits (hone.1 ▸ hadmits)
  rw [hone.2, hn]
  rfl

end Rule

namespace Session

variable {σ : Type} {s : Session σ} {ts : Tracks} {frames width height : Nat} {r : Rule}
  {es : List Event} {o : Outlet} {done done' : Nat × List String} {w w' : Workspace σ} {g : String}

/-! ## The gate of a guard -/

theorem hookGate_of_some {series : Series} (htest : r.test = some .during)
    (hdep : r.dependencies = [g]) (h : ts.series? g = some series) :
    s.hookGate ts frames r = .ok (some (series.gate s.settings.threshold frames)) := by
  rw [hookGate, htest, hdep]
  dsimp only
  rw [h]

theorem hookGate_of_none (htest : r.test = some .during) (hdep : r.dependencies = [g])
    (h : ts.series? g = none) : s.hookGate ts frames r = .error (.unresolved r.source g) := by
  rw [hookGate, htest, hdep]
  dsimp only
  rw [h]

theorem exists_of_hookGate {gate : Option (List Bool)} (htest : r.test = some .during)
    (hdep : r.dependencies = [g]) (h : s.hookGate ts frames r = .ok gate) :
    ∃ series, ts.series? g = some series ∧
      gate = some (series.gate s.settings.threshold frames) := by
  rcases hg : ts.series? g with _ | series
  · rw [hookGate_of_none htest hdep hg] at h
    cases h
  · rw [hookGate_of_some htest hdep hg] at h
    cases h
    exact ⟨series, rfl, rfl⟩

/-- A gate allows the frames at which it is true. -/
theorem allows_gate {series : Series} {threshold : Single} {f : Nat} (h : f < frames) :
    allows (some (series.gate threshold frames)) f = series.isTrueAt threshold f := by
  rw [allows, Series.getElem?_gate h]
  rfl

/-! ## One rule -/

/-- A rule that is applied has its gate, and its track is put in. -/
theorem exists_of_applyHook (h : s.applyHook o frames width height es done r w = .ok done' w') :
    ∃ gate track segments, s.hookGate w.tracks frames r = .ok gate ∧
      s.hookTrack es o.clock frames (r.operands.headD "") r gate = .ok (track, segments) ∧
      w'.tracks = w.tracks.insert (r.operands.headD "") track := by
  unfold applyHook at h
  rw [bind_apply, get_apply] at h
  obtain ⟨gate, u, hasked, hplaced⟩ := bind_eq_ok_iff.1 h
  obtain ⟨hgate, rfl⟩ := Work.ofExcept_eq_ok_iff.1 hasked
  obtain ⟨⟨track, segments⟩, u', hgiven, hwritten⟩ := bind_eq_ok_iff.1 hplaced
  obtain ⟨htrack, rfl⟩ := Work.ofExcept_eq_ok_iff.1 hgiven
  obtain ⟨files, u₁, hsegments, hmarked⟩ := bind_eq_ok_iff.1 hwritten
  have hput : ∃ u₂ : Workspace σ, u₂.tracks = u₁.tracks ∧
      w'.tracks = u₂.tracks.insert (r.operands.headD "") track := by
    split at hmarked
    · obtain ⟨more, u₂, hmore, hput⟩ := bind_eq_ok_iff.1 hmarked
      cases hput
      exact ⟨u₂, ((Work.OnlyWrites.writeOverlays _ _ _ _ _).keeps hmore).1, rfl⟩
    · cases hmarked
      exact ⟨u₁, rfl, rfl⟩
  obtain ⟨u₂, htracks, hput⟩ := hput
  refine ⟨gate, track, segments, hgate, htrack, ?_⟩
  rw [hput, htracks, ((Work.OnlyWrites.writeSegments _ _ _ _ _).keeps hsegments).1]

/-! ## One rule after the other -/

/-- A track is still missing behind some rules if it was before and none of them puts it
    out. -/
theorem find?_eq_none_iff_of_applyHooks {before : List Rule} {n : String}
    (houtputs : ∀ b ∈ before, b.outputs = [b.operands.headD ""])
    (h : before.foldlM (s.applyHook o frames width height es) done w = .ok done' w') :
    w'.tracks.find? n = none ↔ w.tracks.find? n = none ∧ ∀ b ∈ before, n ∉ b.outputs := by
  induction before generalizing done w with
  | nil =>
    cases h
    simp
  | cons b before ih =>
    rw [List.forall_mem_cons] at houtputs
    rw [List.foldlM_cons] at h
    obtain ⟨done₁, w₁, happly, hrest⟩ := bind_eq_ok_iff.1 h
    obtain ⟨gate, track, segments, -, -, htracks⟩ := exists_of_applyHook happly
    rw [ih houtputs.2 hrest, htracks, Tracks.find?_insert, List.forall_mem_cons, houtputs.1,
      List.mem_singleton]
    by_cases hn : b.operands.headD "" = n
    · rw [if_pos hn]
      refine iff_of_false ?_ fun hnone => hnone.2.1 hn.symm
      rintro ⟨htrack, -⟩
      cases htrack
    · rw [if_neg hn]
      exact and_congr_right fun _ => (and_iff_right (Ne.symm hn)).symm

end Session

end Screenmark
