/-
  Screenmark — when a scan stops.

  A scan asks whether to stop in front of every frame, and nowhere else
  (`pass_eq_none_iff`). So it is stopped exactly if it comes to some frame in a state in
  which it is told to (`aborted_iff_exists_isTold`): a scan without targets or without frames
  never is, nor is one that is told to only in its last frame.
-/
import Screenmark.Proofs.Scan.Whole

namespace Screenmark

namespace Scan

variable {σ : Type} {sc : Scan σ} {total k f : Nat} {o : Option Outlet} {w w' : Workspace σ}
  {s s' s₀ : ScanState σ} {report : ScanReport}

/-! ## One pass -/

/-- The session is to stop, as far as can be told in the state. -/
def IsTold (sc : Scan σ) (s : ScanState σ) : Prop :=
  sc.stopped = true ∨ (sc.instruments.poll s.work.world).1 = true

/-- A pass goes without its frame exactly if the session is to stop. -/
theorem pass_eq_none_iff : sc.pass total s = .ok none s' ↔ sc.IsTold s ∧ s' = sc.polled s := by
  have hstop : sc.IsTold s ↔ (sc.stopped || (sc.instruments.poll s.work.world).1) = true :=
    Bool.or_eq_true_iff.symm
  constructor
  · intro h
    have hleads : Leads (sc.pass total) s
        (fun r s' => r = none → sc.IsTold s ∧ s' = sc.polled s) fun _ _ => True := by
      rw [leads_pass]
      split
      · next htold => exact fun _ => ⟨hstop.2 htold, rfl⟩
      · refine .intro (fun r s₁ _ => ?_) fun _ _ _ => trivial
        refine .intro (fun _ s₂ _ => ?_) fun _ _ _ => trivial
        refine .intro (fun _ s₃ _ => ?_) fun _ _ _ => trivial
        intro hnone
        cases hnone
    exact hleads.ok h rfl
  · rintro ⟨htold, rfl⟩
    have hleads : Leads (sc.pass total) s (fun r s' => r = none ∧ s' = sc.polled s)
        fun _ _ => False := by
      rw [leads_pass, if_pos (hstop.1 htold)]
      exact ⟨rfl, rfl⟩
    obtain ⟨r, s', hpass, rfl, rfl⟩ := hleads.exists_ok
    exact hpass

/-- A scan that is not to stop goes on to its frame. -/
theorem pass_of_not_isTold (h : ¬sc.IsTold s) : sc.pass total s =
    (sc.frame >>= fun r => sc.writeSheets r >>= fun _ => sc.goOn total r >>= fun _ =>
      pure (some r)) (sc.polled s) := by
  have hstopped : sc.isStopped s =
      .ok (sc.stopped || (sc.instruments.poll s.work.world).1) (sc.polled s) := rfl
  have hgoes : (sc.stopped || (sc.instruments.poll s.work.world).1) = false :=
    Bool.eq_false_iff.2 fun hstop => h (Bool.or_eq_true_iff.1 hstop)
  rw [pass, bind_apply, hstopped, hgoes]
  rfl

/-! ## Whole scans -/

/-- The passes lead to one state in front of each frame. -/
theorem Reaches.unique (h : sc.Reaches total s₀ k s) (h' : sc.Reaches total s₀ k s') : s = s' := by
  induction h generalizing s' with
  | start =>
    cases h'
    rfl
  | next _ hpass ih =>
    cases h' with
    | next hreaches hpass' =>
      obtain rfl := ih hreaches
      rw [hpass] at hpass'
      cases hpass'
      rfl

/-- The scan comes to a state in front of a frame. -/
def Meets (sc : Scan σ) (total : Nat) (o : Option Outlet) (w : Workspace σ) (k : Nat)
    (s : ScanState σ) : Prop :=
  sc.targets ≠ [] ∧ ∃ sheets w₁, sc.prepare o w = .ok sheets w₁ ∧
    sc.Reaches total (initial w₁ sheets) k s

theorem exists_meets_zero (h : sc.run total o w = .ok report w') (hne : sc.targets ≠ []) :
    ∃ s, sc.Meets total o w 0 s := by
  rcases run_eq_ok h with ⟨hnil, -⟩ | ⟨sheets, w₁, b, s, -, hprep, -⟩
  · exact absurd hnil hne
  · exact ⟨_, hne, sheets, w₁, hprep, .start⟩

/-- **A scan is stopped exactly if it is told to in front of some frame.** -/
theorem aborted_iff_exists_isTold (h : sc.run total o w = .ok report w') :
    report.aborted = true ↔ ∃ k < total, ∃ s, sc.Meets total o w k s ∧ sc.IsTold s := by
  rcases run_eq_ok h with ⟨hnil, rfl, rfl⟩ | ⟨sheets, w₁, b, s, hne, hprep, hframes, rfl, rfl⟩
  · refine iff_of_false Bool.false_ne_true ?_
    rintro ⟨k, -, s, ⟨hne, -⟩, -⟩
    exact hne hnil
  rcases frames_eq_ok .start hframes with ⟨rfl, hs⟩ | ⟨k, s₁, rfl, -, hk, hs, hpass⟩
  · refine iff_of_false Bool.false_ne_true ?_
    rintro ⟨k, hk, s₁, ⟨-, sheets', w₁', hprep', hs₁⟩, htold⟩
    rw [hprep] at hprep'
    cases hprep'
    -- The scan went on at every frame, so also at this one.
    have hlt : k < 0 + total := by omega
    obtain ⟨s₂, s₃, r, -, hs₂, hpass, -⟩ := hs.exists_pass_lt hlt
    obtain rfl := hs₁.unique hs₂
    rw [pass_eq_none_iff.2 ⟨htold, rfl⟩] at hpass
    cases hpass
  · refine iff_of_true rfl ⟨k, by omega, s₁, ⟨hne, sheets, w₁, hprep, hs⟩, ?_⟩
    exact (pass_eq_none_iff.1 hpass).1

end Scan

end Screenmark
