/-
  Screenmark — writing the results of conversion rules.

  What is written leaves the tracks and the folders as they are; and whether it can be
  written hangs on the folders alone (`OnlyWrites`). So the files of one rule are never
  in the way of those of another one (`onlyWrites_tell`).
-/
import Screenmark.Derivation.Run
import Screenmark.Proofs.Output.Outlet

namespace Screenmark

/-! ## Steps that only write -/

namespace Work

variable {σ α β : Type} {m : Work σ α} {f : α → Work σ β}

/-- A step that leaves tracks and folders as they are, and that succeeds with the same
    value wherever the folders are the same. -/
structure OnlyWrites (m : Work σ α) : Prop where
  keeps : ∀ {w a w'}, m w = .ok a w' → w'.tracks = w.tracks ∧ w.files.SameFolders w'.files
  succeeds : ∀ {w a w'}, m w = .ok a w' → ∀ v : Workspace σ, w.files.SameFolders v.files →
    ∃ v', m v = .ok a v'

namespace OnlyWrites

theorem pure (a : α) : OnlyWrites (Pure.pure a : Work σ α) where
  keeps h := by
    cases h
    exact ⟨rfl, .refl _⟩
  succeeds h v _ := by
    cases h
    exact ⟨v, rfl⟩

theorem bind (h : OnlyWrites m) (hf : ∀ a, OnlyWrites (f a)) : OnlyWrites (m >>= f) where
  keeps {w b w'} hrun := by
    obtain ⟨a, u, hm, hrest⟩ := bind_eq_ok_iff.1 hrun
    obtain ⟨htracks, hfolders⟩ := h.keeps hm
    obtain ⟨htracks', hfolders'⟩ := (hf a).keeps hrest
    exact ⟨htracks'.trans htracks, hfolders.trans hfolders'⟩
  succeeds {w b w'} hrun v hv := by
    obtain ⟨a, u, hm, hrest⟩ := bind_eq_ok_iff.1 hrun
    obtain ⟨v₁, hv₁⟩ := h.succeeds hm v hv
    have hfolders : u.files.SameFolders v₁.files :=
      (h.keeps hm).2.symm.trans (hv.trans (h.keeps hv₁).2)
    obtain ⟨v₂, hv₂⟩ := (hf a).succeeds hrest v₁ hfolders
    exact ⟨v₂, bind_eq_ok_iff.2 ⟨a, v₁, hv₁, hv₂⟩⟩

theorem ofExcept (x : Except Failure α) : OnlyWrites (Work.ofExcept x : Work σ α) := by
  rcases x with e | a
  · constructor
    · intro w a w' h
      cases h
    · intro w a w' h
      cases h
  · exact .pure a

theorem warn (subject message : String) : OnlyWrites (Work.warn subject message : Work σ Unit) where
  keeps h := by
    cases h
    exact ⟨rfl, .refl _⟩
  succeeds h v _ := by
    cases h
    exact ⟨_, rfl⟩

theorem forIn {ι : Type} {g : ι → Work σ (ForInStep PUnit)} (h : ∀ i, OnlyWrites (g i)) :
    ∀ is : List ι, OnlyWrites (ForIn.forIn is PUnit.unit fun i _ => g i)
  | [] => .pure _
  | i :: is => by
    rw [List.forIn_cons]
    refine (h i).bind fun step => ?_
    rcases step with _ | _
    · exact .pure _
    · exact forIn h is

theorem changeFiles {g : Tree → Except Failure (Tree × α)}
    (hkeeps : ∀ {t t' a}, g t = .ok (t', a) → t.SameFolders t')
    (hsucceeds : ∀ {t t' a}, g t = .ok (t', a) → ∀ u, t.SameFolders u → ∃ u', g u = .ok (u', a)) :
    OnlyWrites (Work.changeFiles g : Work σ α) where
  keeps {w a w'} h := by
    rw [Work.changeFiles, bind_apply, get_apply] at h
    dsimp only at h
    rcases hg : g w.files with e | ⟨t, b⟩
    · rw [hg] at h
      cases h
    · rw [hg] at h
      cases h
      exact ⟨rfl, hkeeps hg⟩
  succeeds {w a w'} h v hv := by
    rw [Work.changeFiles, bind_apply, get_apply] at h ⊢
    dsimp only at h ⊢
    rcases hg : g w.files with e | ⟨t, b⟩
    · rw [hg] at h
      cases h
    · rw [hg] at h
      cases h
      obtain ⟨u', hu'⟩ := hsucceeds hg v.files hv
      rw [hu']
      exact ⟨_, rfl⟩

/-- Writing one text. -/
theorem writeText (path text : String) (a : α) :
    OnlyWrites (Work.changeFiles fun t => (Outlet.writeText t path text).map (·, a) :
      Work σ α) := by
  refine changeFiles ?_ ?_
  · intro t t' b h
    obtain ⟨t₁, hwrite, heq⟩ := exists_of_map_eq_ok h
    cases heq
    exact Outlet.sameFolders_of_writeText hwrite
  · intro t t' b h u hu
    obtain ⟨t₁, hwrite, heq⟩ := exists_of_map_eq_ok h
    cases heq
    obtain ⟨u', hu'⟩ := Outlet.exists_writeText hwrite hu
    exact ⟨u', by rw [hu']; rfl⟩

/-- Writing one text, if it is wanted. -/
theorem writeTextIf (wanted : Bool) (path text : String) : OnlyWrites (Work.changeFiles fun t =>
    if wanted then (Outlet.writeText t path text).map (·, [path]) else .ok (t, []) :
      Work σ (List String)) := by
  by_cases hwanted : wanted = true
  · simp only [if_pos hwanted]
    exact writeText _ _ _
  · simp only [if_neg hwanted]
    refine changeFiles ?_ ?_
    · intro t t' files h
      cases h
      exact .refl t
    · intro t t' files h u _
      cases h
      exact ⟨u, rfl⟩

theorem writeSegments (o : Outlet) (name : String) (segments : List Segment) (frames : Nat)
    (p : Provenance) : OnlyWrites (Work.writeSegments o name segments frames p : Work σ _) :=
  writeTextIf o.outputs.timelines _ _

theorem writeOverlays (o : Outlet) (name : String) (overlays : List Overlay) (frames : Nat)
    (p : Provenance) : OnlyWrites (Work.writeOverlays o name overlays frames p : Work σ _) :=
  writeTextIf o.outputs.overlays _ _

theorem openSheet (x : Sheet) : OnlyWrites (Work.openSheet x : Work σ Unit) :=
  writeText x.path x.header ()

theorem keepSheets (xs : List Sheet) : OnlyWrites (Work.keepSheets xs : Work σ Unit) where
  keeps {w a w'} h := by
    obtain ⟨-, rfl⟩ := keepSheets_eq_ok_iff.1 h
    exact ⟨rfl, Outlet.sameFolders_foldl_keepSheet xs w.files⟩
  succeeds {w a w'} h v hv := by
    refine ⟨v.kept xs, keepSheets_eq_ok_iff.2 ⟨fun x hx => ?_, rfl⟩⟩
    obtain ⟨place, htakes⟩ := (keepSheets_eq_ok_iff.1 h).1 x hx
    exact ⟨place, htakes.congr hv⟩

end OnlyWrites

end Work

/-! ## Results -/

namespace Derivation

open Work

variable {σ : Type} {o : Option Outlet} {frames : Nat} {r : Rule} {d : Derived}
  {nested : Option Nested}

theorem onlyWrites_writeNested (o : Outlet) (n : Nested) :
    OnlyWrites (writeNested o n : Work σ (List String)) :=
  (OnlyWrites.openSheet _).bind fun _ => (OnlyWrites.openSheet _).bind fun _ =>
    (OnlyWrites.ofExcept _).bind fun _ => (OnlyWrites.ofExcept _).bind fun _ =>
      (OnlyWrites.keepSheets _).bind fun _ => .pure _

theorem onlyWrites_write (o : Outlet) (r : Rule) (d : Derived) (nested : Option Nested)
    (frames : Nat) : OnlyWrites (write o r d nested frames : Work σ (List String)) := by
  refine (OnlyWrites.writeSegments o d.name d.segments frames _).bind fun files => ?_
  rcases nested with _ | n
  · exact .pure files
  · dsimp only
    split
    · exact (onlyWrites_writeNested o n).bind fun sheets => .pure _
    · exact .pure files

/-- Writes what a rule gave, if files are wanted. -/
def writeTo (o : Option Outlet) (frames : Nat) (r : Rule) (d : Derived) (nested : Option Nested) :
    Work σ (List String) :=
  match o with
  | some o => write o r d nested frames
  | none => pure []

theorem onlyWrites_writeTo (o : Option Outlet) (frames : Nat) (r : Rule) (d : Derived)
    (nested : Option Nested) : OnlyWrites (writeTo o frames r d nested : Work σ (List String)) := by
  rcases o with _ | o
  · exact .pure []
  · exact onlyWrites_write o r d nested frames

/-- Shows the warnings of a rule. -/
def tell (r : Rule) (warnings : List String) : Work σ PUnit := do
  for message in warnings do Work.warn ("rule '" ++ r.label ++ "'") message

theorem onlyWrites_tell (r : Rule) (warnings : List String) :
    OnlyWrites (tell r warnings : Work σ PUnit) := by
  refine OnlyWrites.bind ?_ fun _ => .pure _
  exact .forIn (fun message => (OnlyWrites.warn _ message).bind fun _ => .pure _) warnings

/-! ## One rule -/

/-- A rule gives its result, shows its warnings and writes its files; then the result is
    put in. -/
theorem apply_eq (s : Settings) (o : Option Outlet) (frames : Nat) (report : DerivationReport)
    (r : Rule) : (apply s o frames report r : Work σ DerivationReport) = (do
      let (d, nested, warnings) ← Work.ofExcept (derive (← get).tracks s.threshold r frames)
      tell r warnings
      let files ← writeTo o frames r d nested
      Work.insert d.name d.track
      pure ⟨report.rules + 1, report.segments + d.segments.length, report.failures + d.failures,
        report.files ++ files⟩) := by
  unfold apply tell writeTo
  rcases o with _ | o
  · simp only [bind_assoc, pure_bind]
  · simp only [bind_assoc, pure_bind]

/-- The files of a result can be written. -/
def Fits (o : Option Outlet) (frames : Nat) (w : Workspace σ) (r : Rule) (d : Derived)
    (nested : Option Nested) : Prop :=
  ∃ files w', writeTo o frames r d nested w = .ok files w'

theorem Fits.congr {w w' : Workspace σ} (h : Fits o frames w r d nested)
    (hsame : w.files.SameFolders w'.files) : Fits o frames w' r d nested := by
  obtain ⟨files, u, hu⟩ := h
  obtain ⟨u', hu'⟩ := (onlyWrites_writeTo o frames r d nested).succeeds hu w' hsame
  exact ⟨files, u', hu'⟩

variable {s : Settings} {report report' : DerivationReport} {w w' : Workspace σ}
  {warnings : List String}

theorem exists_of_apply (h : apply s o frames report r w = .ok report' w') :
    ∃ d nested warnings, derive w.tracks s.threshold r frames = .ok (d, nested, warnings) ∧
      Fits o frames w r d nested ∧ w'.tracks = w.tracks.insert d.name d.track ∧
      w.files.SameFolders w'.files := by
  rw [apply_eq, bind_apply, get_apply] at h
  obtain ⟨⟨d, nested, warnings⟩, u, hx, htold⟩ := bind_eq_ok_iff.1 h
  obtain ⟨hderive, rfl⟩ := ofExcept_eq_ok_iff.1 hx
  obtain ⟨_, u₁, htell, hwritten⟩ := bind_eq_ok_iff.1 htold
  obtain ⟨files, u₂, hwrite, hput⟩ := bind_eq_ok_iff.1 hwritten
  cases hput
  obtain ⟨htracks, hfolders⟩ := (onlyWrites_tell r warnings).keeps htell
  obtain ⟨htracks', hfolders'⟩ := (onlyWrites_writeTo o frames r d nested).keeps hwrite
  have hfits : Fits o frames u r d nested := Fits.congr ⟨files, u₂, hwrite⟩ hfolders.symm
  have hinsert : u₂.tracks.insert d.name d.track = u.tracks.insert d.name d.track := by
    rw [htracks', htracks]
  exact ⟨d, nested, warnings, hderive, hfits, hinsert, hfolders.trans hfolders'⟩

theorem exists_tell (r : Rule) (warnings : List String) (w : Workspace σ) :
    ∃ w', tell r warnings w = .ok ⟨⟩ w' := by
  unfold tell
  rw [bind_apply]
  induction warnings generalizing w with
  | nil => exact ⟨w, rfl⟩
  | cons message warnings ih =>
    obtain ⟨w', hw'⟩ := ih { w with status := w.status.warn ("rule '" ++ r.label ++ "'") message }
    rw [List.forIn_cons]
    exact ⟨w', hw'⟩

theorem exists_apply (report : DerivationReport)
    (hderive : derive w.tracks s.threshold r frames = .ok (d, nested, warnings))
    (hfits : Fits o frames w r d nested) :
    ∃ report' w', apply s o frames report r w = .ok report' w' := by
  obtain ⟨u, htell⟩ := exists_tell r warnings w
  obtain ⟨files, v, hwrite⟩ := hfits.congr ((onlyWrites_tell r warnings).keeps htell).2
  have hx : Work.ofExcept (derive w.tracks s.threshold r frames) w = .ok (d, nested, warnings) w :=
    ofExcept_eq_ok_iff.2 ⟨hderive, rfl⟩
  rw [apply_eq, bind_apply, get_apply]
  exact ⟨_, _, bind_eq_ok_iff.2 ⟨_, w, hx, bind_eq_ok_iff.2 ⟨_, u, htell,
    bind_eq_ok_iff.2 ⟨files, v, hwrite, rfl⟩⟩⟩⟩

end Derivation

end Screenmark
