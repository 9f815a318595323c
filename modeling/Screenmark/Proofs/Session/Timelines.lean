/-
  Screenmark — timelines and the frames of a run.

  Every timeline that a run writes says how many frames the run has. Its entries lie within
  them, unless it shows a logged track that is true behind them: such a track is written as
  it is, while the footage alone says how many frames there are
  (`isWithin_iff_of_run`). Without footage the longest track says so, and no track is true
  behind its end (`not_overhangs_of_no_footage`).
-/
import Screenmark.Proofs.Session.Trace

namespace Screenmark

namespace Tracks

variable {ts : Tracks} {n : String} {t : Track}

theorem le_foldl_max {k : Nat} {ks : List Nat} : ∀ {m}, k ≤ m ∨ k ∈ ks → k ≤ ks.foldl max m := by
  induction ks with
  | nil => exact fun h => h.elim id fun hk => by cases hk
  | cons l ks ih =>
    intro m h
    refine ih ?_
    rcases h with hle | hmem
    · exact .inl (Nat.le_trans hle (Nat.le_max_left m l))
    · rcases List.mem_cons.1 hmem with rfl | hmem
      · exact .inl (Nat.le_max_right m k)
      · exact .inr hmem

/-- No track is longer than the longest. -/
theorem size_le_longest (h : ts.find? n = some t) : t.size ≤ ts.longest := by
  refine le_foldl_max (.inr (List.mem_map.2 ⟨t, ?_, rfl⟩))
  exact List.mem_map.2 ⟨(n, t), ts.byName.mem_entries_iff.2 h, rfl⟩

end Tracks

namespace Session

variable {σ : Type} {s : Session σ} {sh : Shape} {name : String} {p : Provenance}

/-- Without footage no timeline shows what is behind the frames. -/
theorem not_overhangs_of_no_footage (hfootage : s.instruments.footage = none)
    (hsh : s.shape s.work.tracks = .ok sh) : ¬ s.Overhangs sh.frames name p := by
  rintro ⟨-, t, ht, hbehind⟩
  have hframes : sh.frames = s.work.tracks.longest := by
    unfold shape at hsh
    rw [hfootage] at hsh
    split at hsh
    · next heq => cases heq
    · cases hsh
      rfl
    · cases hsh
  exact Track.not_isTrueBehind (hframes ▸ Tracks.size_le_longest ht) hbehind

/-- **The entries of timelines lie within the frames of the run**, unless they show what a
    logged track is behind them. What a run writes is a list of writings that lead to its
    files, and that begin the files of its summary if it succeeds. Every timeline among them
    is about the frames of the run. Its entries are not empty and lie within these frames
    exactly if the timeline does not show a logged track that is true behind them, or has no
    entries at all. -/
theorem isWithin_iff_of_run (s : Session σ) (rules : List String) : ∃ sh log,
    (log ≠ [] → s.shape s.work.tracks = .ok sh) ∧
    (s.outlet sh.fps).replay s.work.files log = some (s.run rules).2.work.files ∧
    (∀ m, (s.run rules).1 = .ok m → m.files.Perm
      ((log.filterMap Writing.begun?).map (s.outlet sh.fps).pathOf)) ∧
    ∀ name entries frames p, .timeline name entries frames p ∈ log → frames = sh.frames ∧
      (entries.IsWithin frames ↔ (s.Overhangs frames name p → entries.size = 0)) := by
  by_cases hready : (∃ plan, Plan.compile rules s.work.tracks.loggedNames = .ok plan) ∧
      ∃ sh, s.shape s.work.tracks = .ok sh
  · obtain ⟨⟨plan, hplan⟩, sh, hshape⟩ := hready
    obtain ⟨log, hlog⟩ := exists_isLog hplan hshape
    exact ⟨sh, log, fun _ => hshape, hlog.replay, fun m hm => (hlog.summary m hm).1,
      fun name entries frames p hp => hlog.expects _ hp⟩
  · have hnone : (∀ p, Plan.compile rules s.work.tracks.loggedNames ≠ .ok p) ∨
        ∀ sh, s.shape s.work.tracks ≠ .ok sh :=
      (Classical.not_and_iff_not_or_not.1 hready).imp (fun h p hp => h ⟨p, hp⟩)
        fun h sh hsh => h ⟨sh, hsh⟩
    obtain ⟨e, hfails, hfiles⟩ := exists_error_of_run hnone
    refine ⟨⟨.one, 0, 0, 0⟩, [], fun h => absurd rfl h, congrArg some hfiles.symm, fun m hm => ?_,
      fun name entries frames p hp => by cases hp⟩
    cases hfails.symm.trans hm

/-- A recording of one frame, where `on` was logged for three and is true at the last. -/
def outlasting : Session Unit where
  settings := .default
  dataFolder := "data"
  stem := "rec"
  instruments := { Instruments.none with
    footage := some ⟨1, .one, 4, 4, fun _ w => (true, w), fun _ w => (none, w)⟩ }
  firstMinute := none
  stopped := false
  work := ⟨(), .empty, (Tracks.empty Settings.defaultThreshold).insert "on"
    (.ofSeries (.numbers #[.zero, .zero, .one]) .logged), .initial⟩

/-- **A logged track may be marked behind the frames.** The timeline is about one frame, and
    its only segment is the third one. -/
theorem not_isWithin_of_outlasting : ∃ m s', outlasting.run [] = (.ok m, s') ∧ m.frames = 1 ∧
    m.files = ["data/rec-on-segments.json"] ∧
    s'.work.files.readText "data/rec-on-segments.json" =
      .ok ((outlasting.outlet .one).timeline "on" (.segments [⟨2, 3, "on"⟩]) 1
        ⟨"on", "logged", .vision⟩).text ∧
    ¬ (Entries.segments [⟨2, 3, "on"⟩]).IsWithin 1 := by
  have hrun : (match outlasting.run [] with
      | (.ok m, s') => decide (m.frames = 1 ∧ m.files = ["data/rec-on-segments.json"]) &&
        match s'.work.files.readText "data/rec-on-segments.json" with
        | .ok text => decide (text = ((outlasting.outlet .one).timeline "on"
            (.segments [⟨2, 3, "on"⟩]) 1 ⟨"on", "logged", .vision⟩).text)
        | .error _ => false
      | (.error _, _) => false) = true := by decide +kernel
  split at hrun
  · next m s' hs' =>
    obtain ⟨hsummary, hfile⟩ := Bool.and_eq_true_iff.1 hrun
    obtain ⟨hframes, hfiles⟩ := of_decide_eq_true hsummary
    split at hfile
    · next text htext =>
      exact ⟨m, s', hs', hframes, hfiles, htext.trans (congrArg _ (of_decide_eq_true hfile)),
        by decide⟩
    · cases hfile
  · cases hrun

end Session

end Screenmark
