/-
  Screenmark — files taken in one after another.

  A call of `ingest` puts the tracks of its file in one after another and compares the
  lengths only when the last one is there. A call that fails, at the picture of a template
  or at this comparison, takes nothing back: `tracks_ingest` says what is there after a
  call, `s.taken path`, whether it fails or not.

  * `isAligned_ingest_iff` : one call keeps the tracks aligned just if the tracks taken in
    fit to those that stay, and so does every call that succeeds;
  * `isAligned_ingestAll_iff` : the same for every sequence of calls.
-/
import Screenmark.Proofs.Series.Alignment
import Screenmark.Proofs.Workspace
import Screenmark.Session.Basic

namespace Screenmark

namespace Session

variable {σ : Type} {s : Session σ} {path : String}

/-! ## What a call takes in -/

/-- A track of an earlier run with the size of its template; a template that is no
    picture is a failure. -/
def trackOf (s : Session σ) (a : LoggedAnnotation) : Except Failure Track :=
  if s.work.files.contains (s.templatePath a.name) then
    (s.work.files.readPicture (s.templatePath a.name)).map fun p =>
      { a.track with template := some p.size }
  else .ok a.track

/-- The tracks that are put in, up to the first one that fails. -/
def tracksOf (s : Session σ) : List LoggedAnnotation → List (String × Track)
  | [] => []
  | a :: as =>
    match s.trackOf a with
    | .ok t => (a.name, t) :: s.tracksOf as
    | .error _ => []

theorem tracksOf_cons (s : Session σ) (a : LoggedAnnotation) (as : List LoggedAnnotation) :
    s.tracksOf (a :: as) = match s.trackOf a with
      | .ok t => (a.name, t) :: s.tracksOf as
      | .error _ => [] := by rfl

/-- The tracks that a call with the file takes in. -/
def taken (s : Session σ) (path : String) : List (String × Track) :=
  match LoggedFile.load s.work.files path s.settings.threshold with
  | .ok (.annotations _ as) => s.tracksOf as
  | _ => []

/-- The session after calls with files. -/
def ingestAll (s : Session σ) (paths : List String) : Session σ :=
  paths.foldl (fun s path => (s.ingest path).2) s

theorem size_of_trackOf {a : LoggedAnnotation} {t : Track} (h : s.trackOf a = .ok t) :
    t.size = a.track.size ∧ t.origin = a.track.origin := by
  unfold trackOf at h
  split at h
  · obtain ⟨p, -, rfl⟩ := exists_of_map_eq_ok h
    exact ⟨rfl, rfl⟩
  · cases h
    exact ⟨rfl, rfl⟩

theorem size_of_tracksOf {as : List LoggedAnnotation} {k : Nat}
    (h : ∀ a ∈ as, a.track.size = k ∧ a.track.origin = .logged) :
    ∀ p ∈ s.tracksOf as, p.2.size = k ∧ p.2.origin = .logged := by
  induction as with
  | nil => exact fun p hp => by cases hp
  | cons a as ih =>
    rw [List.forall_mem_cons] at h
    rw [tracksOf_cons]
    split
    · next t ht =>
      obtain ⟨hsize, horigin⟩ := size_of_trackOf ht
      exact List.forall_mem_cons.2
        ⟨⟨hsize.trans h.1.1, horigin.trans h.1.2⟩, ih h.2⟩
    · exact fun p hp => by cases hp

/-- The tracks that a call takes in have one length. -/
theorem exists_size_taken (s : Session σ) (path : String) :
    ∃ k, ∀ p ∈ s.taken path, p.2.size = k ∧ p.2.origin = .logged := by
  unfold taken
  split
  · next frames as hload =>
    obtain ⟨content, -, hparse⟩ := exists_of_bind_eq_ok hload
    exact ⟨frames, size_of_tracksOf (LoggedFile.size_of_parse hparse)⟩
  · exact ⟨0, fun p hp => by cases hp⟩

/-! ## One call -/

/-- The workspace with other tracks put in. -/
def putIn (w : Workspace σ) (ps : List (String × Track)) : Workspace σ :=
  { w with tracks := w.tracks.putAll ps }

theorem leads_addLogged {w : Workspace σ} (hfiles : w.files = s.work.files)
    (a : LoggedAnnotation) : Leads (s.addLogged a) w
      (fun _ w' => ∃ t, s.trackOf a = .ok t ∧ w' = putIn w [(a.name, t)])
      fun e w' => s.trackOf a = .error e ∧ w' = w := by
  unfold addLogged trackOf
  dsimp only
  rw [leads_bind, leads_get, hfiles]
  split
  · rw [leads_bind]
    rcases hpicture : s.work.files.readPicture (s.templatePath a.name) with e | p
    · exact ⟨rfl, rfl⟩
    · exact ⟨_, rfl, rfl⟩
  · exact ⟨_, rfl, rfl⟩

/-- A failure leaves the tracks in front of it. -/
theorem leads_forM_addLogged {w : Workspace σ} (hfiles : w.files = s.work.files)
    (as : List LoggedAnnotation) : Leads (as.forM s.addLogged) w
      (fun _ w' => w' = putIn w (s.tracksOf as)) fun _ w' => w' = putIn w (s.tracksOf as) := by
  induction as generalizing w with
  | nil => exact (rfl : w = _)
  | cons a as ih =>
    rw [List.forM, leads_bind]
    refine (leads_addLogged hfiles a).mono (fun _ w₁ h => ?_) fun e w₁ h => ?_
    · obtain ⟨t, ht, rfl⟩ := h
      rw [tracksOf_cons, ht]
      exact ih hfiles
    · obtain ⟨he, rfl⟩ := h
      rw [tracksOf_cons, he]
      rfl

/-- What is there after a call. A call that succeeds has compared all tracks, unless it
    has taken in none. -/
theorem leads_readLogged (s : Session σ) (path : String) : Leads (s.readLogged path) s.work
    (fun _ w' => w'.tracks = s.work.tracks.putAll (s.taken path) ∧
      (s.taken path = [] ∨ w'.tracks.IsAligned))
    fun _ w' => w'.tracks = s.work.tracks.putAll (s.taken path) := by
  unfold readLogged taken
  simp only [Work.enter, leads_bind, leads_modify, leads_get]
  rcases LoggedFile.load s.work.files path s.settings.threshold with e | ⟨frames, as⟩ | first
  · exact (rfl : s.work.tracks = _)
  · simp only [Work.ofExcept, takeIn, leads_pure, leads_bind, leads_get]
    have hfiles : { s.work with status := s.work.status.enter .ingesting }.files =
        s.work.files := rfl
    refine (leads_forM_addLogged hfiles as).mono (fun _ w' h => ?_) fun e w' h => ?_
    · subst h
      rcases hcheck : (s.work.tracks.putAll (s.tracksOf as)).checkAligned
        (s.work.tracks.putAll (s.tracksOf as)).loggedNames with e | _
      · simp only [putIn, hcheck]
        exact (rfl : _ = s.work.tracks.putAll (s.tracksOf as))
      · simp only [putIn, hcheck]
        exact ⟨rfl, .inr (Tracks.checkAligned_loggedNames.1 hcheck)⟩
    · rw [h]
      rfl
  · exact ⟨rfl, .inl rfl⟩

theorem ingest_work (s : Session σ) (path : String) : (s.ingest path).2.work =
    match s.readLogged path s.work with
    | .ok _ w => w
    | .error _ w => w := by
  unfold ingest after
  rcases s.readLogged path s.work with _ | _ <;> rfl

/-- **What is there after a call, whether it fails or not.** -/
theorem tracks_ingest (s : Session σ) (path : String) :
    (s.ingest path).2.work.tracks = s.work.tracks.putAll (s.taken path) := by
  have h := leads_readLogged s path
  rw [ingest_work]
  rcases hread : s.readLogged path s.work with ⟨first, w⟩ | ⟨e, w⟩
  · exact (h.ok hread).1
  · exact h.error hread

/-- What a call that succeeds takes in was compared with all tracks. -/
theorem isAligned_of_ingest_eq_ok (h : (s.ingest path).1 = .ok ()) :
    s.taken path = [] ∨ (s.ingest path).2.work.tracks.IsAligned := by
  have hleads := leads_readLogged s path
  rw [ingest_work]
  unfold ingest after at h
  rcases hread : s.readLogged path s.work with ⟨first, w⟩ | ⟨e, w⟩
  · exact (hleads.ok hread).2
  · rw [hread] at h
    cases h

/-- **One call keeps the tracks aligned just if what it takes in fits to what stays.** -/
theorem isAligned_ingest_iff (h : s.work.tracks.IsAligned) :
    (s.ingest path).2.work.tracks.IsAligned ↔ s.work.tracks.Fit (s.taken path) := by
  obtain ⟨k, hk⟩ := s.exists_size_taken path
  rw [tracks_ingest]
  exact Tracks.isAligned_putAll_iff h hk

/-- What a call takes in fits if the call succeeds. -/
theorem fit_of_ingest_eq_ok (h : s.work.tracks.IsAligned) (hok : (s.ingest path).1 = .ok ()) :
    s.work.tracks.Fit (s.taken path) := by
  rcases isAligned_of_ingest_eq_ok hok with hnone | haligned
  · rw [hnone]
    exact fun p hp => by cases hp
  · exact (isAligned_ingest_iff h).1 haligned

/-! ## Calls one after another -/

theorem ingestAll_append (s : Session σ) (paths paths' : List String) :
    s.ingestAll (paths ++ paths') = (s.ingestAll paths).ingestAll paths' :=
  List.foldl_append

theorem isAligned_ingestAll (h : s.work.tracks.IsAligned) (paths : List String) :
    (∀ before, before <+: paths → (s.ingestAll before).work.tracks.IsAligned) ↔
      ∀ before path e, before ++ [path] <+: paths →
        ((s.ingestAll before).ingest path).1 = .error e →
          (s.ingestAll before).work.tracks.Fit ((s.ingestAll before).taken path) := by
  constructor
  · intro haligned before path e hpre _
    have hbefore := haligned before ((List.prefix_append _ _).trans hpre)
    have hafter := haligned _ hpre
    rw [ingestAll_append] at hafter
    exact (isAligned_ingest_iff hbefore).1 hafter
  · intro hfit before hpre
    generalize hn : before.length = n
    induction n generalizing before with
    | zero => rwa [List.length_eq_zero_iff.1 hn]
    | succ n ih =>
      rcases List.eq_nil_or_concat before with rfl | ⟨before, path, rfl⟩
      · cases hn
      rw [List.concat_eq_append] at hpre hn ⊢
      have hbefore := ih before ((List.prefix_append _ _).trans hpre) (by simpa using hn)
      rw [ingestAll_append]
      refine (isAligned_ingest_iff hbefore).2 ?_
      rcases hresult : ((s.ingestAll before).ingest path).1 with e | _
      · exact hfit before path e hpre hresult
      · exact fit_of_ingest_eq_ok hbefore hresult

/-- **Logged tracks stay aligned just if each call that fails has taken in what fits.** A
    call takes in `taken` whether it fails or not; so it leaves the tracks as they were
    just if it takes in what is there already. -/
theorem isAligned_ingestAll_iff (h : s.work.tracks.IsAligned) (paths : List String) :
    ((∀ before, before <+: paths → (s.ingestAll before).work.tracks.IsAligned) ↔
      ∀ before path e, before ++ [path] <+: paths →
        ((s.ingestAll before).ingest path).1 = .error e →
          (s.ingestAll before).work.tracks.Fit ((s.ingestAll before).taken path)) ∧
      ∀ (t : Session σ) (path : String),
        (t.ingest path).2.work.tracks = t.work.tracks.putAll (t.taken path) ∧
          ((t.ingest path).2.work.tracks = t.work.tracks ↔
            ∀ n u, Tracks.latest? (t.taken path) n = some u → t.work.tracks.find? n = some u) := by
  refine ⟨isAligned_ingestAll h paths, fun t path => ⟨tracks_ingest t path, ?_⟩⟩
  rw [tracks_ingest]
  exact Tracks.putAll_eq_self_iff

theorem isAligned_empty (threshold : Single) : (Tracks.empty threshold).IsAligned := by
  intro n m t u hn
  cases hn

/-- A table with one frame and a table with three. -/
def unequal : Tree where
  items := .ofList [
    ("one.csv", .text "\"Frame\",\"one_x\",\"one_y\",\"one_val\"\n0,0,0,1\n"),
    ("two.csv", .text
      "\"Frame\",\"two_x\",\"two_y\",\"two_val\"\n0,0,0,1\n1,0,0,1\n2,0,0,1\n")]

/-- A recording beside which these tables lie. -/
def besideTables : Session Unit :=
  .start .default "data" "rec.mp4" .none () unequal

/-- The table with three frames alone is taken in. -/
theorem isAligned_ingestAll_iff_of_one : besideTables.work.tracks.IsAligned ∧
    (besideTables.ingestAll ["two.csv"]).work.tracks.IsAligned ∧
    (besideTables.ingestAll ["two.csv"]).work.tracks.sizeOf "two" = 3 := by
  have hempty : besideTables.work.tracks.IsAligned := isAligned_empty _
  have hfit : ∀ before path e, before ++ [path] <+: ["two.csv"] →
      ((besideTables.ingestAll before).ingest path).1 = .error e →
        (besideTables.ingestAll before).work.tracks.Fit
          ((besideTables.ingestAll before).taken path) := by
    intro before path e hpre he
    obtain ⟨rfl, rfl⟩ : before = [] ∧ path = "two.csv" := by
      have hlength := hpre.length_le
      rcases before with _ | ⟨p, before⟩
      · simpa using hpre
      · simp at hlength
    have hok : (besideTables.ingest "two.csv").1.toBool = true := by decide +kernel
    cases hok.symm.trans (congrArg Except.toBool he)
  exact ⟨hempty, (isAligned_ingestAll_iff hempty ["two.csv"]).1.2 hfit _ (List.prefix_refl _),
    by decide +kernel⟩

/-- **A call that fails leaves its tracks there.** The second table is refused, since the
    tracks differ by two frames, and both of them stay. -/
theorem not_isAligned_of_refused : ∃ e,
    ((besideTables.ingestAll ["one.csv"]).ingest "two.csv").1 = .error e ∧
    (besideTables.ingestAll ["one.csv"]).work.tracks.loggedNames = ["one"] ∧
    (besideTables.ingestAll ["one.csv", "two.csv"]).work.tracks.loggedNames = ["one", "two"] ∧
    ¬ (besideTables.ingestAll ["one.csv", "two.csv"]).work.tracks.IsAligned := by
  have hfails : ((besideTables.ingestAll ["one.csv"]).ingest "two.csv").1.toBool = false := by
    decide +kernel
  have hcheck : ((besideTables.ingestAll ["one.csv", "two.csv"]).work.tracks.checkAligned
      (besideTables.ingestAll ["one.csv", "two.csv"]).work.tracks.loggedNames).toBool = false := by
    decide +kernel
  have hnames : (besideTables.ingestAll ["one.csv", "two.csv"]).work.tracks.loggedNames =
      ["one", "two"] := by decide +kernel
  rcases hresult : ((besideTables.ingestAll ["one.csv"]).ingest "two.csv").1 with e | _
  · refine ⟨e, rfl, by decide +kernel, hnames, fun haligned => ?_⟩
    cases hcheck.symm.trans (congrArg Except.toBool (Tracks.checkAligned_loggedNames.2 haligned))
  · cases hfails.symm.trans (congrArg Except.toBool hresult)

end Session

end Screenmark
