/-
  Screenmark — seeing what there is to see.

  The cursor, the image that is kept and the state of the footage carry something from
  frame to frame, but nothing of it shows: in front of every frame the cursor knows
  where the footage stands unless the footage failed (`Located`), and then

  * `leads_frameImage_shown` : the image of a frame is had if it is deliverable,
    whatever failed before;
  * `leads_step_verdict` : a target gets its verdict.
-/
import Screenmark.Proofs.Scan.View

namespace Screenmark

variable {σ : Type}

namespace Scan

open Scanning ScanState

variable {sc : Scan σ} {t : Target} {logged : List String}

/-- How a recording is looked at: the files, where the footage stands, and the view. -/
structure Outlook (σ : Type) where
  files : Tree
  place : σ → Option Nat
  view : View

/-- A state in which the cursor is at frame `k`, and knows where the footage stands
    unless the footage failed. -/
structure Located (c : Outlook σ) (k : Nat) (s : ScanState σ) : Prop where
  files : s.work.files = c.files
  frame : s.cursor.frame = k
  place : s.cursor.isLost = false → c.place s.work.world = some s.cursor.upcoming

/-- A state in which frame `k` is looked at: what is known of its image is what there is
    to see. -/
structure Sighted (c : Outlook σ) (k : Nat) (s : ScanState σ) : Prop extends Located c k s where
  ready : ∀ i, s.image = .ready i → (c.view.image k).map ColourImage.grey = some i
  failed : s.image = .failed → c.view.image k = none

variable {c : Outlook σ} {k i : Nat} {s s' : ScanState σ} {f : Footage σ} {image : GreyImage}
  {region : Rect}

/-- What is shown, the tracks and the sheets may change. -/
theorem Sighted.congr (h : Sighted c k s) (hfiles : s'.work.files = s.work.files)
    (hplace : c.place s'.work.world = c.place s.work.world) (hcursor : s'.cursor = s.cursor)
    (himage : s'.image = s.image) : Sighted c k s' := by
  refine ⟨⟨hfiles.trans h.files, hcursor ▸ h.frame, ?_⟩, himage ▸ h.ready, himage ▸ h.failed⟩
  rw [hplace, hcursor]
  exact h.place

/-- A move that succeeds leads to the frame, and one that fails shows that the frame is
    not deliverable. -/
theorem leads_seek_shown (hf : f.Shows c.files c.place c.view.image) (h : Sighted c k s) :
    Leads (seek f) s (fun b s' => s'.work.files = c.files ∧ s'.cursor = s.cursor ∧
      s'.image = s.image ∧ (b = true → c.place s'.work.world = some k) ∧
      (b = false → c.view.image k = none)) fun _ _ => False := by
  simp only [seek, leads_bind, leads_get]
  split
  · simp only [leads_bind, leads_modify, leads_use]
    refine ⟨h.files, rfl, rfl, fun hb => ?_, fun hb => ?_⟩
    · exact h.frame ▸ hf.seek _ _ hb
    · refine Decidable.byContradiction fun hne => ?_
      rw [h.frame, hf.reach k _ hne] at hb
      cases hb
  · next hno =>
    -- The footage did not fail, and the frame read next is the one that is asked for.
    rw [Bool.not_eq_true, Cursor.needsSeek, Bool.or_eq_false_iff, bne_eq_false_iff_eq] at hno
    refine ⟨h.files, rfl, rfl, fun _ => ?_, fun hb => by cases hb⟩
    rw [h.place hno.1, hno.2, h.frame]

/-- The image of a frame is had if and only if the frame is deliverable. -/
theorem leads_decode_shown (hf : f.Shows c.files c.place c.view.image) (h : Sighted c k s) :
    Leads (decode f) s (fun x s' => Sighted c k s' ∧ s'.image = s.image ∧
      x.toOption = (c.view.image k).map ColourImage.grey) fun _ _ => False := by
  simp only [decode, leads_bind, leads_get]
  refine (leads_seek_shown hf h).mono (fun b s₁ hs => ?_) fun _ _ h => h
  obtain ⟨hfiles, hcursor, himage, hplace, hno⟩ := hs
  have hframe : s₁.cursor.frame = k := by rw [hcursor, h.frame]
  have hready : ∀ i, s₁.image = .ready i → (c.view.image k).map ColourImage.grey = some i :=
    himage ▸ h.ready
  have hfailed : s₁.image = .failed → c.view.image k = none := himage ▸ h.failed
  rcases b
  · refine ⟨⟨⟨hfiles, hframe, fun hl => by cases hl⟩, hready, hfailed⟩, himage, ?_⟩
    rw [hno rfl]
    rfl
  · have hread := hf.read k s₁.work.world (hplace rfl)
    rw [← hfiles] at hread
    simp only [if_true, leads_bind, leads_get, leads_use]
    split
    · next i hi =>
      rw [hi] at hread
      refine ⟨⟨⟨hfiles, h.frame, fun _ => ?_⟩, hready, hfailed⟩, himage, ?_⟩
      · have hnext := hf.next k s₁.work.world (hplace rfl) (by simp [← hread])
        rw [← hfiles] at hnext
        show c.place (f.read s₁.work.files s₁.work.world).2 = some (s.cursor.frame + 1)
        rw [hnext, h.frame]
      · rw [← hread]
        rfl
    · next hi =>
      rw [hi] at hread
      refine ⟨⟨⟨hfiles, hframe, fun hl => by cases hl⟩, hready, hfailed⟩, himage, ?_⟩
      rw [← hread]
      rfl

/-- **The image of a frame is there for every target if the frame is deliverable**,
    whatever failed before. -/
theorem leads_frameImage_shown (hins : sc.instruments.Shows c.files c.place c.view)
    (hfootage : sc.instruments.footage ≠ none) (h : Sighted c k s) :
    Leads (sc.frameImage t) s
      (fun x s' => Sighted c k s' ∧ x = (c.view.image k).map ColourImage.grey)
      fun _ _ => False := by
  obtain ⟨f, hf⟩ := Option.ne_none_iff_exists'.1 hfootage
  simp only [frameImage, leads_bind, leads_get, hf]
  rcases himage : s.image with _ | _ | i
  · simp only [leads_bind]
    refine (leads_decode_shown (hins.footage f hf) h).mono (fun x s₁ hs => ?_) fun _ _ h => h
    obtain ⟨hs, -, hx⟩ := hs
    rcases x with cause | i
    · refine ⟨⟨⟨hs.files, hs.frame, hs.place⟩, (fun i hi => by cases hi), fun _ => ?_⟩, hx⟩
      exact Option.map_eq_none_iff.1 hx.symm
    · refine ⟨⟨⟨hs.files, hs.frame, hs.place⟩, fun j hj => ?_, fun hj => by cases hj⟩, hx⟩
      exact FrameImage.ready.inj hj ▸ hx.symm
  · refine ⟨h, ?_⟩
    rw [h.failed himage]
    rfl
  · exact ⟨h, (h.ready i himage).symm⟩

/-! ## Working out a target -/

/-- The world may change, as long as the footage stays where it is. -/
theorem Sighted.withWorld (h : Sighted c k s) {w : σ} (hw : c.place w = c.place s.work.world) :
    Sighted c k { s with work := { s.work with world := w } } :=
  h.congr rfl hw rfl rfl

theorem leads_lookFor_shown (hins : sc.instruments.Shows c.files c.place c.view)
    (ht : sc.IsEquipped t) (hs : t.stage = .template) (h : Sighted c k s) :
    Leads (sc.lookFor t image region) s
      (fun x s' => Sighted c k s' ∧ s'.work.tracks = s.work.tracks ∧
        x = sc.seenIn c.view t image region) fun _ _ => False := by
  obtain ⟨template, htemplate⟩ := Option.ne_none_iff_exists'.1 (ht.template hs)
  obtain ⟨find, hfind⟩ := Option.ne_none_iff_exists'.1 (ht.matcher hs)
  simp only [lookFor, seenIn, hs, htemplate, hfind]
  split
  · exact ⟨h, rfl, rfl⟩
  · obtain ⟨hanswer, hplace⟩ := hins.matcher find hfind (image.crop region) template s.work.world
    simp only [leads_bind, leads_use, leads_pure, hanswer]
    exact ⟨h.withWorld hplace, trivial, trivial⟩

theorem leads_readText_shown (hins : sc.instruments.Shows c.files c.place c.view)
    (ht : sc.IsEquipped t) {characters : Charset} (hs : t.stage = .text characters)
    (h : Sighted c k s) : Leads (sc.readText t characters image region) s
      (fun x s' => Sighted c k s' ∧ s'.work.tracks = s.work.tracks ∧
        x = sc.seenIn c.view t image region) fun _ _ => False := by
  obtain ⟨recognise, hrec⟩ := Option.ne_none_iff_exists'.1 (ht.recogniser characters hs)
  obtain ⟨hanswer, hplace⟩ := hins.recogniser recognise hrec
    (sc.prepared t (image.crop region)) characters s.work.world
  simp only [readText, seenIn, hs, hrec, leads_bind, leads_use, leads_pure, hanswer]
  exact ⟨h.withWorld hplace, trivial, trivial⟩

theorem leads_takeElement_shown (hins : sc.instruments.Shows c.files c.place c.view)
    (ht : sc.IsEquipped t) (hs : t.stage = .accessibility) (h : Sighted c k s) :
    Leads (sc.takeElement t) s
      (fun x s' => Sighted c k s' ∧ s'.work.tracks = s.work.tracks ∧
        sc.seen c.view s.work.tracks k t = .ok x) fun _ _ => False := by
  obtain ⟨snapshot, hsnap⟩ := Option.ne_none_iff_exists'.1 (ht.snapshots hs)
  obtain ⟨hanswer, hplace⟩ := hins.snapshots snapshot hsnap k s.work.world
  simp only [takeElement, seen, hs, hsnap, if_true, leads_bind, leads_get, leads_use, leads_pure,
    h.frame, hanswer]
  exact ⟨h.withWorld hplace, trivial, trivial⟩

theorem leads_observeImage_shown (hins : sc.instruments.Shows c.files c.place c.view)
    (ht : sc.IsEquipped t) (hs : t.stage ≠ .accessibility) (h : Sighted c k s) :
    Leads (sc.observeImage t) s
      (fun x s' => Sighted c k s' ∧ s'.work.tracks = s.work.tracks ∧
        sc.seen c.view s.work.tracks k t = .ok x)
      fun e _ => sc.seen c.view s.work.tracks k t = .error e := by
  simp only [observeImage, leads_bind]
  refine ((leads_frameImage_shown hins (ht.footage hs) h).and leads_frameImage).mono
    (fun x s₁ hx => ?_) fun e s₁ he => he.1.elim
  obtain ⟨⟨h₁, rfl⟩, hkept⟩ := hx
  rcases himage : c.view.image k with _ | image
  · exact ⟨h₁, hkept.tracks, by simp [seen, hs, himage]⟩
  · simp only [Option.map_some, leads_bind, leads_get, leads_ofExcept, seen, hs, himage, if_false,
      h₁.frame, hkept.tracks]
    refine ⟨fun region hregion => ?_, fun e he => by rw [he]; rfl⟩
    rw [hregion]
    rcases region with _ | region
    · exact ⟨h₁, hkept.tracks, rfl⟩
    · dsimp only
      split
      · next characters hstage =>
        refine (leads_readText_shown hins ht hstage h₁).mono (fun x s₂ hx => ?_) fun _ _ h => h.elim
        exact ⟨hx.1, hx.2.1.trans hkept.tracks, congrArg Except.ok hx.2.2.symm⟩
      · next hno =>
        have hstage := Stage.eq_template hs hno
        refine (leads_lookFor_shown hins ht hstage h₁).mono (fun x s₂ hx => ?_) fun _ _ h => h.elim
        exact ⟨hx.1, hx.2.1.trans hkept.tracks, congrArg Except.ok hx.2.2.symm⟩

theorem leads_observe_shown (hins : sc.instruments.Shows c.files c.place c.view)
    (ht : sc.IsEquipped t) (h : Sighted c k s) : Leads (sc.observe t) s
      (fun x s' => Sighted c k s' ∧ s'.work.tracks = s.work.tracks ∧
        sc.seen c.view s.work.tracks k t = .ok x)
      fun e _ => sc.seen c.view s.work.tracks k t = .error e := by
  unfold observe
  split
  · next hs =>
    exact (leads_takeElement_shown hins ht hs h).mono (fun _ _ hx => hx) fun _ _ h => h.elim
  · next hs => exact leads_observeImage_shown hins ht hs h

theorem leads_settle_shown {b : Bool} {seen : Option Observation} {rows : Nat}
    (hrows : s.work.tracks.HasRows t.name t.kind rows)
    (hseen : ∀ o ∈ seen, o.sample.kind = t.kind) (h : Sighted c k s) :
    Leads (settle i t b seen) s (fun entry s' => Sighted c k s' ∧
      entry.observed = seen.getD (.neutral t.kind) ∧
      s.work.tracks.append t.name entry.observed = .ok s'.work.tracks) fun _ _ => False := by
  have hkind : (seen.getD (.neutral t.kind)).sample.kind = t.kind := by
    rcases seen with _ | o
    · exact Sample.kind_neutral _
    · exact hseen o rfl
  obtain ⟨us, hus, -⟩ := hrows.exists_append hkind
  rw [leads_settle, hus]
  refine ⟨fun ts hts => ?_, fun e he => nomatch he⟩
  obtain rfl := Except.ok.inj hts
  refine ⟨?_, rfl, rfl⟩
  rcases seen with _ | o
  · exact h.congr rfl rfl rfl rfl
  · exact h.congr rfl rfl rfl rfl

/-- **A target gets its verdict**, or fails where the verdict is a failure. -/
theorem leads_step_verdict {rows : Nat} (hins : sc.instruments.Shows c.files c.place c.view)
    (ht : sc.IsEquipped t) (hk : t.kind = t.stage.kind)
    (hrows : s.work.tracks.HasRows t.name t.kind rows) (h : Sighted c k s) :
    Leads (sc.step i t) s
      (fun entry s' => Sighted c k s' ∧
        sc.verdict c.view s.work.tracks k t = .ok entry.observed ∧
        s.work.tracks.append t.name entry.observed = .ok s'.work.tracks)
      fun e _ => sc.verdict c.view s.work.tracks k t = .error e := by
  rw [leads_step, h.frame]
  unfold verdict
  refine ⟨fun e he => by rw [he], fun hb => ?_, fun hb => ?_⟩
  · rw [hb]
    refine (leads_settle_shown hrows (by simp) h).mono (fun entry s₁ hs => ?_) fun _ _ h => h.elim
    exact ⟨hs.1, congrArg Except.ok hs.2.1.symm, hs.2.2⟩
  · rw [hb]
    have hentered : Sighted c k (s.entered .computing) := h.congr rfl rfl rfl rfl
    refine ((leads_observe_shown hins ht hentered).and leads_observe).mono
      (fun seen s₁ hx => ?_) fun e s₁ he => ?_
    · obtain ⟨⟨h₁, htracks, hseen⟩, hobs⟩ := hx
      rw [entered_tracks] at htracks hseen
      rw [hseen]
      refine (leads_settle_shown (htracks ▸ hrows) (hk ▸ hobs.2) h₁).mono
        (fun entry s₂ hs => ?_) fun _ _ h => h.elim
      exact ⟨hs.1, congrArg Except.ok hs.2.1.symm, htracks ▸ hs.2.2⟩
    · have he := he.1
      rw [entered_tracks] at he
      rw [he]
      rfl

/-! ## The targets of a frame -/

/-- Targets that still wait for their row `k`. -/
structure Awaiting (sc : Scan σ) (ps : List (Nat × Target)) (k : Nat) (ts : Tracks) : Prop where
  nodup : (ps.map (·.2.name)).Nodup
  rows : ∀ p ∈ ps, p.2 ∈ sc.targets ∧ ts.HasRows p.2.name p.2.kind k

variable {ps : List (Nat × Target)} {ts us ts₀ : Tracks} {o : Observation}
  {entries : List LogEntry} {total n : Nat} {s₀ s₁ : ScanState σ} {r : FrameRecord}

theorem Lockstep.awaiting (hc : sc.plan.IsCompiled logged) (h : sc.Lockstep ts₀ k ts)
    (hps : ps.Sublist sc.ordered) : sc.Awaiting ps k ts where
  nodup := (hps.map _).nodup (nodup_ordered hc)
  rows p hp :=
    have ht := mem_targets_of_ordered (hps.subset hp)
    ⟨ht, h.rows p.2 ht⟩

/-- The target that got its row is no other one. -/
theorem Awaiting.tail (h : sc.Awaiting ((i, t) :: ps) k ts) (ha : ts.append t.name o = .ok us) :
    sc.Awaiting ps k us where
  nodup := (List.nodup_cons.1 h.nodup).2
  rows p hp := by
    obtain ⟨hmem, hrows⟩ := h.rows p (List.mem_cons_of_mem _ hp)
    refine ⟨hmem, hrows.congr (Tracks.find?_of_append_of_ne ha fun heq => ?_)⟩
    exact (List.nodup_cons.1 h.nodup).1 (List.mem_map.2 ⟨p, hp, heq.symm⟩)

/-- Where the instruments show a view, and nothing is missing. -/
structure Shown (sc : Scan σ) (logged : List String) (c : Outlook σ) : Prop where
  compiled : sc.plan.IsCompiled logged
  instruments : sc.instruments.Shows c.files c.place c.view
  equipped : ∀ t ∈ sc.targets, sc.IsEquipped t

theorem Shown.leads_step (hsc : sc.Shown logged c) (hps : sc.Awaiting ((i, t) :: ps) k s.work.tracks)
    (h : Sighted c k s) : Leads (sc.step i t) s
      (fun entry s' => Sighted c k s' ∧
        sc.verdict c.view s.work.tracks k t = .ok entry.observed ∧
        s.work.tracks.append t.name entry.observed = .ok s'.work.tracks)
      fun e _ => sc.verdict c.view s.work.tracks k t = .error e := by
  obtain ⟨ht, hrows⟩ := hps.rows _ List.mem_cons_self
  exact leads_step_verdict hsc.instruments (hsc.equipped t ht) (hsc.compiled.kind_eq ht) hrows h

theorem Steps.sighted (hsc : sc.Shown logged c) (h : Steps sc ps s entries s')
    (hps : sc.Awaiting ps k s.work.tracks) (hs : Sighted c k s) : Sighted c k s' := by
  induction h with
  | nil => exact hs
  | cons hstep _ ih =>
    obtain ⟨hs₁, -, happend⟩ := (hsc.leads_step hps hs).ok hstep
    exact ih (hps.tail happend) hs₁

/-! ## Frames -/

/-- No frame is looked at yet. -/
theorem Located.opened (h : Located c k s) : Sighted c k s.opened :=
  ⟨⟨h.files, h.frame, h.place⟩, (fun _ hi => nomatch hi), fun hi => nomatch hi⟩

theorem Located.polled (hsc : sc.Shown logged c) (h : Located c k s) :
    Located c k (sc.polled s) := by
  refine ⟨h.files, h.frame, fun hl => ?_⟩
  rw [show (sc.polled s).work.world = (sc.instruments.poll s.work.world).2 from rfl,
    hsc.instruments.poll, h.place hl]
  rfl

/-- A pass leads from one frame to the next one. -/
theorem Located.next (hsc : sc.Shown logged c) (h : Located c k s)
    (hlock : sc.Lockstep ts₀ k s.work.tracks) (hpass : sc.pass total s = .ok (some r) s') :
    Located c (k + 1) s' := by
  obtain ⟨s₁, hpassed⟩ := leads_pass_passed.ok hpass
  have hs₁ := (frame_eq_ok hpassed.frame).1.sighted hsc
    (Lockstep.awaiting hsc.compiled hlock (.refl _)) (h.polled hsc).opened
  refine ⟨hpassed.files.trans hs₁.files, ?_, fun hl => ?_⟩
  · rw [hpassed.cursor, hs₁.frame]
  · rw [hpassed.cursor] at hl ⊢
    rw [hpassed.world]
    exact hs₁.place hl

theorem Reaches.located (hsc : sc.Shown logged c) (h₀ : sc.InStep ts₀ 0 s₀)
    (hs₀ : Located c 0 s₀) (h : sc.Reaches total s₀ k s) : Located c k s := by
  induction h with
  | start => exact hs₀
  | next hs hpass ih => exact ih.next hsc (hs.inStep hsc.compiled h₀).tracks hpass

/-! ## Whole scans -/

/-- The instruments show a view from the first frame on. -/
def Sees (sc : Scan σ) (o : Option Outlet) (w : Workspace σ) (v : View) : Prop :=
  ∃ place : σ → Option Nat, place w.world = some 0 ∧ ∀ sheets w₁,
    sc.prepare o w = .ok sheets w₁ → sc.instruments.Shows w₁.files place v

variable {o : Option Outlet} {w w₁ : Workspace σ} {sheets : Option Sheets} {v : View}

/-- What is there in front of the first frame. -/
theorem Sees.exists_outlook (hc : sc.plan.IsCompiled logged) (h : sc.Sees o w v)
    (hprep : sc.prepare o w = .ok sheets w₁) : ∃ c : Outlook σ, c.view = v ∧
      sc.Shown logged c ∧ Located c 0 (initial w₁ sheets) := by
  obtain ⟨place, hstart, hins⟩ := h
  have hprepared := leads_prepare.ok hprep
  refine ⟨⟨w₁.files, place, v⟩, rfl, ⟨hc, hins sheets w₁ hprep, check_eq_ok_iff.1 hprepared.check⟩,
    rfl, rfl, fun _ => ?_⟩
  show place w₁.world = some 0
  rw [hprepared.world, hstart]

/-! ## Footage with gaps -/

/-- The view of a recording whose frames grow wider and of which some are missing; the
    text that is read tells the width. -/
def widening (missing : Nat → Bool) : View where
  image n := if missing n then none else some (.ofFn (n + 1) 1 fun _ _ => default)
  find _ _ := ⟨.zero, .zero, .zero⟩
  recognise i _ := toString i.width
  snapshot _ := none

/-- A scan that sees it. -/
def gappy (missing : Nat → Bool) (p : Plan) : Scan (Option Nat) where
  plan := p
  settings := .default
  templates := .empty
  instruments :=
    { Instruments.none with
      footage := some {
        frames := 3, fps := Binary.one, width := 1, height := 1
        seek := fun n _ => if missing n then (false, none) else (true, some n)
        read := fun _ w =>
          match w with
          | some n => ((widening missing).image n, if missing n then none else some (n + 1))
          | none => (none, none) }
      recogniser := some fun i c w => ((widening missing).recognise i c, w) }
  stopped := false

/-- A workspace whose footage stands at the first frame. -/
def unwatched : Workspace (Option Nat) := ⟨some 0, .empty, .empty Settings.defaultThreshold, .initial⟩

theorem sees_gappy (missing : Nat → Bool) (p : Plan) (o : Option Outlet)
    {w : Workspace (Option Nat)} (hw : w.world = some 0) :
    (gappy missing p).Sees o w (widening missing) := by
  refine ⟨id, hw, fun _ w₁ _ => ⟨fun f hf => ?_, (fun _ h => nomatch h), fun _ h i c w => ?_,
    (fun _ h => nomatch h), fun _ => rfl⟩⟩
  · obtain rfl := Option.some.inj hf
    have hdeliverable : ∀ n, (widening missing).image n ≠ none → missing n = false := fun n hn => by
      rcases hm : missing n
      · rfl
      · exact absurd (if_pos hm) hn
    refine ⟨fun n w hn => ?_, fun n w hn => ?_, fun n w hw => ?_, fun n w hw hn => ?_⟩
    · simp [hdeliverable n hn]
    · rcases hm : missing n <;> simp_all
    · obtain rfl : w = some n := hw
      rfl
    · obtain rfl : w = some n := hw
      simp [hdeliverable n hn]
  · obtain rfl := Option.some.inj h
    exact ⟨rfl, rfl⟩

end Scan

end Screenmark
