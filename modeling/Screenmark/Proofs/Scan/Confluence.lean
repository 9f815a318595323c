/-
  Screenmark — what is observed does not hang on the order of rules.

  Rules in another order make a plan with the same targets in another order. Within a
  frame a target only looks at those it waits for, and these come before it in either
  order. So the tracks at the end of a frame are *settled*: each target has the verdict
  that these tracks themselves give (`Steps.settled`). Whatever order the targets are
  worked out in, tracks that are partly filled stay on the way to settled ones
  (`Steps.filled`), and no target can fail there that did not fail before.

  The order shows in the name of the sheet of all targets, and so in whether that sheet can
  be opened (`TakesCombined`).

  * `Twins.frames` : from the same tracks, both scans go through the frames alike;
  * `run_perm` : the same for whole scans, if that sheet can be opened in both orders or in
    neither; `not_run_perm_of_folder` : if not, one may end and the other fail.
-/
import Screenmark.Proofs.Plan.Permutation
import Screenmark.Proofs.Scan.Sheets
import Screenmark.Proofs.Scan.Trigger
import Screenmark.Proofs.Scan.Uses

namespace Screenmark

variable {σ : Type}

namespace Scan

open Scanning ScanState

variable {sc sc' : Scan σ} {logged : List String} {t : Target} {d n : String} {i k total : Nat}
  {s s' s₀ s₀' s₁ u u₁ : ScanState σ} {ps done post : List (Nat × Target)}
  {entries : List LogEntry} {ts us vs ts₀ : Tracks} {r : FrameRecord} {v : View}
  {c c' : Outlook σ} {o : Option Outlet} {w w₁ w₂ : Workspace σ}

/-! ## Scans for the same rules -/

/-- Scans that have the same targets, none of which was logged. -/
structure Reordered (sc sc' : Scan σ) (logged : List String) : Prop where
  compiled : sc.plan.IsCompiled logged
  compiled' : sc'.plan.IsCompiled logged
  like : sc.WorksLike sc'
  instruments : sc'.instruments = sc.instruments
  stopped : sc'.stopped = sc.stopped
  targets : ∀ t, t ∈ sc'.targets ↔ t ∈ sc.targets
  fresh : ∀ t ∈ sc.targets, t.name ∉ logged

theorem Reordered.symm (h : sc.Reordered sc' logged) : sc'.Reordered sc logged where
  compiled := h.compiled'
  compiled' := h.compiled
  like := ⟨h.like.prerequisites.symm, h.like.settings.symm, h.like.templates.symm⟩
  instruments := h.instruments.symm
  stopped := h.stopped.symm
  targets t := (h.targets t).symm
  fresh t ht := h.fresh t ((h.targets t).1 ht)

/-- A dependency is a target that comes before, or no target. -/
theorem Reordered.ahead_or_no_target (h : sc.Reordered sc' logged) (ht : t ∈ sc.targets)
    (hd : d ∈ t.gates) : d ∈ sc.ahead t ∨ ∀ u ∈ sc.targets, u.name ≠ d := by
  by_cases hl : d ∈ logged
  · exact .inr fun u hu heq => h.fresh u hu (heq ▸ hl)
  · exact .inl (mem_ahead_of_not_logged h.compiled ht hd hl)

/-! ## Settled tracks -/

/-- Tracks with one row more than others, each the verdict that they themselves give. -/
structure Settled (sc : Scan σ) (v : View) (k : Nat) (ts us : Tracks) : Prop where
  threshold : us.threshold = ts.threshold
  row : ∀ t ∈ sc.targets, ∃ o, sc.verdict v us k t = .ok o ∧
    us.find? t.name = (ts.find? t.name).bind (·.push? o)
  others : ∀ n, (∀ t ∈ sc.targets, t.name ≠ n) → us.find? n = ts.find? n

theorem Steps.find?_of_ne (h : Steps sc ps s entries s') (hn : ∀ p ∈ ps, p.2.name ≠ n) :
    s'.work.tracks.find? n = s.work.tracks.find? n := by
  induction h with
  | nil => rfl
  | cons hstep _ ih =>
    rw [List.forall_mem_cons] at hn
    rw [ih hn.2, Tracks.find?_of_append_of_ne (append_of_step hstep) hn.1]

/-- Targets behind and in front of one have other names. -/
theorem names_ne_of_ordered (hc : sc.plan.IsCompiled logged)
    (h : sc.ordered = done ++ (i, t) :: post) :
    (∀ p ∈ done, p.2.name ≠ t.name) ∧ (∀ p ∈ post, p.2.name ≠ t.name) ∧
      ∀ p ∈ done, ∀ q ∈ post, p.2.name ≠ q.2.name := by
  have hnd := nodup_ordered hc
  rw [h, List.map_append, List.nodup_append, List.map_cons, List.nodup_cons] at hnd
  obtain ⟨-, ⟨ht, -⟩, hne⟩ := hnd
  refine ⟨fun p hp => ?_, fun p hp heq => ?_, fun p hp q hq => ?_⟩
  · exact hne _ (List.mem_map_of_mem hp) _ List.mem_cons_self
  · exact ht (List.mem_map.2 ⟨p, hp, heq⟩)
  · exact hne _ (List.mem_map_of_mem hp) _ (List.mem_cons_of_mem _ (List.mem_map_of_mem hq))

/-- **At the end of a frame the tracks are settled.** -/
theorem Steps.settled (h : sc.Reordered sc' logged) (hsc : sc.Shown logged c)
    (hsteps : Steps sc sc.ordered s entries s') (hlock : sc.Lockstep ts₀ k s.work.tracks)
    (hs : Sighted c k s) : sc.Settled c.view k s.work.tracks s'.work.tracks where
  threshold := hsteps.keeps.threshold
  others n hn := hsteps.find?_of_ne fun p hp => hn p.2 (mem_targets_of_ordered hp)
  row t ht := by
    obtain ⟨i, hi⟩ := exists_mem_ordered ht
    obtain ⟨pre, post, hordered⟩ := List.append_of_mem hi
    rw [hordered] at hsteps
    obtain ⟨before, entry, after, sA, sB, -, hbefore, hstep, hafter⟩ := hsteps.split
    obtain ⟨hpre, hpost, hne⟩ := names_ne_of_ordered h.compiled hordered
    have hsub : pre.Sublist sc.ordered := hordered ▸ List.sublist_append_left ..
    have hsA := hbefore.sighted hsc (hlock.awaiting h.compiled hsub) hs
    have hw := hlock.within_ordered h.compiled hbefore hsub
    obtain ⟨-, hrows⟩ := hlock.behind h.compiled hw hordered _ List.mem_cons_self
    have happend := append_of_step hstep
    have hverdict := (leads_step_verdict hsc.instruments (hsc.equipped t ht)
      (h.compiled.kind_eq ht) hrows hsA).ok hstep
    -- What the target waits for is as it will be at the end of the frame.
    have halike : Tracks.Alike (· ∈ t.gates) k sA.work.tracks s'.work.tracks := by
      have hrest := Steps.cons hstep hafter
      refine Tracks.alike_of_find? hrest.keeps.threshold fun d hd => hrest.find?_of_ne ?_
      rcases h.ahead_or_no_target ht hd with hahead | hno
      · rw [ahead_eq h.compiled hordered] at hahead
        obtain ⟨p, hp, rfl⟩ := List.mem_map.1 hahead
        exact List.forall_mem_cons.2 ⟨(hpre p hp).symm, fun q hq => (hne p hp q hq).symm⟩
      · exact fun q hq => hno q.2 (mem_targets_of_ordered (hordered ▸ List.mem_append_right _ hq))
    refine ⟨entry.observed, ?_, ?_⟩
    · rw [verdict_congr h.compiled ht ⟨rfl, rfl, rfl⟩ ⟨rfl, rfl, rfl, rfl⟩ halike, hverdict.2.1]
    · rw [hafter.find?_of_ne hpost, Tracks.find?_of_append happend, if_pos rfl,
        hbefore.find?_of_ne hpre]

/-! ## Tracks on the way -/

/-- Tracks in which some names have the row that they have in settled ones. -/
structure Filled (names : List String) (ts us vs : Tracks) : Prop where
  threshold : vs.threshold = us.threshold
  done : ∀ n ∈ names, vs.find? n = us.find? n
  rest : ∀ n, n ∉ names → vs.find? n = ts.find? n

/-- In settled tracks that are filled up to a target, it gets the row that it has
    there. -/
theorem Filled.exists_verdict (h : sc.Reordered sc' logged) (hsettled : sc.Settled v k ts us)
    (hordered : sc'.ordered = done ++ (i, t) :: post)
    (hf : Filled (done.map (·.2.name)) ts us vs) :
    ∃ o, sc'.verdict v vs k t = .ok o ∧ us.find? t.name = (vs.find? t.name).bind (·.push? o) := by
  have ht' : t ∈ sc'.targets :=
    mem_targets_of_ordered (hordered ▸ List.mem_append_right _ List.mem_cons_self)
  have ht := (h.targets t).1 ht'
  obtain ⟨o, hverdict, hrow⟩ := hsettled.row t ht
  have halike : Tracks.Alike (· ∈ t.gates) k us vs := by
    refine Tracks.alike_of_find? hf.threshold fun d hd => ?_
    rcases h.symm.ahead_or_no_target ht' hd with hahead | hno
    · exact hf.done d (ahead_eq h.compiled' hordered ▸ hahead)
    · have hrest : d ∉ done.map (·.2.name) := fun hmem => by
        obtain ⟨p, hp, hpd⟩ := List.mem_map.1 hmem
        exact hno p.2 (mem_targets_of_ordered (hordered ▸ List.mem_append_left _ hp)) hpd
      rw [hf.rest d hrest, hsettled.others d fun u hu => hno u ((h.targets u).2 hu)]
  refine ⟨o, ?_, ?_⟩
  · rw [verdict_congr h.compiled ht h.like ⟨rfl, rfl, rfl, rfl⟩ halike, hverdict]
  · have hnew : t.name ∉ done.map (·.2.name) := fun hmem => by
      obtain ⟨p, hp, heq⟩ := List.mem_map.1 hmem
      exact (names_ne_of_ordered h.compiled' hordered).1 p hp heq
    rw [hrow, hf.rest t.name hnew]

theorem Steps.filled (h : sc.Reordered sc' logged) (hsc : sc'.Shown logged c)
    (hsettled : sc.Settled c.view k ts us) (hsteps : Steps sc' ps u entries u₁)
    (hordered : sc'.ordered = done ++ ps ++ post) (hps : sc'.Awaiting ps k u.work.tracks)
    (hu : Sighted c k u) (hf : Filled (done.map (·.2.name)) ts us u.work.tracks) :
    Filled ((done ++ ps).map (·.2.name)) ts us u₁.work.tracks := by
  induction hsteps generalizing done with
  | nil => rwa [List.append_nil]
  | @cons i t ps u u₂ u₁ entry entries hstep _ ih =>
    have hsplit : sc'.ordered = done ++ (i, t) :: (ps ++ post) := by rw [hordered]; simp
    obtain ⟨hu₂, hverdict, happend⟩ := (hsc.leads_step hps hu).ok hstep
    obtain ⟨o, hverdict', hrow⟩ := hf.exists_verdict h hsettled hsplit
    obtain rfl : o = entry.observed := Except.ok.inj (hverdict'.symm.trans hverdict)
    rw [show done ++ (i, t) :: ps = done ++ [(i, t)] ++ ps by simp]
    refine ih (by rw [hsplit]; simp) (hps.tail happend) hu₂ ⟨?_, fun m hm => ?_, fun m hm => ?_⟩
    · exact (Tracks.threshold_of_append happend).trans hf.threshold
    · rw [Tracks.find?_of_append happend]
      split
      · next heq =>
        subst heq
        exact hrow.symm
      · next hne =>
        have hmem : m ∈ done.map (·.2.name) := by
          simpa [Ne.symm hne] using hm
        exact hf.done m hmem
    · rw [List.map_append, List.mem_append, not_or] at hm
      have hne : t.name ≠ m := fun heq => hm.2 (by simp [heq])
      rw [Tracks.find?_of_append_of_ne happend hne, hf.rest m hm.1]

/-- A frame that is worked out in one order is worked out in the other one, and leaves
    the same tracks. -/
theorem leads_frame_filled (h : sc.Reordered sc' logged) (hsc : sc'.Shown logged c)
    (hsettled : sc.Settled c.view k ts us) (hlock : sc'.Lockstep ts₀ k u.work.tracks)
    (hu : Located c k u) (hthreshold : u.work.tracks.threshold = ts.threshold)
    (hsame : ∀ n, u.work.tracks.find? n = ts.find? n) :
    Leads sc'.frame u (fun _ u₁ => ∀ n, u₁.work.tracks.find? n = us.find? n) fun _ _ => False := by
  have hstart : Filled (([] : List (Nat × Target)).map (·.2.name)) ts us u.opened.work.tracks :=
    ⟨hthreshold.trans hsettled.threshold.symm, (fun _ hn => nomatch hn), fun n _ => hsame n⟩
  have hlock : sc'.Lockstep ts₀ k u.opened.work.tracks := hlock
  refine .intro (fun r u₁ hframe n => ?_) fun e u₁ hframe => ?_
  · have hordered : sc'.ordered = [] ++ sc'.ordered ++ [] := by simp
    have hf := (frame_eq_ok hframe).1.filled h hsc hsettled hordered
      (hlock.awaiting h.compiled' (.refl _)) hu.opened hstart
    by_cases hn : n ∈ sc'.ordered.map (·.2.name)
    · exact hf.done n hn
    · rw [hf.rest n hn, hsettled.others n fun t ht heq => hn ?_]
      obtain ⟨i, hi⟩ := exists_mem_ordered ((h.targets t).2 ht)
      exact List.mem_map.2 ⟨(i, t), hi, heq⟩
  · -- The target that fails would get the row that it has in the settled tracks.
    obtain ⟨done, i, t, entries, u₂, ⟨post, hordered⟩, hsteps, hstep⟩ := frame_eq_error hframe
    have hsub : done.Sublist sc'.ordered := hordered ▸ List.sublist_append_left ..
    have hwait := hlock.awaiting h.compiled' hsub
    have hsplit : sc'.ordered = [] ++ done ++ (i, t) :: post := hordered
    have hf := hsteps.filled h hsc hsettled hsplit hwait hu.opened hstart
    have hw := hlock.within_ordered h.compiled' hsteps hsub
    obtain ⟨ht, hrows⟩ := hlock.behind h.compiled' hw hordered _ List.mem_cons_self
    have herror := (leads_step_verdict hsc.instruments (hsc.equipped t ht)
      (h.compiled'.kind_eq ht) hrows (hsteps.sighted hsc hwait hu.opened)).error hstep
    obtain ⟨o, hverdict, -⟩ := hf.exists_verdict h hsettled hordered
    rw [hverdict] at herror
    cases herror

/-! ## Passes -/

/-- A pass that has to stop leaves everything but the world; any other one fails only
    where its frame fails. -/
theorem leads_pass_of_frame (hc : sc.plan.IsCompiled logged) (h : sc.InStep ts₀ k s)
    {Q : FrameRecord → ScanState σ → Prop} {E : Failure → ScanState σ → Prop}
    (hframe : Leads sc.frame (sc.polled s) Q E) : Leads (sc.pass total) s
      (fun x s' =>
        match x with
        | none => (sc.stopped || (sc.instruments.poll s.work.world).1) = true ∧
          s'.work.tracks = s.work.tracks
        | some r => (sc.stopped || (sc.instruments.poll s.work.world).1) = false ∧
          ∃ s₁, Q r s₁ ∧ s'.work.tracks = s₁.work.tracks) E := by
  rw [leads_pass]
  split
  · next hstop => exact ⟨hstop, rfl⟩
  · next hstop =>
    have hpolled : sc.Lockstep ts₀ k (sc.polled s).work.tracks := h.tracks
    refine (hframe.and (leads_frame_lockstep hc hpolled)).mono (fun r s₁ hs => ?_)
      fun e s₁ he => he.1
    obtain ⟨hQ, hw⟩ := hs
    have hlock : sc.Lockstep ts₀ (k + 1) s₁.work.tracks :=
      Lockstep.succ (s := (sc.polled s).opened) hpolled hw
    have hk : s₁.cursor.frame = k := hw.frame.trans h.frame
    have hsheets : ∀ x, s₁.sheets = some x → x.Fits sc.targets := fun x hx =>
      h.sheets x (hw.sheets.symm.trans hx)
    refine (leads_writeSheets_fits hsheets).mono (fun _ s₂ hs => ?_) fun e s₂ he => he.elim
    obtain ⟨sheets, rfl, -⟩ := hs
    refine (leads_goOn_lockstep (s := { s₁ with sheets := sheets }) (hk ▸ hlock)).mono
      (fun _ s₃ hs => ?_) fun e s₃ he => he.elim
    subst hs
    exact ⟨Bool.not_eq_true _ ▸ hstop, s₁, hQ, rfl⟩

/-- A scan in front of its first frame. -/
structure Begun (sc : Scan σ) (logged : List String) (ts₀ : Tracks) (c : Outlook σ)
    (s₀ : ScanState σ) : Prop where
  shown : sc.Shown logged c
  inStep : sc.InStep ts₀ 0 s₀
  located : Located c 0 s₀

/-- States in front of a frame of two scans that have the same tracks. -/
structure Twins (sc sc' : Scan σ) (total : Nat) (s₀ s₀' : ScanState σ) (k : Nat)
    (s s' : ScanState σ) : Prop where
  left : sc.Reaches total s₀ k s
  right : sc'.Reaches total s₀' k s'
  same : ∀ n, s'.work.tracks.find? n = s.work.tracks.find? n

/-- **A pass that succeeds in one order succeeds in the other one.** -/
theorem Twins.leads_pass (h : sc.Reordered sc' logged) (hb : sc.Begun logged ts₀ c s₀)
    (hb' : sc'.Begun logged ts₀ c' s₀') (hview : c'.view = c.view)
    (hs : Twins sc sc' total s₀ s₀' k s s')
    (hpoll : (sc'.instruments.poll s'.work.world).1 = (sc.instruments.poll s.work.world).1)
    {x : Option FrameRecord} (hpass : sc.pass total s = .ok x s₁) :
    Leads (sc'.pass total) s' (fun x' u₁ => x'.isSome = x.isSome ∧
      ∀ n, u₁.work.tracks.find? n = s₁.work.tracks.find? n) fun _ _ => False := by
  have hin := hs.left.inStep h.compiled hb.inStep
  have hin' := hs.right.inStep h.compiled' hb'.inStep
  have hlocated := (hs.left.located hb.shown hb.inStep hb.located).polled hb.shown
  have hlocated' := (hs.right.located hb'.shown hb'.inStep hb'.located).polled hb'.shown
  have hstop : (sc'.stopped || (sc'.instruments.poll s'.work.world).1) =
      (sc.stopped || (sc.instruments.poll s.work.world).1) := by rw [hpoll, h.stopped]
  have hdone := (leads_pass_of_frame h.compiled hin (.intro (fun _ _ hm => hm)
    fun _ _ _ => trivial)).ok hpass
  rcases x with _ | r
  · obtain ⟨hgo, htracks⟩ := hdone
    rw [Scan.leads_pass, if_pos (hstop.trans hgo)]
    exact ⟨rfl, fun n => htracks ▸ hs.same n⟩
  · obtain ⟨hgo, s₂, hframe, htracks⟩ := hdone
    have hsettled := (frame_eq_ok hframe).1.settled h hb.shown hin.tracks hlocated.opened
    have hthreshold : s'.work.tracks.threshold = s.work.tracks.threshold := by
      rw [hin'.tracks.threshold, hin.tracks.threshold]
    refine (leads_pass_of_frame h.compiled' hin' (leads_frame_filled h hb'.shown
      (hview ▸ hsettled) hin'.tracks hlocated' hthreshold hs.same)).mono (fun x' u₁ hx => ?_)
      fun _ _ h => h
    rcases x' with _ | r'
    · rw [hstop, hgo] at hx
      exact nomatch hx.1
    · obtain ⟨-, u₂, hsame, htracks'⟩ := hx
      exact ⟨rfl, fun n => by rw [htracks', htracks, hsame n]⟩

/-! ## Frames -/

/-- **From the same tracks, both scans go through the frames alike.** -/
theorem Twins.frames (h : sc.Reordered sc' logged) (hb : sc.Begun logged ts₀ c s₀)
    (hb' : sc'.Begun logged ts₀ c' s₀') (hview : c'.view = c.view)
    (hpoll : ∀ k s s', sc.Reaches total s₀ k s → sc'.Reaches total s₀' k s' →
      (sc'.instruments.poll s'.work.world).1 = (sc.instruments.poll s.work.world).1)
    {b : Bool} {m : Nat} (hs : Twins sc sc' total s₀ s₀' k s s')
    (hframes : sc.frames total m s = .ok b s₁) :
    ∃ u₁, sc'.frames total m s' = .ok b u₁ ∧
      ∀ n, u₁.work.tracks.find? n = s₁.work.tracks.find? n := by
  induction m generalizing k s s' with
  | zero =>
    cases hframes
    exact ⟨s', rfl, hs.same⟩
  | succ m ih =>
    rw [frames_succ] at hframes
    rw [frames_succ]
    split at hframes
    · next s₂ hpass =>
      cases hframes
      obtain ⟨x', u₁, hpass', hx, hsame⟩ :=
        (hs.leads_pass h hb hb' hview (hpoll k s s' hs.left hs.right) hpass).exists_ok
      obtain rfl : x' = none := Option.isSome_eq_false_iff.1 hx |> Option.isNone_iff_eq_none.1
      rw [hpass']
      exact ⟨u₁, rfl, hsame⟩
    · next r s₂ hpass =>
      obtain ⟨x', u₂, hpass', hx, hsame⟩ :=
        (hs.leads_pass h hb hb' hview (hpoll k s s' hs.left hs.right) hpass).exists_ok
      obtain ⟨r', rfl⟩ := Option.isSome_iff_exists.1 hx
      rw [hpass']
      exact ih ⟨hs.left.next hpass, hs.right.next hpass', hsame⟩ hframes
    · cases hframes

/-! ## Whole scans -/

variable {sheets : Option Sheets} {report report' : ScanReport} {stop : Nat → Bool}

/-- The path of the sheet of all targets takes a file, if there is to be such a sheet. -/
def TakesCombined (sc : Scan σ) (o : Option Outlet) (files : Tree) : Prop :=
  ∀ out, o = some out → out.outputs.tables = true →
    ∃ place, files.Takes (out.combinedPath (sc.targets.map (·.name))) place

/-- A sheet is for all targets or for one of them. -/
theorem forall_opened_iff {files : Tree} :
    (∀ x ∈ (sc.opened o).elim [] Sheets.all, ∃ place, files.Takes x.path place) ↔
      sc.TakesCombined o files ∧ ∀ out, o = some out → out.outputs.tables = true →
        ∀ t ∈ sc.targets, ∃ place, files.Takes (out.sheetPath t.name) place := by
  rcases o with _ | out
  · simp [opened, TakesCombined]
  by_cases htables : out.outputs.tables = true
  · simp [opened, TakesCombined, htables, Sheets.all, Sheets.start, Sheet.start]
  · simp [opened, TakesCombined, htables]

/-- A scan is prepared if nothing is missing and its sheets can be opened. -/
theorem exists_prepare_iff : (∃ x v, sc.prepare o w = .ok x v) ↔ sc.check = .ok () ∧
    ∀ x ∈ (sc.opened o).elim [] Sheets.all, ∃ place, w.files.Takes x.path place := by
  rcases hprep : sc.prepare o w with ⟨x, v⟩ | ⟨e, v⟩
  · obtain ⟨hprepared, -, htakes⟩ := leads_prepare_opened.ok hprep
    exact iff_of_true ⟨x, v, rfl⟩ ⟨hprepared.check, htakes⟩
  · refine iff_of_false (fun ⟨x, v, h⟩ => by cases h) fun ⟨hcheck, htakes⟩ => ?_
    rcases (leads_prepare_opened.error hprep).2 with herror | ⟨-, -, hrefused⟩
    · cases hcheck.symm.trans herror
    · exact hrefused htakes

theorem Reordered.isEquipped (h : sc.Reordered sc' logged) (ht : sc.IsEquipped t) :
    sc'.IsEquipped t where
  footage := h.instruments ▸ ht.footage
  matcher := h.instruments ▸ ht.matcher
  template := h.like.templates ▸ ht.template
  recogniser := h.instruments ▸ ht.recogniser
  snapshots := h.instruments ▸ ht.snapshots

/-- What nothing is missing for in one order, nothing is missing for in the other. -/
theorem Reordered.check (h : sc.Reordered sc' logged) (hcheck : sc.check = .ok ()) :
    sc'.check = .ok () := by
  rw [check_eq_ok_iff] at hcheck ⊢
  exact fun t ht => h.isEquipped (hcheck t ((h.targets t).1 ht))

/-- The sheets of single targets are the same in both orders. -/
theorem Reordered.exists_prepare (h : sc.Reordered sc' logged)
    (hcombined : sc.TakesCombined o w.files → sc'.TakesCombined o w.files)
    (hprep : ∃ x v, sc.prepare o w = .ok x v) : ∃ x v, sc'.prepare o w = .ok x v := by
  rw [exists_prepare_iff, forall_opened_iff] at hprep ⊢
  obtain ⟨hcheck, htakes, hown⟩ := hprep
  exact ⟨h.check hcheck, hcombined htakes,
    fun out hout htables t ht => hown out hout htables t ((h.targets t).1 ht)⟩

/-- Both scans start with the same tracks. -/
theorem Reordered.find?_startedTracks (h : sc.Reordered sc' logged) (n : String) :
    (sc'.startedTracks ts).find? n = (sc.startedTracks ts).find? n := by
  by_cases hmem : ∃ t ∈ sc.targets, t.name = n
  · obtain ⟨t, ht, rfl⟩ := hmem
    rw [Scan.find?_startedTracks h.compiled ht,
      Scan.find?_startedTracks h.compiled' ((h.targets t).2 ht), startedTrack, startedTrack,
      h.like.templates]
  · rw [(lockstep_startedTracks h.compiled).others n fun t ht heq => hmem ⟨t, ht, heq⟩,
      (lockstep_startedTracks h.compiled').others n fun t ht heq =>
        hmem ⟨t, (h.targets t).1 ht, heq⟩]

theorem Prepared.begun (hc : sc.plan.IsCompiled logged) (hsees : sc.Sees o w v)
    (hprep : sc.prepare o w = .ok sheets w₁) :
    ∃ c, c.view = v ∧ sc.Begun logged w.tracks c (initial w₁ sheets) := by
  obtain ⟨c, hv, hsc, hlocated⟩ := hsees.exists_outlook hc hprep
  exact ⟨c, hv, hsc, (leads_prepare.ok hprep).inStep hc, hlocated⟩

/-- In front of every frame the session is told to stop or not, as `stop` says. -/
def StopsAs (sc : Scan σ) (total : Nat) (o : Option Outlet) (w : Workspace σ)
    (stop : Nat → Bool) : Prop :=
  ∀ sheets w₁ k s, sc.prepare o w = .ok sheets w₁ → sc.Reaches total (initial w₁ sheets) k s →
    (sc.instruments.poll s.work.world).1 = stop k

/-- A scan that ends in one order ends in the other one, with the same tracks. -/
theorem Reordered.exists_run (h : sc.Reordered sc' logged) (hsees : sc.Sees o w v)
    (hsees' : sc'.Sees o w v) (hstop : sc.StopsAs total o w stop)
    (hstop' : sc'.StopsAs total o w stop)
    (hcombined : sc.TakesCombined o w.files → sc'.TakesCombined o w.files)
    (hrun : sc.run total o w = .ok report w₁) :
    ∃ report' w₂, sc'.run total o w = .ok report' w₂ ∧
      ∀ n, w₂.tracks.find? n = w₁.tracks.find? n := by
  have hcheck : sc.check = .ok () := by
    rw [run_apply] at hrun
    split at hrun
    · cases hrun
    · next hok => exact hok
  rw [run_apply, h.check hcheck]
  dsimp only
  rcases run_eq_ok hrun with ⟨hnil, -, rfl⟩ | ⟨sheets, v₁, b, s, hne, hprep, hframes, -, rfl⟩
  · have hnil' : sc'.targets = [] := List.eq_nil_iff_forall_not_mem.2 fun t ht => by
      simpa [hnil] using (h.targets t).1 ht
    rw [if_pos (List.isEmpty_iff.2 hnil')]
    exact ⟨_, _, rfl, fun _ => rfl⟩
  · obtain ⟨t, ht⟩ := List.exists_mem_of_ne_nil _ hne
    rw [if_neg fun hempty => by simpa [List.isEmpty_iff.1 hempty] using (h.targets t).2 ht]
    obtain ⟨sheets', v₁', hprep'⟩ := h.exists_prepare hcombined ⟨_, _, hprep⟩
    obtain ⟨c, rfl, hb⟩ := Prepared.begun h.compiled hsees hprep
    obtain ⟨c', hview, hb'⟩ := Prepared.begun h.compiled' hsees' hprep'
    have hstart : Twins sc sc' total (initial v₁ sheets) (initial v₁' sheets') 0
        (initial v₁ sheets) (initial v₁' sheets') := by
      refine ⟨.start, .start, fun n => ?_⟩
      show v₁'.tracks.find? n = v₁.tracks.find? n
      rw [(leads_prepare.ok hprep).tracks, (leads_prepare.ok hprep').tracks,
        h.find?_startedTracks]
    obtain ⟨u₁, hframes', hsame⟩ := hstart.frames h hb hb' hview
      (fun k s s' hs hs' => (hstop' _ _ k s' hprep' hs').trans (hstop _ _ k s hprep hs).symm)
      hframes
    rw [hprep']
    dsimp only
    rw [scanFrames_eq (leads_prepare.ok hprep').takes, hframes']
    exact ⟨_, _, rfl, hsame⟩

/-- Plans of the same rules, of which nothing was logged, have the same targets. -/
theorem reordered_of_perm {a b : List String} {q : Plan} (hab : a.Perm b)
    (h : Plan.compile a logged = .ok sc.plan) (h' : Plan.compile b logged = .ok q)
    (hfresh : ∀ r ∈ sc.plan.rules, ∀ n ∈ r.outputs, n ∉ logged) :
    sc.Reordered { sc with plan := q } logged := by
  have hc := Plan.isCompiled_of_compile h
  have hc' := Plan.isCompiled_of_compile h'
  obtain ⟨rules, ha, hp⟩ := Plan.compile_eq_ok_iff.1 h
  obtain ⟨rules', hb, hq⟩ := Plan.compile_eq_ok_iff.1 h'
  obtain ⟨rules'', hb', hrules⟩ := Plan.mapM_read_perm hab ha
  obtain rfl : rules' = rules'' := Except.ok.inj (hb.symm.trans hb')
  have hp := Plan.resolved_of_ofRules hp
  have hq := Plan.resolved_of_ofRules hq
  have hrules : sc.plan.rules.Perm q.rules := by rw [hp.rules_eq, hq.rules_eq]; exact hrules
  refine ⟨hc, hc', ⟨(hp.prerequisites_eq hq ?_).symm, rfl, rfl⟩, rfl, rfl, fun t => ?_,
    fun t ht hl => ?_⟩
  · rw [← hp.rules_eq, ← hq.rules_eq]
    exact hrules
  · rw [targets, targets, hc.mem_targets, hc'.mem_targets, Plan.wanted_perm hrules]
    simp only [hrules.mem_iff]
  · rcases hc.mem_targets.1 ht with ⟨hw, -⟩ | ⟨r, hr, -, hn, -⟩
    · exact hw.2.1 hl
    · exact hfresh r hr _ hn hl

/-- **What is observed does not hang on the order of the rules.** The rules are given in
    two orders, nothing that they produce was logged, the footage delivers each frame or
    not, the other instruments answer by what they are asked, and both scans are told to stop
    in front of the same frames, if at all. If there is to be a sheet of all targets, its name
    has their names in their order; so its path has to take a file in both orders or in
    neither. Then both scans end or neither does, and all tracks are the same. -/
theorem run_perm {a b : List String} {q : Plan} (hab : a.Perm b)
    (h : Plan.compile a logged = .ok sc.plan) (h' : Plan.compile b logged = .ok q)
    (hfresh : ∀ r ∈ sc.plan.rules, ∀ n ∈ r.outputs, n ∉ logged)
    (hsees : sc.Sees o w v) (hsees' : Scan.Sees { sc with plan := q } o w v)
    (hstop : sc.StopsAs total o w stop) (hstop' : Scan.StopsAs { sc with plan := q } total o w stop)
    (hcombined : sc.TakesCombined o w.files ↔
      Scan.TakesCombined { sc with plan := q } o w.files) :
    ((∃ report w₁, sc.run total o w = .ok report w₁) ↔
      ∃ report w₂, Scan.run { sc with plan := q } total o w = .ok report w₂) ∧
    ∀ report w₁ report' w₂, sc.run total o w = .ok report w₁ →
      Scan.run { sc with plan := q } total o w = .ok report' w₂ →
        ∀ n, w₂.tracks.find? n = w₁.tracks.find? n := by
  have hreordered := reordered_of_perm hab h h' hfresh
  refine ⟨⟨?_, ?_⟩, fun report w₁ report' w₂ hrun hrun' n => ?_⟩
  · rintro ⟨report, w₁, hrun⟩
    obtain ⟨report', w₂, hrun', -⟩ :=
      hreordered.exists_run hsees hsees' hstop hstop' hcombined.1 hrun
    exact ⟨report', w₂, hrun'⟩
  · rintro ⟨report', w₂, hrun'⟩
    obtain ⟨report, w₁, hrun, -⟩ :=
      hreordered.symm.exists_run hsees' hsees hstop' hstop hcombined.2 hrun'
    exact ⟨report, w₁, hrun⟩
  · obtain ⟨report'', w₃, hrun'', hsame⟩ :=
      hreordered.exists_run hsees hsees' hstop hstop' hcombined.1 hrun
    rw [hrun''] at hrun'
    cases hrun'
    exact hsame n

/-- The rule for `b` may stand in front of the one for `a`, which it waits for; the second
    frame is missing, and the sheet of both has another name. -/
theorem run_perm_of_swap : ∃ p q report w₁ report' w₂,
    Plan.compile ["detectText(a)", "if(a){detectText(b)}"] [] = .ok p ∧
      Plan.compile ["if(a){detectText(b)}", "detectText(a)"] [] = .ok q ∧
      (gappy (· = 1) p).run 3 (some besideRecording) unwatched = .ok report w₁ ∧
      (gappy (· = 1) q).run 3 (some besideRecording) unwatched = .ok report' w₂ ∧
      report.tables.head? = some "rec+a+b.csv" ∧
      w₁.tracks.row? "b" 2 = some ⟨.zero, .zero, .text "3"⟩ ∧
      w₂.tracks.row? "b" 2 = some ⟨.zero, .zero, .text "3"⟩ := by
  obtain ⟨p, report, w₁, hp, hrun, hresult⟩ := exists_run
    ["detectText(a)", "if(a){detectText(b)}"] [] (gappy (· = 1)) 3 (some besideRecording) unwatched
    (fun p report w₁ => report.tables.head? = some "rec+a+b.csv" &&
      w₁.tracks.row? "b" 2 = some ⟨.zero, .zero, .text "3"⟩ &&
      (unwatched.files.write (besideRecording.combinedPath (p.targets.map (·.name)))
        (.text "")).toOption.isSome) (by decide +kernel)
  obtain ⟨q, hq, hwrite'⟩ : ∃ q, Plan.compile ["if(a){detectText(b)}", "detectText(a)"] [] = .ok q ∧
      (unwatched.files.write (besideRecording.combinedPath (q.targets.map (·.name)))
        (.text "")).toOption.isSome = true :=
    Plan.exists_of_any_toOption (by decide +kernel)
  simp only [Bool.and_eq_true, decide_eq_true_eq] at hresult
  obtain ⟨⟨htable, hrow⟩, hwrite⟩ := hresult
  have hplan : Plan.compile ["detectText(a)", "if(a){detectText(b)}"] [] =
    .ok (gappy (· = 1) p).plan := hp
  have hstop : ∀ p, (gappy (· = 1) p).StopsAs 3 (some besideRecording) unwatched fun _ => false :=
    fun _ _ _ _ _ _ _ => rfl
  have htakes : ∀ p : Plan, (unwatched.files.write
      (besideRecording.combinedPath (p.targets.map (·.name))) (.text "")).toOption.isSome = true →
      (gappy (· = 1) p).TakesCombined (some besideRecording) unwatched.files := by
    rintro p hwrite out hout -
    obtain rfl := Option.some.inj hout
    exact Tree.exists_takes hwrite
  obtain ⟨hok, hsame⟩ := run_perm (List.Perm.swap _ _ _) hplan hq (fun _ _ _ _ => List.not_mem_nil)
    (sees_gappy _ p _ rfl) (sees_gappy _ q _ rfl) (hstop p) (hstop q)
    (iff_of_true (htakes p hwrite) (htakes q hwrite'))
  obtain ⟨report', w₂, hrun'⟩ := hok.1 ⟨report, w₁, hrun⟩
  refine ⟨p, q, report, w₁, report', w₂, hp, hq, hrun, hrun', htable, hrow, ?_⟩
  rw [← hrow, Tracks.row?, Tracks.row?, hsame report w₁ report' w₂ hrun hrun']

/-- A workspace in which a folder has the name of the sheet of `a` and `b`. -/
def blocked : Workspace (Option Nat) :=
  { unwatched with files := { items := .ofList [("rec+a+b.csv", .folder)] } }

/-- **The name of the sheet of all targets does hang on the order of the rules**, so a folder
    may be in its way in one order and not in the other. -/
theorem not_run_perm_of_folder : ∃ p q w₁ report w₂,
    Plan.compile ["detectText(a)", "detectText(b)"] [] = .ok p ∧
      Plan.compile ["detectText(b)", "detectText(a)"] [] = .ok q ∧
      (gappy (fun _ => false) p).Sees (some besideRecording) blocked (widening fun _ => false) ∧
      (gappy (fun _ => false) q).Sees (some besideRecording) blocked (widening fun _ => false) ∧
      (gappy (fun _ => false) p).run 1 (some besideRecording) blocked =
        .error (.unwritten "rec+a+b.csv" .isFolder) w₁ ∧
      (gappy (fun _ => false) q).run 1 (some besideRecording) blocked = .ok report w₂ := by
  obtain ⟨q, report, w₂, hq, hrun, -⟩ := exists_run ["detectText(b)", "detectText(a)"] []
    (gappy fun _ => false) 1 (some besideRecording) blocked (fun _ _ _ => true) (by decide +kernel)
  obtain ⟨p, hp, hfails⟩ : ∃ p, Plan.compile ["detectText(a)", "detectText(b)"] [] = .ok p ∧
      decide ((gappy (fun _ => false) p).failure? 1 (some besideRecording) blocked =
        some (.unwritten "rec+a+b.csv" .isFolder)) = true :=
    Plan.exists_of_any_toOption (by decide +kernel)
  obtain ⟨w₁, hrun'⟩ := exists_of_failure? (of_decide_eq_true hfails)
  exact ⟨p, q, w₁, report, w₂, hp, hq, sees_gappy _ p _ rfl, sees_gappy _ q _ rfl, hrun', hrun⟩

end Scan

end Screenmark
