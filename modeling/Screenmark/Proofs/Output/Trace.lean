/-
  Screenmark — what a step writes.

  All that a session changes in its files is a sequence of writings: folders, pictures of
  templates, sheets that are opened and kept, and timelines. A step `Writes` certain exports
  if some writings, each of which is as it should be, lead from the files before it to the
  files behind it, and they begin just these exports, in their order; a step that fails has
  begun the first few of them.

  * `Writes.bind` : the exports of two steps are those of the first and then those of the
    second, and so on for the ways to repeat a step;
  * `writes_writeSegments`, `writes_openSheet` and the like : the steps that write.
-/
import Screenmark.Proofs.Output.Naming
import Screenmark.Proofs.Workspace
import Screenmark.Session.Run

namespace Screenmark

/-! ## Writings -/

/-- The export that lists some entries. -/
def Entries.exported (name : String) : Entries → Export
  | .segments _ => .segments name
  | .overlays _ => .overlays name

/-- One change of the files. -/
inductive Writing where
  | folder (path : String)
  | picture (path : String) (image : GreyImage)
  /-- A sheet that is still without records. -/
  | opened (e : Export) (columns : List String)
  /-- A sheet, opened before, with its records. -/
  | kept (e : Export) (columns : List String) (latest : List (List String))
  | timeline (name : String) (entries : Entries) (frames : Nat) (p : Provenance)

/-- The export that a writing begins. -/
def Writing.begun? : Writing → Option Export
  | .opened e _ => some e
  | .timeline name entries _ _ => some (entries.exported name)
  | .folder _ | .picture .. | .kept .. => none

/-- Whether an export is to be written. -/
def Outputs.wants (o : Outputs) : Export → Bool
  | .combined _ | .sheet _ | .startEnd _ => o.tables
  | .segments _ => o.timelines
  | .overlays _ => o.overlays

namespace Outlet

/-- The exports that are to be written. -/
def wanted (o : Outlet) (xs : List Export) : List Export := xs.filter o.outputs.wants

/-- The tree after a writing, if it can be done. -/
def perform (o : Outlet) (t : Tree) : Writing → Option Tree
  | .folder path => (t.createFolders path).toOption
  | .picture path image => (t.write path (.picture (.grey image))).toOption
  | .opened e columns => (openSheet t (.start (o.pathOf e) columns)).toOption
  | .kept e columns latest => some (keepSheet t ⟨o.pathOf e, columns, latest⟩)
  | .timeline name entries frames p =>
    (writeText t (o.pathOf (entries.exported name)) (o.timeline name entries frames p).text).toOption

/-- The tree after one writing after another. -/
def replay (o : Outlet) (t : Tree) (log : List Writing) : Option Tree := log.foldlM o.perform t

variable {o : Outlet} {P : Writing → Prop} {xs ys : List Export} {t t' t'' : Tree} {x : Writing}

theorem wanted_nil (o : Outlet) : o.wanted [] = [] := rfl

theorem wanted_append (o : Outlet) (xs ys : List Export) :
    o.wanted (xs ++ ys) = o.wanted xs ++ o.wanted ys := List.filter_append ..

theorem wanted_flatMap {α : Type} (o : Outlet) (as : List α) (exports : α → List Export) :
    o.wanted (as.flatMap exports) = as.flatMap fun a => o.wanted (exports a) :=
  List.filter_flatMap ..

/-- Writings that are as they should be lead from one tree to another, and begin the
    exports. -/
def Wrote (o : Outlet) (P : Writing → Prop) (xs : List Export) (t t' : Tree) : Prop :=
  ∃ log, o.replay t log = some t' ∧ (∀ x ∈ log, P x) ∧ log.filterMap Writing.begun? = xs

/-- Writings begin the first few of the exports. -/
def WroteSome (o : Outlet) (P : Writing → Prop) (xs : List Export) (t t' : Tree) : Prop :=
  ∃ ys, ys <+: xs ∧ o.Wrote P ys t t'

theorem Wrote.nil (t : Tree) : o.Wrote P [] t t := ⟨[], rfl, List.forall_mem_nil P, rfl⟩

theorem Wrote.one (h : o.perform t x = some t') (hx : P x) : o.Wrote P x.begun?.toList t t' := by
  refine ⟨[x], ?_, List.forall_mem_singleton.2 hx, ?_⟩
  · rw [replay, List.foldlM_cons, h]
    rfl
  · rcases hbegun : x.begun? with _ | e
    · rw [List.filterMap_cons_none hbegun]
      rfl
    · rw [List.filterMap_cons_some hbegun]
      rfl

theorem Wrote.append (h : o.Wrote P xs t t') (h' : o.Wrote P ys t' t'') :
    o.Wrote P (xs ++ ys) t t'' := by
  obtain ⟨log, hlog, hP, rfl⟩ := h
  obtain ⟨log', hlog', hP', rfl⟩ := h'
  refine ⟨log ++ log', ?_, fun x hx => (List.mem_append.1 hx).elim (hP x) (hP' x),
    List.filterMap_append⟩
  rw [replay, List.foldlM_append]
  exact Option.bind_eq_some_iff.2 ⟨t', hlog, hlog'⟩

theorem Wrote.some (h : o.Wrote P xs t t') (ys : List Export) : o.WroteSome P (xs ++ ys) t t' :=
  ⟨xs, List.prefix_append xs ys, h⟩

theorem WroteSome.nil (xs : List Export) (t : Tree) : o.WroteSome P xs t t :=
  (Wrote.nil t).some xs

theorem WroteSome.append_right (h : o.WroteSome P xs t t') (ys : List Export) :
    o.WroteSome P (xs ++ ys) t t' := by
  obtain ⟨zs, hzs, h⟩ := h
  exact ⟨zs, hzs.trans (List.prefix_append xs ys), h⟩

theorem Wrote.append_some (h : o.Wrote P xs t t') (h' : o.WroteSome P ys t' t'') :
    o.WroteSome P (xs ++ ys) t t'' := by
  obtain ⟨zs, hzs, h'⟩ := h'
  exact ⟨xs ++ zs, (List.prefix_append_right_inj xs).2 hzs, h.append h'⟩

/-- Sheets that are kept begin no export. -/
theorem wrote_foldl_keepSheet {es : List Export} {sheets : List Sheet}
    (hpaths : sheets.map (·.path) = es.map o.pathOf)
    (hP : ∀ e ∈ es, ∀ columns latest, P (.kept e columns latest)) (t : Tree) :
    o.Wrote P [] t (sheets.foldl keepSheet t) := by
  induction sheets generalizing es t with
  | nil => exact .nil t
  | cons sheet sheets ih =>
    obtain _ | ⟨e, es⟩ := es
    · cases hpaths
    · obtain ⟨hpath, hpaths⟩ := List.cons.inj hpaths
      rw [List.forall_mem_cons] at hP
      have hkept : o.perform t (.kept e sheet.columns sheet.latest) = .some (keepSheet t sheet) := by
        rw [perform, ← hpath]
      exact (Wrote.one hkept (hP.1 _ _)).append (ih hpaths hP.2 _)

end Outlet

/-! ## Steps that write -/

namespace Work

variable {σ α β : Type} {o : Outlet} {P : Writing → Prop} {xs ys : List Export}
  {m : Work σ α} {f : α → Work σ β} {w : Workspace σ} {Q Q' : α → Workspace σ → Prop}
  {R : β → Workspace σ → Prop}

/-- A step writes some exports; if it fails, the first few of them. -/
def Writes (o : Outlet) (P : Writing → Prop) (xs : List Export) (m : Work σ α) (w : Workspace σ)
    (Q : α → Workspace σ → Prop) : Prop :=
  Leads m w (fun a w' => Q a w' ∧ o.Wrote P xs w.files w'.files)
    fun _ w' => o.WroteSome P xs w.files w'.files

namespace Writes

theorem mono (h : Writes o P xs m w Q) (hQ : ∀ a w', Q a w' → Q' a w') : Writes o P xs m w Q' :=
  Leads.mono h (fun a w' ha => ⟨hQ a w' ha.1, ha.2⟩) fun _ _ he => he

/-- What is known of a step that succeeds may be added. -/
theorem and (h : Writes o P xs m w Q) (hQ : ∀ a w', m w = .ok a w' → Q' a w') :
    Writes o P xs m w fun a w' => Q a w' ∧ Q' a w' := by
  refine Leads.intro (fun a w' hm => ?_) fun e w' hm => Leads.error h hm
  obtain ⟨ha, hwrote⟩ := Leads.ok h hm
  exact ⟨⟨ha, hQ a w' hm⟩, hwrote⟩

/-- **One step after another writes what both of them do.** -/
theorem bind (h : Writes o P xs m w Q) (hf : ∀ a w', Q a w' → Writes o P ys (f a) w' R) :
    Writes o P (xs ++ ys) (m >>= f) w R := by
  refine leads_bind.2 (Leads.mono h (fun a w' ha => ?_) fun e w' he => he.append_right ys)
  refine Leads.mono (hf a w' ha.1) (fun b w'' hb => ?_) fun e w'' he => ha.2.append_some he
  exact ⟨hb.1, ha.2.append hb.2⟩

/-- A step in front of which nothing is exported. -/
theorem bind_left (h : Writes o P [] m w Q) (hf : ∀ a w', Q a w' → Writes o P xs (f a) w' R) :
    Writes o P xs (m >>= f) w R := h.bind hf

/-- A step behind which nothing is exported. -/
theorem bind_right (h : Writes o P xs m w Q) (hf : ∀ a w', Q a w' → Writes o P [] (f a) w' R) :
    Writes o P xs (m >>= f) w R := by
  have hbind := h.bind hf
  rwa [List.append_nil] at hbind

/-- A step that leaves the files writes nothing. -/
theorem quiet (h : Leads m w (fun a w' => Q a w' ∧ w'.files = w.files)
    fun _ w' => w'.files = w.files) : Writes o P [] m w Q := by
  refine Leads.mono h (fun a w' ha => ⟨ha.1, ?_⟩) fun e w' he => ?_
  · rw [ha.2]
    exact .nil w.files
  · rw [he]
    exact .nil [] w.files

theorem pure {a : α} (h : Q a w) : Writes o P [] (Pure.pure a) w Q := quiet ⟨h, rfl⟩

theorem throw (e : Failure) : Writes o P xs (MonadExcept.throw e : Work σ α) w Q :=
  .nil xs w.files

/-- A step behind one that leaves the files. -/
theorem quiet_bind {Q : α → Workspace σ → Prop}
    (h : Leads m w (fun a w' => Q a w' ∧ w'.files = w.files) fun _ w' => w'.files = w.files)
    (hf : ∀ a w', Q a w' → Writes o P xs (f a) w' R) : Writes o P xs (m >>= f) w R :=
  (quiet h).bind_left hf

theorem get_bind {f : Workspace σ → Work σ β} (h : Writes o P xs (f w) w R) :
    Writes o P xs (MonadState.get >>= f) w R := h

theorem modify_bind {g : Workspace σ → Workspace σ} {f : PUnit → Work σ β}
    (hg : (g w).files = w.files) (h : Writes o P xs (f ⟨⟩) (g w) R) :
    Writes o P xs (modify g >>= f) w R :=
  quiet_bind (Q := fun _ w' => w' = g w) ⟨rfl, hg⟩ fun _ _ hw => hw ▸ h

theorem ofExcept_bind {x : Except Failure α} (h : ∀ a, x = .ok a → Writes o P xs (f a) w R) :
    Writes o P xs (Work.ofExcept x >>= f) w R := by
  rcases x with e | a
  · exact throw e
  · exact h a rfl

/-- A change of the files that is made of writings. -/
theorem changeFiles {g : Tree → Except Failure (Tree × α)}
    (h : ∀ t a, g w.files = .ok (t, a) → Q a { w with files := t } ∧ o.Wrote P xs w.files t) :
    Writes o P xs (Work.changeFiles g) w Q := by
  unfold Work.changeFiles
  refine get_bind ?_
  rcases hg : g w.files with e | ⟨t, a⟩
  · exact throw e
  · exact h t a hg

/-! ## Repeated steps -/

variable {I : Workspace σ → Prop} {as : List α} {exports : α → List Export}

theorem forM {g : α → Work σ PUnit}
    (h : ∀ a ∈ as, ∀ w, I w → Writes o P [] (g a) w fun _ w' => I w') (hw : I w) :
    Writes o P [] (as.forM g) w fun _ w' => I w' := by
  induction as generalizing w with
  | nil => exact pure hw
  | cons a as ih =>
    rw [List.forall_mem_cons] at h
    exact (h.1 w hw).bind fun _ w' hw' => ih h.2 hw'

/-- The files of all steps are those of their exports. -/
theorem collect {g : α → Work σ (List String)} (h : ∀ a ∈ as, ∀ w, I w →
      Writes o P (exports a) (g a) w fun files w' => files = (exports a).map o.pathOf ∧ I w')
    (hw : I w) : Writes o P (as.flatMap exports) (Session.collect g as) w fun files w' =>
      files = (as.flatMap exports).map o.pathOf ∧ I w' := by
  induction as generalizing w with
  | nil => exact pure ⟨rfl, hw⟩
  | cons a as ih =>
    rw [List.forall_mem_cons] at h
    refine (h.1 w hw).bind fun files w' hfiles => ?_
    refine (ih h.2 hfiles.2).bind_right fun more w'' hmore => .pure ⟨?_, hmore.2⟩
    rw [hfiles.1, hmore.1, List.flatMap_cons, List.map_append]

/-- The same where the files are gathered. -/
theorem foldlM (files : β → List String) {g : β → α → Work σ β} {b : β}
    (h : ∀ a ∈ as, ∀ b w, Writes o P (exports a) (g b a) w fun b' _ =>
      files b' = files b ++ (exports a).map o.pathOf) :
    Writes o P (as.flatMap exports) (as.foldlM g b) w fun b' _ =>
      files b' = files b ++ (as.flatMap exports).map o.pathOf := by
  induction as generalizing b w with
  | nil => exact pure (List.append_nil _).symm
  | cons a as ih =>
    rw [List.forall_mem_cons] at h
    rw [List.foldlM_cons]
    refine (h.1 b w).bind fun b' w' hb' => (ih h.2).mono fun b'' w'' hb'' => ?_
    rw [hb'', hb', List.flatMap_cons, List.map_append, List.append_assoc]

end Writes

/-! ## Timelines and sheets -/

theorem writes_timeline {name : String} {entries : Entries} {frames : Nat} {p : Provenance}
    (hP : P (.timeline name entries frames p)) : Writes o P (o.wanted [entries.exported name])
      (Work.changeFiles fun t =>
        if o.outputs.wants (entries.exported name) then
          (Outlet.writeText t (o.pathOf (entries.exported name))
            (o.timeline name entries frames p).text).map (·, [o.pathOf (entries.exported name)])
        else .ok (t, [])) w fun files w' =>
          files = (o.wanted [entries.exported name]).map o.pathOf ∧ w'.tracks = w.tracks := by
  refine .changeFiles fun t files h => ?_
  unfold Outlet.wanted
  split at h
  · next hwanted =>
    rw [List.filter_cons_of_pos hwanted]
    obtain ⟨t', hwrite, heq⟩ := exists_of_map_eq_ok h
    cases heq
    have hperform : o.perform w.files (.timeline name entries frames p) = some t := by
      rw [Outlet.perform, hwrite]
      rfl
    exact ⟨⟨rfl, rfl⟩, .one hperform hP⟩
  · next hno =>
    rw [List.filter_cons_of_neg hno]
    cases h
    exact ⟨⟨rfl, rfl⟩, .nil w.files⟩

theorem writes_writeSegments {name : String} {segments : List Segment} {frames : Nat}
    {p : Provenance} (hP : P (.timeline name (.segments segments) frames p)) :
    Writes o P (o.wanted [.segments name]) (Work.writeSegments o name segments frames p) w
      fun files w' => files = (o.wanted [.segments name]).map o.pathOf ∧ w'.tracks = w.tracks :=
  writes_timeline hP

theorem writes_writeOverlays {name : String} {overlays : List Overlay} {frames : Nat}
    {p : Provenance} (hP : P (.timeline name (.overlays overlays) frames p)) :
    Writes o P (o.wanted [.overlays name]) (Work.writeOverlays o name overlays frames p) w
      fun files w' => files = (o.wanted [.overlays name]).map o.pathOf ∧ w'.tracks = w.tracks :=
  writes_timeline hP

theorem writes_openSheet {e : Export} {columns : List String}
    (hP : P (.opened e columns)) :
    Writes o P [e] (Work.openSheet (.start (o.pathOf e) columns)) w fun _ _ => True := by
  refine .changeFiles fun t _ h => ⟨trivial, ?_⟩
  obtain ⟨t', hopen, heq⟩ := exists_of_map_eq_ok h
  cases heq
  have hperform : o.perform w.files (.opened e columns) = some t := by
    rw [Outlet.perform, hopen]
    rfl
  exact .one hperform hP

theorem writes_openSheets {as : List α} {e : α → Export} {columns : α → List String}
    (hP : ∀ a ∈ as, P (.opened (e a) (columns a))) : Writes o P (as.map e)
      ((as.map fun a => Sheet.start (o.pathOf (e a)) (columns a)).forM Work.openSheet) w
        fun _ _ => True := by
  induction as generalizing w with
  | nil => exact .pure trivial
  | cons a as ih =>
    rw [List.forall_mem_cons] at hP
    exact (writes_openSheet hP.1).bind fun _ _ _ => ih hP.2

theorem writes_keepSheets {es : List Export} {sheets : List Sheet}
    (hpaths : sheets.map (·.path) = es.map o.pathOf)
    (hP : ∀ e ∈ es, ∀ columns latest, P (.kept e columns latest)) :
    Writes o P [] (Work.keepSheets sheets) w fun _ _ => True := by
  have hwrote := Outlet.wrote_foldl_keepSheet hpaths hP w.files
  refine leads_keepSheets.mono (fun _ w' h => ⟨trivial, h ▸ hwrote⟩) fun _ w' h => ?_
  exact h ▸ hwrote.some []

end Work

end Screenmark
