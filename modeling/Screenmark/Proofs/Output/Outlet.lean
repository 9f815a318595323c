/-
  Screenmark — the files of a scan hold its sheets.

  When the sheets of a scan are opened, the path of each takes a file; from then on it
  goes on to do so, and every file holds the records of its own sheet in the end, unless
  a later sheet leads to the same place (`readText_keepSheets`). Names without a slash
  lead to different places (`places_start`).
-/
import Screenmark.Proofs.Files.Tree
import Screenmark.Proofs.Output.Sheet
import Screenmark.Proofs.Workspace

namespace Screenmark

open Text

namespace Outlet

variable {t t' : Tree} {path text : String} {place q : List String} {x : Sheet} {xs : List Sheet}

/-! ## Texts -/

theorem writeText_eq_ok_iff : writeText t path text = .ok t' ↔
    ∃ place, t.Takes path place ∧ t' = t.put place (.text text) := by
  unfold writeText
  constructor
  · intro h
    rcases hw : t.write path (.text text) with e | u
    · rw [hw] at h
      cases h
    · rw [hw] at h
      cases h
      exact Tree.write_eq_ok hw
  · rintro ⟨place, htakes, rfl⟩
    rw [htakes.write_eq]
    rfl

theorem isUnwritten_of_writeText {e : Failure} (h : writeText t path text = .error e) :
    e.IsUnwritten := by
  unfold writeText at h
  rcases hw : t.write path (.text text) with fault | u
  · rw [hw] at h
    exact ⟨path, fault, (Except.error.inj h).symm⟩
  · rw [hw] at h
    cases h

theorem sameFolders_of_writeText (h : writeText t path text = .ok t') : t.SameFolders t' := by
  obtain ⟨place, htakes, rfl⟩ := writeText_eq_ok_iff.1 h
  exact Tree.sameFolders_put htakes.free

/-- Whether a text can be written hangs on the folders alone. -/
theorem exists_writeText (h : writeText t path text = .ok t') {u : Tree} (hsame : t.SameFolders u) :
    ∃ u', writeText u path text = .ok u' := by
  obtain ⟨place, htakes, -⟩ := writeText_eq_ok_iff.1 h
  exact ⟨_, writeText_eq_ok_iff.2 ⟨place, htakes.congr hsame, rfl⟩⟩

/-! ## Keeping sheets -/

theorem sameFolders_keepSheet (t : Tree) (x : Sheet) : t.SameFolders (keepSheet t x) := by
  unfold keepSheet
  rcases hw : writeText t x.path x.text with e | t'
  · exact .refl t
  · exact sameFolders_of_writeText hw

theorem sameFolders_foldl_keepSheet : ∀ (xs : List Sheet) (t : Tree),
    t.SameFolders (xs.foldl keepSheet t)
  | [], t => .refl t
  | x :: xs, t => (sameFolders_keepSheet t x).trans (sameFolders_foldl_keepSheet xs _)

/-- **Sheets are kept without a fault** just if the path of each takes a file. -/
theorem keepFault?_eq_none_iff :
    keepFault? t xs = none ↔ ∀ x ∈ xs, ∃ place, t.Takes x.path place := by
  induction xs generalizing t with
  | nil => simp [keepFault?]
  | cons x xs ih =>
    rw [keepFault?, List.forall_mem_cons]
    rcases hw : writeText t x.path x.text with e | t'
    · refine iff_of_false nofun fun ⟨⟨place, htakes⟩, _⟩ => ?_
      rw [writeText_eq_ok_iff.2 ⟨place, htakes, rfl⟩] at hw
      cases hw
    · obtain ⟨place, htakes, -⟩ := writeText_eq_ok_iff.1 hw
      have hsame := sameFolders_of_writeText hw
      dsimp only
      rw [ih, and_iff_right ⟨place, htakes⟩]
      exact ⟨fun h y hy => (h y hy).imp fun _ hy => hy.congr hsame.symm,
        fun h y hy => (h y hy).imp fun _ hy => hy.congr hsame⟩

theorem keepSheet_eq (h : t.Takes x.path place) : keepSheet t x = t.put place (.text x.text) := by
  rw [keepSheet, writeText, h.write_eq]
  rfl

/-- Paths that take files go on to do so when sheets are kept. -/
theorem takes_foldl_keepSheet : ∀ {xs : List Sheet} {t : Tree},
    (∀ x ∈ xs, ∃ place, t.Takes x.path place) → t.Takes path place →
      (xs.foldl keepSheet t).Takes path place
  | [], _, _, h => h
  | x :: xs, t, htakes, h => by
    rw [List.forall_mem_cons] at htakes
    obtain ⟨q, hq⟩ := htakes.1
    rw [List.foldl_cons, keepSheet_eq hq]
    refine takes_foldl_keepSheet (fun y hy => ?_) (h.put hq.free)
    obtain ⟨r, hr⟩ := htakes.2 y hy
    exact ⟨r, hr.put hq.free⟩

/-- Sheets that are kept leave the files at other places. -/
theorem readText_foldl_keepSheet : ∀ {xs : List Sheet} {t : Tree}, t.Takes path place →
    (∀ x ∈ xs, ∃ q, t.Takes x.path q ∧ Tree.key q ≠ Tree.key place) →
      (xs.foldl keepSheet t).readText path = t.readText path
  | [], _, _, _ => rfl
  | x :: xs, t, ht, hne => by
    rw [List.forall_mem_cons] at hne
    obtain ⟨q, hq, hplace⟩ := hne.1
    rw [List.foldl_cons, keepSheet_eq hq, readText_foldl_keepSheet (ht.put hq.free) ?_,
      ht.readText_put_of_ne hq.free hplace]
    intro y hy
    obtain ⟨r, hr, hplace⟩ := hne.2 y hy
    exact ⟨r, hr.put hq.free, hplace⟩

/-- **In the end a file holds its own sheet**, if no later sheet goes there. -/
theorem readText_keepSheets {before after : List Sheet}
    (h : ∀ y ∈ before ++ x :: after, ∃ place, t.Takes y.path place)
    (hafter : ∀ y ∈ after, ∀ q q', t.locate x.path = .ok q → t.locate y.path = .ok q' →
      Tree.key q ≠ Tree.key q') :
    ((before ++ x :: after).foldl keepSheet t).readText x.path = .ok x.text := by
  rw [List.forall_mem_append, List.forall_mem_cons] at h
  obtain ⟨hbefore, ⟨q, hq⟩, hlater⟩ := h
  have hx := takes_foldl_keepSheet hbefore hq
  rw [List.foldl_append, List.foldl_cons, keepSheet_eq hx,
    readText_foldl_keepSheet (hx.put hx.free) ?_, hx.readText_put_self]
  intro y hy
  obtain ⟨r, hr⟩ := hlater y hy
  exact ⟨r, (takes_foldl_keepSheet hbefore hr).put hx.free,
    (hafter y hy q r hq.locate hr.locate).symm⟩

/-! ## Paths of sheets -/

/-- What stands in front of a name does not hang on the name. -/
theorem join_append {dir stem p : String} (hp : p.toList.head? ≠ some '/') :
    Path.join dir (stem ++ p) = Path.join dir stem ++ p := by
  unfold Path.join
  rw [Tree.startsWith_slash_append hp]
  split
  · rfl
  · split <;> simp only [String.append_assoc]

variable {o : Outlet} {y z : String}

/-- Files of one outlet with different names lie at different places. -/
theorem key_ne_of_join {q' : List String} (hy : '/' ∉ y.toList) (hz : '/' ∉ z.toList)
    (hylong : 2 < y.toList.length) (hzlong : 2 < z.toList.length) (hne : y ≠ z)
    (hq : t.locate (Path.join o.folder (o.stem ++ y)) = .ok q)
    (hq' : t.locate (Path.join o.folder (o.stem ++ z)) = .ok q') : Tree.key q ≠ Tree.key q' := by
  rw [join_append fun hhead => hy (List.mem_of_head? hhead)] at hq
  rw [join_append fun hhead => hz (List.mem_of_head? hhead)] at hq'
  exact fun hkey => hne (Tree.locate_append_inj hy hz hylong hzlong hq hq' hkey)

/-- The sheets of an outlet lie at different places. -/
theorem places_start {ts : List Target} (hnames : ∀ u ∈ ts, '/' ∉ u.name.toList)
    (hnodup : (ts.map (·.name)).Nodup) :
    ((Sheets.start o ts).all.map (·.path)).Pairwise fun path path' => ∀ q q',
      t.locate path = .ok q → t.locate path' = .ok q' → Tree.key q ≠ Tree.key q' := by
  have hown : ∀ u ∈ ts, '/' ∉ ("_" ++ u.name ++ ".csv").toList := fun u hu => by
    simp [String.toList_append, hnames u hu]
  have hlong : ∀ n : String, 2 < (n ++ ".csv").toList.length := by
    intro n
    rw [String.toList_append, List.length_append]
    have : ".csv".toList.length = 4 := rfl
    omega
  have hpath : ∀ n, o.sheetPath n = Path.join o.folder (o.stem ++ ("_" ++ n ++ ".csv")) := by
    intro n
    rw [sheetPath, String.append_assoc, String.append_assoc, String.append_assoc]
  rw [Sheets.all, List.map_cons, List.pairwise_cons]
  simp only [Sheets.start, Sheet.start, List.map_map, Function.comp_def]
  refine ⟨fun path' hpath' q q' hq hq' => ?_, List.pairwise_map.2 ?_⟩
  · obtain ⟨u, hu, rfl⟩ := List.mem_map.1 hpath'
    have hjoin : '/' ∉ (String.join ((ts.map (·.name)).map ("+" ++ ·)) ++ ".csv").toList := by
      simpa [String.toList_append] using hnames
    rw [combinedPath, String.append_assoc] at hq
    rw [hpath] at hq'
    refine key_ne_of_join hjoin (hown u hu) (hlong _) (hlong _) (fun heq => ?_)
      hq hq'
    rcases ts with _ | ⟨v, vs⟩
    · cases hu
    · have hhead := congrArg (fun s : String => s.toList.head?) heq
      simp at hhead
  · refine (List.pairwise_map.1 hnodup).imp_of_mem fun {u v} hu hv hne q q' hq hq' => ?_
    rw [hpath] at hq hq'
    refine key_ne_of_join (hown u hu) (hown v hv) (hlong _) (hlong _) (fun heq => hne ?_) hq hq'
    have hlist := congrArg String.toList heq
    simp only [String.toList_append] at hlist
    exact String.toList_inj.1 (List.append_cancel_left (List.append_cancel_right hlist))

theorem takes_of_paths {xs ys : List Sheet} (hpaths : xs.map (·.path) = ys.map (·.path))
    (h : ∀ y ∈ ys, ∃ place, t.Takes y.path place) : ∀ x ∈ xs, ∃ place, t.Takes x.path place := by
  intro x hx
  have hpath := List.mem_map_of_mem (f := (·.path)) hx
  rw [hpaths] at hpath
  obtain ⟨y, hy, heq⟩ := List.mem_map.1 hpath
  exact heq ▸ h y hy

/-- **The sheets of an outlet are all read from their files**, if no name has a slash. -/
theorem readText_of_paths {ts : List Target} {xs : List Sheet}
    (hpaths : xs.map (·.path) = (Sheets.start o ts).all.map (·.path))
    (hnames : ∀ u ∈ ts, '/' ∉ u.name.toList) (hnodup : (ts.map (·.name)).Nodup)
    (htakes : ∀ y ∈ xs, ∃ place, t.Takes y.path place) :
    ∀ y ∈ xs, (xs.foldl keepSheet t).readText y.path = .ok y.text := by
  intro y hy
  have hplaces := places_start (t := t) (o := o) hnames hnodup
  obtain ⟨before, after, hall⟩ := List.append_of_mem hy
  rw [← hpaths, List.pairwise_map, hall] at hplaces
  rw [hall] at htakes ⊢
  exact readText_keepSheets htakes (List.pairwise_cons.1 (List.pairwise_append.1 hplaces).2.1).1

end Outlet

/-! ## Steps on a workspace -/

/-- The workspace after sheets are kept, as far as that can be done. -/
def Workspace.kept {σ : Type} (w : Workspace σ) (xs : List Sheet) : Workspace σ :=
  { w with files := xs.foldl Outlet.keepSheet w.files }

namespace Work

variable {σ : Type} {w w' : Workspace σ} {x : Sheet} {xs : List Sheet}

theorem keepSheets_apply : keepSheets xs w =
    match Outlet.keepFault? w.files xs with
    | none => .ok () (w.kept xs)
    | some e => .error e (w.kept xs) := by
  rw [keepSheets, bind_apply, get_apply]
  dsimp only
  rw [bind_apply, modify_apply]
  dsimp only
  cases Outlet.keepFault? w.files xs <;> rfl

theorem keepSheets_eq_ok_iff {a : Unit} : keepSheets xs w = .ok a w' ↔
    (∀ x ∈ xs, ∃ place, w.files.Takes x.path place) ∧ w' = w.kept xs := by
  rw [keepSheets_apply, ← Outlet.keepFault?_eq_none_iff]
  cases Outlet.keepFault? w.files xs
  · simp [eq_comm]
  · simp

/-- Sheets are kept as far as that can be done, whether there is a fault or not. -/
theorem leads_keepSheets :
    Leads (keepSheets xs) w (fun _ w' => w' = w.kept xs) fun _ w' => w' = w.kept xs := by
  rw [Leads, keepSheets_apply]
  cases Outlet.keepFault? w.files xs <;> rfl

/-- What is there after sheets were opened: only the files are changed, the folders stay,
    and the path of each sheet took a file before. -/
structure Opened (w : Workspace σ) (xs : List Sheet) (w' : Workspace σ) : Prop extends
    OnlyFiles w w' where
  folders : w.files.SameFolders w'.files
  takes : ∀ x ∈ xs, ∃ place, w.files.Takes x.path place

/-- Why sheets are not opened: the path of one does not take a file. -/
structure Refused (w : Workspace σ) (xs : List Sheet) (e : Failure) (w' : Workspace σ) : Prop
    extends OnlyFiles w w' where
  unwritten : e.IsUnwritten
  takes : ¬ ∀ x ∈ xs, ∃ place, w.files.Takes x.path place

theorem Opened.nil (w : Workspace σ) : Opened w [] w :=
  ⟨⟨rfl, rfl, rfl⟩, .refl w.files, List.forall_mem_nil _⟩

theorem Opened.append {w'' : Workspace σ} {ys : List Sheet} (h : Opened w xs w')
    (h' : Opened w' ys w'') : Opened w (xs ++ ys) w'' where
  toOnlyFiles := h.toOnlyFiles.trans h'.toOnlyFiles
  folders := h.folders.trans h'.folders
  takes := List.forall_mem_append.2
    ⟨h.takes, fun y hy => (h'.takes y hy).imp fun _ hy => hy.congr h.folders.symm⟩

theorem Opened.congr {ys : List Sheet} (h : Opened w xs w') (hmem : ∀ x, x ∈ ys ↔ x ∈ xs) :
    Opened w ys w' := ⟨h.toOnlyFiles, h.folders, fun x hx => h.takes x ((hmem x).1 hx)⟩

theorem Refused.congr {ys : List Sheet} {e : Failure} (h : Refused w xs e w')
    (hmem : ∀ x, x ∈ ys ↔ x ∈ xs) : Refused w ys e w' :=
  ⟨h.toOnlyFiles, h.unwritten, fun hall => h.takes fun x hx => hall x ((hmem x).2 hx)⟩

theorem Refused.append_right {e : Failure} (h : Refused w xs e w') (ys : List Sheet) :
    Refused w (xs ++ ys) e w' :=
  ⟨h.toOnlyFiles, h.unwritten, fun hall => h.takes (List.forall_mem_append.1 hall).1⟩

theorem Opened.append_refused {w'' : Workspace σ} {ys : List Sheet} {e : Failure}
    (h : Opened w xs w') (h' : Refused w' ys e w'') : Refused w (xs ++ ys) e w'' where
  toOnlyFiles := h.toOnlyFiles.trans h'.toOnlyFiles
  unwritten := h'.unwritten
  takes hall := h'.takes fun y hy =>
    ((List.forall_mem_append.1 hall).2 y hy).imp fun _ hy => hy.congr h.folders

theorem leads_openSheet : Leads (openSheet x) w (fun _ => Opened w [x]) (Refused w [x]) := by
  simp only [openSheet, changeFiles, leads_bind, leads_get, Outlet.openSheet]
  rcases hwrite : Outlet.writeText w.files x.path x.header with e | t
  · refine ⟨⟨rfl, rfl, rfl⟩, ?_, fun hall => ?_⟩
    · exact Outlet.isUnwritten_of_writeText hwrite
    · obtain ⟨place, htakes⟩ := List.forall_mem_singleton.1 hall
      rw [Outlet.writeText_eq_ok_iff.2 ⟨place, htakes, rfl⟩] at hwrite
      cases hwrite
  · obtain ⟨place, htakes, -⟩ := Outlet.writeText_eq_ok_iff.1 hwrite
    exact ⟨⟨rfl, rfl, rfl⟩, Outlet.sameFolders_of_writeText hwrite,
      List.forall_mem_singleton.2 ⟨place, htakes⟩⟩

/-- **Sheets are opened just if the path of each takes a file.** -/
theorem leads_openSheets : Leads (xs.forM openSheet) w (fun _ => Opened w xs) (Refused w xs) := by
  induction xs generalizing w with
  | nil => exact .nil w
  | cons x xs ih =>
    rw [List.forM, leads_bind]
    refine leads_openSheet.mono (fun _ w₁ h => ?_) fun e w₁ h => h.append_right xs
    exact ih.mono (fun _ w₂ h' => h.append h') fun e w₂ h' => h.append_refused h'

end Work

end Screenmark
