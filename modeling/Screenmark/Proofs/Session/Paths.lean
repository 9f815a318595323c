/-
  Screenmark — the paths of a run.

  All that a run exports, besides the sheet of all targets, belongs to a name
  (`Session.exportedNames`): that of a logged track or of a target, or the output of a rule
  that is applied behind the frames. These names are different, so a run whose names stay
  apart gives every export its own path. Outputs without a slash do stay apart, with one
  exception: a sheet that is called like a nested rule with `StartEnd` behind it takes the
  path of the starts and ends of that rule (`nodup_paths_iff_of_compile`).
-/
import Screenmark.Proofs.Plan.Coherence
import Screenmark.Proofs.Series.Alignment
import Screenmark.Proofs.Session.Trace

namespace Screenmark

theorem Tracks.nodup_loggedNames (ts : Tracks) : ts.loggedNames.Nodup := by
  refine List.pairwise_map.2 ((ts.byName.sorted.filter _).imp fun {a b} hlt heq => ?_)
  rw [heq] at hlt
  exact String.lt_irrefl _ hlt

namespace Plan

/-- The rules that are applied behind the frames, in their order. -/
def finishers (p : Plan) : List Rule := p.ofFamily .inputHook ++ p.ofFamily .conversion

/-- The names of the rules that nest runs. -/
def nestedNames (p : Plan) : List String :=
  (p.rules.filter (·.action = .nestByLastVariable)).flatMap Rule.outputs

variable {logged : List String} {p : Plan} {n : String} {r : Rule}

theorem mem_finishers : r ∈ p.finishers ↔ r ∈ p.rules ∧ r.family.isPerFrame = false := by
  simp only [finishers, ofFamily, List.mem_append, List.mem_filter, decide_eq_true_eq,
    ← and_or_left]
  refine and_congr_right fun _ => ?_
  cases r.family <;> decide

theorem mem_nestedNames : n ∈ p.nestedNames ↔
    ∃ r ∈ p.rules, r.action = .nestByLastVariable ∧ n ∈ r.outputs := by
  simp only [nestedNames, List.mem_flatMap, List.mem_filter, decide_eq_true_eq, and_assoc]

namespace IsCompiled

variable (hc : p.IsCompiled logged)
include hc

theorem nodup_outputs_of_finishers : (p.finishers.flatMap Rule.outputs).Nodup := by
  rw [finishers, List.flatMap_append]
  refine List.nodup_append.2 ⟨nodup_outputs_ofFamily hc.nodup_outputs _,
    nodup_outputs_ofFamily hc.nodup_outputs _, fun n hn m hm heq => ?_⟩
  subst heq
  obtain ⟨q, hq, hnq⟩ := List.mem_flatMap.1 hn
  obtain ⟨r, hr, hnr⟩ := List.mem_flatMap.1 hm
  obtain ⟨hq, hqf⟩ := List.mem_filter.1 hq
  obtain ⟨hr, hrf⟩ := List.mem_filter.1 hr
  obtain rfl := eq_of_mem_outputs hc.nodup_outputs hq hr hnq hnr
  cases (of_decide_eq_true hqf).symm.trans (of_decide_eq_true hrf)

/-- The rules that nest runs are applied behind the frames. -/
theorem mem_finishers_of_nested (hr : r ∈ p.rules) (hnested : r.action = .nestByLastVariable) :
    r ∈ p.finishers := by
  refine mem_finishers.2 ⟨hr, ?_⟩
  rw [(hc.sound r hr).family_eq, hnested]
  rfl

end IsCompiled

end Plan

/-! ## Exports and the names they belong to -/

section

open Export

variable {ts : Tracks} {n : String} {t : Target} {r : Rule}

theorem Tracks.isFamily_exportsAs (hn : n ∈ ts.loggedNames) : IsFamily [n] (ts.exportsAs n) := by
  obtain ⟨track, htrack, -⟩ := mem_loggedNames.1 hn
  unfold exportsAs
  rw [htrack]
  exact isFamily_timelines n _

/-- Tracks have no sheets. -/
theorem Tracks.sign_of_mem_exportsAs {e : Export} (he : e ∈ ts.exportsAs n) : e.sign = '-' := by
  unfold exportsAs at he
  split at he
  · cases he
  · exact sign_of_mem_timelines he

theorem Target.isFamily_exports (t : Target) :
    IsFamily [t.name] (t.exports ++ [.sheet t.name]) := by
  refine (isFamily_timelines t.name _).concat rfl fun hmem => ?_
  cases sign_of_mem_timelines hmem

theorem Rule.isFamily_exportsAs (r : Rule) (n : String) : IsFamily [n] (r.exportsAs n) := by
  unfold exportsAs
  split
  · exact isFamily_singleton (by simp) (by simp [owner?])
  · exact isFamily_singleton (by simp) (by simp [owner?])
  · exact isFamily_singleton (by simp) (by simp)

theorem Rule.mem_exports_of_sheet {e : Export} (he : e = .sheet n ∨ e = .startEnd n) :
    e ∈ r.exports ↔ r.action = .nestByLastVariable ∧ n ∈ r.outputs := by
  unfold exports exportsAs
  rcases he with rfl | rfl <;> cases r.action <;> simp

theorem isFamily_exports_of_rules {rs : List Rule} (hnd : (rs.flatMap Rule.outputs).Nodup) :
    IsFamily (rs.flatMap Rule.outputs) (rs.flatMap Rule.exports) := by
  refine .flatMap (fun r hr => ?_) hnd
  have hnames : r.outputs.flatMap (fun n => [n]) = r.outputs := List.flatMap_singleton' _
  have hfamily := IsFamily.flatMap fun n (_ : n ∈ r.outputs) => r.isFamily_exportsAs n
  rw [hnames] at hfamily
  exact hfamily ((List.pairwise_flatMap.1 hnd).1 r hr)

end

namespace Session

variable {σ : Type} {s : Session σ} {rules : List String} {p : Plan} {o : Outlet} {n : String}
  {e : Export}

/-- The names that the exports of a run belong to. -/
def exportedNames (s : Session σ) (p : Plan) : List String :=
  s.work.tracks.loggedNames ++ p.targets.map (·.name) ++ p.finishers.flatMap Rule.outputs

/-- The exports of a run that belong to a name, each next to the others of this name. -/
def ownedExports (s : Session σ) (p : Plan) : List Export :=
  s.loggedExports ++ p.targets.flatMap (fun t => t.exports ++ [.sheet t.name]) ++
    p.finishers.flatMap Rule.exports

theorem map_append_flatMap_perm {α β : Type} (f : α → List β) (g : α → β) : ∀ as : List α,
    (as.map g ++ as.flatMap f).Perm (as.flatMap fun a => f a ++ [g a])
  | [] => .refl []
  | a :: as => by
    have hrest := (map_append_flatMap_perm f g as).append_left (f a)
    have hhead : ((f a ++ [g a]) ++ as.flatMap fun a => f a ++ [g a]).Perm
        (g a :: (f a ++ as.flatMap fun a => f a ++ [g a])) := by
      rw [List.append_assoc]
      exact List.perm_middle
    refine List.Perm.trans (.cons (g a) ?_) hhead.symm
    exact (List.perm_append_comm_assoc _ _ _).trans hrest

/-- A run exports what belongs to names and, if there are targets, the sheet of all of them. -/
theorem exports_perm (s : Session σ) (p : Plan) : (s.exports p).Perm (s.ownedExports p) ∨
    ∃ ns, ns ≠ [] ∧ (s.exports p).Perm (.combined ns :: s.ownedExports p) := by
  have hfinish : finishExports p = p.finishers.flatMap Rule.exports := List.flatMap_append.symm
  unfold exports ownedExports surveyExports Scan.sheetExports
  rw [hfinish]
  split
  · next hempty =>
    rw [List.isEmpty_iff.1 hempty]
    exact .inl (.refl _)
  · next hne =>
    refine .inr ⟨p.targets.map (·.name), fun hnil => hne ?_, ?_⟩
    · rw [List.map_eq_nil_iff.1 hnil]
      rfl
    · have howned := map_append_flatMap_perm Target.exports (fun t => .sheet t.name) p.targets
      rw [← List.cons_append]
      refine .append_right _ ?_
      refine List.Perm.trans ?_ (.cons _ (howned.append_left _))
      rw [List.append_assoc, List.singleton_append, ← List.append_assoc]
      exact List.perm_middle.trans (.cons _ (.of_eq (List.append_assoc ..)))

/-! ## The names of a run -/

/-- The names in a run that no rule puts out: those of logged tracks, and of the templates that
    are looked for because some rule depends on them. -/
def givenNames (s : Session σ) (p : Plan) : List String :=
  s.work.tracks.loggedNames ++ p.autoRegistered

/-- No rule puts out what was logged before, or a name with a slash in it. -/
def HasNewOutputs (s : Session σ) (p : Plan) : Prop :=
  ∀ r ∈ p.rules, ∀ n ∈ r.outputs, '/' ∉ n.toList ∧ n ∉ s.work.tracks.loggedNames

/-- The names of a run do not lead to one path: given names are not alike, and no sheet is
    called like that of the starts and ends of a nested rule. -/
structure KeepsApart (s : Session σ) (p : Plan) : Prop where
  given : ∀ n ∈ s.givenNames p, ∀ m ∈ s.givenNames p, Path.Alike n m → n = m
  sheets : ∀ n ∈ p.targets.map (·.name) ++ p.nestedNames, ∀ m ∈ p.nestedNames,
    n ≠ m ++ "StartEnd"

instance (s : Session σ) (p : Plan) : Decidable (s.HasNewOutputs p) :=
  inferInstanceAs (Decidable (∀ r ∈ p.rules, ∀ n ∈ r.outputs,
    '/' ∉ n.toList ∧ n ∉ s.work.tracks.loggedNames))

instance (s : Session σ) (p : Plan) : Decidable (s.KeepsApart p) :=
  decidable_of_iff
    ((∀ n ∈ s.givenNames p, ∀ m ∈ s.givenNames p, Path.Alike n m → n = m) ∧
      ∀ n ∈ p.targets.map (·.name) ++ p.nestedNames, ∀ m ∈ p.nestedNames, n ≠ m ++ "StartEnd")
    ⟨fun h => ⟨h.1, h.2⟩, fun h => ⟨h.given, h.sheets⟩⟩

section

variable (hc : p.IsCompiled s.work.tracks.loggedNames)
include hc

theorem mem_exportedNames :
    n ∈ s.exportedNames p ↔ n ∈ s.givenNames p ∨ ∃ r ∈ p.rules, n ∈ r.outputs := by
  simp only [exportedNames, givenNames, List.mem_append, List.mem_map, List.mem_flatMap]
  constructor
  · rintro ((hlogged | ⟨t, ht, rfl⟩) | ⟨r, hr, hn⟩)
    · exact .inl (.inl hlogged)
    · rcases hc.mem_targets.1 ht with ⟨hwanted, -⟩ | ⟨r, hr, -, hn, -⟩
      · exact .inl (.inr (hc.mem_autoRegistered.2 hwanted))
      · exact .inr ⟨r, hr, hn⟩
    · exact .inr ⟨r, (Plan.mem_finishers.1 hr).1, hn⟩
  · rintro ((hlogged | hauto) | ⟨r, hr, hn⟩)
    · exact .inl (.inl hlogged)
    · exact .inl (.inr ⟨.undeclared n, hc.mem_targets.2 (.inl ⟨hc.mem_autoRegistered.1 hauto, rfl⟩),
        rfl⟩)
    · rcases hf : r.family.isPerFrame
      · exact .inr ⟨r, Plan.mem_finishers.2 ⟨hr, hf⟩, hn⟩
      · exact .inl (.inr (hc.exists_target_of_output hr hf hn))

/-- **Tracks, targets and rules have different names**, if outputs are new. -/
theorem nodup_exportedNames (hnew : s.HasNewOutputs p) : (s.exportedNames p).Nodup := by
  refine List.nodup_append.2 ⟨List.nodup_append.2 ⟨Tracks.nodup_loggedNames _, hc.nodup_names,
    fun n hn m hm heq => ?_⟩, hc.nodup_outputs_of_finishers, fun n hn m hm heq => ?_⟩
  · obtain ⟨t, ht, rfl⟩ := List.mem_map.1 hm
    rcases hc.mem_targets.1 ht with ⟨hwanted, -⟩ | ⟨r, hr, -, hout, -⟩
    · exact hwanted.2.1 (heq ▸ hn)
    · exact (hnew r hr _ hout).2 (heq ▸ hn)
  · obtain ⟨r, hr, hout⟩ := List.mem_flatMap.1 hm
    obtain ⟨hr, hfamily⟩ := Plan.mem_finishers.1 hr
    rcases List.mem_append.1 hn with hlogged | htarget
    · exact (hnew r hr m hout).2 (heq ▸ hlogged)
    · obtain ⟨t, ht, rfl⟩ := List.mem_map.1 htarget
      exact hc.name_ne hr hfamily hout ht heq

/-! ## The exports of a run -/

theorem isFamily_ownedExports (hlogged : s.settings.outputs.loggedTimelines = true)
    (hnew : s.HasNewOutputs p) : Export.IsFamily (s.exportedNames p) (s.ownedExports p) := by
  have hnd := nodup_exportedNames hc hnew
  obtain ⟨hfront, hfinish, -⟩ := List.nodup_append.1 hnd
  obtain ⟨htracks, htargets, -⟩ := List.nodup_append.1 hfront
  have hone : ∀ ns : List String, ns.flatMap (fun n => [n]) = ns := fun ns =>
    List.flatMap_singleton' ns
  have hnames : p.targets.flatMap (fun t => [t.name]) = p.targets.map (·.name) :=
    List.map_eq_flatMap.symm
  have hfirst : Export.IsFamily s.work.tracks.loggedNames s.loggedExports := by
    unfold loggedExports
    rw [if_pos hlogged]
    have hfamily := Export.IsFamily.flatMap fun n (hn : n ∈ s.work.tracks.loggedNames) =>
      Tracks.isFamily_exportsAs hn
    rw [hone] at hfamily
    exact hfamily htracks
  have hscan := Export.IsFamily.flatMap fun t (_ : t ∈ p.targets) => t.isFamily_exports
  rw [hnames] at hscan
  exact (hfirst.append (hscan htargets) hfront).append
    (isFamily_exports_of_rules hfinish) hnd

theorem isRegular_exports (hlogged : s.settings.outputs.loggedTimelines = true)
    (hnew : s.HasNewOutputs p) : Export.IsRegular (s.exports p) :=
  (isFamily_ownedExports hc hlogged hnew).isRegular (exports_perm s p)

theorem segments_mem_exports (hlogged : s.settings.outputs.loggedTimelines = true)
    (hnew : s.HasNewOutputs p) : .segments n ∈ s.exports p ↔ n ∈ s.exportedNames p := by
  have hfamily := isFamily_ownedExports hc hlogged hnew
  have hmem : .segments n ∈ s.exports p ↔ .segments n ∈ s.ownedExports p := by
    rcases exports_perm s p with hperm | ⟨ns, -, hperm⟩
    · exact hperm.mem_iff
    · rw [hperm.mem_iff, List.mem_cons]
      simp
  rw [hmem]
  refine ⟨fun h => ?_, hfamily.segments n⟩
  obtain ⟨m, hm, hown⟩ := hfamily.owned _ h
  exact Option.some.inj hown ▸ hm

/-- Targets have sheets, and so have nested runs. -/
theorem sheet_mem_exports (he : e = .sheet n ∨ e = .startEnd n) : e ∈ s.exports p ↔
    n ∈ p.nestedNames ∨ e = .sheet n ∧ n ∈ p.targets.map (·.name) := by
  have hsign : e.sign = '_' := by rcases he with rfl | rfl <;> rfl
  have hlogged : e ∉ s.loggedExports := fun h => by
    unfold loggedExports at h
    split at h
    · obtain ⟨m, -, hm⟩ := List.mem_flatMap.1 h
      rw [Tracks.sign_of_mem_exportsAs hm] at hsign
      cases hsign
    · cases h
  have htargets : e ∉ p.targets.flatMap Target.exports := fun h => by
    obtain ⟨t, -, ht⟩ := List.mem_flatMap.1 h
    rw [Export.sign_of_mem_timelines ht] at hsign
    cases hsign
  have hsheets : e ∈ Scan.sheetExports p.targets ↔ e = .sheet n ∧ n ∈ p.targets.map (·.name) := by
    unfold Scan.sheetExports
    split
    · next hempty =>
      rw [List.isEmpty_iff.1 hempty]
      simp
    · rcases he with rfl | rfl <;> simp
  have hfinish : e ∈ finishExports p ↔ n ∈ p.nestedNames := by
    have hfinishers : finishExports p = p.finishers.flatMap Rule.exports := List.flatMap_append.symm
    rw [hfinishers, List.mem_flatMap, Plan.mem_nestedNames]
    constructor
    · rintro ⟨r, hr, hmem⟩
      exact ⟨r, (Plan.mem_finishers.1 hr).1, (Rule.mem_exports_of_sheet he).1 hmem⟩
    · rintro ⟨r, hr, hnested, hout⟩
      exact ⟨r, hc.mem_finishers_of_nested hr hnested,
        (Rule.mem_exports_of_sheet he).2 ⟨hnested, hout⟩⟩
  unfold exports surveyExports
  rw [List.mem_append, List.mem_append, List.mem_append, hfinish, hsheets]
  simp [hlogged, htargets, or_comm]

/-- **The exports of a run have different paths just if its names stay apart.** -/
theorem nodup_pathOf_exports_iff (o : Outlet) (hlogged : s.settings.outputs.loggedTimelines = true)
    (hnew : s.HasNewOutputs p) :
    ((s.exports p).map fun e => Path.parts (o.pathOf e)).Nodup ↔ s.KeepsApart p := by
  have hslash : ∀ {n m}, n ∈ p.nestedNames → Path.Alike m (n ++ "StartEnd") → m = n ++ "StartEnd" := by
    intro n m hn halike
    obtain ⟨r, hr, -, hout⟩ := Plan.mem_nestedNames.1 hn
    refine (Path.eq_of_alike ?_ halike.symm).symm
    rw [String.toList_append, List.mem_append]
    exact fun h => h.elim (hnew r hr n hout).1 (by decide)
  rw [Outlet.nodup_paths_iff (isRegular_exports hc hlogged hnew)]
  constructor
  · rintro ⟨hnames, hsheets⟩
    have hgiven : ∀ {n}, n ∈ s.givenNames p → .segments n ∈ s.exports p := fun hn =>
      (segments_mem_exports hc hlogged hnew).2 ((mem_exportedNames hc).2 (.inl hn))
    refine ⟨fun n hn m hm => hnames n m (hgiven hn) (hgiven hm), fun n hn m hm heq => ?_⟩
    refine hsheets n m ((sheet_mem_exports hc (.inl rfl)).2 ?_)
      ((sheet_mem_exports hc (.inr rfl)).2 (.inl hm)) (heq ▸ Path.alike_refl n)
    exact (List.mem_append.1 hn).symm.imp_right fun h => ⟨rfl, h⟩
  · intro hapart
    refine ⟨fun n m hn hm halike => ?_, fun n m hn hm halike => ?_⟩
    · rcases (mem_exportedNames hc).1 ((segments_mem_exports hc hlogged hnew).1 hn) with
        hn | ⟨r, hr, hout⟩
      · rcases (mem_exportedNames hc).1 ((segments_mem_exports hc hlogged hnew).1 hm) with
          hm | ⟨r, hr, hout⟩
        · exact hapart.given n hn m hm halike
        · exact (Path.eq_of_alike (hnew r hr m hout).1 halike.symm).symm
      · exact Path.eq_of_alike (hnew r hr n hout).1 halike
    · rcases (sheet_mem_exports hc (.inr rfl)).1 hm with hm | ⟨hfalse, -⟩
      · refine hapart.sheets n ?_ m hm (hslash hm halike)
        exact List.mem_append.2 (((sheet_mem_exports hc (.inl rfl)).1 hn).symm.imp_left And.right)
      · cases hfalse

end

/-! ## The files of a run -/

theorem wanted_eq_self (ho : o.outputs = .all) (es : List Export) : o.wanted es = es := by
  refine List.filter_eq_self.2 fun e _ => ?_
  rw [ho]
  cases e <;> rfl

/-- **The files of a run have different paths if its names stay apart, and only then.** For
    rules of which a plan is made, whose outputs have no slash and were not logged before, and
    where every export is to be written: what a run writes is a list of writings that lead to
    its files; if the names stay apart, those that begin a file begin different ones. The files
    in the summary of a run that was not aborted are different exactly if the names stay apart.
    A run that cannot know its frames writes nothing. -/
theorem nodup_paths_iff_of_compile (s : Session σ) {rules : List String} {p : Plan}
    (hp : Plan.compile rules s.work.tracks.loggedNames = .ok p) (hall : s.settings.outputs = .all)
    (hnew : s.HasNewOutputs p) :
    (∀ sh, s.shape s.work.tracks = .ok sh → ∃ log, s.IsLog rules p sh log ∧
      (s.KeepsApart p → ((log.filterMap Writing.begun?).map fun e =>
        Path.parts ((s.outlet sh.fps).pathOf e)).Nodup) ∧
      ∀ m, (s.run rules).1 = .ok m → m.aborted = false →
        ((m.files.map Path.parts).Nodup ↔ s.KeepsApart p)) ∧
    ((∀ sh, s.shape s.work.tracks ≠ .ok sh) →
      ∃ e, (s.run rules).1 = .error e ∧ (s.run rules).2.work.files = s.work.files) := by
  have hc := Plan.isCompiled_of_compile hp
  have hlogged : s.settings.outputs.loggedTimelines = true := by rw [hall]; rfl
  refine ⟨fun sh hsh => ?_, fun hnone => exists_error_of_run (.inr hnone)⟩
  have hwanted := wanted_eq_self (o := s.outlet sh.fps) hall
  have hpaths := nodup_pathOf_exports_iff hc (s.outlet sh.fps) hlogged hnew
  obtain ⟨log, hlog⟩ := exists_isLog hp hsh
  refine ⟨log, hlog, fun hapart => ?_, fun m hm habort => ?_⟩
  · have hbegun := hlog.begun
    rw [hwanted] at hbegun
    exact (hpaths.2 hapart).sublist (hbegun.sublist.map _)
  · obtain ⟨hfiles, hbegun⟩ := hlog.summary m hm
    have hdone : s.doneExports p m = s.exports p := by rw [doneExports, if_neg (by simp [habort])]
    rw [hbegun, hwanted, hdone] at hfiles
    rw [(hfiles.map Path.parts).nodup_iff, List.map_map]
    exact hpaths

/-- A recording of one frame, at which `on` was logged; every export is to be written. -/
def lit : Session Unit where
  settings := { Settings.default with fps := some .one }
  dataFolder := "data"
  stem := "rec"
  instruments := .none
  firstMinute := none
  stopped := false
  work := ⟨(), .empty, (Tracks.empty Settings.defaultThreshold).insert "on"
    (.ofSeries (.numbers #[.one]) .logged), .initial⟩

/-- A rule that nests runs has four files, besides those of the logged track. -/
theorem nodup_paths_of_one_nested : ∃ p sh m s',
    Plan.compile ["x=nestByLastVariable(on)"] lit.work.tracks.loggedNames = .ok p ∧
    lit.settings.outputs = .all ∧ lit.HasNewOutputs p ∧ lit.shape lit.work.tracks = .ok sh ∧
    lit.run ["x=nestByLastVariable(on)"] = (.ok m, s') ∧ m.aborted = false ∧ lit.KeepsApart p ∧
    m.files.length = 4 ∧ (m.files.map Path.parts).Nodup := by
  have hplan : (Plan.compile ["x=nestByLastVariable(on)"] lit.work.tracks.loggedNames).toOption.any
      (fun p => decide (lit.HasNewOutputs p ∧ lit.KeepsApart p)) = true := by decide +kernel
  have hrun : (match lit.run ["x=nestByLastVariable(on)"] with
      | (.ok m, _) => decide (m.aborted = false ∧ m.files.length = 4)
      | (.error _, _) => false) = true := by decide +kernel
  have hshape : lit.shape lit.work.tracks = .ok ⟨.one, lit.work.tracks.longest, 0, 0⟩ := rfl
  obtain ⟨p, hp, hnames⟩ := Plan.exists_of_any_toOption hplan
  obtain ⟨hnew, hapart⟩ := of_decide_eq_true hnames
  split at hrun
  · next m s' hs' =>
    obtain ⟨habort, hfiles⟩ := of_decide_eq_true hrun
    obtain ⟨log, -, -, hnodup⟩ := (nodup_paths_iff_of_compile lit hp rfl hnew).1 _ hshape
    have hm : (lit.run ["x=nestByLastVariable(on)"]).1 = .ok m := by rw [hs']
    exact ⟨p, _, m, s', hp, rfl, hnew, hshape, hs', habort, hapart, hfiles,
      (hnodup m hm habort).2 hapart⟩
  · cases hrun

/-- **A sheet may take the path of another.** The rule `x` writes the starts and ends of its
    runs into the file in which `xStartEnd` then writes its starts. -/
theorem not_nodup_paths_of_startEnd : ∃ p m s', Plan.compile
      ["x=nestByLastVariable(on)", "xStartEnd=nestByLastVariable(on)"]
      lit.work.tracks.loggedNames = .ok p ∧
    lit.settings.outputs = .all ∧ lit.HasNewOutputs p ∧
    lit.run ["x=nestByLastVariable(on)", "xStartEnd=nestByLastVariable(on)"] = (.ok m, s') ∧
    m.files = ["data/rec-on-segments.json", "data/rec-x-segments.json", "data/rec_x.csv",
      "data/rec_xStartEnd.csv", "data/rec-xStartEnd-segments.json", "data/rec_xStartEnd.csv",
      "data/rec_xStartEndStartEnd.csv"] ∧ ¬ m.files.Nodup := by
  have hplan : (Plan.compile ["x=nestByLastVariable(on)", "xStartEnd=nestByLastVariable(on)"]
      lit.work.tracks.loggedNames).toOption.any (fun p => decide (lit.HasNewOutputs p)) = true := by
    decide +kernel
  have hrun : (match lit.run ["x=nestByLastVariable(on)", "xStartEnd=nestByLastVariable(on)"] with
      | (.ok m, _) => decide (m.files = ["data/rec-on-segments.json", "data/rec-x-segments.json",
          "data/rec_x.csv", "data/rec_xStartEnd.csv", "data/rec-xStartEnd-segments.json",
          "data/rec_xStartEnd.csv", "data/rec_xStartEndStartEnd.csv"])
      | (.error _, _) => false) = true := by decide +kernel
  obtain ⟨p, hp, hnew⟩ := Plan.exists_of_any_toOption hplan
  split at hrun
  · next m s' hs' =>
    have hfiles := of_decide_eq_true hrun
    exact ⟨p, m, s', hp, rfl, of_decide_eq_true hnew, hs', hfiles, hfiles ▸ by decide⟩
  · cases hrun

end Session

end Screenmark
