/-
  Screenmark — what conversion rules write.

  Each conversion rule writes a timeline of its segments, and a rule that nests runs writes
  two sheets as well. So its exports follow from its action and its name (`Rule.exports`),
  and those of all conversion rules are written in the order of the rules
  (`Derivation.writes_run`). The timelines lie within the frames of the session.
-/
import Screenmark.Proofs.Derivation.Reads
import Screenmark.Proofs.Derivation.Within
import Screenmark.Proofs.Derivation.Writing
import Screenmark.Proofs.Output.Trace

namespace Screenmark

/-- What a rule that is applied behind the frames exports under a name. -/
def Rule.exportsAs (r : Rule) (name : String) : List Export :=
  .segments name ::
    match r.action with
    | .mouseClicks => [.overlays name]
    | .nestByLastVariable => [.sheet name, .startEnd name]
    | _ => []

/-- What a rule that is applied behind the frames exports. -/
def Rule.exports (r : Rule) : List Export := r.outputs.flatMap r.exportsAs

theorem Sheet.path_of_write {x y : Sheet} {record : List String} (h : x.write record = .ok y) :
    y.path = x.path := by
  unfold write at h
  split at h
  · cases h
    rfl
  · cases h

namespace Derivation

open Work

variable {σ : Type} {o : Outlet} {P : Writing → Prop} {w : Workspace σ} {r : Rule} {frames : Nat}
  {d : Derived} {nested : Option Nested} {warnings : List String} {ts : Tracks}
  {threshold : Single}

theorem path_of_foldlM {rows : List NestedRow} {record : NestedRow → List String} {x y : Sheet}
    (h : rows.foldlM (fun x row => x.write (record row)) x = .ok y) : y.path = x.path := by
  induction rows generalizing x with
  | nil =>
    cases h
    rfl
  | cons row rows ih =>
    rw [List.foldlM_cons] at h
    obtain ⟨z, hz, h⟩ := exists_of_bind_eq_ok h
    exact (ih h).trans (Sheet.path_of_write hz)

theorem writes_writeNested {n : Nested} (hopened : ∀ e columns, P (.opened e columns))
    (hkept : ∀ e ∈ [Export.sheet n.derived.name, .startEnd n.derived.name], ∀ columns latest,
      P (.kept e columns latest)) :
    Writes o P [.sheet n.derived.name, .startEnd n.derived.name] (writeNested o n) w fun files _ =>
      files = [o.pathOf (.sheet n.derived.name), o.pathOf (.startEnd n.derived.name)] := by
  have hstarts : startSheet o n = .start (o.pathOf (.sheet n.derived.name)) (startColumns n) := rfl
  have hspans : startEndSheet o n =
      .start (o.pathOf (.startEnd n.derived.name)) (startEndColumns n) := rfl
  unfold writeNested
  dsimp only
  rw [hstarts, hspans]
  refine (writes_openSheet (hopened _ _)).bind fun _ w₁ _ =>
    (writes_openSheet (hopened _ _)).bind_right fun _ w₂ _ => .ofExcept_bind fun x hx => ?_
  refine .ofExcept_bind fun y hy => ?_
  have hpaths : [x, y].map (·.path) =
      [Export.sheet n.derived.name, .startEnd n.derived.name].map o.pathOf := by
    simp only [List.map_cons, path_of_foldlM hx, path_of_foldlM hy]
    rfl
  exact (writes_keepSheets hpaths hkept).bind_left fun _ w₃ _ => .pure hpaths

/-- Only nested runs give further sheets, and they have the name of the rule. -/
theorem nested_of_derive (h : derive ts threshold r frames = .ok (d, nested, warnings)) :
    (∃ n, nested = some n ∧ n.derived = d ∧
      r.exports = [.segments d.name] ++ [.sheet d.name, .startEnd d.name]) ∨
        nested = none ∧ r.exports = [.segments d.name] := by
  have hexports : r.exports = r.exportsAs d.name := by
    unfold Rule.exports
    rw [outputs_of_derive h, List.flatMap_singleton]
  rw [hexports]
  unfold Rule.exportsAs
  unfold derive at h
  split at h
  · next haction =>
    obtain ⟨⟨d, ws⟩, -, heq⟩ := exists_of_map_eq_ok h
    cases heq
    exact .inr ⟨rfl, by rw [haction]⟩
  · next haction =>
    obtain ⟨d, -, heq⟩ := exists_of_map_eq_ok h
    cases heq
    exact .inr ⟨rfl, by rw [haction]⟩
  · next haction =>
    obtain ⟨d, -, heq⟩ := exists_of_map_eq_ok h
    cases heq
    exact .inr ⟨rfl, by rw [haction]⟩
  · next haction =>
    obtain ⟨n, -, heq⟩ := exists_of_map_eq_ok h
    cases heq
    exact .inl ⟨n, rfl, rfl, by rw [haction]; rfl⟩
  · cases h

theorem writes_tell : Writes o P [] (tell r warnings) w fun _ _ => True := by
  unfold tell
  refine Writes.bind_right (Q := fun _ _ => True) ?_ fun _ _ _ => .pure trivial
  induction warnings generalizing w with
  | nil => exact .pure trivial
  | cons message warnings ih =>
    rw [List.forIn_cons]
    refine .quiet_bind (Q := fun step _ => step = .yield ⟨⟩) ⟨rfl, rfl⟩ fun step w₁ hstep => ?_
    subst hstep
    exact ih

/-- The segments of a rule lie within the frames, so its timeline may be any that does. -/
theorem writes_apply {settings : Settings} {report : DerivationReport}
    (htimeline : ∀ name segments (a : Action), (Entries.segments segments).IsWithin frames →
      P (.timeline name (.segments segments) frames ⟨name, a.name, .conversion⟩))
    (hopened : ∀ e columns, P (.opened e columns))
    (hkept : ∀ e ∈ r.exports, ∀ columns latest, P (.kept e columns latest)) :
    Writes o P (o.wanted r.exports) (apply settings (some o) frames report r) w fun report' _ =>
      report'.files = report.files ++ (o.wanted r.exports).map o.pathOf := by
  rw [apply_eq]
  refine .get_bind (.ofExcept_bind fun result hderive => ?_)
  obtain ⟨d, nested, warnings⟩ := result
  refine writes_tell.bind_left fun _ w₁ _ => ?_
  have hwritten : Writes o P (o.wanted r.exports) (writeTo (some o) frames r d nested) w₁
      fun files _ => files = (o.wanted r.exports).map o.pathOf := by
    have hsegments : Writes o P (o.wanted [.segments d.name])
        (Work.writeSegments o d.name d.segments frames ⟨d.name, r.action.name, .conversion⟩) w₁
          fun files w' => files = (o.wanted [.segments d.name]).map o.pathOf ∧
            w'.tracks = w₁.tracks :=
      writes_writeSegments (htimeline _ _ _ (isWithin_of_derive hderive))
    rcases nested_of_derive hderive with ⟨n, rfl, rfl, hexports⟩ | ⟨rfl, hexports⟩
    · rw [hexports, o.wanted_append]
      refine hsegments.bind fun files w₂ hfiles => ?_
      obtain ⟨rfl, -⟩ := hfiles
      dsimp only
      split
      · next htables =>
        have hsheets : o.wanted [.sheet n.derived.name, .startEnd n.derived.name] =
            [.sheet n.derived.name, .startEnd n.derived.name] :=
          List.filter_eq_self.2 (by simp [Outputs.wants, htables])
        rw [hsheets]
        refine (writes_writeNested hopened fun e he => hkept e ?_).bind_right
          fun sheets w₃ hfiles => .pure ?_
        · rw [hexports]
          exact List.mem_append_right _ he
        · rw [hfiles, List.map_append]
          rfl
      · next htables =>
        have hsheets : o.wanted [.sheet n.derived.name, .startEnd n.derived.name] = [] :=
          List.filter_eq_nil_iff.2 (by simp [Outputs.wants, htables])
        rw [hsheets, List.append_nil]
        exact .pure rfl
    · rw [hexports]
      exact hsegments.bind_right fun files w₂ hfiles => .pure hfiles.1
  refine hwritten.bind_right fun files w₂ hfiles => .modify_bind rfl (.pure ?_)
  rw [hfiles]

/-- **The exports of the conversion rules are those of each, in their order.** -/
theorem writes_run {settings : Settings} {p : Plan}
    (htimeline : ∀ name segments (a : Action), (Entries.segments segments).IsWithin frames →
      P (.timeline name (.segments segments) frames ⟨name, a.name, .conversion⟩))
    (hopened : ∀ e columns, P (.opened e columns))
    (hkept : ∀ e ∈ (p.ofFamily .conversion).flatMap Rule.exports, ∀ columns latest,
      P (.kept e columns latest)) :
    Writes o P (o.wanted ((p.ofFamily .conversion).flatMap Rule.exports))
      (run settings p frames (some o)) w fun report _ =>
        report.files = (o.wanted ((p.ofFamily .conversion).flatMap Rule.exports)).map o.pathOf := by
  unfold run
  dsimp only
  split
  · next hempty =>
    rw [List.isEmpty_iff.1 hempty]
    exact .pure rfl
  · rw [o.wanted_flatMap]
    refine .modify_bind rfl ((Writes.foldlM DerivationReport.files
      fun r hr report w => ?_).mono fun _ _ h => h)
    exact writes_apply htimeline hopened fun e he => hkept e (List.mem_flatMap.2 ⟨r, hr, he⟩)

end Derivation

end Screenmark
