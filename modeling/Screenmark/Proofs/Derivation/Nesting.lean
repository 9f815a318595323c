/-
  Screenmark — nested runs.

  A rule with `nestByLastVariable` gives a row for each run of its last operand. A row has a
  member for every operand, the latest run of it that meets the row (`IsMember`).

  * `isMember_latestIn` : of runs in order, the last one that overlaps a row is its member. The
    run that a row is for meets no other run of its operand, so it is a member of the row
    itself (`latestIn_self`);
  * `isWritten_of_length` : records that are as wide as a sheet can be written, and those of the
    rows are (`length_startRecord`, `length_startEndRecord`);
  * `exists_isNested_of_read` : so rows, segments and sheets are as they should be.
-/
import Mathlib.Data.List.Forall2
import Screenmark.Derivation.Sheets
import Screenmark.Proofs.Derivation.Operands

namespace Screenmark

/-! ## Spans that meet -/

/-- Two spans have a frame in common. -/
def Span.Meets (s t : Span) : Prop := ∃ f, s.contains f = true ∧ t.contains f = true

theorem Span.overlaps_eq_true_iff {s t : Span} (hs : s.start < s.stop) (ht : t.start < t.stop) :
    s.overlaps t = true ↔ s.Meets t := by
  rw [overlaps, Bool.and_eq_true, decide_eq_true_eq, decide_eq_true_eq]
  constructor
  · rintro ⟨hst, hts⟩
    refine ⟨max s.start t.start, contains_iff.2 ?_, contains_iff.2 ?_⟩
    · omega
    · omega
  · rintro ⟨f, hsf, htf⟩
    rw [contains_iff] at hsf htf
    omega

theorem Span.meets_self {s : Span} (h : s.start < s.stop) : s.Meets s :=
  ⟨s.start, contains_start h, contains_start h⟩

namespace Derivation

variable {ts : Tracks} {r : Rule} {frames f : Nat} {threshold : Single} {name source : String}
  {guard : List Bool} {span : Span} {s : Series} {v w : VariableRun} {runs : List VariableRun}
  {ss : List Series} {n : Nested}

/-! ## Members of rows -/

/-- Of the runs that meet a span, the one that starts last. -/
structure VariableRun.IsLatest (R : VariableRun → Prop) (span : Span) (v : VariableRun) :
    Prop where
  run : R v
  meets : v.span.Meets span
  latest : ∀ w, R w → w.span.Meets span → w.span.start ≤ v.span.start

/-- What a row with the span holds for an operand with the runs: the latest one that meets it,
    if there is one. -/
def IsMember (R : VariableRun → Prop) (span : Span) : Option VariableRun → Prop
  | some v => v.IsLatest R span
  | none => ∀ v, R v → ¬ v.span.Meets span

/-- **The last run that overlaps a row is its member**, if the runs are in order. -/
theorem isMember_latestIn {R : VariableRun → Prop} (hruns : ∀ v, v ∈ runs ↔ R v)
    (hne : ∀ v ∈ runs, v.span.start < v.span.stop)
    (horder : runs.Pairwise fun a b => a.span.stop ≤ b.span.start) (hspan : span.start < span.stop) :
    IsMember R span (latestIn span runs) := by
  have hmeets : ∀ v, R v ∧ v.span.Meets span ↔ v ∈ runs.filter (·.span.overlaps span) := by
    intro v
    rw [List.mem_filter, ← hruns]
    exact and_congr_right fun hv => (Span.overlaps_eq_true_iff (hne v hv) hspan).symm
  rw [latestIn]
  rcases hlast : (runs.filter (·.span.overlaps span)).getLast? with _ | v
  · rw [hlast]
    rw [List.getLast?_eq_none_iff] at hlast
    intro v hv hmeet
    cases hlast ▸ (hmeets v).1 ⟨hv, hmeet⟩
  · rw [hlast]
    obtain ⟨earlier, heq⟩ := List.getLast?_eq_some_iff.1 hlast
    have hpairs := horder.filter (·.span.overlaps span)
    rw [heq, List.pairwise_append] at hpairs
    have hv := (hmeets v).2 (heq ▸ List.mem_append_right _ (List.mem_singleton_self v))
    refine ⟨hv.1, hv.2, fun w hw hmeet => ?_⟩
    have hmem := (hmeets w).1 ⟨hw, hmeet⟩
    rw [heq, List.mem_append, List.mem_singleton] at hmem
    rcases hmem with hearlier | rfl
    · have hstop := hpairs.2.2 w hearlier v (List.mem_singleton_self v)
      exact Nat.le_trans (Nat.le_of_lt (hne w ((hruns w).2 hw))) hstop
    · exact Nat.le_refl _

/-- The latest run that overlaps one of the runs themselves is this run. -/
theorem latestIn_self (hne : ∀ v ∈ runs, v.span.start < v.span.stop)
    (horder : runs.Pairwise fun a b => a.span.stop ≤ b.span.start) (hv : v ∈ runs) :
    latestIn v.span runs = some v := by
  have hmember := isMember_latestIn (fun _ => Iff.rfl) hne horder (hne v hv)
  rcases hlatest : latestIn v.span runs with _ | w
  · rw [hlatest] at hmember
    exact absurd (Span.meets_self (hne v hv)) (hmember v hv)
  · rw [hlatest] at hmember
    obtain ⟨f, hw, hf⟩ := hmember.meets
    rw [Span.contains_iff] at hw hf
    rcases eq_or_rel_of_pairwise horder hmember.run hv with rfl | hle | hle
    · rfl
    · omega
    · omega

/-! ## Records of rows -/

/-- The rows can be written as records that are as wide as the sheet. -/
def IsWritten (record : NestedRow → List String) (rows : List NestedRow) (x : Sheet) : Prop :=
  ∃ y, rows.foldlM (fun x row => x.write (record row)) x = .ok y ∧ y.columns = x.columns ∧
    y.records = x.records ++ rows.map record ∧
    ∀ row ∈ rows, (record row).length = x.columns.length

theorem isWritten_of_length {record : NestedRow → List String} {rows : List NestedRow} {x : Sheet}
    (h : ∀ row ∈ rows, (record row).length = x.columns.length) : IsWritten record rows x := by
  refine ⟨{ x with latest := (rows.map record).reverse ++ x.latest }, ?_, rfl, ?_, h⟩
  · induction rows generalizing x with
    | nil => rfl
    | cons row rows ih =>
      rw [List.forall_mem_cons] at h
      have hwrite : x.write (record row) = .ok { x with latest := record row :: x.latest } :=
        if_pos h.1
      have hrest : rows.foldlM (fun x row => x.write (record row))
          { x with latest := record row :: x.latest } = _ := ih h.2
      rw [List.foldlM_cons, hwrite]
      refine hrest.trans ?_
      rw [List.map_cons, List.reverse_cons, List.append_assoc]
      rfl
  · rw [Sheet.records, List.reverse_append, List.reverse_reverse]
    rfl

/-- Lists put together of parts, one for each operand, are as long as each other if the parts
    are. -/
theorem length_flatten_zipWith {α β : Type} {f : α → Bool → List String}
    {g : β → Bool → List String} (hparts : ∀ a b t, (f a t).length = (g b t).length) {as : List α}
    {bs : List β} (h : as.length = bs.length) (texts : List Bool) :
    (List.zipWith f as texts).flatten.length = (List.zipWith g bs texts).flatten.length := by
  induction as generalizing bs texts with
  | nil =>
    obtain rfl : bs = [] := List.length_eq_zero_iff.1 h.symm
    rfl
  | cons a as ih =>
    obtain ⟨b, bs, rfl⟩ := List.exists_cons_of_length_eq_add_one h.symm
    rcases texts with _ | ⟨t, texts⟩
    · rfl
    · rw [List.zipWith_cons_cons, List.zipWith_cons_cons, List.flatten_cons, List.flatten_cons,
        List.length_append, List.length_append, hparts a b t, ih (Nat.succ.inj h)]

theorem length_valueField (m : Option VariableRun) (name : String) (isText : Bool) :
    (valueField m isText).length = (valueColumn name isText).length := by
  cases isText <;> rfl

theorem length_startRecord (c : Clock) {row : NestedRow}
    (h : row.members.length = n.operands.length) :
    (startRecord c n row).length = (startColumns n).length := by
  have hparts := length_flatten_zipWith (f := fun m t => startField c m :: valueField m t)
    (g := fun v t => (v ++ "Start") :: valueColumn v t)
    (fun m name t => congrArg (· + 1) (length_valueField m name t)) h n.isText
  rw [startRecord, startColumns, List.length_append, List.length_append, hparts]
  simp only [List.length_cons, List.length_nil]

theorem length_startEndRecord (c : Clock) {row : NestedRow}
    (h : row.members.length = n.operands.length) :
    (startEndRecord c n row).length = (startEndColumns n).length :=
  length_flatten_zipWith (fun m name t => congrArg (· + 2) (length_valueField m name t)) h n.isText

/-! ## The result -/

/-- What a rule gives over a guard, for operands with the series `ss` and a last one with the
    runs `last`. -/
def nestedRuns (ss : List Series) (threshold : Single) (frames : Nat) (name : String)
    (operands : List String) (guard : List Bool) (last : List VariableRun) : Nested where
  derived :=
    { name := name
      track := indicatorTrack ((List.range frames).map fun f => last.any (·.span.contains f))
      segments := last.map fun v => Segment.ofRun (v.value.getD name) v.span
      failures := 0 }
  operands := operands
  isText := ss.map (·.kind = .text)
  rows := last.map fun v => ⟨v.span, ss.map fun s => latestIn v.span (runsOf s threshold guard)⟩

/-- The runs of the last of the series, if there is one. -/
def lastRuns (ss : List Series) (threshold : Single) (guard : List Bool) : List VariableRun :=
  (ss.map (runsOf · threshold guard)).getLastD []

theorem lastRuns_eq (h : ss.getLast? = some s) (threshold : Single) (guard : List Bool) :
    lastRuns ss threshold guard = runsOf s threshold guard := by
  rw [lastRuns, List.getLastD_eq_getLast?, List.getLast?_map, h]
  rfl

theorem exists_of_mem_lastRuns (h : v ∈ lastRuns ss threshold guard) :
    ∃ s, v ∈ runsOf s threshold guard := by
  rcases hlast : ss.getLast? with _ | s
  · rw [lastRuns, List.getLastD_eq_getLast?, List.getLast?_map, hlast] at h
    cases h
  · exact ⟨s, lastRuns_eq hlast threshold guard ▸ h⟩

theorem nestByLastVariable_eq (hname : nameOf r = .ok name)
    (hguard : guardOf ts r frames = .ok guard)
    (hseries : r.operands.mapM (seriesOf ts r) = .ok ss) : nestByLastVariable ts r frames =
      .ok (nestedRuns ss ts.threshold frames name r.operands guard
        (lastRuns ss ts.threshold guard)) := by
  unfold nestByLastVariable
  rw [hname, hguard, hseries]
  simp only [bind, Except.bind, pure, Except.pure, nestedRuns, lastRuns, List.map_map,
    Function.comp_def]

theorem exists_of_nestByLastVariable (h : nestByLastVariable ts r frames = .ok n) :
    ∃ name guard ss, nameOf r = .ok name ∧ guardOf ts r frames = .ok guard ∧
      n = nestedRuns ss ts.threshold frames name r.operands guard
        (lastRuns ss ts.threshold guard) := by
  obtain ⟨name, hname, hrest⟩ := exists_of_bind_eq_ok h
  obtain ⟨guard, hguard, hrest⟩ := exists_of_bind_eq_ok hrest
  obtain ⟨ss, hseries, -⟩ := exists_of_bind_eq_ok hrest
  rw [nestByLastVariable_eq hname hguard hseries] at h
  exact ⟨name, guard, ss, hname, hguard, (Except.ok.inj h).symm⟩

/-- What a rule with `nestByLastVariable` is to give, for a last operand that has the series `s`
    and the runs `runs`. -/
structure IsNested (ts : Tracks) (r : Rule) (frames : Nat) (s : Series) (runs : List VariableRun)
    (n : Nested) : Prop where
  name : r.name = some n.derived.name
  operands : n.operands = r.operands
  isText : List.Forall₂ (fun v t => ∃ s, ts.series? v = some s ∧ t = decide (s.kind = .text))
    r.operands n.isText
  /-- The runs of the last operand are listed in order. -/
  run : ∀ v, v ∈ runs ↔ s.HasRun ts.threshold (r.IsGuarded ts frames) v
  order : runs.Pairwise fun a b => a.span.stop ≤ b.span.start
  /-- Each of them has a segment, and a row of which it is the last member. -/
  segments : n.derived.segments =
    runs.map fun v => Segment.ofRun (v.value.getD n.derived.name) v.span
  rows : n.rows.map (fun row => (row.span, row.members.getLast?)) =
    runs.map fun v => (v.span, some (some v))
  /-- The members of a row are those of the operands, one for each. -/
  members : ∀ row ∈ n.rows, List.Forall₂ (fun v m => ∃ s, ts.series? v = some s ∧
    IsMember (s.HasRun ts.threshold (r.IsGuarded ts frames)) row.span m) r.operands row.members
  within : ∀ row ∈ n.rows, (row.span.start < row.span.stop ∧ row.span.stop ≤ frames) ∧
    ∀ v, some v ∈ row.members → v.span.start < v.span.stop ∧ v.span.stop ≤ frames
  marks : n.derived.track.Marks frames fun f => ∃ v ∈ runs, v.span.contains f = true
  /-- Both sheets take the records of all rows, which have a field for each column. -/
  starts : ∀ o : Outlet, IsWritten (startRecord o.clock n) n.rows (startSheet o n)
  startEnds : ∀ o : Outlet, IsWritten (startEndRecord o.clock n) n.rows (startEndSheet o n)

theorem isNested_nestedRuns (hname : r.name = some name) (hlength : guard.length = frames)
    (hguard : ∀ f, guard[f]? = some true ↔ r.IsGuarded ts frames f)
    (hseries : r.operands.map ts.series? = ss.map some) (hlast : ss.getLast? = some s) :
    IsNested ts r frames s (runsOf s ts.threshold guard)
      (nestedRuns ss ts.threshold frames name r.operands guard (runsOf s ts.threshold guard)) := by
  have hruns : ∀ (s : Series) (v : VariableRun), v ∈ runsOf s ts.threshold guard ↔
      s.HasRun ts.threshold (r.IsGuarded ts frames) v := by
    intro s v
    rw [mem_runsOf_iff, funext fun f => propext (hguard f)]
  have hwithin : ∀ (s : Series), ∀ v ∈ runsOf s ts.threshold guard,
      v.span.start < v.span.stop ∧ v.span.stop ≤ frames :=
    fun s v hv => hlength ▸ isWithin_of_mem_runsOf hv
  have hoperands : List.Forall₂ (fun v s => ts.series? v = some s) r.operands ss := by
    have heq : List.Forall₂ (· = ·) (r.operands.map ts.series?) (ss.map some) := by
      rw [List.forall₂_eq_eq_eq, hseries]
    rwa [List.forall₂_map_left_iff, List.forall₂_map_right_iff] at heq
  have hmembers : ∀ row ∈ (nestedRuns ss ts.threshold frames name r.operands guard
      (runsOf s ts.threshold guard)).rows, ∃ v ∈ runsOf s ts.threshold guard, row.span = v.span ∧
        row.members = ss.map fun s => latestIn v.span (runsOf s ts.threshold guard) := by
    intro row hrow
    obtain ⟨v, hv, rfl⟩ := List.mem_map.1 hrow
    exact ⟨v, hv, rfl, rfl⟩
  have hcount : ∀ row ∈ (nestedRuns ss ts.threshold frames name r.operands guard
      (runsOf s ts.threshold guard)).rows, row.members.length = r.operands.length := by
    intro row hrow
    obtain ⟨v, -, -, heq⟩ := hmembers row hrow
    rw [heq, List.length_map, hoperands.length_eq]
  exact
    { name := hname
      operands := rfl
      isText := by
        rw [nestedRuns, List.forall₂_map_right_iff]
        exact hoperands.imp fun v s hs => ⟨s, hs, rfl⟩
      run := hruns s
      order := pairwise_runsOf s ts.threshold guard
      segments := rfl
      rows := by
        rw [nestedRuns, List.map_map]
        refine List.map_congr_left fun v hv => ?_
        rw [Function.comp_apply, List.getLast?_map, hlast, Option.map_some,
          latestIn_self (fun v hv => (hwithin s v hv).1) (pairwise_runsOf s ts.threshold guard) hv]
      members := by
        intro row hrow
        obtain ⟨v, hv, hspan, heq⟩ := hmembers row hrow
        rw [heq, hspan, List.forall₂_map_right_iff]
        exact hoperands.imp fun _ s hs => ⟨s, hs, isMember_latestIn (hruns s)
          (fun w hw => (hwithin s w hw).1) (pairwise_runsOf s ts.threshold guard)
          (hwithin _ v hv).1⟩
      within := by
        intro row hrow
        obtain ⟨v, hv, hspan, heq⟩ := hmembers row hrow
        refine ⟨hspan ▸ hwithin s v hv, fun w hw => ?_⟩
        rw [heq] at hw
        obtain ⟨s', -, hlatest⟩ := List.mem_map.1 hw
        exact hwithin s' w (List.mem_filter.1 (List.mem_of_getLast? hlatest)).1
      marks := by
        refine marks_indicatorTrack (by simp) fun f => ?_
        rw [getElem?_map_range_eq_some_iff, List.any_eq_true, and_iff_right_iff_imp]
        rintro ⟨v, hv, hf⟩
        exact Nat.lt_of_lt_of_le (Span.contains_iff.1 hf).2 (hwithin s v hv).2
      starts := fun o => isWritten_of_length fun row hrow =>
        length_startRecord o.clock (hcount row hrow)
      startEnds := fun o => isWritten_of_length fun row hrow =>
        length_startEndRecord o.clock (hcount row hrow) }

/-- **A rule with `nestByLastVariable` lists the runs of its last operand**, each with the latest
    runs of all operands that meet it, whatever guard and operands are, as long as they have
    tracks. -/
theorem exists_isNested_of_read (hread : Rule.read source = .ok r)
    (haction : r.action = .nestByLastVariable) (hknown : r.IsKnown ts) (frames : Nat) :
    ∃ last s runs n, r.operands.getLast? = some last ∧ ts.series? last = some s ∧
      nestByLastVariable ts r frames = .ok n ∧ IsNested ts r frames s runs n := by
  have hfamily : r.action.family = .conversion := by rw [haction]; rfl
  obtain ⟨name, hname, hnameOf⟩ := exists_nameOf hread hfamily
  obtain ⟨guard, hguard, hlength, htrue⟩ := exists_guardOf hread hfamily hknown frames
  obtain ⟨ss, hseries, hmap⟩ := exists_mapM_seriesOf r fun n hn =>
    hknown n (List.mem_append_right r.dependencies hn)
  have hadmits := Rule.admits_of_read hread
  rw [haction] at hadmits
  -- There is at least one operand, so there is a last one.
  obtain ⟨last, hlast⟩ : ∃ last, r.operands.getLast? = some last := by
    exact ⟨_, List.getLast?_eq_some_getLast (List.ne_nil_of_length_pos (of_decide_eq_true hadmits))⟩
  have hends := congrArg List.getLast? hmap
  rw [List.getLast?_map, List.getLast?_map, hlast, Option.map_some] at hends
  obtain ⟨s, hs, heq⟩ := Option.map_eq_some_iff.1 hends.symm
  have hnest := nestByLastVariable_eq hnameOf hguard hseries
  rw [lastRuns_eq hs] at hnest
  exact ⟨last, s, _, _, hlast, heq.symm, hnest, isNested_nestedRuns hname hlength htrue hmap hs⟩

/-- Two slides that touch, of which no more is read at the end, and someone who speaks; the
    lecture stops for one frame. -/
def slidesWithSpeech : Tracks :=
  (((Tracks.empty .zero).insert "lecture"
    (.ofSeries (.numbers #[.one, .one, .one, .one, .one, .zero, .one]) .extracted)).insert "slide"
      (.ofSeries (.texts #["A", "A", "A", "B", "B", "B"]) .extracted)).insert "speaking"
        (.ofSeries (.numbers #[.zero, .one, .one, .one, .one, .one, .one]) .extracted)

/-- The slides that are spoken about. -/
def talk : Rule :=
  ⟨"during(lecture)\x7btalk=nestByLastVariable(slide,speaking)\x7d", .conversion, some "talk",
    some .during, ["lecture"], .nestByLastVariable, ["slide", "speaking"]⟩

/-- The first row has the later one of its slides, and the second row has none. -/
theorem exists_isNested_of_talk : Rule.read talk.source = .ok talk ∧
    talk.IsKnown slidesWithSpeech ∧ ∃ last s runs n, talk.operands.getLast? = some last ∧
      slidesWithSpeech.series? last = some s ∧
      nestByLastVariable slidesWithSpeech talk 7 = .ok n ∧
      IsNested slidesWithSpeech talk 7 s runs n ∧
      n.rows = [⟨⟨1, 5⟩, [some ⟨⟨3, 5⟩, some "B"⟩, some ⟨⟨1, 5⟩, none⟩]⟩,
        ⟨⟨6, 7⟩, [none, some ⟨⟨6, 7⟩, none⟩]⟩] := by
  have hread : Rule.read talk.source = .ok talk := Rule.eq_ok_of_toOption (by decide +kernel)
  have hknown : talk.IsKnown slidesWithSpeech := by decide +kernel
  obtain ⟨last, s, runs, n, hlast, hs, hnest, hn⟩ := exists_isNested_of_read hread rfl hknown 7
  have hrows : ((nestByLastVariable slidesWithSpeech talk 7).toOption.any fun n =>
      decide (n.rows = [⟨⟨1, 5⟩, [some ⟨⟨3, 5⟩, some "B"⟩, some ⟨⟨1, 5⟩, none⟩]⟩,
        ⟨⟨6, 7⟩, [none, some ⟨⟨6, 7⟩, none⟩]⟩])) = true := by decide +kernel
  rw [hnest] at hrows
  exact ⟨hread, hknown, last, s, runs, n, hlast, hs, hnest, hn, of_decide_eq_true hrows⟩

end Derivation

end Screenmark
