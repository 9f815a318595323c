/-
  Screenmark — runs as an encoding.

  Runs are found from the right, but a single pass from the left finds them as well. Over a gate
  it carries where the run began that has not ended yet, and puts that run behind the others in
  the end; over texts it makes the last run longer, or begins another one. What a pass comes to
  hangs only on what it has found so far and on what is still ahead (`GatePass.comesTo`,
  `textsComeTo`), and no step changes it.

  * `encodesGate_iff`, `encodesTexts_iff` : the runs are the only encoding of a gate, and of
    texts;
  * `runs_encode` : both passes find the encoding, and the segments of a track cover the frames
    that its overlays mark.
-/
import Screenmark.Proofs.Output.Marks

namespace Screenmark

variable {frame f : Nat} {spans : List Span} {bs : List Bool} {ss : List String}

/-! ## A pass over a gate -/

/-- A run that is open at a frame, in front of the runs from there on. -/
def Span.opening (start frame : Nat) : List Span → List Span
  | [] => [⟨start, frame⟩]
  | r :: rs => if r.start = frame then ⟨start, r.stop⟩ :: rs else ⟨start, frame⟩ :: r :: rs

theorem trueRunsFrom_true (frame : Nat) (bs : List Bool) :
    trueRunsFrom frame (true :: bs) =
      Span.opening frame (frame + 1) (trueRunsFrom (frame + 1) bs) := by
  rw [trueRunsFrom]
  rcases trueRunsFrom (frame + 1) bs with _ | ⟨r, rs⟩
  · rfl
  · rfl

/-- A run that goes on at a frame is still open behind it. -/
theorem Span.opening_opening (start frame : Nat) (spans : List Span) :
    opening start frame (opening frame (frame + 1) spans) = opening start (frame + 1) spans := by
  rcases spans with _ | ⟨r, rs⟩
  · simp [opening]
  · by_cases hr : r.start = frame + 1
    · simp [opening, hr]
    · simp [opening, hr]

/-- A run does not go on at a frame at which the gate is false. -/
theorem opening_trueRunsFrom_later (start frame : Nat) (bs : List Bool) :
    Span.opening start frame (trueRunsFrom (frame + 1) bs) =
      ⟨start, frame⟩ :: trueRunsFrom (frame + 1) bs := by
  rcases hlater : trueRunsFrom (frame + 1) bs with _ | ⟨r, rs⟩
  · rfl
  · have hr : frame + 1 ≤ r.start := le_start_of_mem_trueRunsFrom (hlater ▸ List.mem_cons_self)
    rw [Span.opening, if_neg (by omega)]

/-- What a pass over a gate has found: the runs that have ended, and where the one began that has
    not. -/
structure GatePass where
  ended : List Span
  open? : Option Nat

namespace GatePass

/-- Goes on by one frame. -/
def step (p : GatePass) (on : Bool × Nat) : GatePass :=
  match p.open?, on.1 with
  | none, true => ⟨p.ended, some on.2⟩
  | some start, false => ⟨p.ended ++ [⟨start, on.2⟩], none⟩
  | _, _ => p

/-- The runs, where the gate ends at a frame. -/
def finish (p : GatePass) (frame : Nat) : List Span :=
  match p.open? with
  | none => p.ended
  | some start => p.ended ++ [⟨start, frame⟩]

/-- What a pass comes to that has the rest of a gate still ahead. -/
def comesTo (p : GatePass) (frame : Nat) (bs : List Bool) : List Span :=
  match p.open? with
  | none => p.ended ++ trueRunsFrom frame bs
  | some start => p.ended ++ Span.opening start frame (trueRunsFrom frame bs)

theorem comesTo_nil (p : GatePass) (frame : Nat) : p.comesTo frame [] = p.finish frame := by
  obtain ⟨ended, _ | start⟩ := p
  · exact List.append_nil ended
  · rfl

/-- **A frame changes nothing about what a pass comes to.** -/
theorem comesTo_step (p : GatePass) (frame : Nat) (b : Bool) (bs : List Bool) :
    (p.step (b, frame)).comesTo (frame + 1) bs = p.comesTo frame (b :: bs) := by
  obtain ⟨ended, _ | start⟩ := p <;> rcases b with _ | _
  · rfl
  · show ended ++ Span.opening frame (frame + 1) (trueRunsFrom (frame + 1) bs) = ended ++ _
    rw [trueRunsFrom_true]
  · show (ended ++ [⟨start, frame⟩]) ++ trueRunsFrom (frame + 1) bs =
      ended ++ Span.opening start frame (trueRunsFrom (frame + 1) bs)
    rw [opening_trueRunsFrom_later, List.append_assoc]
    rfl
  · show ended ++ Span.opening start (frame + 1) (trueRunsFrom (frame + 1) bs) =
      ended ++ Span.opening start frame _
    rw [trueRunsFrom_true, Span.opening_opening]

theorem finish_foldl_step (p : GatePass) (frame : Nat) (bs : List Bool) :
    ((bs.zipIdx frame).foldl step p).finish (frame + bs.length) = p.comesTo frame bs := by
  induction bs generalizing p frame with
  | nil => exact (comesTo_nil p frame).symm
  | cons b bs ih =>
    rw [List.zipIdx_cons, List.foldl_cons, List.length_cons, ← comesTo_step, ← ih,
      Nat.add_right_comm, Nat.add_assoc]

end GatePass

/-- The runs that one pass over a gate finds. -/
def passGate (bs : List Bool) : List Span :=
  (bs.zipIdx.foldl GatePass.step ⟨[], none⟩).finish bs.length

/-- A pass over a gate finds its runs. -/
theorem passGate_eq (bs : List Bool) : passGate bs = trueRuns bs := by
  have hpass := GatePass.finish_foldl_step ⟨[], none⟩ 0 bs
  rw [Nat.zero_add] at hpass
  exact hpass

/-! ## A pass over texts -/

/-- A run in front of the runs from its end on, which goes on with the first of them if that
    begins there and has the same text. -/
def attach (p : Span × String) : List (Span × String) → List (Span × String)
  | [] => [p]
  | q :: qs =>
    if q.1.start = p.1.stop ∧ q.2 = p.2 then (⟨p.1.start, q.1.stop⟩, p.2) :: qs else p :: q :: qs

theorem textRunsFrom_shown {s : String} (frame : Nat) (ss : List String)
    (hs : Text.isBlank s = false) :
    textRunsFrom frame (s :: ss) =
      attach (⟨frame, frame + 1⟩, s) (textRunsFrom (frame + 1) ss) := by
  rw [textRunsFrom, if_neg (Bool.eq_false_iff.1 hs)]
  rcases textRunsFrom (frame + 1) ss with _ | ⟨⟨r, t⟩, rs⟩
  · rfl
  · rfl

/-- A run that goes on for one frame is attached behind it. -/
theorem attach_attach_same (start frame : Nat) (s : String) (runs : List (Span × String)) :
    attach (⟨start, frame⟩, s) (attach (⟨frame, frame + 1⟩, s) runs) =
      attach (⟨start, frame + 1⟩, s) runs := by
  rcases runs with _ | ⟨q, qs⟩
  · simp [attach]
  · by_cases hq : q.1.start = frame + 1 ∧ q.2 = s
    · simp [attach, hq]
    · simp [attach, hq]

/-- A run that does not go on at a frame stands in front of those that begin there. -/
theorem attach_attach_other {p : Span × String} {s : String}
    (h : ¬ (p.1.stop = frame ∧ p.2 = s)) (runs : List (Span × String)) :
    attach p (attach (⟨frame, frame + 1⟩, s) runs) =
      p :: attach (⟨frame, frame + 1⟩, s) runs := by
  have hne : ¬ (frame = p.1.stop ∧ s = p.2) := fun h' => h ⟨h'.1.symm, h'.2.symm⟩
  rcases runs with _ | ⟨q, qs⟩
  · rw [attach, attach, if_neg hne]
  · by_cases hq : q.1.start = frame + 1 ∧ q.2 = s
    · simp [attach, hq, hne]
    · simp [attach, hq, hne]

/-- Goes on by one text: the last run gets longer, or another one begins. -/
def addText (runs : List (Span × String)) (shown : String × Nat) : List (Span × String) :=
  if Text.isBlank shown.1 then runs
  else match runs.getLast? with
    | none => [(⟨shown.2, shown.2 + 1⟩, shown.1)]
    | some last =>
      if last.1.stop = shown.2 ∧ last.2 = shown.1 then
        runs.dropLast ++ [(⟨last.1.start, shown.2 + 1⟩, last.2)]
      else runs ++ [(⟨shown.2, shown.2 + 1⟩, shown.1)]

theorem addText_concat {s : String} (hs : Text.isBlank s = false) (runs : List (Span × String))
    (last : Span × String) (frame : Nat) : addText (runs ++ [last]) (s, frame) =
      if last.1.stop = frame ∧ last.2 = s then runs ++ [(⟨last.1.start, frame + 1⟩, last.2)]
      else runs ++ [last] ++ [(⟨frame, frame + 1⟩, s)] := by
  rw [addText, if_neg (Bool.eq_false_iff.1 hs), List.getLast?_concat, List.dropLast_concat]

/-- What runs come to that have the rest of the texts still ahead. -/
def textsComeTo (runs : List (Span × String)) (frame : Nat) (ss : List String) :
    List (Span × String) :=
  match runs.getLast? with
  | none => textRunsFrom frame ss
  | some last => runs.dropLast ++ attach last (textRunsFrom frame ss)

theorem textsComeTo_concat (runs : List (Span × String)) (last : Span × String) (frame : Nat)
    (ss : List String) :
    textsComeTo (runs ++ [last]) frame ss = runs ++ attach last (textRunsFrom frame ss) := by
  rw [textsComeTo, List.getLast?_concat, List.dropLast_concat]

theorem textsComeTo_nil (runs : List (Span × String)) (frame : Nat) :
    textsComeTo runs frame [] = runs := by
  rcases List.eq_nil_or_concat runs with rfl | ⟨front, last, rfl⟩
  · rfl
  · rw [List.concat_eq_append]
    exact textsComeTo_concat front last frame []

/-- **A text changes nothing about what a pass comes to.** -/
theorem textsComeTo_addText (runs : List (Span × String)) (frame : Nat) (s : String)
    (ss : List String) :
    textsComeTo (addText runs (s, frame)) (frame + 1) ss = textsComeTo runs frame (s :: ss) := by
  rcases hs : Text.isBlank s
  · rcases List.eq_nil_or_concat runs with rfl | ⟨front, last, rfl⟩
    · rw [addText, if_neg (Bool.eq_false_iff.1 hs)]
      exact (textRunsFrom_shown frame ss hs).symm
    · rw [List.concat_eq_append, textsComeTo_concat, textRunsFrom_shown frame ss hs,
        addText_concat hs]
      obtain ⟨⟨start, stop⟩, t⟩ := last
      by_cases hlast : stop = frame ∧ t = s
      · obtain ⟨rfl, rfl⟩ := hlast
        rw [if_pos ⟨rfl, rfl⟩, textsComeTo_concat, attach_attach_same]
      · rw [if_neg hlast, textsComeTo_concat, attach_attach_other hlast, List.append_assoc]
        rfl
  · rw [addText, if_pos hs, textsComeTo, textsComeTo, textRunsFrom_cons_of_blank frame ss hs]

theorem foldl_addText (runs : List (Span × String)) (frame : Nat) (ss : List String) :
    (ss.zipIdx frame).foldl addText runs = textsComeTo runs frame ss := by
  induction ss generalizing runs frame with
  | nil => exact (textsComeTo_nil runs frame).symm
  | cons s ss ih => rw [List.zipIdx_cons, List.foldl_cons, ih, textsComeTo_addText]

/-- The runs that one pass over texts finds. -/
def passTexts (ss : List String) : List (Span × String) := ss.zipIdx.foldl addText []

/-- A pass over texts finds their runs. -/
theorem passTexts_eq (ss : List String) : passTexts ss = textRuns ss := foldl_addText [] 0 ss

/-! ## The only encoding -/

/-- Spans that encode a gate: they are not empty, stand in order with a frame between them at which
    the gate is false, and cover just the frames at which it is true. -/
structure EncodesGate (bs : List Bool) (spans : List Span) : Prop where
  nonempty : ∀ r ∈ spans, r.start < r.stop
  separated : spans.Pairwise fun a b => ∃ f, a.stop ≤ f ∧ f < b.start ∧ bs[f]? = some false
  covers : ∀ f, (∃ r ∈ spans, r.contains f = true) ↔ bs[f]? = some true

theorem EncodesGate.gaps (h : EncodesGate bs spans) :
    spans.Pairwise fun a b => a.stop < b.start := by
  refine h.separated.imp fun {a b} hab => ?_
  obtain ⟨f, hstop, hstart, -⟩ := hab
  exact Nat.lt_of_le_of_lt hstop hstart

/-- The runs of a gate encode it: behind a run the gate is false, and it does not end there if
    another run follows. -/
theorem encodesGate_trueRuns (bs : List Bool) : EncodesGate bs (trueRuns bs) where
  nonempty _ hr := start_lt_stop_of_mem_trueRunsFrom hr
  separated := by
    refine (pairwise_trueRunsFrom 0 bs).imp_of_mem fun {a b} ha hb hab =>
      ⟨a.stop, Nat.le_refl _, hab, ?_⟩
    have hbehind : bs[a.stop]? ≠ some true := (mem_trueRuns_iff.1 ha).behind
    have hnext := exists_mem_trueRuns_iff.1
      ⟨b, hb, Span.contains_start (start_lt_stop_of_mem_trueRunsFrom hb)⟩
    have hlt : a.stop < bs.length := Nat.lt_trans hab (List.getElem?_eq_some_iff.1 hnext).1
    rw [List.getElem?_eq_getElem hlt, Ne, Option.some.injEq, Bool.not_eq_true] at hbehind
    rw [List.getElem?_eq_getElem hlt, hbehind]
  covers _ := exists_mem_trueRuns_iff

/-- Spans in order that have the same members are the same, also with something beside them. -/
theorem eq_of_mem_iff_of_starts {α : Type} {spans spans' : List α} {startOf : α → Nat}
    (h : spans.Pairwise fun a b => startOf a < startOf b)
    (h' : spans'.Pairwise fun a b => startOf a < startOf b) (hmem : ∀ a, a ∈ spans ↔ a ∈ spans') :
    spans = spans' := by
  have hnodup : ∀ {l : List α}, l.Pairwise (fun a b => startOf a < startOf b) → l.Nodup :=
    fun hl => hl.imp fun {a b} hab (heq : a = b) => by
      subst heq
      exact Nat.lt_irrefl _ hab
  refine ((List.perm_ext_iff_of_nodup (hnodup h) (hnodup h')).2 hmem).eq_of_pairwise
    (fun a b _ _ hab hba => ?_) h h'
  exact absurd hab (Nat.lt_asymm hba)

/-- **The runs of a gate are its only encoding.** -/
theorem encodesGate_iff : EncodesGate bs spans ↔ spans = trueRuns bs := by
  have hstarts : ∀ {l : List Span}, EncodesGate bs l → l.Pairwise fun a b => a.start < b.start :=
    fun hl => hl.gaps.imp_of_mem fun {a _} ha _ hab => Nat.lt_trans (hl.nonempty a ha) hab
  refine ⟨fun h => eq_of_mem_iff_of_starts (hstarts h) (hstarts (encodesGate_trueRuns bs))
    fun r => ?_, fun h => h ▸ encodesGate_trueRuns bs⟩
  rw [mem_trueRuns_iff]
  exact Span.mem_iff_isRun h.nonempty h.gaps h.covers

/-- **The runs of texts are their only encoding.** -/
theorem encodesTexts_iff {runs : List (Span × String)} :
    EncodesTexts ss runs ↔ runs = textRuns ss := by
  have hstarts : ∀ {l : List (Span × String)}, EncodesTexts ss l →
      l.Pairwise fun a b => a.1.start < b.1.start :=
    fun hl => hl.ordered.imp_of_mem fun {a _} ha _ hab =>
      Nat.lt_of_lt_of_le (hl.nonempty a ha) hab.1
  refine ⟨fun h => eq_of_mem_iff_of_starts (hstarts h) (hstarts (encodesTexts_textRuns ss))
    fun p => ?_, fun h => h ▸ encodesTexts_textRuns ss⟩
  rw [h.mem_iff, mem_textRuns_iff]

/-! ## Segments and overlays -/

/-- The segments of a track cover just the frames at which it is true. -/
theorem Track.exists_mem_segments_iff {t : Track} {threshold : Single} {label : String} :
    (∃ s ∈ t.segments threshold label, s.start ≤ f ∧ f < s.stop) ↔
      t.series.isTrueAt threshold f = true := by
  obtain ⟨spans, -, hcover, hspans⟩ := t.exists_spans_segments threshold label
  rw [← hcover, ← hspans]
  constructor
  · rintro ⟨s, hs, hin⟩
    exact ⟨_, List.mem_map_of_mem hs, Span.contains_iff.2 hin⟩
  · rintro ⟨r, hr, hf⟩
    obtain ⟨s, hs, rfl⟩ := List.mem_map.1 hr
    exact ⟨s, hs, Span.contains_iff.1 hf⟩

/-- **Runs are an exact encoding.** A pass from the left finds the runs of a gate, and these are the
    only spans that encode it; the same holds for texts. And where frames have a size, the
    overlays of a track mark in order just the frames that its segments cover. -/
theorem runs_encode :
    (∀ bs : List Bool, passGate bs = trueRuns bs ∧
      ∀ spans, EncodesGate bs spans ↔ spans = trueRuns bs) ∧
    (∀ ss : List String, passTexts ss = textRuns ss ∧
      ∀ runs, EncodesTexts ss runs ↔ runs = textRuns ss) ∧
    ∀ (t : Track) (threshold : Single) (width height : Nat) (label label' : String),
      0 < width → 0 < height →
        ((t.overlays threshold width height label').map (·.frame)).Pairwise (· < ·) ∧
        ∀ f, f ∈ (t.overlays threshold width height label').map (·.frame) ↔
          ∃ s ∈ t.segments threshold label, s.start ≤ f ∧ f < s.stop := by
  refine ⟨fun bs => ⟨passGate_eq bs, fun _ => encodesGate_iff⟩,
    fun ss => ⟨passTexts_eq ss, fun _ => encodesTexts_iff⟩,
    fun t threshold width height label label' hwidth hheight => ?_⟩
  have hsize : ¬ (width = 0 ∨ height = 0) := by omega
  refine ⟨?_, fun f => ?_⟩
  · rw [Track.map_frame_overlays hsize]
    exact List.pairwise_lt_range.filter _
  · rw [Track.mem_map_frame_overlays_iff hsize, Track.exists_mem_segments_iff]

/-- A track that is true at first, and again at the end. -/
def Track.blinking : Track := .ofSeries (.numbers #[.one, .one, .zero, .one]) .extracted

theorem runs_encode_of_blinking :
    EncodesGate [true, true, false, true] [⟨0, 2⟩, ⟨3, 4⟩] ∧
    EncodesTexts ["a", "a", "b", " ", "b"] [(⟨0, 2⟩, "a"), (⟨2, 3⟩, "b"), (⟨4, 5⟩, "b")] ∧
    ∀ f, f ∈ (Track.blinking.overlays .zero 4 2 "").map (·.frame) ↔ f < 2 ∨ f = 3 := by
  obtain ⟨hgates, htexts, htracks⟩ := runs_encode
  refine ⟨((hgates _).2 _).2 (by decide), ((htexts _).2 _).2 (by decide +kernel), fun f => ?_⟩
  have hsegments : Track.blinking.segments .zero "" = [⟨0, 2, ""⟩, ⟨3, 4, ""⟩] := by
    decide +kernel
  rw [(htracks Track.blinking .zero 4 2 "" "" (by decide) (by decide)).2 f, hsegments]
  simp only [List.mem_cons, List.not_mem_nil, or_false, exists_eq_or_imp, exists_eq_left]
  omega

end Screenmark
