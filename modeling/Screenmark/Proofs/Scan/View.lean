/-
  Screenmark — what there is to see in a recording.

  Where the instruments answer by what they are asked, and a frame is either
  deliverable or not, what a target gets at a frame is a function of the view of the
  recording and of the tracks (`Scan.verdict`).

  * `verdict_congr` : a verdict hangs on what the gates of the target show at the frame,
    and on what there is to see at this frame;
  * `check_eq_ok_iff` : nothing is missing if every target has what it needs.
-/
import Screenmark.Proofs.Scan.Lockstep
import Screenmark.Proofs.Series.Glimpse

namespace Screenmark

namespace Target

variable {t : Target} {P : String → Prop} {ts us : Tracks} {g : Prerequisites}
  {frame width height : Nat} {n : String} {ns : List String}

theorem allTrue_congr (h : Tracks.Alike P frame ts us) (hns : ∀ n ∈ ns, P n) :
    t.allTrue us frame ns = t.allTrue ts frame ns := by
  induction ns with
  | nil => rfl
  | cons n ns ih =>
    rw [List.forall_mem_cons] at hns
    rw [allTrue, allTrue, h.isTrueAt_eq hns.1, ih hns.2]

theorem anchor_eq_glimpse : t.anchor ts frame n =
    match ts.glimpse n frame with
    | none => .error (t.unresolved n)
    | some g =>
      match g.template with
      | none => .error (t.unresolved n)
      | some (width, height) => .ok (Region.anchorAt g.place.1 g.place.2 width height) := by
  unfold anchor Tracks.glimpse
  rcases ts.find? n with _ | track <;> rfl

/-- Where a target is looked for hangs on its gates. -/
theorem region_congr (h : Tracks.Alike (· ∈ t.gates) frame ts us) :
    t.region us frame width height = t.region ts frame width height := by
  have hwhole : t.wholeRegion us frame width height = t.wholeRegion ts frame width height := by
    unfold wholeRegion
    rcases hr : t.rule with _ | r
    · rfl
    · by_cases hin : r.test = some .inRect
      · simp only [hin]
      · have hanchor : ∀ n ∈ r.dependencies, t.anchor us frame n = t.anchor ts frame n := by
          intro n hn
          rw [anchor_eq_glimpse, anchor_eq_glimpse, h.glimpse]
          rwa [gates, hr, Option.map_some, Option.getD_some, Rule.namedDependencies_of_ne hin]
        dsimp only
        split
        · rfl
        · next ds hd => rw [hanchor _ (by simp [hd])]
        · next ds hd => rw [hanchor _ (by simp [hd])]
        · next ds hd => rw [hanchor _ (by simp [hd]), hanchor _ (by simp [hd])]
        · rfl
  rw [region, region, hwhole]

end Target

/-! ## Views -/

/-- What there is to see in a recording, and what is made of it. -/
structure View where
  /-- The image of a frame, if it can be delivered. -/
  image : Nat → Option ColourImage
  find : GreyImage → GreyImage → Match
  recognise : GreyImage → Charset → String
  snapshot : Nat → Option Snapshot

/-- Views that agree at a frame, and on what is made of an image. -/
structure View.AgreesAt (v v' : View) (frame : Nat) : Prop where
  image : v'.image frame = v.image frame
  snapshot : v'.snapshot frame = v.snapshot frame
  find : v'.find = v.find
  recognise : v'.recognise = v.recognise

variable {σ τ : Type}

/-- Footage of which each frame is deliverable or not, whether it is moved there or
    comes there by itself. Where it stands is known until it fails. -/
structure Footage.Shows (f : Footage σ) (files : Tree) (place : σ → Option Nat)
    (image : Nat → Option ColourImage) : Prop where
  reach : ∀ n w, image n ≠ none → (f.seek n w).1 = true
  seek : ∀ n w, (f.seek n w).1 = true → place (f.seek n w).2 = some n
  read : ∀ n w, place w = some n → (f.read files w).1 = image n
  next : ∀ n w, place w = some n → image n ≠ none → place (f.read files w).2 = some (n + 1)

/-- Instruments that answer by what they are asked, and of which only the footage moves
    the footage. -/
structure Instruments.Shows (ins : Instruments σ) (files : Tree) (place : σ → Option Nat)
    (v : View) : Prop where
  footage : ∀ f, ins.footage = some f → f.Shows files place v.image
  matcher : ∀ find, ins.matcher = some find → ∀ i t w,
    (find i t w).1 = v.find i t ∧ place (find i t w).2 = place w
  recogniser : ∀ recognise, ins.recogniser = some recognise → ∀ i c w,
    (recognise i c w).1 = v.recognise i c ∧ place (recognise i c w).2 = place w
  snapshots : ∀ snapshot, ins.snapshots = some snapshot → ∀ n w,
    (snapshot n w).1 = v.snapshot n ∧ place (snapshot n w).2 = place w
  poll : ∀ w, place (ins.poll w).2 = place w

namespace Scan

open Scanning ScanState

/-! ## Verdicts -/

section

variable (sc : Scan σ) (v : View) (ts : Tracks) (frame : Nat) (t : Target)

/-- What is seen of a target in a region of an image. -/
def seenIn (image : GreyImage) (region : Rect) : Option Observation :=
  match t.stage with
  | .text characters =>
    let raw := v.recognise (sc.prepared t (image.crop region)) characters
    some ⟨Binary.ofInt region.x, Binary.ofInt region.y, .text (cleanText raw t.action)⟩
  | _ =>
    match sc.templates.find? t.name with
    | none => none
    | some template =>
      if region.width < template.width ∨ region.height < template.height then none
      else
        let m := v.find (image.crop region) template
        some ⟨m.x + Binary.ofInt region.x, m.y + Binary.ofInt region.y, .number m.confidence⟩

/-- What is seen of a target at a frame. -/
def seen : Except Failure (Option Observation) :=
  if t.stage = .accessibility then
    .ok (((v.snapshot frame).bind (elementOf t)).map fun e => ⟨e.x, e.y, .text e.text⟩)
  else
    match v.image frame with
    | none => .ok none
    | some image =>
      (t.region ts frame image.grey.width image.grey.height).map
        (·.bind (sc.seenIn v t image.grey))

/-- What a target gets at a frame. -/
def verdict : Except Failure Observation :=
  match t.isTriggered sc.plan.prerequisites ts frame with
  | .error e => .error e
  | .ok false => .ok (.neutral t.kind)
  | .ok true => (sc.seen v ts frame t).map (·.getD (.neutral t.kind))

end

/-- Scans that work out a target in the same way. -/
structure WorksLike (sc : Scan σ) (sc' : Scan τ) : Prop where
  prerequisites : sc'.plan.prerequisites = sc.plan.prerequisites
  settings : sc'.settings = sc.settings
  templates : sc'.templates = sc.templates

variable {sc : Scan σ} {sc' : Scan τ} {v v' : View} {ts us : Tracks} {frame : Nat} {t : Target}
  {logged : List String}

theorem isTriggered_congr (hc : sc.plan.IsCompiled logged) (ht : t ∈ sc.targets)
    (h : Tracks.Alike (· ∈ t.gates) frame ts us) :
    t.isTriggered sc.plan.prerequisites us frame =
      t.isTriggered sc.plan.prerequisites ts frame := by
  unfold Target.isTriggered
  rw [Target.allTrue_congr h fun n hn => (hc.mem_gates_iff ht).1 hn]

theorem seen_congr (hsc : sc.WorksLike sc') (hv : v.AgreesAt v' frame)
    (h : Tracks.Alike (· ∈ t.gates) frame ts us) :
    sc'.seen v' us frame t = sc.seen v ts frame t := by
  have hseenIn : sc'.seenIn v' t = sc.seenIn v t := by
    funext image region
    simp only [seenIn, prepared, hsc.settings, hsc.templates, hv.find, hv.recognise]
  simp only [seen, hv.image, hv.snapshot, hseenIn, Target.region_congr h]

/-- **A verdict hangs on what the gates of the target show at the frame**, and on what
    there is to see at this frame. -/
theorem verdict_congr (hc : sc.plan.IsCompiled logged) (ht : t ∈ sc.targets)
    (hsc : sc.WorksLike sc') (hv : v.AgreesAt v' frame)
    (h : Tracks.Alike (· ∈ t.gates) frame ts us) :
    sc'.verdict v' us frame t = sc.verdict v ts frame t := by
  rw [verdict, verdict, hsc.prerequisites, isTriggered_congr hc ht h, seen_congr hsc hv h]

/-! ## Targets that have what they need -/

/-- What a target needs is there. -/
structure IsEquipped (sc : Scan σ) (t : Target) : Prop where
  footage : t.stage ≠ .accessibility → sc.instruments.footage ≠ none
  matcher : t.stage = .template → sc.instruments.matcher ≠ none
  template : t.stage = .template → sc.templates.find? t.name ≠ none
  recogniser : ∀ c, t.stage = .text c → sc.instruments.recogniser ≠ none
  snapshots : t.stage = .accessibility → sc.instruments.snapshots ≠ none

theorem bind_failIf_eq_ok_iff {b : Bool} {c : Failure} {x : Except Failure Unit} :
    (failIf b c >>= fun _ => x) = .ok () ↔ b = false ∧ x = .ok () := by
  cases b <;> simp [failIf, bind, Except.bind]

theorem unloaded?_eq_none_iff : sc.unloaded? = none ↔
    ∀ t ∈ sc.targets, t.stage = .template → sc.templates.find? t.name ≠ none := by
  simp [unloaded?, NameMap.contains]

theorem check_eq_ok_iff_of_parts : sc.check = .ok () ↔
    (sc.targets.any Target.needsImage && sc.instruments.footage.isNone) = false ∧
    (sc.usesRank Stage.template.rank && sc.instruments.matcher.isNone) = false ∧
    (sc.usesRank (Stage.text .digits).rank && sc.instruments.recogniser.isNone) = false ∧
    (sc.usesRank Stage.accessibility.rank && sc.instruments.snapshots.isNone) = false ∧
    sc.unloaded? = none := by
  unfold check
  simp only [bind_failIf_eq_ok_iff]
  rcases sc.unloaded? with _ | t <;> simp

/-- Either nobody asks for something, or it is there. -/
theorem any_and_isNone_eq_false_iff {α : Type} {ts : List Target} {P : Target → Bool}
    {x : Option α} :
    (ts.any P && x.isNone) = false ↔ ∀ t ∈ ts, P t = true → x ≠ none := by
  rcases x with _ | a <;> simp

/-- **Nothing is missing if every target has what it needs.** -/
theorem check_eq_ok_iff : sc.check = .ok () ↔ ∀ t ∈ sc.targets, sc.IsEquipped t := by
  rw [check_eq_ok_iff_of_parts, unloaded?_eq_none_iff]
  simp only [usesRank, any_and_isNone_eq_false_iff, Target.needsImage, decide_eq_true_iff]
  constructor
  · rintro ⟨hfootage, hmatcher, hrecogniser, hsnapshots, htemplate⟩ t ht
    refine ⟨hfootage t ht, fun hs => ?_, htemplate t ht, fun c hs => ?_, fun hs => ?_⟩
    · exact hmatcher t ht (by rw [hs])
    · exact hrecogniser t ht (by rw [hs]; rfl)
    · exact hsnapshots t ht (by rw [hs])
  · intro h
    refine ⟨fun t ht => (h t ht).footage, fun t ht hs => ?_, fun t ht hs => ?_,
      fun t ht hs => ?_, fun t ht => (h t ht).template⟩
    · rcases hst : t.stage with _ | c | _ <;> rw [hst] at hs <;> cases hs
      exact (h t ht).matcher hst
    · rcases hst : t.stage with _ | c | _ <;> rw [hst] at hs <;> cases hs
      exact (h t ht).recogniser c hst
    · rcases hst : t.stage with _ | c | _ <;> rw [hst] at hs <;> cases hs
      exact (h t ht).snapshots hst

end Scan

end Screenmark
