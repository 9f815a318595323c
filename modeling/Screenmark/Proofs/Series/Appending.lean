/-
  Screenmark — observations that are added in place.

  A track lies among the others while it grows: the sample goes behind the series, and then each
  coordinate behind those of the track. Only the first of these steps can fail, and what a
  failing step leaves is what later steps find.

  * `Tracks.appendInPlace_eq` : the observation is added as a whole or not at all, as
    `Tracks.append` has it;
  * `Tracks.IsReached` : the tracks that come of any changes from none on. All of them are
    rectangular (`IsReached.areRectangular`);
  * `Tracks.append_of_isReached` : what an observation does to tracks that are reached.
-/
import Screenmark.Proofs.Series.Glimpse

namespace Screenmark

/-! ## One track -/

namespace Track

/-- Puts a sample behind the series; `name` names the track in messages. -/
def addSample (name : String) (x : Sample) : EStateM Failure Track Unit := fun t =>
  match t.series.push? x with
  | some s => .ok () { t with series := s }
  | none => .error (.consistency (.wrongKind x t.series.kind name)) t

/-- Puts a coordinate behind those across. -/
def addX (x : Single) : EStateM Failure Track Unit := modify fun t => { t with x := t.x.push x }

/-- Puts a coordinate behind those down. -/
def addY (y : Single) : EStateM Failure Track Unit := modify fun t => { t with y := t.y.push y }

/-- Adds an observation entry by entry. -/
def add (name : String) (o : Observation) : EStateM Failure Track Unit := do
  addSample name o.sample
  addX o.x
  addY o.y

/-- One track has one row more than another one, behind all others, and is otherwise the same. -/
structure IsFollowed (t : Track) (o : Observation) (u : Track) : Prop where
  size : u.size = t.size + 1
  last : u.row? t.size = some o
  earlier : ∀ frame < t.size, u.row? frame = t.row? frame
  kind : u.series.kind = t.series.kind
  origin : u.origin = t.origin
  template : u.template = t.template

variable {t u : Track} {o : Observation}

/-- An observation of the right kind is one row more. -/
theorem isFollowed_of_push? (ht : t.IsRectangular) (h : t.push? o = some u) :
    t.IsFollowed o u := by
  have hlast := row?_size_of_push? ht h
  have hearlier : ∀ frame < t.size, u.row? frame = t.row? frame := by
    intro frame hf
    obtain ⟨r, hr⟩ := exists_row? ht hf
    rw [row?_of_push? h hr, hr]
  obtain ⟨s, hs, rfl⟩ := push?_eq_some_iff.1 h
  exact ⟨Series.size_of_push? hs, hlast, hearlier, Series.kind_of_push? hs, rfl, rfl⟩

end Track

/-! ## Tracks among others -/

/-- A change of tracks. -/
inductive Change where
  | start (name : String) (kind : SeriesKind) (origin : Origin)
  | insert (name : String) (t : Track)
  | setTemplate (name : String) (size : Nat × Nat)
  | append (name : String) (o : Observation)

namespace Tracks

variable {ts us : Tracks} {n : String} {o : Observation} {t : Track} {c : Change} {e : Failure}
  {threshold : Single}

/-- Works on the track of a name where it lies. What has been done to the track stays there, also
    if the work fails. -/
def workOn (name : String) (work : EStateM Failure Track Unit) : EStateM Failure Tracks Unit :=
  fun ts =>
    match ts.find? name with
    | none => .error (.consistency (.unknown name)) ts
    | some t =>
      match work t with
      | .ok _ u => .ok () (ts.insert name u)
      | .error e u => .error e (ts.insert name u)

/-- Adds an observation to the track of a name, entry by entry. -/
def appendInPlace (name : String) (o : Observation) : EStateM Failure Tracks Unit :=
  workOn name (Track.add name o)

/-- What a change comes to that is made as a whole or not at all. -/
def outcome (ts : Tracks) : Except Failure Tracks → EStateM.Result Failure Tracks Unit
  | .ok us => .ok () us
  | .error e => .error e ts

/-- **Observations are added as a whole or not at all.** Nothing has been done to the track when
    the sample is refused, and no later step fails. -/
theorem appendInPlace_eq (ts : Tracks) (n : String) (o : Observation) :
    appendInPlace n o ts = ts.outcome (ts.append n o) := by
  unfold appendInPlace workOn append
  rcases ht : ts.find? n with _ | t
  · rfl
  · rcases hs : t.series.push? o.sample with _ | s
    · have hadd : Track.add n o t = .error (.consistency (.wrongKind o.sample t.series.kind n)) t :=
        by simp only [Track.add, Track.addSample, bind, EStateM.bind, hs]
      simp only [hadd, Track.push?, hs, Option.map_none, outcome, insert_eq_self ht]
    · have hadd : Track.add n o t =
          .ok () { t with series := s, x := t.x.push o.x, y := t.y.push o.y } := by
        simp only [Track.add, Track.addSample, bind, EStateM.bind, hs]
        rfl
      simp only [hadd, Track.push?, hs, Option.map_some, outcome]

theorem appendInPlace_eq_ok_iff : appendInPlace n o ts = .ok () us ↔ ts.append n o = .ok us := by
  rw [appendInPlace_eq]
  rcases ts.append n o with e | us'
  · simp [outcome]
  · simp [outcome]

theorem appendInPlace_eq_error_iff :
    appendInPlace n o ts = .error e us ↔ us = ts ∧ ts.append n o = .error e := by
  rw [appendInPlace_eq]
  rcases ts.append n o with e' | us'
  · simp [outcome, and_comm, eq_comm]
  · simp [outcome]

/-! ## Changes -/

/-- Makes a change. -/
def change : Change → EStateM Failure Tracks Unit
  | .start name kind origin => modify fun ts => ts.start name kind origin
  | .insert name t => modify fun ts => ts.insert name t
  | .setTemplate name size => modify fun ts => ts.setTemplate name size
  | .append name o => appendInPlace name o

/-- The tracks that a step leaves, whether it succeeds or fails. -/
def leftBy : EStateM.Result Failure Tracks Unit → Tracks
  | .ok _ ts => ts
  | .error _ ts => ts

/-- The tracks behind a change. -/
def after (ts : Tracks) (c : Change) : Tracks := leftBy (change c ts)

/-- Tracks that come of changes from none on, where all tracks that are put in are rectangular. -/
inductive IsReached (threshold : Single) : Tracks → Prop
  | empty : IsReached threshold (.empty threshold)
  | change {ts : Tracks} (h : IsReached threshold ts) (c : Change)
    (hc : ∀ n t, c = .insert n t → t.IsRectangular) : IsReached threshold (ts.after c)

/-- All tracks are rectangular. -/
def AreRectangular (ts : Tracks) : Prop := ∀ n t, ts.find? n = some t → t.IsRectangular

theorem areRectangular_empty (threshold : Single) : (empty threshold).AreRectangular :=
  fun _ _ h => absurd h (by simp [find?, empty])

theorem AreRectangular.insert (h : ts.AreRectangular) (ht : t.IsRectangular) (n : String) :
    (ts.insert n t).AreRectangular := by
  intro m u hu
  rw [find?_insert] at hu
  split at hu
  · cases hu
    exact ht
  · exact h m u hu

theorem AreRectangular.setTemplate (h : ts.AreRectangular) (n : String) (size : Nat × Nat) :
    (ts.setTemplate n size).AreRectangular := by
  intro m u hu
  rw [find?, Tracks.setTemplate, NameMap.find?_modify] at hu
  split at hu
  · obtain ⟨t, ht, rfl⟩ := Option.map_eq_some_iff.1 hu
    exact h n t ht
  · exact h m u hu

theorem AreRectangular.append (h : ts.AreRectangular) (ha : ts.append n o = .ok us) :
    us.AreRectangular := by
  obtain ⟨t, u, ht, hu, rfl⟩ := append_eq_ok_iff.1 ha
  exact h.insert (Track.isRectangular_of_push? hu (h n t ht)) n

theorem AreRectangular.after_append (h : ts.AreRectangular) (n : String) (o : Observation) :
    (ts.after (.append n o)).AreRectangular := by
  show (leftBy (appendInPlace n o ts)).AreRectangular
  rcases hplace : appendInPlace n o ts with ⟨_, us⟩ | ⟨e, us⟩
  · exact h.append (appendInPlace_eq_ok_iff.1 hplace)
  · rw [(appendInPlace_eq_error_iff.1 hplace).1]
    exact h

/-- A change keeps tracks rectangular. -/
theorem AreRectangular.after (h : ts.AreRectangular)
    (hc : ∀ n t, c = .insert n t → t.IsRectangular) : (ts.after c).AreRectangular := by
  cases c with
  | start name kind origin => exact h.insert (Track.isRectangular_empty kind origin) name
  | insert name t => exact h.insert (hc name t rfl) name
  | setTemplate name size => exact h.setTemplate name size
  | append name o => exact h.after_append name o

/-- **All tracks that are reached are rectangular.** -/
theorem IsReached.areRectangular (h : IsReached threshold ts) : ts.AreRectangular := by
  induction h with
  | empty => exact areRectangular_empty threshold
  | change _ _ hc ih => exact ih.after hc

/-- Changes one after the other lead on from tracks that are reached. -/
theorem IsReached.foldl {cs : List Change} (h : IsReached threshold ts)
    (hcs : ∀ c ∈ cs, ∀ n t, c = .insert n t → t.IsRectangular) :
    IsReached threshold (cs.foldl after ts) := by
  induction cs generalizing ts with
  | nil => exact h
  | cons c cs ih =>
    exact ih (h.change c (hcs c List.mem_cons_self))
      fun d hd => hcs d (List.mem_cons_of_mem c hd)

/-- **Adding an observation to tracks that are reached.** All of them are rectangular. Entry by
    entry comes to the same as on the whole: there is a failure exactly if the name is unknown
    or the sample is not of the kind of the series, and then all tracks are as before; and
    otherwise one track has one row more, behind all its others, and no other track changes. -/
theorem append_of_isReached (h : IsReached threshold ts) (n : String) (o : Observation) :
    ts.AreRectangular ∧
    appendInPlace n o ts = ts.outcome (ts.append n o) ∧
    ((∃ e us, appendInPlace n o ts = .error e us) ↔
      ts.find? n = none ∨ ∃ t, ts.find? n = some t ∧ o.sample.kind ≠ t.series.kind) ∧
    (∀ e us, appendInPlace n o ts = .error e us → us = ts) ∧
    ∀ us, appendInPlace n o ts = .ok () us →
      us.threshold = ts.threshold ∧ (∀ m, m ≠ n → us.find? m = ts.find? m) ∧
      us.AreRectangular ∧
      ∃ t u, ts.find? n = some t ∧ us.find? n = some u ∧ t.IsFollowed o u := by
  have hrect := h.areRectangular
  refine ⟨hrect, appendInPlace_eq ts n o, ?_, fun e us he => (appendInPlace_eq_error_iff.1 he).1,
    fun us hus => ?_⟩
  · constructor
    · rintro ⟨e, us, he⟩
      rcases append_eq_error_iff.1 (appendInPlace_eq_error_iff.1 he).2 with
        ⟨hnone, -⟩ | ⟨t, ht, hkind, -⟩
      · exact .inl hnone
      · exact .inr ⟨t, ht, hkind⟩
    · rintro (hnone | ⟨t, ht, hkind⟩)
      · exact ⟨_, ts, appendInPlace_eq_error_iff.2
          ⟨rfl, append_eq_error_iff.2 (.inl ⟨hnone, rfl⟩)⟩⟩
      · exact ⟨_, ts, appendInPlace_eq_error_iff.2
          ⟨rfl, append_eq_error_iff.2 (.inr ⟨t, ht, hkind, rfl⟩)⟩⟩
  · have hadd := appendInPlace_eq_ok_iff.1 hus
    obtain ⟨t, u, ht, hu, hself⟩ := exists_push?_of_append hadd
    exact ⟨threshold_of_append hadd, fun m hm => find?_of_append_of_ne hadd (Ne.symm hm),
      hrect.append hadd, t, u, ht, hself, Track.isFollowed_of_push? (hrect n t ht) hu⟩

/-- A track that grows and is then started again for texts, beside one that refuses a number. -/
def regrown : Tracks := [
    Change.start "a" .numeric .extracted, .append "a" ⟨.one, .zero, .number .one⟩,
    .insert "b" (.ofSeries (.texts #["x", "y"]) .derived), .append "b" ⟨.one, .one, .number .one⟩,
    .start "a" .text .extracted, .append "a" ⟨.one, .one, .text "u"⟩].foldl after (.empty .one)

theorem append_of_isReached_of_regrown : IsReached .one regrown ∧
    (∃ e, appendInPlace "b" ⟨.zero, .zero, .number .one⟩ regrown = .error e regrown) ∧
    ∃ us t u, appendInPlace "a" ⟨.zero, .one, .text "v"⟩ regrown = .ok () us ∧
      us.find? "b" = regrown.find? "b" ∧ regrown.find? "a" = some t ∧ us.find? "a" = some u ∧
      t.IsFollowed ⟨.zero, .one, .text "v"⟩ u := by
  have hreached : IsReached .one regrown := by
    refine IsReached.empty.foldl fun c hc n t h => ?_
    subst h
    simp only [List.mem_cons, Change.insert.injEq, reduceCtorEq, List.not_mem_nil, false_or,
      or_false] at hc
    rw [hc.2]
    exact Track.isRectangular_ofSeries _ _
  have hb : (regrown.find? "b").map (·.series.kind) = some .text := by decide +kernel
  have ha : (regrown.find? "a").map (·.series.kind) = some .text := by decide +kernel
  obtain ⟨-, -, hfails, hkept, -⟩ :=
    append_of_isReached hreached "b" ⟨.zero, .zero, .number .one⟩
  obtain ⟨t, ht, htext⟩ := Option.map_eq_some_iff.1 hb
  obtain ⟨e, us, he⟩ := hfails.2 (.inr ⟨t, ht, by rw [htext]; decide⟩)
  obtain rfl := hkept e us he
  obtain ⟨-, -, hfails', -, hadds⟩ := append_of_isReached hreached "a" ⟨.zero, .one, .text "v"⟩
  rcases hplace : appendInPlace "a" ⟨.zero, .one, .text "v"⟩ regrown with ⟨_, vs⟩ | ⟨e', vs⟩
  · obtain ⟨-, hothers, -, t', u, ht', hu, hfollowed⟩ := hadds vs hplace
    exact ⟨hreached, ⟨e, he⟩, vs, t', u, rfl, hothers "b" (by decide), ht', hu, hfollowed⟩
  · rcases hfails'.1 ⟨e', vs, hplace⟩ with hnone | ⟨t', ht', hkind⟩
    · rw [hnone] at ha
      cases ha
    · rw [ht'] at ha
      exact absurd (Option.some.inj ha).symm hkind

end Tracks

end Screenmark
