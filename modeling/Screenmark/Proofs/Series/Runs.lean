/-
  Screenmark — where series show something.

  A series shows nothing at a frame that has the neutral sample of its kind
  (`Series.IsNeutralAt`). A run is not empty, and the runs cover just the frames at which
  their gate is true, or at which a text shows (`exists_mem_trueRuns_iff`,
  `exists_mem_textRuns_iff`). All of this is proved from the right, as the runs are found: a
  frame of a run is the first one, or a frame that a run of the later ones covers already.
  There are gaps between the runs of a gate, so they are the longest spans on which it is true
  (`mem_trueRuns_iff`). Runs of texts may touch, but not those of one text, so they are the
  longest spans on which one text shows (`mem_textRuns_iff`).
-/
import Screenmark.Series.Runs
import Screenmark.Series.Track

namespace Screenmark

/-! ## Neutral samples -/

/-- The series shows nothing at a frame. -/
def Series.IsNeutralAt (s : Series) (frame : Nat) : Prop :=
  s.sample? frame = some (.neutral s.kind)

instance (s : Series) (frame : Nat) : Decidable (s.IsNeutralAt frame) :=
  inferInstanceAs (Decidable (s.sample? frame = some (.neutral s.kind)))

namespace Series

variable {f : Nat} {xs : Array Single} {ss : Array String}

theorem isNeutralAt_numbers_iff : (numbers xs).IsNeutralAt f ↔ xs[f]? = some .zero := by
  simp [IsNeutralAt, sample?, kind, Sample.neutral]

theorem isNeutralAt_texts_iff : (texts ss).IsNeutralAt f ↔ ss[f]? = some Text.blank := by
  simp [IsNeutralAt, sample?, kind, Sample.neutral]

theorem getElem?_gate {s : Series} {threshold : Single} {frames : Nat} (h : f < frames) :
    (s.gate threshold frames)[f]? = some (s.isTrueAt threshold f) := by
  rw [gate, List.getElem?_map, List.getElem?_range h]
  rfl

end Series

variable {frame f : Nat} {span : Span} {bs : List Bool} {s text : String} {ss : List String}

namespace Span

theorem contains_iff : span.contains f = true ↔ span.start ≤ f ∧ f < span.stop := by
  simp [contains]

theorem eq_of_single (h : (⟨frame, frame + 1⟩ : Span).contains f = true) : f = frame := by
  rw [contains_iff] at h
  dsimp only at h
  omega

/-- A span that begins one frame earlier covers that frame more. -/
theorem eq_or_contains_of_earlier (hstart : span.start = frame + 1)
    (h : (⟨frame, span.stop⟩ : Span).contains f = true) : f = frame ∨ span.contains f = true := by
  rw [contains_iff] at h ⊢
  dsimp only at h
  omega

theorem contains_single (frame : Nat) : (⟨frame, frame + 1⟩ : Span).contains frame = true :=
  contains_iff.2 ⟨Nat.le_refl frame, Nat.lt_succ_self frame⟩

theorem contains_earlier (hstart : span.start = frame + 1)
    (h : f = frame ∧ span.start < span.stop ∨ span.contains f = true) :
    (⟨frame, span.stop⟩ : Span).contains f = true := by
  rw [contains_iff] at h ⊢
  dsimp only
  omega

end Span

/-! ## Runs of a gate -/

/-- A frame at which the gate is true makes a run of its own, or opens the next one earlier. -/
theorem trueRunsFrom_cons (frame : Nat) (bs : List Bool) :
    (∀ r ∈ (trueRunsFrom (frame + 1) bs).head?, r.start ≠ frame + 1) ∧
        trueRunsFrom frame (true :: bs) = ⟨frame, frame + 1⟩ :: trueRunsFrom (frame + 1) bs ∨
      ∃ r rs, trueRunsFrom (frame + 1) bs = r :: rs ∧ r.start = frame + 1 ∧
        trueRunsFrom frame (true :: bs) = ⟨frame, r.stop⟩ :: rs := by
  rw [trueRunsFrom]
  split
  · next hlater => exact .inl ⟨by simp [hlater], by rw [hlater]⟩
  · next r rs hlater =>
    split
    · next hstart => exact .inr ⟨r, rs, hlater, hstart, rfl⟩
    · next hstart =>
      refine .inl ⟨?_, by rw [hlater]⟩
      intro q hq
      rw [hlater] at hq
      cases hq
      exact hstart

theorem eq_or_exists_of_mem_trueRunsFrom (h : span ∈ trueRunsFrom frame (true :: bs))
    (hf : span.contains f = true) :
    f = frame ∨ ∃ r ∈ trueRunsFrom (frame + 1) bs, r.contains f = true := by
  rcases trueRunsFrom_cons frame bs with ⟨-, heq⟩ | ⟨r, rs, hlater, hstart, heq⟩
  · rcases List.mem_cons.1 (heq ▸ h) with rfl | hmem
    · exact .inl (Span.eq_of_single hf)
    · exact .inr ⟨span, hmem, hf⟩
  · rw [hlater]
    rcases List.mem_cons.1 (heq ▸ h) with rfl | hmem
    · exact (Span.eq_or_contains_of_earlier hstart hf).imp_right
        fun hr => ⟨r, List.mem_cons_self, hr⟩
    · exact .inr ⟨span, List.mem_cons_of_mem r hmem, hf⟩

/-- **A gate is true on its runs.** -/
theorem true_of_mem_trueRunsFrom (h : span ∈ trueRunsFrom frame bs)
    (hf : span.contains f = true) : ∃ i, f = frame + i ∧ bs[i]? = some true := by
  induction bs generalizing frame span with
  | nil => cases h
  | cons b bs ih =>
    rcases b with _ | _
    · obtain ⟨i, rfl, hi⟩ := ih h hf
      exact ⟨i + 1, by omega, hi⟩
    · rcases eq_or_exists_of_mem_trueRunsFrom h hf with rfl | ⟨r, hr, hrf⟩
      · exact ⟨0, rfl, rfl⟩
      · obtain ⟨i, rfl, hi⟩ := ih hr hrf
        exact ⟨i + 1, by omega, hi⟩

theorem true_of_mem_trueRuns (h : span ∈ trueRuns bs) (hf : span.contains f = true) :
    bs[f]? = some true := by
  obtain ⟨i, rfl, hi⟩ := true_of_mem_trueRunsFrom h hf
  rwa [Nat.zero_add]

theorem start_lt_stop_of_mem_trueRunsFrom (h : span ∈ trueRunsFrom frame bs) :
    span.start < span.stop := by
  induction bs generalizing frame span with
  | nil => cases h
  | cons b bs ih =>
    rcases b with _ | _
    · exact ih h
    · rcases trueRunsFrom_cons frame bs with ⟨-, heq⟩ | ⟨r, rs, hlater, hstart, heq⟩
      · rcases List.mem_cons.1 (heq ▸ h) with rfl | hmem
        · exact Nat.lt_succ_self frame
        · exact ih hmem
      · rcases List.mem_cons.1 (heq ▸ h) with rfl | hmem
        · have hr : r.start < r.stop := ih (hlater ▸ List.mem_cons_self)
          dsimp only
          omega
        · exact ih (hlater ▸ List.mem_cons_of_mem r hmem)

/-- A run that begins one frame earlier still covers what the later runs do. -/
theorem exists_mem_trueRunsFrom_cons
    (h : f = frame ∨ ∃ r ∈ trueRunsFrom (frame + 1) bs, r.contains f = true) :
    ∃ r ∈ trueRunsFrom frame (true :: bs), r.contains f = true := by
  rcases trueRunsFrom_cons frame bs with ⟨-, heq⟩ | ⟨r, rs, hlater, hstart, heq⟩
  · rw [heq]
    rcases h with rfl | ⟨q, hq, hf⟩
    · exact ⟨_, List.mem_cons_self, Span.contains_single f⟩
    · exact ⟨q, List.mem_cons_of_mem _ hq, hf⟩
  · have hr : r.start < r.stop := start_lt_stop_of_mem_trueRunsFrom (hlater ▸ List.mem_cons_self)
    rw [heq]
    rcases h with rfl | ⟨q, hq, hf⟩
    · exact ⟨_, List.mem_cons_self, Span.contains_earlier hstart (.inl ⟨rfl, hr⟩)⟩
    · rcases List.mem_cons.1 (hlater ▸ hq) with rfl | hmem
      · exact ⟨_, List.mem_cons_self, Span.contains_earlier hstart (.inr hf)⟩
      · exact ⟨q, List.mem_cons_of_mem _ hmem, hf⟩

theorem exists_mem_trueRunsFrom (frame : Nat) {i : Nat} (h : bs[i]? = some true) :
    ∃ r ∈ trueRunsFrom frame bs, r.contains (frame + i) = true := by
  induction bs generalizing frame i with
  | nil => cases h
  | cons b bs ih =>
    rcases i with _ | i
    · obtain rfl : b = true := Option.some.inj h
      exact exists_mem_trueRunsFrom_cons (.inl rfl)
    · have hlater := ih (frame + 1) h
      rw [Nat.add_right_comm, Nat.add_assoc] at hlater
      rcases b with _ | _
      · exact hlater
      · exact exists_mem_trueRunsFrom_cons (.inr hlater)

/-- **The runs of a gate cover just the frames at which it is true.** -/
theorem exists_mem_trueRuns_iff : (∃ r ∈ trueRuns bs, r.contains f = true) ↔ bs[f]? = some true := by
  constructor
  · rintro ⟨r, hr, hf⟩
    exact true_of_mem_trueRuns hr hf
  · intro h
    have hcover := exists_mem_trueRunsFrom 0 h
    rwa [Nat.zero_add] at hcover

/-! ## Runs as the longest spans -/

/-- Of two members of a list in order, one stands before the other. -/
theorem eq_or_rel_of_pairwise {α : Type} {R : α → α → Prop} {l : List α} {a b : α}
    (h : l.Pairwise R) (ha : a ∈ l) (hb : b ∈ l) : a = b ∨ R a b ∨ R b a := by
  induction h with
  | nil => cases ha
  | cons hhead _ ih =>
    rcases List.mem_cons.1 ha with rfl | ha'
    · exact (List.mem_cons.1 hb).imp Eq.symm fun hb' => .inl (hhead b hb')
    · rcases List.mem_cons.1 hb with rfl | hb'
      · exact .inr (.inr (hhead a ha'))
      · exact ih ha' hb'

/-- The span is one of the longest without a gap of the frames with a property. -/
structure Span.IsRun (P : Nat → Prop) (s : Span) : Prop where
  start_lt_stop : s.start < s.stop
  inside : ∀ f, s.contains f = true → P f
  before : ∀ f, f + 1 = s.start → ¬ P f
  behind : ¬ P s.stop

namespace Span

variable {P : Nat → Prop} {s t : Span} {spans : List Span}

theorem contains_start (h : s.start < s.stop) : s.contains s.start = true :=
  contains_iff.2 ⟨Nat.le_refl _, h⟩

/-- A run reaches no further than another one that it has a frame in common with. -/
theorem IsRun.le (h : s.IsRun P) (h' : t.IsRun P) (hs : s.contains f = true)
    (ht : t.contains f = true) : s.start ≤ t.start ∧ t.stop ≤ s.stop := by
  rw [contains_iff] at hs ht
  constructor
  · refine Nat.le_of_not_lt fun hlt => ?_
    refine h.before (s.start - 1) (by omega) (h'.inside _ (contains_iff.2 ?_))
    omega
  · refine Nat.le_of_not_lt fun hlt => h.behind (h'.inside _ (contains_iff.2 ?_))
    omega

/-- Runs with a frame in common are one run. -/
theorem IsRun.unique (h : s.IsRun P) (h' : t.IsRun P) (hs : s.contains f = true)
    (ht : t.contains f = true) : s = t := by
  obtain ⟨hstart, hstop⟩ := h.le h' hs ht
  obtain ⟨hstart', hstop'⟩ := h'.le h ht hs
  obtain ⟨a, b⟩ := s
  obtain ⟨a', b'⟩ := t
  rw [Span.mk.injEq]
  exact ⟨Nat.le_antisymm hstart hstart', Nat.le_antisymm hstop' hstop⟩

theorem IsRun.stop_le {n : Nat} (h : s.IsRun P)
    (hP : ∀ f, P f → f < n) : s.stop ≤ n := by
  have hlt := h.start_lt_stop
  have hlast := hP (s.stop - 1) (h.inside _ (contains_iff.2 (by omega)))
  omega

/-- **Spans with gaps between them are the runs of the frames that they cover.** -/
theorem mem_iff_isRun (hne : ∀ s ∈ spans, s.start < s.stop)
    (hgaps : spans.Pairwise fun a b => a.stop < b.start)
    (hcover : ∀ f, (∃ s ∈ spans, s.contains f = true) ↔ P f) : s ∈ spans ↔ s.IsRun P := by
  have hrun : ∀ s ∈ spans, s.IsRun P := by
    intro s hs
    -- Another span that touches this one would leave no gap.
    have hlt := hne s hs
    have htouch : ∀ f, s.start ≤ f + 1 → f ≤ s.stop → P f → s.start ≤ f ∧ f < s.stop := by
      intro f hstart hstop hf
      obtain ⟨t, ht, htf⟩ := (hcover f).2 hf
      rw [contains_iff] at htf
      rcases eq_or_rel_of_pairwise hgaps hs ht with rfl | hgap | hgap
      · exact htf
      · omega
      · omega
    refine ⟨hlt, fun f hf => (hcover f).1 ⟨s, hs, hf⟩, fun f hf hP => ?_, fun hP => ?_⟩
    · have hin := htouch f (by omega) (by omega) hP
      omega
    · have hin := htouch s.stop (by omega) (Nat.le_refl _) hP
      omega
  refine ⟨hrun s, fun hs => ?_⟩
  have hstart := contains_start hs.start_lt_stop
  obtain ⟨t, ht, htf⟩ := (hcover s.start).2 (hs.inside _ hstart)
  rw [hs.unique (hrun t ht) hstart htf]
  exact ht

end Span

theorem le_start_of_mem_trueRunsFrom (h : span ∈ trueRunsFrom frame bs) : frame ≤ span.start := by
  obtain ⟨i, hi, -⟩ :=
    true_of_mem_trueRunsFrom h (Span.contains_start (start_lt_stop_of_mem_trueRunsFrom h))
  omega

/-- There is a gap between each run and the next. -/
theorem pairwise_trueRunsFrom (frame : Nat) (bs : List Bool) :
    (trueRunsFrom frame bs).Pairwise fun a b => a.stop < b.start := by
  induction bs generalizing frame with
  | nil => exact .nil
  | cons b bs ih =>
    have hlater := ih (frame + 1)
    rcases b with _ | _
    · exact hlater
    · rcases trueRunsFrom_cons frame bs with ⟨hhead, heq⟩ | ⟨r, rs, hrs, -, heq⟩
      · rw [heq, List.pairwise_cons]
        refine ⟨fun q hq => ?_, hlater⟩
        rcases hrs : trueRunsFrom (frame + 1) bs with _ | ⟨r, rs⟩
        · rw [hrs] at hq
          cases hq
        · rw [hrs] at hq hhead hlater
          have hr : r ∈ trueRunsFrom (frame + 1) bs := hrs ▸ List.mem_cons_self
          have hfirst : frame + 1 < r.start :=
            Nat.lt_of_le_of_ne (le_start_of_mem_trueRunsFrom hr) (hhead r rfl).symm
          rcases List.mem_cons.1 hq with rfl | hq
          · exact hfirst
          · have hlt := start_lt_stop_of_mem_trueRunsFrom hr
            have hgap : r.stop < q.start := (List.pairwise_cons.1 hlater).1 q hq
            exact Nat.lt_trans hfirst (Nat.lt_trans hlt hgap)
      · rw [heq]
        rw [hrs, List.pairwise_cons] at hlater
        exact List.pairwise_cons.2 hlater

/-- **The runs of a gate are the longest spans on which it is true**, in order. -/
theorem mem_trueRuns_iff : span ∈ trueRuns bs ↔ span.IsRun fun f => bs[f]? = some true :=
  Span.mem_iff_isRun (fun _ => start_lt_stop_of_mem_trueRunsFrom) (pairwise_trueRunsFrom 0 bs)
    fun _ => exists_mem_trueRuns_iff

/-! ## Runs of texts -/

/-- A text that shows makes a run of its own, or opens the next one earlier. -/
theorem textRunsFrom_cons (frame : Nat) (ss : List String) (hs : Text.isBlank s = false) :
    (∀ p ∈ (textRunsFrom (frame + 1) ss).head?, p.2 = s → p.1.start ≠ frame + 1) ∧
        textRunsFrom frame (s :: ss) = (⟨frame, frame + 1⟩, s) :: textRunsFrom (frame + 1) ss ∨
      ∃ r rs, textRunsFrom (frame + 1) ss = (r, s) :: rs ∧ r.start = frame + 1 ∧
        textRunsFrom frame (s :: ss) = (⟨frame, r.stop⟩, s) :: rs := by
  rw [textRunsFrom, if_neg (Bool.eq_false_iff.1 hs)]
  split
  · next hlater => exact .inl ⟨by simp [hlater], by rw [hlater]⟩
  · next r t rs hlater =>
    split
    · next hsame =>
      obtain ⟨hstart, rfl⟩ := hsame
      exact .inr ⟨r, rs, hlater, hstart, rfl⟩
    · next hother =>
      refine .inl ⟨?_, by rw [hlater]⟩
      intro q hq
      rw [hlater] at hq
      cases hq
      exact fun htext hstart => hother ⟨hstart, htext⟩

theorem textRunsFrom_cons_of_blank (frame : Nat) (ss : List String) (hs : Text.isBlank s = true) :
    textRunsFrom frame (s :: ss) = textRunsFrom (frame + 1) ss := by
  rw [textRunsFrom, if_pos hs]

theorem eq_or_exists_of_mem_textRunsFrom (h : (span, text) ∈ textRunsFrom frame (s :: ss))
    (hf : span.contains f = true) : f = frame ∧ text = s ∧ Text.isBlank s = false ∨
      ∃ r, (r, text) ∈ textRunsFrom (frame + 1) ss ∧ r.contains f = true := by
  rcases hs : Text.isBlank s
  · rcases textRunsFrom_cons frame ss hs with ⟨-, heq⟩ | ⟨r, rs, hlater, hstart, heq⟩
    · rcases List.mem_cons.1 (heq ▸ h) with hhead | hmem
      · cases hhead
        exact .inl ⟨Span.eq_of_single hf, rfl, rfl⟩
      · exact .inr ⟨_, hmem, hf⟩
    · rw [hlater]
      rcases List.mem_cons.1 (heq ▸ h) with hhead | hmem
      · cases hhead
        exact (Span.eq_or_contains_of_earlier hstart hf).imp (⟨·, rfl, rfl⟩)
          fun hr => ⟨_, List.mem_cons_self, hr⟩
      · exact .inr ⟨_, List.mem_cons_of_mem _ hmem, hf⟩
  · exact .inr ⟨_, textRunsFrom_cons_of_blank frame ss hs ▸ h, hf⟩

/-- **The text of a run shows on all of it.** -/
theorem shows_of_mem_textRunsFrom (h : (span, text) ∈ textRunsFrom frame ss)
    (hf : span.contains f = true) :
    ∃ i, f = frame + i ∧ ss[i]? = some text ∧ Text.isBlank text = false := by
  induction ss generalizing frame span with
  | nil => cases h
  | cons t ss ih =>
    rcases eq_or_exists_of_mem_textRunsFrom h hf with ⟨rfl, rfl, hshows⟩ | ⟨r, hr, hrf⟩
    · exact ⟨0, rfl, rfl, hshows⟩
    · obtain ⟨i, rfl, hi, hshows⟩ := ih hr hrf
      exact ⟨i + 1, by omega, hi, hshows⟩

theorem shows_of_mem_textRuns (h : (span, text) ∈ textRuns ss) (hf : span.contains f = true) :
    ss[f]? = some text ∧ Text.isBlank text = false := by
  obtain ⟨i, rfl, hi, hshows⟩ := shows_of_mem_textRunsFrom h hf
  exact ⟨by rwa [Nat.zero_add], hshows⟩

theorem start_lt_stop_of_mem_textRunsFrom (h : (span, text) ∈ textRunsFrom frame ss) :
    span.start < span.stop := by
  induction ss generalizing frame span text with
  | nil => cases h
  | cons s ss ih =>
    rcases hs : Text.isBlank s
    · rcases textRunsFrom_cons frame ss hs with ⟨-, heq⟩ | ⟨r, rs, hlater, hstart, heq⟩
      · rcases List.mem_cons.1 (heq ▸ h) with hhead | hmem
        · cases hhead
          exact Nat.lt_succ_self frame
        · exact ih hmem
      · rcases List.mem_cons.1 (heq ▸ h) with hhead | hmem
        · cases hhead
          have hr : r.start < r.stop := ih (hlater ▸ List.mem_cons_self)
          dsimp only
          omega
        · exact ih (hlater ▸ List.mem_cons_of_mem _ hmem)
    · exact ih (textRunsFrom_cons_of_blank frame ss hs ▸ h)

theorem exists_mem_textRunsFrom (frame : Nat) {i : Nat} {s : String} (h : ss[i]? = some s)
    (hs : Text.isBlank s = false) :
    ∃ p ∈ textRunsFrom frame ss, p.1.contains (frame + i) = true := by
  induction ss generalizing frame i with
  | nil => cases h
  | cons t ss ih =>
    rcases i with _ | i
    · obtain rfl : t = s := Option.some.inj h
      rcases textRunsFrom_cons frame ss hs with ⟨-, heq⟩ | ⟨r, rs, hlater, hstart, heq⟩
      · rw [heq]
        exact ⟨_, List.mem_cons_self, Span.contains_single frame⟩
      · have hr := start_lt_stop_of_mem_textRunsFrom (hlater ▸ List.mem_cons_self)
        rw [heq]
        exact ⟨_, List.mem_cons_self, Span.contains_earlier hstart (.inl ⟨rfl, hr⟩)⟩
    · obtain ⟨p, hp, hcover⟩ := ih (frame + 1) h
      rw [Nat.add_right_comm, Nat.add_assoc] at hcover
      rcases ht : Text.isBlank t
      · rcases textRunsFrom_cons frame ss ht with ⟨-, heq⟩ | ⟨r, rs, hlater, hstart, heq⟩
        · exact ⟨p, heq ▸ List.mem_cons_of_mem _ hp, hcover⟩
        · rw [heq]
          rcases List.mem_cons.1 (hlater ▸ hp) with rfl | hmem
          · exact ⟨_, List.mem_cons_self, Span.contains_earlier hstart (.inr hcover)⟩
          · exact ⟨p, List.mem_cons_of_mem _ hmem, hcover⟩
      · exact ⟨p, textRunsFrom_cons_of_blank frame ss ht ▸ hp, hcover⟩

/-- **The runs of texts cover just the frames at which one shows.** -/
theorem exists_mem_textRuns_iff : (∃ p ∈ textRuns ss, p.1.contains f = true) ↔
    ∃ s, ss[f]? = some s ∧ Text.isBlank s = false := by
  constructor
  · rintro ⟨⟨span, text⟩, hp, hf⟩
    exact ⟨text, shows_of_mem_textRuns hp hf⟩
  · rintro ⟨s, hs, hshows⟩
    have hcover := exists_mem_textRunsFrom 0 hs hshows
    rwa [Nat.zero_add] at hcover

theorem le_start_of_mem_textRunsFrom (h : (span, text) ∈ textRunsFrom frame ss) :
    frame ≤ span.start := by
  obtain ⟨i, hi, -⟩ :=
    shows_of_mem_textRunsFrom h (Span.contains_start (start_lt_stop_of_mem_textRunsFrom h))
  omega

/-- Runs of texts are in order, and there is a gap between two of one text. -/
theorem pairwise_textRunsFrom (frame : Nat) (ss : List String) :
    (textRunsFrom frame ss).Pairwise fun a b =>
      a.1.stop ≤ b.1.start ∧ (a.2 = b.2 → a.1.stop < b.1.start) := by
  induction ss generalizing frame with
  | nil => exact .nil
  | cons s ss ih =>
    have hlater := ih (frame + 1)
    rcases hs : Text.isBlank s
    · rcases textRunsFrom_cons frame ss hs with ⟨hhead, heq⟩ | ⟨r, rs, hrs, -, heq⟩
      · rw [heq, List.pairwise_cons]
        refine ⟨fun q hq => ⟨le_start_of_mem_textRunsFrom hq, fun htext => ?_⟩, hlater⟩
        rcases hrs : textRunsFrom (frame + 1) ss with _ | ⟨r, rs⟩
        · rw [hrs] at hq
          cases hq
        · rw [hrs] at hq hhead hlater
          have hr : r ∈ textRunsFrom (frame + 1) ss := hrs ▸ List.mem_cons_self
          have hfirst : frame + 1 ≤ r.1.start := le_start_of_mem_textRunsFrom hr
          rcases List.mem_cons.1 hq with rfl | hq
          · exact Nat.lt_of_le_of_ne hfirst (hhead q rfl htext.symm).symm
          · have hlt := start_lt_stop_of_mem_textRunsFrom hr
            have hgap := ((List.pairwise_cons.1 hlater).1 q hq).1
            exact Nat.lt_of_le_of_lt hfirst (Nat.lt_of_lt_of_le hlt hgap)
      · rw [heq]
        rw [hrs, List.pairwise_cons] at hlater
        exact List.pairwise_cons.2 hlater
    · rw [textRunsFrom_cons_of_blank frame ss hs]
      exact hlater

/-- Runs that encode texts: they are not empty, stand in order and show different texts where they
    touch, they cover just the frames at which a text shows, and every frame of a run shows the
    text of the run. -/
structure EncodesTexts (ss : List String) (runs : List (Span × String)) : Prop where
  nonempty : ∀ p ∈ runs, p.1.start < p.1.stop
  ordered : runs.Pairwise fun a b => a.1.stop ≤ b.1.start ∧ (a.1.stop = b.1.start → a.2 ≠ b.2)
  covers : ∀ f, (∃ p ∈ runs, p.1.contains f = true) ↔
    ∃ s, ss[f]? = some s ∧ Text.isBlank s = false
  shows : ∀ p ∈ runs, ∀ f, p.1.contains f = true → ss[f]? = some p.2

/-- The runs of texts encode them. -/
theorem encodesTexts_textRuns (ss : List String) : EncodesTexts ss (textRuns ss) where
  nonempty _ hp := start_lt_stop_of_mem_textRunsFrom hp
  ordered := (pairwise_textRunsFrom 0 ss).imp fun {_ _} hab =>
    ⟨hab.1, fun htouch htext => absurd htouch (Nat.ne_of_lt (hab.2 htext))⟩
  covers _ := exists_mem_textRuns_iff
  shows _ hp _ hf := (shows_of_mem_textRuns hp hf).1

namespace EncodesTexts

variable {runs : List (Span × String)}

/-- Only texts that show have runs. -/
theorem isBlank_eq_false (h : EncodesTexts ss runs) (hp : (span, text) ∈ runs) :
    Text.isBlank text = false := by
  have hstart := Span.contains_start (h.nonempty _ hp)
  obtain ⟨s, hs, hshows⟩ := (h.covers span.start).1 ⟨_, hp, hstart⟩
  have htext : text = s := Option.some.inj ((h.shows _ hp _ hstart).symm.trans hs)
  rw [htext]
  exact hshows

/-- **Runs that encode texts are the longest spans on which one text shows.** -/
theorem mem_iff (h : EncodesTexts ss runs) : (span, text) ∈ runs ↔
    Text.isBlank text = false ∧ span.IsRun fun f => ss[f]? = some text := by
  by_cases hblank : Text.isBlank text = true
  · refine iff_of_false (fun hp => ?_) fun hp => Bool.false_ne_true (hp.1.symm.trans hblank)
    exact Bool.false_ne_true ((h.isBlank_eq_false hp).symm.trans hblank)
  rw [Bool.not_eq_true] at hblank
  rw [and_iff_right hblank]
  -- The runs of this text have gaps between them, and cover the frames at which it shows.
  have hmem : ∀ s, s ∈ (runs.filter (·.2 = text)).map (·.1) ↔ (s, text) ∈ runs := by
    intro s
    rw [List.mem_map]
    constructor
    · rintro ⟨⟨s', text'⟩, hrun, rfl⟩
      obtain ⟨hrun, htext⟩ := List.mem_filter.1 hrun
      exact of_decide_eq_true htext ▸ hrun
    · exact fun hrun => ⟨_, List.mem_filter.2 ⟨hrun, decide_eq_true rfl⟩, rfl⟩
  rw [← hmem]
  refine Span.mem_iff_isRun (fun s hs => h.nonempty _ ((hmem s).1 hs)) ?_ ?_
  · rw [List.pairwise_map, List.pairwise_filter]
    refine h.ordered.imp fun {a b} hab ha hb => Nat.lt_of_le_of_ne hab.1 fun htouch => ?_
    exact hab.2 htouch ((of_decide_eq_true ha).trans (of_decide_eq_true hb).symm)
  · intro f
    constructor
    · rintro ⟨s, hs, hf⟩
      exact h.shows _ ((hmem s).1 hs) f hf
    · intro hf
      obtain ⟨⟨s, text'⟩, hrun, hcover⟩ := (h.covers f).2 ⟨text, hf, hblank⟩
      have htext := h.shows _ hrun f hcover
      rw [hf, Option.some.injEq] at htext
      subst htext
      exact ⟨s, (hmem s).2 hrun, hcover⟩

end EncodesTexts

/-- **The runs of texts are the longest spans on which one text shows.** -/
theorem mem_textRuns_iff : (span, text) ∈ textRuns ss ↔
    Text.isBlank text = false ∧ span.IsRun fun f => ss[f]? = some text :=
  (encodesTexts_textRuns ss).mem_iff

end Screenmark
