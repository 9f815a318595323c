/-
  Screenmark — the targets of a plan.

  For a plan that was made from texts, every target is a template that nobody
  declares or an output of a rule that works frame by frame. So no two targets have
  the same name (`nodup_names`), a target waits for the dependencies of its rule
  (`predecessors_eq`), and the dependencies that are not logged are targets
  themselves (`exists_target_of_gate`).
-/
import Screenmark.Proofs.Plan.Resolution
import Screenmark.Proofs.Rule.Reading
import Screenmark.Scan.Trigger

namespace Screenmark

/-- What is observed in a stage: how sure a match is, or a text. -/
def Stage.kind : Stage → SeriesKind
  | .template => .numeric
  | .text _ | .accessibility => .text

namespace Plan

/-- A plan of rules that fit together. -/
structure IsCompiled (logged : List String) (p : Plan) : Prop extends
    Resolved p.rules logged p where
  sound : ∀ r ∈ p.rules, r.IsSound

variable {sources logged : List String} {p : Plan} {t : Target} {n : String}

theorem isSound_of_mapM_read : ∀ {sources : List String} {rules : List Rule},
    sources.mapM Rule.read = .ok rules → ∀ r ∈ rules, r.IsSound := by
  intro sources
  induction sources with
  | nil =>
    intro rules h
    obtain rfl : [] = rules := Except.ok.inj h
    simp
  | cons s ss ih =>
    intro rules h
    rw [List.mapM_cons] at h
    rcases hs : Rule.read s with f | r
    · rw [hs] at h
      cases h
    · rw [hs] at h
      rcases hss : ss.mapM Rule.read with f | rs
      · rw [hss] at h
        cases h
      · rw [hss] at h
        obtain rfl : r :: rs = rules := Except.ok.inj h
        exact List.forall_mem_cons.2 ⟨Rule.isSound_of_read hs, ih hss⟩

/-- **A plan made from texts.** -/
theorem isCompiled_of_compile (h : compile sources logged = .ok p) : IsCompiled logged p := by
  unfold compile at h
  split at h
  · cases h
  · next rules hread =>
    have hr := resolved_of_ofRules h
    obtain rfl := hr.rules_eq
    exact ⟨hr, isSound_of_mapM_read hread⟩

namespace IsCompiled

variable (h : IsCompiled logged p)
include h

theorem isAutoRegistered_iff : p.isAutoRegistered n = true ↔ Wanted p.rules logged n := h.auto n

/-- The names kept for templates that nobody declares are those of the templates
    that no rule declares. -/
theorem isAutoRegistered_iff_templates : p.isAutoRegistered n = true ↔
    n ∈ p.templates ∧ ¬ Declared p.rules n := by
  rw [h.isAutoRegistered_iff, h.templates]
  constructor
  · intro hw
    refine ⟨.inl hw, fun hd => ?_⟩
    obtain ⟨r, hr, hn⟩ := mem_outputs_of_declared hd
    exact hw.1 r hr hn
  · rintro ⟨hw | hd, hno⟩
    · exact hw
    · exact absurd hd hno

/-- The targets of a rule are its outputs, if it works frame by frame. -/
theorem mem_ofRule {r : Rule} (hr : r ∈ p.rules) : t ∈ Target.ofRule r ↔
    r.family.isPerFrame = true ∧ ∃ n ∈ r.outputs, t = ⟨n, r.action, some r⟩ := by
  unfold Target.ofRule
  split
  · next hf =>
    rw [(h.sound r hr).outputs_eq hf.1 hf.2, List.mem_map]
    simp only [hf.1, true_and, eq_comm]
  · next hf =>
    simp only [List.not_mem_nil, false_iff]
    rintro ⟨hfam, n, hn, -⟩
    exact hf ⟨hfam, Rule.action_ne_template hn⟩

theorem mem_targets : t ∈ p.targets ↔ (Wanted p.rules logged t.name ∧ t = .undeclared t.name) ∨
    ∃ r ∈ p.rules, r.family.isPerFrame = true ∧ t.name ∈ r.outputs ∧
      t = ⟨t.name, r.action, some r⟩ := by
  simp only [Plan.targets, List.mem_append, List.mem_map, List.mem_filter, List.mem_flatMap]
  constructor
  · rintro (⟨n, ⟨-, hauto⟩, rfl⟩ | ⟨r, hr, ht⟩)
    · exact Or.inl ⟨h.isAutoRegistered_iff.1 hauto, rfl⟩
    · obtain ⟨hf, n, hn, rfl⟩ := (h.mem_ofRule hr).1 ht
      exact Or.inr ⟨r, hr, hf, hn, rfl⟩
  · rintro (⟨hw, ht⟩ | ⟨r, hr, hf, hn, ht⟩)
    · exact Or.inl ⟨t.name, ⟨(h.templates _).2 (Or.inl hw), h.isAutoRegistered_iff.2 hw⟩, ht.symm⟩
    · exact Or.inr ⟨r, hr, (h.mem_ofRule hr).2 ⟨hf, t.name, hn, ht⟩⟩

/-- The names of the targets of a rule are among its outputs, in their order. -/
theorem names_ofRule_sublist {r : Rule} (hr : r ∈ p.rules) :
    ((Target.ofRule r).map (·.name)).Sublist r.outputs := by
  unfold Target.ofRule
  split
  · next hf =>
    rw [(h.sound r hr).outputs_eq hf.1 hf.2, List.map_map]
    exact (List.map_id' r.operands).symm ▸ List.Sublist.refl _
  · exact List.nil_sublist _

theorem names_sublist : ∀ {rs : List Rule}, (∀ r ∈ rs, r ∈ p.rules) →
    ((rs.flatMap Target.ofRule).map (·.name)).Sublist (rs.flatMap Rule.outputs)
  | [], _ => List.nil_sublist _
  | r :: rs, hrs => by
    rw [List.flatMap_cons, List.flatMap_cons, List.map_append]
    exact (h.names_ofRule_sublist (hrs r (by simp))).append
      (names_sublist fun q hq => hrs q (by simp [hq]))

/-- **No two targets have the same name.** -/
theorem nodup_names : (p.targets.map (·.name)).Nodup := by
  rw [Plan.targets, List.map_append, List.map_map]
  refine List.nodup_append.2 ⟨?_, (h.names_sublist fun _ hr => hr).nodup h.nodup_outputs, ?_⟩
  · exact (List.map_id' (p.templates.filter p.isAutoRegistered)).symm ▸ h.nodup_templates.filter _
  · intro a ha b hb hab
    subst hab
    obtain ⟨n, hn, rfl⟩ := List.mem_map.1 ha
    have hw := h.isAutoRegistered_iff.1 (List.mem_filter.1 hn).2
    obtain ⟨t, ht, hname⟩ := List.mem_map.1 hb
    obtain ⟨r, hr, ht⟩ := List.mem_flatMap.1 ht
    obtain ⟨-, m, hm, rfl⟩ := (h.mem_ofRule hr).1 ht
    have hmn : m = n := hname
    exact hw.1 r hr (hmn ▸ hm)

/-- Targets are told apart by their names. -/
theorem eq_of_name_eq {u : Target} (ht : t ∈ p.targets) (hu : u ∈ p.targets)
    (heq : t.name = u.name) : t = u := by
  have hne : p.targets.Pairwise fun a b => a.name ≠ b.name := List.pairwise_map.1 h.nodup_names
  refine List.Pairwise.forall_of_forall_of_flip (R := fun a b => a.name = b.name → a = b)
    (fun _ _ _ => rfl) ?_ ?_ ht hu heq
  · exact hne.imp fun h heq => absurd heq h
  · exact hne.imp fun h heq => absurd heq.symm h

/-- What a rule that works frame by frame puts out is a target. -/
theorem exists_target_of_output {r : Rule} (hr : r ∈ p.rules) (hf : r.family.isPerFrame = true)
    (hn : n ∈ r.outputs) : ∃ t ∈ p.targets, t.name = n :=
  ⟨⟨n, r.action, some r⟩, h.mem_targets.2 (.inr ⟨r, hr, hf, hn, rfl⟩), rfl⟩

/-- What another rule puts out is none. -/
theorem name_ne {r : Rule} (hr : r ∈ p.rules) (hf : r.family.isPerFrame = false)
    (hn : n ∈ r.outputs) (ht : t ∈ p.targets) : t.name ≠ n := by
  rintro rfl
  rcases h.mem_targets.1 ht with ⟨hw, -⟩ | ⟨q, hq, hqf, hnq, -⟩
  · exact hw.1 r hr hn
  · obtain rfl := eq_of_mem_outputs h.nodup_outputs hq hr hnq hn
    rw [hf] at hqf
    cases hqf

/-- The series of a target is of the kind of its stage. -/
theorem kind_eq (ht : t ∈ p.targets) : t.kind = t.stage.kind := by
  have hf : t.action.family.isPerFrame = true := by
    rcases h.mem_targets.1 ht with ⟨-, heq⟩ | ⟨r, hr, hf, -, heq⟩
    · rw [heq]
      rfl
    · rw [heq, ← (h.sound r hr).family_eq, hf]
  unfold Target.kind Target.stage
  cases ha : t.action <;> first | rfl | (rw [ha] at hf; cases hf)

end IsCompiled

end Plan

/-! ## What a target waits for -/

namespace Target

/-- The names that have to be true for the target to be worked out. -/
def gates (t : Target) : List String := (t.rule.map Rule.namedDependencies).getD []

variable {t : Target} {g : Prerequisites} {ts : Tracks} {frame : Nat} {ns : List String}

theorem gates_of_inRect (hin : t.test = some .inRect) : t.gates = [] := by
  unfold Target.gates
  rcases hr : t.rule with _ | r
  · rfl
  · have : r.test = some .inRect := by simpa [Target.test, hr] using hin
    simp [Rule.namedDependencies, this]

theorem allTrue_eq_true_iff :
    t.allTrue ts frame ns = .ok true ↔ ∀ n ∈ ns, ts.isTrueAt n frame = some true := by
  induction ns with
  | nil => simp [allTrue]
  | cons n ns ih =>
    rw [allTrue, List.forall_mem_cons]
    split
    · next hn => rw [ih, hn, eq_self, true_and]
    · next hn => simp [hn]
    · next hn => simp [hn]

end Target

namespace Plan.IsCompiled

variable {logged : List String} {p : Plan} {t : Target} {d : String} {ts : Tracks} {frame : Nat}
  (h : IsCompiled logged p)
include h

/-- A target waits for the dependencies of its rule. -/
theorem predecessors_eq (ht : t ∈ p.targets) :
    p.prerequisites.predecessors t.name = .ofDependencies logged t.gates := by
  unfold Prerequisites.predecessors
  rcases h.mem_targets.1 ht with ⟨hw, heq⟩ | ⟨r, hr, -, hn, heq⟩
  · rw [(h.nodes t.name .none).2 (Or.inr ⟨hw, rfl⟩), heq]
    rfl
  · rw [(h.nodes t.name _).2 (Or.inl ⟨r, hr, hn, rfl⟩), heq]
    rfl

theorem mem_gates_iff (ht : t ∈ p.targets) :
    d ∈ (p.prerequisites.predecessors t.name).logged ++
      (p.prerequisites.predecessors t.name).new ↔ d ∈ t.gates := by
  rw [h.predecessors_eq ht, List.mem_append, Predecessors.mem_logged_ofDependencies,
    Predecessors.mem_new_ofDependencies, ← and_or_left]
  exact and_iff_left (Classical.em _)

theorem isUnconstrained_iff (ht : t ∈ p.targets) :
    p.prerequisites.isUnconstrained t.name = true ↔ t.gates = [] := by
  rw [Prerequisites.isUnconstrained, Predecessors.isEmpty, Bool.and_eq_true, List.isEmpty_iff,
    List.isEmpty_iff, ← List.append_eq_nil_iff, List.eq_nil_iff_forall_not_mem,
    List.eq_nil_iff_forall_not_mem]
  simp only [h.mem_gates_iff ht]

/-- A target whose rule asks for no name waits for nothing. -/
theorem gates_eq_nil (ht : t ∈ p.targets) (htest : t.test = none ∨ t.test = some .inRect) :
    t.gates = [] := by
  rcases htest with hno | hin
  · rcases h.mem_targets.1 ht with ⟨-, heq⟩ | ⟨r, hr, -, -, heq⟩
    · rw [heq]
      rfl
    · rw [heq] at hno ⊢
      have hne : r.test ≠ some .inRect := fun hr => by
        simp [Target.test, hr] at hno
      exact (Rule.namedDependencies_of_ne hne).trans ((h.sound r hr).noTest hno)
  · exact Target.gates_of_inRect hin

/-- A target is worked out when all that it waits for is true. -/
theorem isTriggered_iff (ht : t ∈ p.targets) :
    t.isTriggered p.prerequisites ts frame = .ok true ↔
      ∀ d ∈ t.gates, ts.isTrueAt d frame = some true := by
  unfold Target.isTriggered
  split
  · next hc =>
    have hnil : t.gates = [] := hc.elim Target.gates_of_inRect (h.isUnconstrained_iff ht).1
    simp [hnil]
  · simp only [Target.allTrue_eq_true_iff, h.mem_gates_iff ht]

/-- A dependency that is not logged is a target. -/
theorem exists_target_of_gate (ht : t ∈ p.targets) (hd : d ∈ t.gates) (hl : d ∉ logged) :
    ∃ u ∈ p.targets, u.name = d := by
  rcases h.mem_targets.1 ht with ⟨-, heq⟩ | ⟨r, hr, hf, -, heq⟩
  · rw [heq] at hd
    cases hd
  · have hd : d ∈ r.namedDependencies := by
      rw [heq] at hd
      exact hd
    by_cases hprod : ∃ q ∈ p.rules, d ∈ q.outputs
    · obtain ⟨q, hq, hdq⟩ := hprod
      have hmet := h.met r hr d hd
      have hown := not_mem_outputs_of_dependencyFault? hmet
      have hfind := (producerIn_eq_some_iff h.nodup_outputs).2 ⟨hq, hdq⟩
      simp only [dependencyFault?, hown, hl, hfind, hf, if_false] at hmet
      have hqf : q.family.isPerFrame = true := by
        rcases hqf : q.family.isPerFrame
        · simp [hqf] at hmet
        · rfl
      exact ⟨⟨d, q.action, some q⟩, h.mem_targets.2 (Or.inr ⟨q, hq, hqf, hdq, rfl⟩), rfl⟩
    · have hw : Wanted p.rules logged d :=
        ⟨fun q hq hdq => hprod ⟨q, hq, hdq⟩, hl, r, hr, hf, hd⟩
      exact ⟨.undeclared d, h.mem_targets.2 (Or.inl ⟨hw, rfl⟩), rfl⟩

end Plan.IsCompiled

end Screenmark
