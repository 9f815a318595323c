/-
  Screenmark — the order of rules does not matter.

  A plan is described by what its rules are, without regard to where they stand in
  the list. So the plans of the same rules in two orders are made or refused
  together, and what follows from the rules is the same in both: `compile_perm`.
-/
import Screenmark.Proofs.Plan.Resolution

namespace Screenmark

namespace Plan

variable {rules rules' : List Rule} {logged : List String} {p q : Plan} {n : String}

/-! ## Rules in another order -/

theorem mem_outputs_perm (h : rules.Perm rules') :
    (∀ q ∈ rules, n ∉ q.outputs) ↔ ∀ q ∈ rules', n ∉ q.outputs :=
  ⟨fun hn q hq => hn q (h.mem_iff.2 hq), fun hn q hq => hn q (h.mem_iff.1 hq)⟩

theorem wanted_perm (h : rules.Perm rules') : Wanted rules logged n ↔ Wanted rules' logged n := by
  simp only [Wanted, h.mem_iff]

theorem declared_perm (h : rules.Perm rules') : Declared rules n ↔ Declared rules' n := by
  simp only [Declared, h.mem_iff]

/-- The producer of a name does not hang on the order. -/
theorem producerIn_perm (h : rules.Perm rules') (hnd : (rules.flatMap Rule.outputs).Nodup)
    (n : String) : producerIn rules n = producerIn rules' n := by
  have hnd' := (h.flatMap_right Rule.outputs).nodup_iff.1 hnd
  rcases hp : producerIn rules' n with _ | r
  · rw [producerIn_eq_none_iff] at hp ⊢
    exact (mem_outputs_perm h).2 hp
  · rw [producerIn_eq_some_iff hnd'] at hp
    rw [producerIn_eq_some_iff hnd]
    exact ⟨h.mem_iff.2 hp.1, hp.2⟩

theorem dependencyFault?_perm (h : rules.Perm rules') (hnd : (rules.flatMap Rule.outputs).Nodup)
    (r : Rule) (d : String) :
    dependencyFault? rules logged r d = dependencyFault? rules' logged r d := by
  unfold dependencyFault?
  rw [producerIn_perm h hnd]

/-- Prerequisites in which the same names wait for the same are equal. -/
theorem prerequisites_ext {g g' : Prerequisites}
    (h : ∀ n ps, g.predecessors? n = some ps ↔ g'.predecessors? n = some ps) : g = g' := by
  obtain ⟨m⟩ := g
  obtain ⟨m'⟩ := g'
  congr 1
  exact NameMap.ext_find? fun n => Option.ext (h n)

theorem prerequisites_draw_perm (h : rules.Perm rules')
    (hnd : (rules.flatMap Rule.outputs).Nodup)
    (hok : ∀ r ∈ rules, ∀ d ∈ r.namedDependencies, dependencyFault? rules logged r d = none) :
    (draw rules logged).prerequisites = (draw rules' logged).prerequisites := by
  have hnd' := (h.flatMap_right Rule.outputs).nodup_iff.1 hnd
  have hok' : ∀ r ∈ rules', ∀ d ∈ r.namedDependencies,
      dependencyFault? rules' logged r d = none := fun r hr d hd => by
    rw [← dependencyFault?_perm h hnd]
    exact hok r (h.mem_iff.2 hr) d hd
  refine prerequisites_ext fun n ps => ?_
  rw [(describes_draw hnd hok).nodes, (describes_draw hnd' hok').nodes,
    undeclared_map_withDependencies, undeclared_map_withDependencies, wanted_perm h]
  simp only [List.mem_map, h.mem_iff]

theorem exists_ofRules_perm (h : rules.Perm rules') (hp : ofRules rules logged = .ok p) :
    ∃ q, ofRules rules' logged = .ok q := by
  obtain ⟨hnd, hok, hcycle, -⟩ := ofRules_eq_ok_iff.1 hp
  refine ⟨_, ofRules_eq_ok_iff.2 ⟨(h.flatMap_right Rule.outputs).nodup_iff.1 hnd, ?_, ?_, rfl⟩⟩
  · intro r hr d hd
    rw [← dependencyFault?_perm h hnd]
    exact hok r (h.mem_iff.2 hr) d hd
  · rw [← prerequisites_draw_perm h hnd hok]
    exact hcycle

/-! ## Two plans of the same rules -/

namespace Resolved

variable (hp : Resolved rules logged p) (hq : Resolved rules' logged q) (h : rules.Perm rules')
include hp hq h

theorem prerequisites_eq : p.prerequisites = q.prerequisites := by
  refine prerequisites_ext fun n ps => ?_
  rw [hp.nodes, hq.nodes, wanted_perm h]
  simp only [h.mem_iff]

theorem templates_perm : p.templates.Perm q.templates := by
  refine (List.perm_ext_iff_of_nodup hp.nodup_templates hq.nodup_templates).2 fun n => ?_
  rw [hp.templates, hq.templates, wanted_perm h, declared_perm h]

/-- The names of the templates that nobody declares are kept as a set, so they are
    the same list. -/
theorem autoRegistered_eq : p.autoRegistered = q.autoRegistered := by
  have hauto : p.auto = q.auto := NameMap.ext_contains fun n => by
    rw [Bool.eq_iff_iff, hp.auto, hq.auto, wanted_perm h]
  rw [autoRegistered, autoRegistered, hauto]

end Resolved

/-! ## Texts in another order -/

theorem mapM_read_eq_ok_iff {sources : List String} : ∀ {rules : List Rule},
    sources.mapM Rule.read = .ok rules ↔
      (∀ s ∈ sources, ∃ r, Rule.read s = .ok r) ∧
        rules = sources.filterMap fun s => (Rule.read s).toOption := by
  induction sources with
  | nil => intro rules; simp [pure, Except.pure, eq_comm]
  | cons s ss ih =>
    intro rules
    rw [List.mapM_cons, List.forall_mem_cons]
    rcases hs : Rule.read s with f | r
    · simp [bind, Except.bind]
    · rw [List.filterMap_cons_some (by rw [hs]; rfl)]
      rcases hss : ss.mapM Rule.read with f | rs
      · have hno : ¬ ∀ s ∈ ss, ∃ r, Rule.read s = .ok r := fun hall => by
          have := ih.2 ⟨hall, rfl⟩
          rw [hss] at this
          cases this
        simp [bind, Except.bind, hno]
      · obtain ⟨hall, rfl⟩ := ih.1 hss
        simp only [bind, Except.bind, pure, Except.pure, Except.ok.injEq, exists_eq', true_and]
        exact ⟨fun h => ⟨hall, h.symm⟩, fun h => h.2.symm⟩

theorem compile_eq_ok_iff {sources logged : List String} :
    compile sources logged = .ok p ↔
      ∃ rules, sources.mapM Rule.read = .ok rules ∧ ofRules rules logged = .ok p := by
  unfold compile
  rcases sources.mapM Rule.read with f | rules <;> simp

theorem mapM_read_perm {a b : List String} (h : a.Perm b) (ha : a.mapM Rule.read = .ok rules) :
    ∃ rules', b.mapM Rule.read = .ok rules' ∧ rules.Perm rules' := by
  obtain ⟨hall, rfl⟩ := mapM_read_eq_ok_iff.1 ha
  exact ⟨_, mapM_read_eq_ok_iff.2 ⟨fun s hs => hall s (h.mem_iff.2 hs), rfl⟩, h.filterMap _⟩

theorem exists_compile_perm {a b : List String} (h : a.Perm b)
    (hp : ∃ p, compile a logged = .ok p) : ∃ q, compile b logged = .ok q := by
  obtain ⟨p, hp⟩ := hp
  obtain ⟨rules, ha, hp⟩ := compile_eq_ok_iff.1 hp
  obtain ⟨rules', hb, hr⟩ := mapM_read_perm h ha
  obtain ⟨q, hq⟩ := exists_ofRules_perm hr hp
  exact ⟨q, compile_eq_ok_iff.2 ⟨rules', hb, hq⟩⟩

/-- **The plan does not hang on the order of the rules.** -/
theorem compile_perm {a b logged : List String} (h : a.Perm b) :
    ((∃ p, compile a logged = .ok p) ↔ ∃ q, compile b logged = .ok q) ∧
    ∀ p q, compile a logged = .ok p → compile b logged = .ok q →
      p.prerequisites = q.prerequisites ∧ p.templates.Perm q.templates ∧
        p.autoRegistered = q.autoRegistered := by
  refine ⟨⟨exists_compile_perm h, exists_compile_perm h.symm⟩, fun p q hp hq => ?_⟩
  obtain ⟨rules, ha, hp⟩ := compile_eq_ok_iff.1 hp
  obtain ⟨rules', hb, hq⟩ := compile_eq_ok_iff.1 hq
  obtain ⟨rules'', hb', hr⟩ := mapM_read_perm h ha
  obtain rfl : rules' = rules'' := Except.ok.inj (hb.symm.trans hb')
  have hp := resolved_of_ofRules hp
  have hq := resolved_of_ofRules hq
  exact ⟨hp.prerequisites_eq hq hr, hp.templates_perm hq hr, hp.autoRegistered_eq hq hr⟩

/-- The producer of `logo` may stand before or after the rule that waits for it, and
    for `menu`, which nobody declares. -/
theorem compile_perm_of_swap :
    ∃ p q, compile ["matchTemplate(logo)", "if(logo,menu){detectText(title)}"] [] = .ok p ∧
      compile ["if(logo,menu){detectText(title)}", "matchTemplate(logo)"] [] = .ok q ∧
      p.prerequisites = q.prerequisites ∧ p.templates.Perm q.templates ∧
        p.autoRegistered = q.autoRegistered := by
  have h := @compile_perm ["matchTemplate(logo)", "if(logo,menu){detectText(title)}"]
    ["if(logo,menu){detectText(title)}", "matchTemplate(logo)"] [] (List.Perm.swap _ _ _)
  have hp : (compile ["matchTemplate(logo)", "if(logo,menu){detectText(title)}"]
    []).toOption.isSome = true := by decide +kernel
  obtain ⟨p, hp⟩ := exists_of_isSome_toOption hp
  obtain ⟨q, hq⟩ := h.1.1 ⟨p, hp⟩
  exact ⟨p, q, hp, hq, h.2 p q hp hq⟩

end Plan

end Screenmark
