/-
  Screenmark — which rules make a plan.

  Rules are *coherent* if no name is produced twice, no rule depends on what it
  produces, no rule that works frame by frame depends on what is only produced later,
  and no name waits for itself, however many names lie between (`IsCoherent`). These
  are all the faults a plan is searched for, and a search for a cycle finds one if
  there is one: `exists_ofRules_iff`.

  * `IsPlanOf` : what the plan of some rules holds, by their text alone;
  * `compile_eq_ok_iff_isCoherent` : the texts that make a plan, and what it holds.
-/
import Screenmark.Proofs.Plan.Cycle
import Screenmark.Proofs.Plan.Permutation
import Screenmark.Proofs.Scan.Targets

namespace Screenmark

namespace Predecessors

theorem foldl_addName_eq : ∀ {ds ns : List String},
    ds.foldl addName ns = ns ++ (ds.filter (· ∉ ns)).eraseDups := by
  intro ds
  induction ds with
  | nil => intro ns; simp
  | cons d ds ih =>
    intro ns
    rw [List.foldl_cons, ih, addName]
    split
    · next h => simp [h]
    · next h =>
      rw [List.filter_cons_of_pos (by simpa using h), List.eraseDups_cons, List.filter_filter,
        List.append_assoc, List.singleton_append]
      congr 3
      refine List.filter_congr fun e _ => ?_
      by_cases he : e = d <;> by_cases hn : e ∈ ns <;> simp [he, hn]

theorem foldl_addName_nil (ds : List String) : ds.foldl addName [] = ds.eraseDups := by
  rw [foldl_addName_eq, List.nil_append, List.filter_eq_self.2 (by simp)]

end Predecessors

namespace Plan

variable {rules : List Rule} {sources logged : List String} {p : Plan} {n : String}

/-! ## Coherent rules -/

/-- A name that is produced waits for a name that was not logged. -/
def WaitsFor (rules : List Rule) (logged : List String) (n d : String) : Prop :=
  ∃ r ∈ rules, n ∈ r.outputs ∧ d ∈ r.namedDependencies ∧ d ∉ logged

/-- Rules that a plan can be made of. -/
structure IsCoherent (rules : List Rule) (logged : List String) : Prop where
  /-- No name is produced twice. -/
  once : (rules.flatMap Rule.outputs).Nodup
  /-- No rule depends on what it produces. -/
  foreign : ∀ r ∈ rules, ∀ d ∈ r.namedDependencies, d ∉ r.outputs
  /-- No rule that works frame by frame depends on what is only produced later. -/
  inTime : ∀ r ∈ rules, r.family.isPerFrame = true → ∀ d ∈ r.namedDependencies, d ∉ logged →
    ∀ q ∈ rules, d ∈ q.outputs → q.family.isPerFrame = true
  /-- No name waits for itself. -/
  acyclic : ∀ n, ¬ Relation.TransGen (WaitsFor rules logged) n n

theorem dependencyFault?_eq_none_iff (hnd : (rules.flatMap Rule.outputs).Nodup) {r : Rule}
    {d : String} : dependencyFault? rules logged r d = none ↔ d ∉ r.outputs ∧
      (d ∉ logged → r.family.isPerFrame = true → ∀ q ∈ rules, d ∈ q.outputs →
        q.family.isPerFrame = true) := by
  unfold dependencyFault?
  by_cases ho : d ∈ r.outputs
  · simp [ho]
  by_cases hl : d ∈ logged
  · simp [ho, hl]
  rcases hp : producerIn rules d with _ | q
  · have hno := producerIn_eq_none_iff.1 hp
    simp only [ho, hl, if_false, true_iff, not_false_eq_true, true_and]
    intro _ _ q hq hdq
    exact absurd hdq (hno q hq)
  · obtain ⟨hq, hdq⟩ := (producerIn_eq_some_iff hnd).1 hp
    have hall : (∀ q ∈ rules, d ∈ q.outputs → q.family.isPerFrame = true) ↔
        q.family.isPerFrame = true := by
      constructor
      · intro h
        exact h q hq hdq
      · intro h q' hq' hdq'
        rwa [eq_of_mem_outputs hnd hq' hq hdq' hdq]
    simp only [ho, hl, if_false, not_false_eq_true, true_and, forall_const, hall]
    rcases hr : r.family.isPerFrame <;> rcases hf : q.family.isPerFrame <;> simp

theorem waits_draw_iff (hnd : (rules.flatMap Rule.outputs).Nodup)
    (hok : ∀ r ∈ rules, ∀ d ∈ r.namedDependencies, dependencyFault? rules logged r d = none)
    {d : String} :
    (draw rules logged).prerequisites.Waits n d ↔ WaitsFor rules logged n d := by
  have hd := describes_draw hnd hok
  unfold Prerequisites.Waits Prerequisites.predecessors WaitsFor
  constructor
  · intro h
    rcases hps : (draw rules logged).prerequisites.predecessors? n with _ | ps
    · rw [hps] at h
      cases h
    · rw [hps] at h
      rcases (hd.nodes n ps).1 hps with ⟨k, hk, hn, rfl⟩ | ⟨-, rfl⟩
      · obtain ⟨r, hr, rfl⟩ := List.mem_map.1 hk
        obtain ⟨hdr, hl⟩ := Predecessors.mem_new_ofDependencies.1 h
        exact ⟨r, hr, hn, hdr, hl⟩
      · cases h
  · rintro ⟨r, hr, hn, hdr, hl⟩
    rw [(hd.nodes n _).2 (.inl ⟨_, List.mem_map_of_mem hr, hn, rfl⟩)]
    exact Predecessors.mem_new_ofDependencies.2 ⟨hdr, hl⟩

theorem findCycle_draw_eq_none_iff (hnd : (rules.flatMap Rule.outputs).Nodup)
    (hok : ∀ r ∈ rules, ∀ d ∈ r.namedDependencies, dependencyFault? rules logged r d = none) :
    (draw rules logged).prerequisites.findCycle = none ↔
      ∀ n, ¬ Relation.TransGen (WaitsFor rules logged) n n := by
  have hrel : (draw rules logged).prerequisites.Waits = WaitsFor rules logged := by
    funext n d
    exact propext (waits_draw_iff hnd hok)
  rw [Prerequisites.findCycle_eq_none_iff, hrel]

/-- **Rules make a plan if and only if they are coherent.** -/
theorem exists_ofRules_iff : (∃ p, ofRules rules logged = .ok p) ↔ IsCoherent rules logged := by
  constructor
  · rintro ⟨p, hp⟩
    obtain ⟨hnd, hok, hcycle, -⟩ := ofRules_eq_ok_iff.1 hp
    have hmet := fun r hr d hd => (dependencyFault?_eq_none_iff hnd).1 (hok r hr d hd)
    refine ⟨hnd, ?_, ?_, (findCycle_draw_eq_none_iff hnd hok).1 hcycle⟩
    · intro r hr d hd
      exact (hmet r hr d hd).1
    · intro r hr hf d hd hl
      exact (hmet r hr d hd).2 hl hf
  · intro h
    have hok : ∀ r ∈ rules, ∀ d ∈ r.namedDependencies,
        dependencyFault? rules logged r d = none := by
      intro r hr d hd
      rw [dependencyFault?_eq_none_iff h.once]
      exact ⟨h.foreign r hr d hd, fun hl hf => h.inTime r hr hf d hd hl⟩
    exact ⟨_, ofRules_eq_ok_iff.2
      ⟨h.once, hok, (findCycle_draw_eq_none_iff h.once hok).2 h.acyclic, rfl⟩⟩

/-! ## The plan of coherent rules -/

/-- The targets of a rule: its outputs, if it works frame by frame. -/
def targetsOf (r : Rule) : List Target :=
  if r.family.isPerFrame then r.outputs.map fun n => ⟨n, r.action, some r⟩ else []

/-- What the plan of some rules holds. -/
structure IsPlanOf (rules : List Rule) (logged : List String) (p : Plan) : Prop where
  rules_eq : p.rules = rules
  /-- The names that wait are the outputs, and the templates that nobody declares. -/
  nodes : ∀ n, n ∈ p.prerequisites.nodes.keys ↔
    (∃ r ∈ rules, n ∈ r.outputs) ∨ n ∈ p.autoRegistered
  /-- An output waits for the dependencies of its rule, each once. -/
  outputs : ∀ r ∈ rules, ∀ n ∈ r.outputs, p.prerequisites.predecessors? n =
    some ⟨(r.namedDependencies.filter (· ∈ logged)).eraseDups,
      (r.namedDependencies.filter (· ∉ logged)).eraseDups⟩
  autoRegistered : ∀ n, n ∈ p.autoRegistered ↔ n ∉ logged ∧ (∀ q ∈ rules, n ∉ q.outputs) ∧
    ∃ r ∈ rules, r.family.isPerFrame = true ∧ n ∈ r.namedDependencies
  unconstrained : ∀ n ∈ p.autoRegistered, p.prerequisites.predecessors? n = some ⟨[], []⟩
  templates : ∀ n, n ∈ p.templates ↔ n ∈ p.autoRegistered ∨
    ∃ r ∈ rules, r.action = .matchTemplate ∧ n ∈ r.operands
  nodup_templates : p.templates.Nodup
  nodup_autoRegistered : p.autoRegistered.Nodup
  /-- The templates that nobody declares come first, in the order of the templates. -/
  targets : p.targets = (p.templates.filter (· ∈ p.autoRegistered)).map (⟨·, .matchTemplate, none⟩)
    ++ rules.flatMap targetsOf
  nodup_targets : (p.targets.map (·.name)).Nodup

namespace IsCompiled

variable (h : IsCompiled logged p)
include h

theorem mem_autoRegistered : n ∈ p.autoRegistered ↔ Wanted p.rules logged n := by
  rw [← h.isAutoRegistered_iff]
  exact NameMap.mem_keys_iff

theorem ofRule_eq {r : Rule} (hr : r ∈ p.rules) : Target.ofRule r = targetsOf r := by
  unfold Target.ofRule targetsOf
  rcases hf : r.family.isPerFrame
  · simp
  · by_cases ha : r.action = .template
    · simp [ha, Rule.outputs]
    · simp [ha, (h.sound r hr).outputs_eq hf ha]

theorem targets_eq : p.targets =
    (p.templates.filter (· ∈ p.autoRegistered)).map (⟨·, .matchTemplate, none⟩)
      ++ p.rules.flatMap targetsOf := by
  have hauto : p.templates.filter p.isAutoRegistered =
      p.templates.filter (· ∈ p.autoRegistered) := by
    refine List.filter_congr fun n _ => ?_
    rw [Bool.eq_iff_iff, h.isAutoRegistered_iff, decide_eq_true_iff, h.mem_autoRegistered]
  have hrules : p.rules.flatMap Target.ofRule = p.rules.flatMap targetsOf := by
    rw [List.flatMap_def, List.flatMap_def, List.map_congr_left fun r hr => h.ofRule_eq hr]
  rw [Plan.targets, hauto, hrules]
  rfl

theorem mem_keys_iff : n ∈ p.prerequisites.nodes.keys ↔
    (∃ r ∈ p.rules, n ∈ r.outputs) ∨ n ∈ p.autoRegistered := by
  rw [h.mem_autoRegistered]
  constructor
  · intro hn
    obtain ⟨⟨n, ps⟩, he, rfl⟩ := List.mem_map.1 hn
    rcases (h.nodes n ps).1 (NameMap.mem_entries_iff.1 he) with ⟨r, hr, hn, -⟩ | ⟨hw, -⟩
    · exact .inl ⟨r, hr, hn⟩
    · exact .inr hw
  · rintro (⟨r, hr, hn⟩ | hw)
    · exact List.mem_map_of_mem (NameMap.mem_entries_iff.2
        ((h.nodes n _).2 (.inl ⟨r, hr, hn, rfl⟩)))
    · exact List.mem_map_of_mem (NameMap.mem_entries_iff.2 ((h.nodes n _).2 (.inr ⟨hw, rfl⟩)))

theorem isPlanOf : IsPlanOf p.rules logged p where
  rules_eq := rfl
  nodes n := h.mem_keys_iff
  outputs r hr n hn := by
    rw [(h.nodes n _).2 (.inl ⟨r, hr, hn, rfl⟩), Predecessors.ofDependencies,
      Predecessors.foldl_addName_nil, Predecessors.foldl_addName_nil]
  autoRegistered n := by
    rw [h.mem_autoRegistered, Wanted]
    exact and_left_comm
  unconstrained n hn := (h.nodes n _).2 (.inr ⟨h.mem_autoRegistered.1 hn, rfl⟩)
  templates n := by
    rw [h.mem_autoRegistered]
    exact h.templates n
  nodup_templates := h.nodup_templates
  nodup_autoRegistered := p.auto.nodup_keys
  targets := h.targets_eq
  nodup_targets := h.nodup_names

end IsCompiled

/-! ## Texts -/

theorem mapM_read_eq_ok_iff_map : ∀ {sources : List String} {rules : List Rule},
    sources.mapM Rule.read = .ok rules ↔ sources.map Rule.read = rules.map .ok := by
  intro sources
  induction sources with
  | nil => intro rules; cases rules <;> simp [pure, Except.pure]
  | cons s ss ih =>
    intro rules
    rw [List.mapM_cons, List.map_cons]
    rcases hs : Rule.read s with f | r
    · cases rules <;> simp [bind, Except.bind]
    · rcases hss : ss.mapM Rule.read with f | rs
      · have hno : ∀ rs : List Rule, ss.map Rule.read ≠ rs.map .ok := by
          intro rs hrs
          rw [ih.2 hrs] at hss
          cases hss
        cases rules <;> simp [bind, Except.bind, hno]
      · cases rules with
        | nil => simp [bind, Except.bind, pure, Except.pure]
        | cons r' rs' =>
          have := @ih rs'
          rw [hss] at this
          simpa [bind, Except.bind, pure, Except.pure] using and_congr_right fun _ => this

/-- Every rule of a plan was read from one of the texts. -/
theorem exists_read_of_compile {r : Rule} (h : compile sources logged = .ok p)
    (hr : r ∈ p.rules) : ∃ source ∈ sources, Rule.read source = .ok r := by
  obtain ⟨rules, hread, hrules⟩ := compile_eq_ok_iff.1 h
  rw [(resolved_of_ofRules hrules).rules_eq] at hr
  have hmem : .ok r ∈ sources.map Rule.read := by
    rw [mapM_read_eq_ok_iff_map.1 hread]
    exact List.mem_map_of_mem hr
  exact List.mem_map.1 hmem

/-- **Which texts make a plan, and which plan they make.** -/
theorem compile_eq_ok_iff_isCoherent (sources logged : List String) :
    ((∃ p, compile sources logged = .ok p) ↔
      ∃ rules, sources.map Rule.read = rules.map .ok ∧ IsCoherent rules logged) ∧
    ∀ p, compile sources logged = .ok p →
      ∃ rules, sources.map Rule.read = rules.map .ok ∧ IsPlanOf rules logged p := by
  constructor
  · simp only [compile_eq_ok_iff, ← exists_ofRules_iff, ← mapM_read_eq_ok_iff_map]
    constructor
    · rintro ⟨p, rules, hread, hp⟩
      exact ⟨rules, hread, p, hp⟩
    · rintro ⟨rules, hread, p, hp⟩
      exact ⟨p, rules, hread, hp⟩
  · intro p hp
    obtain ⟨rules, hread, hr⟩ := compile_eq_ok_iff.1 hp
    have hrules : p.rules = rules := (resolved_of_ofRules hr).rules_eq
    exact ⟨rules, mapM_read_eq_ok_iff_map.1 hread, hrules ▸ (isCompiled_of_compile hp).isPlanOf⟩

end Plan

end Screenmark
