/-
  Screenmark — what a plan holds.

  The second pass over rules resolves one dependency after the other and stops at
  the first that cannot be met. Here its result is said without the order of the
  work:

  * whether a dependency can be met does not hang on the plan so far
    (`resolveDependency_eq`), so the pass is a check of all rules and a plan that
    is drawn up without failing (`ofRules_eq_ok_iff`);
  * `Describes` says which names a plan knows, what each of them waits for, and
    which templates it looks for, in terms of the rules alone
    (`describes_draw`).
-/
import Screenmark.Plan.Basic

namespace Screenmark

/-! ## Lists of names -/

namespace Predecessors

theorem mem_addName {ns : List String} {n m : String} : m ∈ addName ns n ↔ m ∈ ns ∨ m = n := by
  unfold addName
  split
  · next h => exact ⟨Or.inl, fun hm => hm.elim id fun he => he ▸ h⟩
  · simp

theorem nodup_addName {ns : List String} {n : String} (h : ns.Nodup) : (addName ns n).Nodup := by
  unfold addName
  split
  · exact h
  · next hn =>
    refine List.nodup_append.2 ⟨h, by simp, fun a ha b hb hab => hn ?_⟩
    rw [List.mem_singleton] at hb
    rwa [← hb, ← hab]

/-- A name is added once. -/
theorem addName_addName (ns : List String) (n : String) :
    addName (addName ns n) n = addName ns n := by
  rw [addName, if_pos (mem_addName.2 (Or.inr rfl))]

theorem mem_foldl_addName {ms : List String} {n : String} : ∀ {ns : List String},
    n ∈ ms.foldl addName ns ↔ n ∈ ns ∨ n ∈ ms := by
  induction ms with
  | nil => simp
  | cons m ms ih =>
    intro ns
    rw [List.foldl_cons, ih, mem_addName, List.mem_cons, or_assoc]

theorem nodup_foldl_addName {ms : List String} : ∀ {ns : List String}, ns.Nodup →
    (ms.foldl addName ns).Nodup := by
  induction ms with
  | nil => exact id
  | cons m ms ih => exact fun h => ih (nodup_addName h)

/-- What something with the given dependencies waits for: each dependency once, in
    the order of the first mention, sorted by whether it was logged. -/
def ofDependencies (logged ds : List String) : Predecessors where
  logged := (ds.filter (· ∈ logged)).foldl addName []
  new := (ds.filter (· ∉ logged)).foldl addName []

theorem mem_logged_ofDependencies {logged ds : List String} {n : String} :
    n ∈ (ofDependencies logged ds).logged ↔ n ∈ ds ∧ n ∈ logged := by
  simp [ofDependencies, mem_foldl_addName]

theorem mem_new_ofDependencies {logged ds : List String} {n : String} :
    n ∈ (ofDependencies logged ds).new ↔ n ∈ ds ∧ n ∉ logged := by
  simp [ofDependencies, mem_foldl_addName]

theorem ofDependencies_append_logged {logged ds : List String} {d : String} (h : d ∈ logged) :
    ofDependencies logged (ds ++ [d]) =
      { ofDependencies logged ds with logged := addName (ofDependencies logged ds).logged d } := by
  simp [ofDependencies, h]

theorem ofDependencies_append_new {logged ds : List String} {d : String} (h : d ∉ logged) :
    ofDependencies logged (ds ++ [d]) =
      { ofDependencies logged ds with new := addName (ofDependencies logged ds).new d } := by
  simp [ofDependencies, h]

end Predecessors

/-! ## Changes of many names -/

namespace Prerequisites

/-- The prerequisites with what one name waits for changed by `u`. -/
def update (u : Predecessors → Predecessors) (g : Prerequisites) (n : String) : Prerequisites :=
  ⟨g.nodes.insert n (u (g.predecessors n))⟩

theorem predecessors?_update (u : Predecessors → Predecessors) (g : Prerequisites)
    (n m : String) :
    (update u g n).predecessors? m =
      if n = m then some (u (g.predecessors n)) else g.predecessors? m :=
  g.nodes.find?_insert n m _

theorem predecessors_update (u : Predecessors → Predecessors) (g : Prerequisites) (n m : String) :
    (update u g n).predecessors m = if n = m then u (g.predecessors n) else g.predecessors m := by
  rw [predecessors, predecessors?_update]
  split <;> rfl

/-- What a name waits for, after a change of the names `ns` that is the same when
    it is made twice. -/
theorem predecessors?_foldl_update {u : Predecessors → Predecessors}
    (hu : ∀ ps, u (u ps) = u ps) (m : String) : ∀ (ns : List String) (g : Prerequisites),
    (ns.foldl (update u) g).predecessors? m =
      if m ∈ ns then some (u (g.predecessors m)) else g.predecessors? m := by
  intro ns
  induction ns with
  | nil => intro g; simp
  | cons n ns ih =>
    intro g
    rw [List.foldl_cons, ih, predecessors_update, predecessors?_update]
    by_cases hmn : n = m
    · subst hmn
      by_cases hm : n ∈ ns <;> simp [hm, hu]
    · have hnm : ¬ m = n := fun h => hmn h.symm
      by_cases hm : m ∈ ns <;> simp [hm, hmn, hnm]

theorem predecessors?_addNode (g : Prerequisites) (n m : String) :
    (g.addNode n).predecessors? m =
      if n = m then some (g.predecessors n) else g.predecessors? m :=
  predecessors?_update id g n m

theorem predecessors?_addNodes (ns : List String) (g : Prerequisites) (m : String) :
    (ns.foldl addNode g).predecessors? m =
      if m ∈ ns then some (g.predecessors m) else g.predecessors? m :=
  predecessors?_foldl_update (u := id) (fun _ => rfl) m ns g

theorem predecessors?_addLogged (ns : List String) (d : String) (g : Prerequisites) (m : String) :
    (ns.foldl (fun g n => g.addLogged n d) g).predecessors? m =
      if m ∈ ns then
        some { g.predecessors m with
          logged := Predecessors.addName (g.predecessors m).logged d }
      else g.predecessors? m :=
  predecessors?_foldl_update
    (u := fun ps => { ps with logged := Predecessors.addName ps.logged d })
    (fun ps => by simp only [Predecessors.addName_addName]) m ns g

theorem predecessors?_addNew (ns : List String) (d : String) (g : Prerequisites) (m : String) :
    (ns.foldl (fun g n => g.addNew n d) g).predecessors? m =
      if m ∈ ns then
        some { g.predecessors m with new := Predecessors.addName (g.predecessors m).new d }
      else g.predecessors? m :=
  predecessors?_foldl_update (u := fun ps => { ps with new := Predecessors.addName ps.new d })
    (fun ps => by simp only [Predecessors.addName_addName]) m ns g

end Prerequisites

namespace Plan

/-! ## Names that are produced -/

theorem findDuplicate_go_eq_ok_iff {r : Rule} {q ns : List String} : ∀ {produced : List String},
    findDuplicate.go r produced ns = .ok q ↔
      ns.Nodup ∧ (∀ n ∈ ns, n ∉ produced) ∧ q = ns.reverse ++ produced := by
  induction ns with
  | nil => intro produced; simp [findDuplicate.go, eq_comm]
  | cons n ns ih =>
    intro produced
    rw [findDuplicate.go]
    split
    · next h => simp [h]
    · next h =>
      rw [ih, List.nodup_cons]
      simp only [List.mem_cons, not_or, List.reverse_cons, List.append_assoc, List.singleton_append,
        forall_eq_or_imp]
      constructor
      · rintro ⟨hnd, hn, hq⟩
        exact ⟨⟨fun hmem => (hn n hmem).1 rfl, hnd⟩, ⟨h, fun m hm => (hn m hm).2⟩, hq⟩
      · rintro ⟨⟨hmem, hnd⟩, ⟨-, hn⟩, hq⟩
        exact ⟨hnd, fun m hm => ⟨fun he => hmem (he ▸ hm), hn m hm⟩, hq⟩

theorem findDuplicate_eq_none_iff_of {rules : List Rule} : ∀ {produced : List String},
    findDuplicate produced rules = none ↔
      (rules.flatMap Rule.outputs).Nodup ∧ ∀ n ∈ rules.flatMap Rule.outputs, n ∉ produced := by
  induction rules with
  | nil => intro produced; simp [findDuplicate]
  | cons r rs ih =>
    intro produced
    rw [findDuplicate, List.flatMap_cons, List.nodup_append]
    split
    · next n h =>
      have hno : ¬ ∃ q, findDuplicate.go r produced r.outputs = .ok q := by simp [h]
      simp only [findDuplicate_go_eq_ok_iff, exists_and_left, exists_eq, and_true] at hno
      simp only [reduceCtorEq, List.mem_append, false_iff]
      rintro ⟨⟨hr, -, -⟩, hn⟩
      exact hno ⟨hr, fun m hm => hn m (Or.inl hm)⟩
    · next q h =>
      obtain ⟨hr, hn, rfl⟩ := findDuplicate_go_eq_ok_iff.1 h
      rw [ih]
      simp only [List.mem_append, List.mem_reverse, not_or]
      constructor
      · rintro ⟨hrs, hm⟩
        exact ⟨⟨hr, hrs, fun a ha b hb hab => (hm b hb).1 (hab ▸ ha)⟩,
          fun m hm' => hm'.elim (hn m) fun h' => (hm m h').2⟩
      · rintro ⟨⟨-, hrs, hd⟩, hm⟩
        exact ⟨hrs, fun m hm' => ⟨fun h' => hd m h' m hm' rfl, hm m (Or.inr hm')⟩⟩

/-- There is no duplicate when no name is produced twice. -/
theorem findDuplicate_eq_none_iff {rules : List Rule} :
    findDuplicate [] rules = none ↔ (rules.flatMap Rule.outputs).Nodup := by
  simp [findDuplicate_eq_none_iff_of]

/-- A name is produced by one rule. -/
theorem eq_of_mem_outputs {rules : List Rule} (h : (rules.flatMap Rule.outputs).Nodup)
    {q r : Rule} (hq : q ∈ rules) (hr : r ∈ rules) {n : String} (hnq : n ∈ q.outputs)
    (hnr : n ∈ r.outputs) : q = r := by
  induction rules with
  | nil => simp at hq
  | cons s rs ih =>
    rw [List.flatMap_cons, List.nodup_append] at h
    obtain ⟨-, hrs, hd⟩ := h
    have out : ∀ {t : Rule}, t ∈ rs → n ∈ t.outputs → n ∈ rs.flatMap Rule.outputs :=
      fun ht hn => List.mem_flatMap.2 ⟨_, ht, hn⟩
    rcases List.mem_cons.1 hq with rfl | hq' <;> rcases List.mem_cons.1 hr with rfl | hr'
    · rfl
    · exact absurd rfl (hd n hnq n (out hr' hnr))
    · exact absurd rfl (hd n hnr n (out hq' hnq))
    · exact ih hrs hq' hr'

/-- A name is produced once in every family. -/
theorem nodup_outputs_ofFamily {p : Plan} (h : (p.rules.flatMap Rule.outputs).Nodup) (f : Family) :
    ((p.ofFamily f).flatMap Rule.outputs).Nodup := by
  obtain ⟨heach, hpairs⟩ := List.pairwise_flatMap.1 h
  exact List.pairwise_flatMap.2 ⟨fun r hr => heach r (List.mem_filter.1 hr).1, hpairs.filter _⟩

theorem producerIn_eq_none_iff {rules : List Rule} {n : String} :
    producerIn rules n = none ↔ ∀ q ∈ rules, n ∉ q.outputs := by
  simp [producerIn]

theorem producerIn_eq_some_iff {rules : List Rule} (h : (rules.flatMap Rule.outputs).Nodup)
    {n : String} {q : Rule} : producerIn rules n = some q ↔ q ∈ rules ∧ n ∈ q.outputs := by
  have found : ∀ {s}, producerIn rules n = some s → s ∈ rules ∧ n ∈ s.outputs := fun hs =>
    ⟨List.mem_of_find?_eq_some hs, by simpa using List.find?_some hs⟩
  refine ⟨found, fun ⟨hq, hn⟩ => ?_⟩
  rcases hs : producerIn rules n with _ | s
  · exact absurd hn (producerIn_eq_none_iff.1 hs q hq)
  · rw [eq_of_mem_outputs h hq (found hs).1 hn (found hs).2]

/-! ## Checking and drawing up -/

theorem exists_of_isSome_toOption {α ε : Type} {x : Except ε α} (h : x.toOption.isSome = true) :
    ∃ a, x = .ok a := by
  cases x with
  | error e => cases h
  | ok a => exact ⟨a, rfl⟩

theorem exists_of_any_toOption {α ε : Type} {x : Except ε α} {P : α → Bool}
    (h : x.toOption.any P = true) : ∃ a, x = .ok a ∧ P a = true := by
  cases x with
  | error e => cases h
  | ok a => exact ⟨a, rfl, h⟩

/-- A result, unless there is a fault. -/
def unlessFault {α ε : Type} : Option ε → α → Except ε α
  | some e, _ => .error e
  | none, a => .ok a

/-- A fold that checks each element without regard to the state, and then goes on. -/
theorem foldlM_of_check {α β ε : Type} {f : α → β → Except ε α} {check : β → Option ε}
    {next : α → β → α} (h : ∀ a b, f a b = unlessFault (check b) (next a b)) :
    ∀ (l : List β) (a : α), l.foldlM f a = unlessFault (l.findSome? check) (l.foldl next a) := by
  intro l
  induction l with
  | nil => intro a; rfl
  | cons b l ih =>
    intro a
    rw [List.foldlM_cons, h, List.findSome?_cons]
    rcases check b with _ | e
    · exact ih _
    · rfl

/-- Why a dependency of a rule cannot be met, if it cannot. -/
def dependencyFault? (rules : List Rule) (logged : List String) (r : Rule) (d : String) :
    Option RuleFault :=
  if d ∈ r.outputs then some (.dependency r.source d .ownOutput)
  else if d ∈ logged then none
  else match producerIn rules d with
    | some producer =>
      if r.family.isPerFrame && !producer.family.isPerFrame then
        some (.dependency r.source d (.producedLater producer.family))
      else none
    | none => none

/-- Why a rule cannot be resolved, if it cannot. -/
def ruleFault? (rules : List Rule) (logged : List String) (r : Rule) : Option RuleFault :=
  r.namedDependencies.findSome? (dependencyFault? rules logged r)

/-- The plan with a dependency of a rule that can be met. -/
def meet (rules : List Rule) (logged : List String) (r : Rule) (p : Plan) (d : String) : Plan :=
  if d ∈ logged then p.waitForLogged r.outputs d
  else if r.family.isPerFrame = true ∧ producerIn rules d = none then
    (p.register d).waitForNew r.outputs d
  else p.waitForNew r.outputs d

/-- The plan in which the outputs of a rule are known. -/
def know (p : Plan) (r : Rule) : Plan :=
  { p with prerequisites := r.outputs.foldl Prerequisites.addNode p.prerequisites }

/-- The plan with one rule that can be resolved. -/
def settle (rules : List Rule) (logged : List String) (p : Plan) (r : Rule) : Plan :=
  (r.namedDependencies.foldl (meet rules logged r) (p.know r)).declare r

/-- The plan that is drawn up from rules, all of which can be resolved. -/
def draw (rules : List Rule) (logged : List String) : Plan :=
  rules.foldl (settle rules logged) empty

theorem resolveDependency_eq (rules : List Rule) (logged : List String) (r : Rule) (p : Plan)
    (d : String) :
    resolveDependency rules logged r p d =
      unlessFault (dependencyFault? rules logged r d) (meet rules logged r p d) := by
  unfold resolveDependency dependencyFault? meet
  by_cases ho : d ∈ r.outputs
  · simp [ho, unlessFault]
  by_cases hl : d ∈ logged
  · simp [ho, hl, unlessFault]
  rcases hp : producerIn rules d with _ | q
  · rcases hf : r.family.isPerFrame <;> simp [ho, hl, unlessFault]
  · rcases hf : r.family.isPerFrame <;> rcases hq : q.family.isPerFrame <;>
      simp [ho, hl, hq, unlessFault]

theorem resolveRule_eq (rules : List Rule) (logged : List String) (p : Plan) (r : Rule) :
    resolveRule rules logged p r =
      unlessFault (ruleFault? rules logged r) (settle rules logged p r) := by
  simp only [resolveRule]
  rw [foldlM_of_check (resolveDependency_eq rules logged r)]
  unfold ruleFault? settle know
  rcases r.namedDependencies.findSome? (dependencyFault? rules logged r) with _ | f <;> rfl

theorem findSome?_ruleFault?_eq_none_iff {rules rs : List Rule} {logged : List String} :
    rs.findSome? (ruleFault? rules logged) = none ↔
      ∀ r ∈ rs, ∀ d ∈ r.namedDependencies, dependencyFault? rules logged r d = none := by
  simp [List.findSome?_eq_none_iff, ruleFault?]

/-- **Making a plan is checking all rules and drawing it up.** -/
theorem ofRules_eq_ok_iff {rules : List Rule} {logged : List String} {p : Plan} :
    ofRules rules logged = .ok p ↔
      (rules.flatMap Rule.outputs).Nodup ∧
      (∀ r ∈ rules, ∀ d ∈ r.namedDependencies, dependencyFault? rules logged r d = none) ∧
      (draw rules logged).prerequisites.findCycle = none ∧
      p = { draw rules logged with
        rules := rules
        auto := undeclared (draw rules logged).auto rules } := by
  unfold ofRules
  rw [← findDuplicate_eq_none_iff, ← findSome?_ruleFault?_eq_none_iff]
  rcases findDuplicate [] rules with _ | ⟨r, n⟩
  · simp only [true_and]
    rw [foldlM_of_check (resolveRule_eq rules logged)]
    rcases rules.findSome? (ruleFault? rules logged) with _ | f
    · have hdraw : rules.foldl (settle rules logged) empty = draw rules logged := rfl
      simp only [true_and, unlessFault, hdraw]
      rcases (draw rules logged).prerequisites.findCycle with _ | path
      · simp [eq_comm]
      · simp
    · simp [unlessFault]
  · simp

/-! ## What is drawn up -/

/-- A name that some rule working frame by frame asks for, among the dependencies
    dealt with so far, and that is neither logged nor produced. -/
def Undeclared (rules : List Rule) (logged : List String) (known : List (Rule × List String))
    (n : String) : Prop :=
  (∀ q ∈ rules, n ∉ q.outputs) ∧ n ∉ logged ∧
    ∃ k ∈ known, k.1.family.isPerFrame = true ∧ n ∈ k.2

/-- A template that one of the rules looks for itself. -/
def Declared (rules : List Rule) (n : String) : Prop :=
  ∃ r ∈ rules, r.action = .matchTemplate ∧ n ∈ r.operands

theorem mem_outputs_of_declared {rules : List Rule} {n : String} (h : Declared rules n) :
    ∃ r ∈ rules, n ∈ r.outputs := by
  obtain ⟨r, hr, ha, hn⟩ := h
  exact ⟨r, hr, by rwa [Rule.outputs, ha]⟩

/-- What a plan holds when the rules in `known` were dealt with, each as far as the
    dependencies beside it, and the templates of `declaring` were declared. -/
structure Describes (rules : List Rule) (logged : List String)
    (known : List (Rule × List String)) (declaring : List Rule) (p : Plan) : Prop where
  known_mem : ∀ k ∈ known, k.1 ∈ rules
  declaring_mem : ∀ q ∈ declaring, q ∈ rules
  nodes : ∀ n ps, p.prerequisites.predecessors? n = some ps ↔
    (∃ k ∈ known, n ∈ k.1.outputs ∧ ps = .ofDependencies logged k.2) ∨
      (Undeclared rules logged known n ∧ ps = .none)
  templates : ∀ n, n ∈ p.templates ↔ Undeclared rules logged known n ∨ Declared declaring n
  auto : ∀ n, p.auto.contains n = true ↔ Undeclared rules logged known n
  nodup : p.templates.Nodup

section
variable {rules : List Rule} {logged : List String} {known : List (Rule × List String)}
  {declaring : List Rule} {r : Rule} {p : Plan} {ds : List String} {d n : String}

theorem undeclared_append_nil :
    Undeclared rules logged (known ++ [(r, [])]) n ↔ Undeclared rules logged known n := by
  simp [Undeclared]

/-- Whether a dependency of a rule is one that has to be looked for as a template. -/
def IsSought (rules : List Rule) (logged : List String) (r : Rule) (d : String) : Prop :=
  (∀ q ∈ rules, d ∉ q.outputs) ∧ d ∉ logged ∧ r.family.isPerFrame = true

theorem isSought_iff : IsSought rules logged r d ↔
    d ∉ logged ∧ r.family.isPerFrame = true ∧ producerIn rules d = none := by
  rw [IsSought, producerIn_eq_none_iff]
  exact ⟨fun ⟨h1, h2, h3⟩ => ⟨h2, h3, h1⟩, fun ⟨h2, h3, h1⟩ => ⟨h1, h2, h3⟩⟩

theorem undeclared_append_concat :
    Undeclared rules logged (known ++ [(r, ds ++ [d])]) n ↔
      Undeclared rules logged (known ++ [(r, ds)]) n ∨ (n = d ∧ IsSought rules logged r d) := by
  simp only [Undeclared, IsSought, List.mem_append, List.mem_singleton]
  constructor
  · rintro ⟨ho, hl, k, hk | rfl, hf, hn⟩
    · exact Or.inl ⟨ho, hl, k, Or.inl hk, hf, hn⟩
    · rcases List.mem_append.1 hn with hn | hn
      · exact Or.inl ⟨ho, hl, _, Or.inr rfl, hf, hn⟩
      · obtain rfl := List.mem_singleton.1 hn
        exact Or.inr ⟨rfl, ho, hl, hf⟩
  · rintro (⟨ho, hl, k, hk | rfl, hf, hn⟩ | ⟨rfl, ho, hl, hf⟩)
    · exact ⟨ho, hl, k, Or.inl hk, hf, hn⟩
    · exact ⟨ho, hl, _, Or.inr rfl, hf, List.mem_append_left _ hn⟩
    · exact ⟨ho, hl, _, Or.inr rfl, hf, by simp⟩

theorem predecessors?_register :
    (p.register d).prerequisites.predecessors? n =
      if d ∉ p.templates ∧ d = n then some (p.prerequisites.predecessors d)
      else p.prerequisites.predecessors? n := by
  unfold register
  by_cases hd : d ∈ p.templates
  · simp [hd]
  · simp [hd, Prerequisites.predecessors?_addNode]

theorem mem_templates_register : n ∈ (p.register d).templates ↔ n ∈ p.templates ∨ n = d := by
  unfold register
  split
  · next h => exact ⟨Or.inl, fun hn => hn.elim id fun he => he ▸ h⟩
  · simp

theorem nodup_templates_register (h : p.templates.Nodup) : (p.register d).templates.Nodup := by
  unfold register
  split
  · exact h
  · next hd =>
    refine List.nodup_append.2 ⟨h, by simp, fun a ha b hb hab => hd ?_⟩
    rw [List.mem_singleton] at hb
    rwa [← hb, ← hab]

theorem contains_auto_register : (p.register d).auto.contains n = true ↔
    p.auto.contains n = true ∨ (n = d ∧ d ∉ p.templates) := by
  unfold register
  split
  · next h => simp [h]
  · next h =>
    simp only [NameMap.contains, NameMap.find?_insert, h, not_false_eq_true, and_true]
    by_cases hd : d = n
    · simp [hd]
    · simp [hd, Ne.symm hd]

theorem contains_auto_meet : (meet rules logged r p d).auto.contains n = true ↔
    p.auto.contains n = true ∨ (n = d ∧ d ∉ p.templates ∧ IsSought rules logged r d) := by
  unfold meet
  split
  · next hl =>
    have hs : ¬ IsSought rules logged r d := fun hs => hs.2.1 hl
    simp [waitForLogged, hs]
  · next hl =>
    split
    · next hf =>
      have hs : IsSought rules logged r d := isSought_iff.2 ⟨hl, hf⟩
      simp [waitForNew, contains_auto_register, hs]
    · next hf =>
      have hs : ¬ IsSought rules logged r d := fun hs => hf (isSought_iff.1 hs).2
      simp [waitForNew, hs]

theorem mem_templates_meet :
    n ∈ (meet rules logged r p d).templates ↔
      n ∈ p.templates ∨ (n = d ∧ IsSought rules logged r d) := by
  unfold meet
  split
  · next hl =>
    have hs : ¬ IsSought rules logged r d := fun hs => hs.2.1 hl
    simp [waitForLogged, hs]
  · next hl =>
    split
    · next hf =>
      have hs : IsSought rules logged r d := isSought_iff.2 ⟨hl, hf⟩
      simp [waitForNew, mem_templates_register, hs]
    · next hf =>
      have hs : ¬ IsSought rules logged r d := fun hs => hf (isSought_iff.1 hs).2
      simp [waitForNew, hs]

theorem nodup_templates_meet (h : p.templates.Nodup) :
    (meet rules logged r p d).templates.Nodup := by
  unfold meet
  split
  · exact h
  · split
    · exact nodup_templates_register h
    · exact h

theorem mem_templates_declare :
    n ∈ (p.declare r).templates ↔ n ∈ p.templates ∨ Declared [r] n := by
  unfold declare
  split
  · next ha => simp [Predecessors.mem_foldl_addName, Declared, ha]
  · next ha => simp [Declared, ha]

theorem nodup_templates_declare (h : p.templates.Nodup) : (p.declare r).templates.Nodup := by
  unfold declare
  split
  · exact Predecessors.nodup_foldl_addName h
  · exact h

theorem prerequisites_declare : (p.declare r).prerequisites = p.prerequisites := by
  unfold declare
  split <;> rfl

theorem auto_declare : (p.declare r).auto = p.auto := by
  unfold declare
  split <;> rfl

theorem contains_foldl_erase {m : NameMap Unit} : ∀ {ns : List String},
    (ns.foldl NameMap.erase m).contains n = true ↔ m.contains n = true ∧ n ∉ ns := by
  intro ns
  induction ns generalizing m with
  | nil => simp
  | cons k ns ih =>
    rw [List.foldl_cons, ih, List.mem_cons, not_or, ← and_assoc]
    refine and_congr_left fun _ => ?_
    simp only [NameMap.contains, NameMap.find?_erase]
    by_cases hk : k = n
    · simp [hk]
    · simp [hk, Ne.symm hk]

theorem contains_undeclared {m : NameMap Unit} {rs : List Rule} :
    (undeclared m rs).contains n = true ↔ m.contains n = true ∧ ¬ Declared rs n := by
  unfold undeclared
  induction rs generalizing m with
  | nil => simp [Declared]
  | cons r rs ih =>
    rw [List.filter_cons]
    split
    · next ha =>
      rw [List.foldl_cons, ih, contains_foldl_erase]
      have hr : r.action = .matchTemplate := by simpa using ha
      simp [Declared, hr, and_assoc]
    · next ha =>
      rw [ih]
      have hr : r.action ≠ .matchTemplate := by simpa using ha
      simp [Declared, hr]

theorem declared_append :
    Declared (declaring ++ [r]) n ↔ Declared declaring n ∨ Declared [r] n := by
  simp [Declared, or_and_right, exists_or]

namespace Describes

theorem none_of_produced (h : Describes rules logged known declaring p) (hr : r ∈ rules)
    (hfresh : ∀ k ∈ known, n ∉ k.1.outputs) (hn : n ∈ r.outputs) :
    p.prerequisites.predecessors? n = none := by
  rcases hps : p.prerequisites.predecessors? n with _ | ps
  · rfl
  · rcases (h.nodes n ps).1 hps with ⟨k, hk, hkn, -⟩ | ⟨hu, -⟩
    · exact absurd hkn (hfresh k hk)
    · exact absurd hn (hu.1 r hr)

/-- The outputs of the next rule are known, and do not wait for anything yet. -/
theorem know (h : Describes rules logged known declaring p) (hr : r ∈ rules)
    (hfresh : ∀ n ∈ r.outputs, ∀ k ∈ known, n ∉ k.1.outputs) :
    Describes rules logged (known ++ [(r, [])]) declaring (p.know r) := by
  refine ⟨fun k hk => ?_, h.declaring_mem, fun n ps => ?_, fun n => ?_, fun n => ?_, h.nodup⟩
  · rcases List.mem_append.1 hk with hk | hk
    · exact h.known_mem k hk
    · rwa [List.mem_singleton.1 hk]
  · rw [undeclared_append_nil]
    change (r.outputs.foldl Prerequisites.addNode p.prerequisites).predecessors? n = _ ↔ _
    rw [Prerequisites.predecessors?_addNodes]
    split
    · next hn =>
      have hnone := h.none_of_produced hr (hfresh n hn) hn
      have hu : ¬ Undeclared rules logged known n := fun hu => hu.1 r hr hn
      simp only [Prerequisites.predecessors, hnone, Option.getD_none, Option.some.injEq, hu,
        false_and, or_false]
      constructor
      · rintro rfl
        exact ⟨(r, []), by simp, hn, rfl⟩
      · rintro ⟨k, hk, hkn, rfl⟩
        rcases List.mem_append.1 hk with hk | hk
        · exact absurd hkn (hfresh n hn k hk)
        · obtain rfl := List.mem_singleton.1 hk
          rfl
    · next hn =>
      rw [h.nodes]
      simp only [List.mem_append, List.mem_singleton, or_and_right, exists_or, exists_eq_left, hn,
        false_and, or_false]
  · rw [undeclared_append_nil]
    exact h.templates n
  · rw [undeclared_append_nil]
    exact h.auto n

/-- What the outputs of a rule wait for, when one of its dependencies more is met. -/
theorem meet_output (h : Describes rules logged (known ++ [(r, ds)]) declaring p)
    (hd : d ∉ r.outputs) (hn : n ∈ r.outputs) :
    (meet rules logged r p d).prerequisites.predecessors? n =
      some (.ofDependencies logged (ds ++ [d])) := by
  have hps : p.prerequisites.predecessors? n = some (.ofDependencies logged ds) :=
    (h.nodes n _).2 (Or.inl ⟨(r, ds), by simp, hn, rfl⟩)
  have hdn : d ≠ n := fun he => hd (he ▸ hn)
  unfold meet
  split
  · next hl =>
    rw [Predecessors.ofDependencies_append_logged hl]
    refine (Prerequisites.predecessors?_addLogged r.outputs d p.prerequisites n).trans ?_
    simp [hn, Prerequisites.predecessors, hps]
  · next hl =>
    rw [Predecessors.ofDependencies_append_new hl]
    split
    · refine (Prerequisites.predecessors?_addNew r.outputs d _ n).trans ?_
      simp [hn, Prerequisites.predecessors, predecessors?_register, hdn, hps]
    · refine (Prerequisites.predecessors?_addNew r.outputs d p.prerequisites n).trans ?_
      simp [hn, Prerequisites.predecessors, hps]

/-- A template that is sought and known already was sought before. -/
theorem undeclared_of_sought (h : Describes rules logged known declaring p)
    (hs : IsSought rules logged r d) (ht : d ∈ p.templates) : Undeclared rules logged known d := by
  rcases (h.templates d).1 ht with hu | hdec
  · exact hu
  · obtain ⟨q, hq, hqd⟩ := mem_outputs_of_declared hdec
    exact absurd hqd (hs.1 q (h.declaring_mem q hq))

/-- A template that is sought waits for nothing, whether it is new or not. -/
theorem none_of_sought (h : Describes rules logged known declaring p)
    (hs : IsSought rules logged r d) :
    (p.register d).prerequisites.predecessors? d = some .none := by
  rw [predecessors?_register]
  by_cases ht : d ∈ p.templates
  · simpa [ht] using (h.nodes d .none).2 (Or.inr ⟨h.undeclared_of_sought hs ht, rfl⟩)
  · have hnone : p.prerequisites.predecessors? d = none := by
      rcases hps : p.prerequisites.predecessors? d with _ | ps
      · rfl
      · rcases (h.nodes d ps).1 hps with ⟨k, hk, hkd, -⟩ | ⟨hu, -⟩
        · exact absurd hkd (hs.1 k.1 (h.known_mem k hk))
        · exact absurd ((h.templates d).2 (Or.inl hu)) ht
    simp [ht, Prerequisites.predecessors, hnone]

/-- Whatever else is known stays as it was when a dependency is met, except for a
    template that is sought. -/
theorem meet_other (h : Describes rules logged known declaring p) (hn : n ∉ r.outputs) :
    (meet rules logged r p d).prerequisites.predecessors? n =
      (open Classical in if IsSought rules logged r d ∧ n = d then some .none
        else p.prerequisites.predecessors? n) := by
  classical
  unfold meet
  split
  · next hl =>
    rw [if_neg fun hs => (isSought_iff.1 hs.1).1 hl]
    refine (Prerequisites.predecessors?_addLogged r.outputs d p.prerequisites n).trans ?_
    rw [if_neg hn]
  · next hl =>
    split
    · next hf =>
      have hs := isSought_iff.2 ⟨hl, hf⟩
      refine (Prerequisites.predecessors?_addNew r.outputs d _ n).trans ?_
      rw [if_neg hn]
      by_cases hnd : n = d
      · rw [hnd, if_pos ⟨hs, rfl⟩, h.none_of_sought hs]
      · rw [if_neg fun hc => hnd hc.2, predecessors?_register, if_neg fun hc => hnd hc.2.symm]
    · next hf =>
      rw [if_neg fun hs => hf (isSought_iff.1 hs.1).2]
      refine (Prerequisites.predecessors?_addNew r.outputs d p.prerequisites n).trans ?_
      rw [if_neg hn]

/-- One dependency more is met. -/
theorem meet (h : Describes rules logged (known ++ [(r, ds)]) declaring p)
    (hfresh : ∀ n ∈ r.outputs, ∀ k ∈ known, n ∉ k.1.outputs) (hd : d ∉ r.outputs) :
    Describes rules logged (known ++ [(r, ds ++ [d])]) declaring (meet rules logged r p d) := by
  have hmem : ∀ k ∈ known ++ [(r, ds ++ [d])], k.1 ∈ rules := fun k hk => by
    rcases List.mem_append.1 hk with hk | hk
    · exact h.known_mem k (List.mem_append_left _ hk)
    · rw [List.mem_singleton.1 hk]
      exact h.known_mem (r, ds) (by simp)
  refine ⟨hmem, h.declaring_mem, fun n ps => ?_, fun n => ?_, fun n => ?_,
    nodup_templates_meet h.nodup⟩
  · by_cases hn : n ∈ r.outputs
    · have hu : ¬ Undeclared rules logged (known ++ [(r, ds ++ [d])]) n :=
        fun hu => hu.1 r (hmem (r, ds ++ [d]) (by simp)) hn
      rw [h.meet_output hd hn, Option.some.injEq]
      simp only [hu, false_and, or_false]
      constructor
      · rintro rfl
        exact ⟨_, List.mem_append_right _ (List.mem_singleton.2 rfl), hn, rfl⟩
      · rintro ⟨k, hk, hkn, rfl⟩
        rcases List.mem_append.1 hk with hk | hk
        · exact absurd hkn (hfresh n hn k hk)
        · rw [List.mem_singleton.1 hk]
    · have hout : ∀ ts : List String,
          (∃ k ∈ known ++ [(r, ts)], n ∈ k.1.outputs ∧ ps = .ofDependencies logged k.2) ↔
            ∃ k ∈ known, n ∈ k.1.outputs ∧ ps = .ofDependencies logged k.2 := fun ts => by
        simp only [List.mem_append, List.mem_singleton, or_and_right, exists_or, exists_eq_left, hn,
          false_and, or_false]
      rw [h.meet_other hn, undeclared_append_concat, hout]
      split
      · next hs =>
        -- A template that is sought is no output of any rule.
        obtain ⟨hs, rfl⟩ := hs
        have hk : ¬ ∃ k ∈ known, n ∈ k.1.outputs ∧ ps = .ofDependencies logged k.2 :=
          fun ⟨k, hk, hkn, _⟩ => hs.1 k.1 (h.known_mem k (List.mem_append_left _ hk)) hkn
        simp [hk, hs, eq_comm]
      · next hs =>
        have hs : ¬ (n = d ∧ IsSought rules logged r d) := fun hc => hs ⟨hc.2, hc.1⟩
        rw [h.nodes, hout]
        simp only [hs, or_false]
  · rw [mem_templates_meet, h.templates, undeclared_append_concat, or_right_comm]
  · rw [contains_auto_meet, h.auto, undeclared_append_concat]
    constructor
    · rintro (hu | ⟨rfl, -, hs⟩)
      · exact .inl hu
      · exact .inr ⟨rfl, hs⟩
    · rintro (hu | ⟨rfl, hs⟩)
      · exact .inl hu
      · by_cases ht : n ∈ p.templates
        · exact .inl (h.undeclared_of_sought hs ht)
        · exact .inr ⟨rfl, ht, hs⟩

/-- All dependencies that are left are met. -/
theorem meets (hfresh : ∀ n ∈ r.outputs, ∀ k ∈ known, n ∉ k.1.outputs) :
    ∀ {es : List String}, (∀ d ∈ es, d ∉ r.outputs) → ∀ {ds : List String} {p : Plan},
      Describes rules logged (known ++ [(r, ds)]) declaring p →
      Describes rules logged (known ++ [(r, ds ++ es)]) declaring
        (es.foldl (Plan.meet rules logged r) p) := by
  intro es
  -- The dependencies that are met grow at their end, while those that are left shrink.
  induction es with
  | nil => intro _ ds p h; simpa using h
  | cons e es ih =>
    intro hes ds p h
    have he := h.meet hfresh (hes e (by simp))
    simpa using ih (fun d hd => hes d (by simp [hd])) he

/-- The rule is dealt with, and its templates are declared. -/
theorem declare (h : Describes rules logged known declaring p) (hr : r ∈ rules) :
    Describes rules logged known (declaring ++ [r]) (p.declare r) := by
  refine ⟨h.known_mem, fun q hq => ?_, ?_, fun n => ?_, ?_, nodup_templates_declare h.nodup⟩
  · rcases List.mem_append.1 hq with hq | hq
    · exact h.declaring_mem q hq
    · rwa [List.mem_singleton.1 hq]
  · rw [prerequisites_declare]
    exact h.nodes
  · rw [mem_templates_declare, h.templates, declared_append, or_assoc]
  · rw [auto_declare]
    exact h.auto

theorem settle (h : Describes rules logged known declaring p) (hr : r ∈ rules)
    (hfresh : ∀ n ∈ r.outputs, ∀ k ∈ known, n ∉ k.1.outputs)
    (hd : ∀ d ∈ r.namedDependencies, d ∉ r.outputs) :
    Describes rules logged (known ++ [(r, r.namedDependencies)]) (declaring ++ [r])
      (p.settle rules logged r) :=
  ((h.know hr hfresh).meets hfresh hd).declare hr

end Describes

theorem not_mem_outputs_of_dependencyFault? (h : dependencyFault? rules logged r d = none) :
    d ∉ r.outputs := by
  intro hd
  simp [dependencyFault?, hd] at h

/-- A rule with its named dependencies. -/
def withDependencies (r : Rule) : Rule × List String := (r, r.namedDependencies)

theorem describes_foldl {done rest : List Rule} (hrules : done ++ rest = rules)
    (hnd : (rules.flatMap Rule.outputs).Nodup)
    (hok : ∀ r ∈ rules, ∀ d ∈ r.namedDependencies, dependencyFault? rules logged r d = none)
    (h : Describes rules logged (done.map withDependencies) done p) :
    Describes rules logged (rules.map withDependencies) rules
      (rest.foldl (settle rules logged) p) := by
  induction rest generalizing done p with
  | nil =>
    rw [List.append_nil] at hrules
    exact hrules ▸ h
  | cons r rest ih =>
    have hr : r ∈ rules := by rw [← hrules]; simp
    have hfresh : ∀ n ∈ r.outputs, ∀ k ∈ done.map withDependencies, n ∉ k.1.outputs := by
      rintro n hn k hk hkn
      obtain ⟨q, hq, rfl⟩ := List.mem_map.1 hk
      rw [← hrules, List.flatMap_append, List.nodup_append] at hnd
      exact hnd.2.2 n (List.mem_flatMap.2 ⟨q, hq, hkn⟩) n
        (List.mem_flatMap.2 ⟨r, by simp, hn⟩) rfl
    have hstep := h.settle hr hfresh fun d hd => not_mem_outputs_of_dependencyFault? (hok r hr d hd)
    rw [List.append_cons] at hrules
    exact ih hrules (by simpa [withDependencies] using hstep)

theorem describes_empty : Describes rules logged [] [] empty := by
  refine ⟨by simp, by simp, fun n ps => ?_, fun n => ?_, fun n => ?_, List.nodup_nil⟩
  · simp [empty, Prerequisites.empty, Prerequisites.predecessors?, Undeclared]
  · simp [empty, Undeclared, Declared]
  · simp [empty, NameMap.contains, Undeclared]

/-- **What is drawn up from rules that can all be resolved.** -/
theorem describes_draw (hnd : (rules.flatMap Rule.outputs).Nodup)
    (hok : ∀ r ∈ rules, ∀ d ∈ r.namedDependencies, dependencyFault? rules logged r d = none) :
    Describes rules logged (rules.map withDependencies) rules (draw rules logged) :=
  describes_foldl (List.nil_append rules) hnd hok describes_empty

/-- A name that rules working frame by frame ask for, and that is neither logged
    nor produced. -/
def Wanted (rules : List Rule) (logged : List String) (n : String) : Prop :=
  (∀ q ∈ rules, n ∉ q.outputs) ∧ n ∉ logged ∧
    ∃ r ∈ rules, r.family.isPerFrame = true ∧ n ∈ r.namedDependencies

theorem exists_mem_withDependencies {P : Rule × List String → Prop} :
    (∃ k ∈ rules.map withDependencies, P k) ↔ ∃ r ∈ rules, P (withDependencies r) := by
  constructor
  · rintro ⟨k, hk, hP⟩
    obtain ⟨r, hr, rfl⟩ := List.mem_map.1 hk
    exact ⟨r, hr, hP⟩
  · rintro ⟨r, hr, hP⟩
    exact ⟨_, List.mem_map_of_mem hr, hP⟩

theorem undeclared_map_withDependencies :
    Undeclared rules logged (rules.map withDependencies) n ↔ Wanted rules logged n := by
  rw [Undeclared, exists_mem_withDependencies]
  rfl

/-- What the plan of some rules is, in terms of the rules. -/
structure Resolved (rules : List Rule) (logged : List String) (p : Plan) : Prop where
  rules_eq : p.rules = rules
  nodup_outputs : (rules.flatMap Rule.outputs).Nodup
  met : ∀ r ∈ rules, ∀ d ∈ r.namedDependencies, dependencyFault? rules logged r d = none
  acyclic : p.prerequisites.findCycle = none
  nodes : ∀ n ps, p.prerequisites.predecessors? n = some ps ↔
    (∃ r ∈ rules, n ∈ r.outputs ∧ ps = .ofDependencies logged r.namedDependencies) ∨
      (Wanted rules logged n ∧ ps = .none)
  templates : ∀ n, n ∈ p.templates ↔ Wanted rules logged n ∨ Declared rules n
  auto : ∀ n, p.auto.contains n = true ↔ Wanted rules logged n
  nodup_templates : p.templates.Nodup

/-- **The plan of rules in terms of the rules.** -/
theorem resolved_of_ofRules (h : ofRules rules logged = .ok p) : Resolved rules logged p := by
  obtain ⟨hnd, hok, hcycle, rfl⟩ := ofRules_eq_ok_iff.1 h
  have hd := describes_draw hnd hok
  refine ⟨rfl, hnd, hok, hcycle, fun n ps => ?_, fun n => ?_, fun n => ?_, hd.nodup⟩
  · refine (hd.nodes n ps).trans ?_
    rw [undeclared_map_withDependencies, exists_mem_withDependencies]
    rfl
  · refine (hd.templates n).trans ?_
    rw [undeclared_map_withDependencies]
  · refine contains_undeclared.trans ?_
    rw [hd.auto, undeclared_map_withDependencies]
    -- A name that some rule declares is one of its outputs.
    refine and_iff_left_of_imp fun hwanted hdec => ?_
    obtain ⟨q, hq, hqn⟩ := mem_outputs_of_declared hdec
    exact hwanted.1 q hq hqn

end

end Plan

end Screenmark
