/-
  Screenmark — the search for a cycle.

  From a name the search goes on to the names that it waits for. It skips a name of which
  it knows that it leads to no cycle, and ends at one that stands on its way. `Searches` are
  its steps, without any bound. The names on the way are different names of the
  prerequisites, so the way cannot get longer than there are names, and the search ends
  before its bound is used up: `searches_of_foldlM`.

  * `IsCycle` : a path from a name back to itself, on which no other name stands twice;
  * `isSome_findCycle_iff` : the search ends; it finds a cycle if there is one, and what it
    finds is one.
-/
import Mathlib.Data.List.Chain
import Screenmark.Proofs.Plan.Cycle

namespace Screenmark

namespace Prerequisites

variable {g : Prerequisites} {path closed names : List String} {n : String}
  {r r' : Except (List String) (List String)}

/-! ## The steps of a search -/

/-- A search of some names, on the way `path`, where the names of `closed` lead to no cycle;
    it gives all names that lead to none, or the cycle that it has found. -/
inductive Searches (g : Prerequisites) :
    (path closed names : List String) → Except (List String) (List String) → Prop
  | done {path closed : List String} : Searches g path closed [] (.ok closed)
  /-- the name leads to no cycle -/
  | skip {path closed names : List String} {n : String} {r : Except (List String) (List String)} :
      n ∈ closed → Searches g path closed names r → Searches g path closed (n :: names) r
  /-- the name stands on the way -/
  | back {path closed names : List String} {n : String} :
      n ∉ closed → n ∈ path → Searches g path closed (n :: names) (.error (cycleAt n path))
  /-- there is a cycle behind the name -/
  | found {path closed names c : List String} {n : String} :
      n ∉ closed → n ∉ path →
      Searches g (n :: path) closed (g.predecessors n).new (.error c) →
      Searches g path closed (n :: names) (.error c)
  /-- there is none, and the name is closed -/
  | close {path closed names closed' : List String} {n : String}
      {r : Except (List String) (List String)} :
      n ∉ closed → n ∉ path →
      Searches g (n :: path) closed (g.predecessors n).new (.ok closed') →
      Searches g path (n :: closed') names r → Searches g path closed (n :: names) r

/-- A search has one outcome only. -/
theorem Searches.unique (h : g.Searches path closed names r)
    (h' : g.Searches path closed names r') : r = r' := by
  induction h generalizing r' with
  | done =>
    cases h'
    rfl
  | skip hclosed _ ih =>
    cases h' with
    | skip _ hrest => exact ih hrest
    | back hnot | found hnot | close hnot => exact absurd hclosed hnot
  | back hnot hpath =>
    cases h' with
    | skip hclosed => exact absurd hclosed hnot
    | back => rfl
    | found _ hoff | close _ hoff => exact absurd hpath hoff
  | found hnot hoff _ ih =>
    cases h' with
    | skip hclosed => exact absurd hclosed hnot
    | back _ hpath => exact absurd hpath hoff
    | found _ _ hbehind => exact ih hbehind
    | close _ _ hbehind => cases ih hbehind
  | close hnot hoff _ _ ihbehind ih =>
    cases h' with
    | skip hclosed => exact absurd hclosed hnot
    | back _ hpath => exact absurd hpath hoff
    | found _ _ hbehind => cases ihbehind hbehind
    | close _ _ hbehind hrest =>
      cases ihbehind hbehind
      exact ih hrest

/-- **A search with a bound that is large enough goes through all its steps.** -/
theorem searches_of_foldlM {fuel : Nat} (hnodup : path.Nodup) (hpath : ∀ n ∈ path, n ∈ g.names)
    (hnames : ∀ n ∈ names, n ∈ g.names) (hfuel : g.names.length < path.length + fuel) :
    g.Searches path closed names (names.foldlM (g.visit fuel path) closed) := by
  induction fuel generalizing path closed names with
  | zero =>
    -- The way would hold more names than there are.
    have hle := List.Nodup.length_le_of_subset hnodup hpath
    omega
  | succ fuel ih =>
    induction names generalizing closed with
    | nil => exact .done
    | cons n names ihnames =>
      rw [List.forall_mem_cons] at hnames
      rw [List.foldlM_cons, visit]
      by_cases hclosed : n ∈ closed
      · rw [if_pos hclosed]
        exact .skip hclosed (ihnames hnames.2)
      rw [if_neg hclosed]
      by_cases hon : n ∈ path
      · rw [if_pos hon]
        exact .back hclosed hon
      rw [if_neg hon]
      have hbehind : g.Searches (n :: path) closed (g.predecessors n).new
          ((g.predecessors n).new.foldlM (g.visit fuel (n :: path)) closed) :=
        ih (List.nodup_cons.2 ⟨hon, hnodup⟩) (List.forall_mem_cons.2 ⟨hnames.1, hpath⟩)
          (fun _ => mem_names_of_new) (by rw [List.length_cons]; omega)
      rcases hfold : (g.predecessors n).new.foldlM (g.visit fuel (n :: path)) closed with
        c | closed'
      · rw [hfold] at hbehind
        exact .found hclosed hon hbehind
      · rw [hfold] at hbehind
        exact .close hclosed hon hbehind (ihnames hnames.2)

/-! ## What is found -/

/-- A path from a name back to itself: each name waits for the next one, and no name but
    the first one, which is also the last one, stands on it twice. -/
structure IsCycle (g : Prerequisites) (c : List String) : Prop where
  two_le_length : 2 ≤ c.length
  ends : c.head? = c.getLast?
  nodup : c.dropLast.Nodup
  waits : c.IsChain g.Waits

/-- The way back to a name on the way is a cycle. -/
theorem isCycle_cycleAt (hnodup : path.Nodup) (hn : n ∈ path)
    (hway : (n :: path).IsChain fun m m' => g.Waits m' m) : g.IsCycle (cycleAt n path) := by
  obtain ⟨pre, post, rfl, hnot⟩ := List.eq_append_cons_of_mem hn
  have hcycle : cycleAt n (pre ++ n :: post) = n :: pre.reverse ++ [n] := by
    have hpre : ∀ m ∈ pre, decide (m ≠ n) = true := fun m hm =>
      decide_eq_true fun heq => hnot (heq ▸ hm)
    rw [cycleAt, List.takeWhile_append_of_pos hpre, List.takeWhile_cons_of_neg (by simp),
      List.append_nil, List.cons_append]
  rw [hcycle]
  refine ⟨by simp, by rw [List.getLast?_concat]; rfl, ?_, ?_⟩
  · rw [List.dropLast_concat, List.nodup_cons, List.mem_reverse]
    exact ⟨hnot, (List.reverse_perm pre).nodup_iff.2 (List.nodup_append.1 hnodup).1⟩
  · have hreverse : n :: pre.reverse ++ [n] = (n :: pre ++ [n]).reverse := by simp
    rw [hreverse, List.isChain_reverse]
    exact hway.prefix ⟨post, by simp⟩

/-- On the way each name is one that the name before it waits for, so what is found is a
    cycle. -/
theorem Searches.isCycle {c : List String} (h : g.Searches path closed names (.error c))
    (hnodup : path.Nodup)
    (hway : ∀ n ∈ names, (n :: path).IsChain fun m m' => g.Waits m' m) : g.IsCycle c := by
  generalize hr : Except.error c = r at h
  induction h with
  | done => cases hr
  | skip _ _ ih => exact ih hnodup (fun m hm => hway m (List.mem_cons_of_mem _ hm)) hr
  | back _ hpath =>
    cases hr
    exact isCycle_cycleAt hnodup hpath (hway _ List.mem_cons_self)
  | found _ hoff _ ih =>
    refine ih (List.nodup_cons.2 ⟨hoff, hnodup⟩) (fun m hm => ?_) hr
    exact List.isChain_cons_cons.2 ⟨hm, hway _ List.mem_cons_self⟩
  | close _ _ _ _ _ ih => exact ih hnodup (fun m hm => hway m (List.mem_cons_of_mem _ hm)) hr

/-- The search of all names, one after the other. -/
theorem searches_findCycle (g : Prerequisites) : ∃ r, g.Searches [] [] g.nodes.keys r ∧
    ∀ c, g.findCycle = some c ↔ r = .error c := by
  refine ⟨g.nodes.keys.foldlM (g.visit (g.names.length + 2) []) [],
    searches_of_foldlM List.nodup_nil (by simp) (fun n hn => mem_names_of_key hn)
      (by rw [List.length_nil]; omega), fun c => ?_⟩
  unfold findCycle
  rcases g.nodes.keys.foldlM (g.visit (g.names.length + 2) []) [] with c' | closed <;> simp

/-- **The search for a cycle ends, finds one if there is one, and finds nothing else.** Its
    steps lead to one outcome, which is the answer; the answer is a path exactly if some name
    waits for itself, directly or through others, and this path leads from a name back to it
    along names that wait for the next one, none of which it meets twice. -/
theorem isSome_findCycle_iff (g : Prerequisites) :
    (∃ r, (∀ r', g.Searches [] [] g.nodes.keys r' ↔ r' = r) ∧
      ∀ c, g.findCycle = some c ↔ r = .error c) ∧
    (g.findCycle.isSome = true ↔ ∃ n, Relation.TransGen g.Waits n n) ∧
    ∀ c, g.findCycle = some c → g.IsCycle c := by
  obtain ⟨r, hsearch, hanswer⟩ := searches_findCycle g
  refine ⟨⟨r, fun r' => ⟨fun h => h.unique hsearch, fun h => h ▸ hsearch⟩, hanswer⟩, ?_, ?_⟩
  · rw [← not_iff_not, Option.not_isSome_iff_eq_none, findCycle_eq_none_iff, not_exists]
  · intro c hc
    obtain rfl := (hanswer c).1 hc
    exact hsearch.isCycle List.nodup_nil fun n _ => List.isChain_singleton n

end Prerequisites

end Screenmark
