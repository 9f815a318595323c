/-
  Screenmark — prerequisites without a cycle.

  `findCycle` goes along the names that a name waits for, and keeps a list of the
  names that lead to no cycle. In that list every name stands before those that it
  waits for (`IsClosed`), so if no cycle is found, among any names there is one that
  waits for none of them: `exists_first_of_findCycle`.

  Every name on the way of a search leads to the name that is visited, so a search that
  comes back to a name on its way has found one that waits for itself:
  `findCycle_eq_none_iff`.
-/
import Screenmark.Plan.Prerequisites

namespace Screenmark

namespace Prerequisites

variable {g : Prerequisites} {path closed closed' c : List String} {n name : String}

/-- Every name stands before all names that it waits for. -/
def IsClosed (g : Prerequisites) : List String → Prop
  | [] => True
  | n :: ns => (∀ m ∈ (g.predecessors n).new, m ∈ ns) ∧ IsClosed g ns

theorem mem_names_of_key (h : n ∈ g.nodes.keys) : n ∈ g.names :=
  List.mem_append_left _ h

theorem mem_names_of_new {m : String} (h : m ∈ (g.predecessors n).new) : m ∈ g.names := by
  unfold predecessors at h
  rcases hps : g.predecessors? n with _ | ps
  · rw [hps] at h
    simp [Predecessors.none] at h
  · rw [hps] at h
    refine List.mem_append_right _ (List.mem_flatMap.2 ⟨ps, ?_, h⟩)
    exact List.mem_map.2 ⟨(n, ps), NameMap.mem_entries_iff.2 hps, rfl⟩

/-- What is known after a search: the names that lead to no cycle have grown. -/
structure Explored (g : Prerequisites) (closed closed' : List String) : Prop where
  isClosed : g.IsClosed closed'
  subset : ∀ n ∈ closed, n ∈ closed'

theorem Explored.refl (h : g.IsClosed closed) : Explored g closed closed :=
  ⟨h, fun _ hn => hn⟩

theorem Explored.trans {closed'' : List String} (h : Explored g closed closed')
    (h' : Explored g closed' closed'') : Explored g closed closed'' :=
  ⟨h'.isClosed, fun n hn => h'.subset n (h.subset n hn)⟩

/-- A search of several names, if each single search explores its name. -/
theorem explored_of_foldlM {f : List String → String → Except (List String) (List String)}
    (hf : ∀ {c c' : List String} {d}, f c d = .ok c' → g.IsClosed c → d ∈ g.names →
      Explored g c c' ∧ d ∈ c') :
    ∀ {ds closed : List String}, ds.foldlM f closed = .ok closed' → g.IsClosed closed →
      (∀ d ∈ ds, d ∈ g.names) → Explored g closed closed' ∧ ∀ d ∈ ds, d ∈ closed' := by
  intro ds
  induction ds with
  | nil =>
    intro closed h hc _
    obtain rfl : closed = closed' := Except.ok.inj h
    exact ⟨.refl hc, by simp⟩
  | cons d ds ih =>
    intro closed h hc hn
    rw [List.foldlM_cons] at h
    rcases hd : f closed d with e | c
    · rw [hd] at h
      cases h
    · rw [hd] at h
      obtain ⟨he, hmem⟩ := hf hd hc (hn d (by simp))
      obtain ⟨he', hmem'⟩ := ih h he.isClosed fun m hm => hn m (by simp [hm])
      refine ⟨he.trans he', fun m hm => ?_⟩
      rcases List.mem_cons.1 hm with rfl | hm
      · exact he'.subset m hmem
      · exact hmem' m hm

/-- A search that finds no cycle explores its name. The names on the way are
    distinct, so the fuel cannot run out before they do. -/
theorem explored_of_visit {fuel : Nat} : ∀ {path closed closed' : List String} {name : String},
    g.visit fuel path closed name = .ok closed' → g.IsClosed closed → path.Nodup →
    (∀ n ∈ path, n ∈ g.names) → name ∈ g.names → g.names.length < path.length + fuel →
    Explored g closed closed' ∧ name ∈ closed' := by
  induction fuel with
  | zero =>
    -- The path would hold more names than there are.
    intro path closed closed' name _ _ hp hsub _ hlen
    have := List.Nodup.length_le_of_subset hp hsub
    omega
  | succ fuel ih =>
    intro path closed closed' name h hc hp hsub hname hlen
    rw [visit] at h
    split at h
    · next hmem =>
      obtain rfl : closed = closed' := Except.ok.inj h
      exact ⟨.refl hc, hmem⟩
    · split at h
      · cases h
      · next hmem =>
        have hp' : (name :: path).Nodup := List.nodup_cons.2 ⟨hmem, hp⟩
        have hsub' : ∀ n ∈ name :: path, n ∈ g.names := List.forall_mem_cons.2 ⟨hname, hsub⟩
        have hlen' : g.names.length < (name :: path).length + fuel := by
          rw [List.length_cons]
          omega
        split at h
        · cases h
        · next c hfold =>
          obtain rfl : name :: c = closed' := Except.ok.inj h
          obtain ⟨he, hds⟩ := explored_of_foldlM
            (fun hv hcl hd => ih hv hcl hp' hsub' hd hlen') hfold hc
            fun d hd => mem_names_of_new hd
          exact ⟨⟨⟨hds, he.isClosed⟩, fun n hn => List.mem_cons_of_mem _ (he.subset n hn)⟩,
            List.mem_cons_self⟩

/-- If no cycle is found, all names that wait are on a closed list. -/
theorem exists_isClosed_of_findCycle (h : g.findCycle = none) :
    ∃ closed, g.IsClosed closed ∧ ∀ n ∈ g.nodes.keys, n ∈ closed := by
  unfold findCycle at h
  split at h
  · cases h
  · next closed hfold =>
    obtain ⟨he, hkeys⟩ := explored_of_foldlM
      (fun hv hcl hd => explored_of_visit hv hcl List.nodup_nil (by simp) hd
        (by rw [List.length_nil]; omega))
      hfold trivial fun n hn => mem_names_of_key hn
    exact ⟨closed, he.isClosed, hkeys⟩

theorem exists_first_of_isClosed {P : String → Prop} : ∀ {closed : List String},
    g.IsClosed closed → (∃ n ∈ closed, P n) →
    ∃ n, P n ∧ ∀ m ∈ (g.predecessors n).new, ¬ P m := by
  classical
  intro closed
  induction closed with
  | nil => simp
  | cons n ns ih =>
    rintro ⟨hn, hns⟩ hP
    by_cases hlater : ∃ m ∈ ns, P m
    · exact ih hns hlater
    · have hm : ∀ m ∈ ns, ¬ P m := fun m hm hPm => hlater ⟨m, hm, hPm⟩
      obtain ⟨m, hmem, hPm⟩ := hP
      rcases List.mem_cons.1 hmem with rfl | hmem
      · exact ⟨m, hPm, fun d hd => hm d (hn d hd)⟩
      · exact absurd hPm (hm m hmem)

theorem mem_keys_of_new {m : String} (h : m ∈ (g.predecessors n).new) : n ∈ g.nodes.keys := by
  unfold predecessors at h
  rcases hps : g.predecessors? n with _ | ps
  · rw [hps] at h
    simp [Predecessors.none] at h
  · exact List.mem_map.2 ⟨(n, ps), NameMap.mem_entries_iff.2 hps, rfl⟩

/-- **Without a cycle, some name comes first.** Among any names there is one that
    waits for none of them. -/
theorem exists_first_of_findCycle (h : g.findCycle = none) {P : String → Prop}
    (hP : ∃ n, P n) : ∃ n, P n ∧ ∀ m ∈ (g.predecessors n).new, ¬ P m := by
  classical
  obtain ⟨closed, hclosed, hkeys⟩ := exists_isClosed_of_findCycle h
  by_cases hkey : ∃ n ∈ closed, P n
  · exact exists_first_of_isClosed hclosed hkey
  · -- A name that is no key waits for nothing.
    obtain ⟨n, hn⟩ := hP
    refine ⟨n, hn, fun m hm => ?_⟩
    exact absurd ⟨n, hkeys n (mem_keys_of_new hm), hn⟩ hkey

/-! ## Names that wait for themselves -/

/-- One name waits for another one. -/
def Waits (g : Prerequisites) (n m : String) : Prop := m ∈ (g.predecessors n).new

theorem exists_of_foldlM_eq_error {α β ε : Type} {f : α → β → Except ε α} {e : ε} :
    ∀ {bs : List β} {a : α}, bs.foldlM f a = .error e → ∃ b ∈ bs, ∃ a', f a' b = .error e := by
  intro bs
  induction bs with
  | nil => intro a h; cases h
  | cons b bs ih =>
    intro a h
    rw [List.foldlM_cons] at h
    rcases hb : f a b with e' | a'
    · rw [hb] at h
      obtain rfl : e' = e := Except.error.inj h
      exact ⟨b, by simp, a, hb⟩
    · rw [hb] at h
      obtain ⟨b', hb', a'', h'⟩ := ih h
      exact ⟨b', by simp [hb'], a'', h'⟩

/-- A search that fails has come back to a name on its way. All names on the way lead
    to the name that is visited. -/
theorem exists_waits_self_of_visit {fuel : Nat} : ∀ {path closed : List String} {name : String},
    g.visit fuel path closed name = .error c → (∀ n ∈ path, Relation.TransGen g.Waits n name) →
    ∃ n, Relation.TransGen g.Waits n n := by
  induction fuel with
  | zero => intro path closed name h _; cases h
  | succ fuel ih =>
    intro path closed name h hpath
    rw [visit] at h
    split at h
    · cases h
    · split at h
      · next hmem => exact ⟨name, hpath name hmem⟩
      · split at h
        · next hfold =>
          obtain rfl := Except.error.inj h
          obtain ⟨d, hd, closed', hvisit⟩ := exists_of_foldlM_eq_error hfold
          refine ih hvisit fun n hn => ?_
          rcases List.mem_cons.1 hn with rfl | hn
          · exact .single hd
          · exact .tail (hpath n hn) hd
        · cases h

/-- A name that waits for itself is one of many that do: each waits for another. -/
theorem exists_waits_of_waits_self (h : Relation.TransGen g.Waits n n) :
    ∃ m, g.Waits n m ∧ Relation.TransGen g.Waits m m := by
  have head : ∀ {a b : String}, Relation.TransGen g.Waits a b →
      ∃ m, g.Waits a m ∧ (m = b ∨ Relation.TransGen g.Waits m b) := by
    intro a b hab
    induction hab with
    | single hab => exact ⟨_, hab, .inl rfl⟩
    | tail _ hbc ih =>
      obtain ⟨m, ham, rfl | hmb⟩ := ih
      · exact ⟨m, ham, .inr (.single hbc)⟩
      · exact ⟨m, ham, .inr (.tail hmb hbc)⟩
  obtain ⟨m, hm, rfl | hmn⟩ := head h
  · exact ⟨m, hm, h⟩
  · exact ⟨m, hm, .tail hmn hm⟩

/-- **A cycle is found if and only if some name waits for itself.** -/
theorem findCycle_eq_none_iff :
    g.findCycle = none ↔ ∀ n, ¬ Relation.TransGen g.Waits n n := by
  constructor
  · intro h n hn
    obtain ⟨m, hm, hfirst⟩ := exists_first_of_findCycle h (P := fun n =>
      Relation.TransGen g.Waits n n) ⟨n, hn⟩
    obtain ⟨d, hd, hdd⟩ := exists_waits_of_waits_self hm
    exact hfirst d hd hdd
  · intro h
    unfold findCycle
    split
    · next c hfold =>
      obtain ⟨d, -, closed, hvisit⟩ := exists_of_foldlM_eq_error hfold
      obtain ⟨n, hn⟩ := exists_waits_self_of_visit hvisit (by simp)
      exact absurd hn (h n)
    · rfl

end Prerequisites

end Screenmark
