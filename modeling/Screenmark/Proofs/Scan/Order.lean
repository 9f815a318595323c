/-
  Screenmark — the order within a frame.

  The places of the targets are chosen one after the other, always the next one
  (`isNext_of_run`). So a list of chosen places is always a schedule (`IsSchedule`): no
  place stands in it twice, and each stands after those it waits for.

  * `places_perm` : every place is in the order once, whatever waits for what;
  * `isSchedule_places` : if nothing waits for itself, the whole order is a
    schedule;
  * `isNext_of_places` : and each place in it is the earliest of those that are open.
-/
import Screenmark.Proofs.Plan.Cycle
import Screenmark.Proofs.Scan.Worklist

namespace Screenmark

namespace Order

variable {g : Prerequisites} {ts : List Target} {done pre post : List Nat} {w : Worklist}
  {i j fuel : Nat}

/-! ## Schedules -/

/-- Places that can be worked out one after the other. -/
structure IsSchedule (g : Prerequisites) (ts : List Target) (done : List Nat) : Prop where
  nodup : done.Nodup
  bound : ∀ i ∈ done, i < ts.length
  waits : ∀ pre i post, done = pre ++ i :: post → ∀ j ∈ waitsFor g ts i, j ∈ pre

theorem isSchedule_nil : IsSchedule g ts [] :=
  ⟨List.nodup_nil, by simp, fun pre i post h => by simp at h⟩

/-- An open place can be worked out next. -/
theorem IsSchedule.concat (h : IsSchedule g ts done) (hi : IsOpen g ts done i) :
    IsSchedule g ts (done ++ [i]) := by
  refine ⟨?_, ?_, fun pre k post heq => ?_⟩
  · refine List.nodup_append.2 ⟨h.nodup, by simp, fun a ha b hb hab => hi.new ?_⟩
    rw [List.mem_singleton] at hb
    rwa [← hb, ← hab]
  · intro k hk
    rcases List.mem_append.1 hk with hk | hk
    · exact h.bound k hk
    · rw [List.mem_singleton.1 hk]
      exact hi.bound
  · rcases List.eq_nil_or_concat post with rfl | ⟨post, l, rfl⟩
    · obtain ⟨rfl, hik⟩ := List.append_inj' heq rfl
      obtain rfl := List.singleton_inj.1 hik
      exact hi.waits
    · rw [List.concat_eq_append, ← List.cons_append, ← List.append_assoc] at heq
      exact h.waits pre k post (List.append_inj' heq rfl).1

/-- What a schedule waits for is in it. -/
theorem IsSchedule.closed (h : IsSchedule g ts done) (hi : i ∈ done) (hj : j ∈ waitsFor g ts i) :
    j ∈ done := by
  obtain ⟨pre, post, rfl⟩ := List.append_of_mem hi
  exact List.mem_append_left _ (h.waits pre i post rfl j hj)

theorem placeOf?_eq_some {name : String} (h : placeOf? ts name = some j) :
    j < ts.length ∧ ∃ t, ts[j]? = some t ∧ t.name = name := by
  have hj := List.mem_of_find?_eq_some h
  rw [List.mem_reverse, List.mem_range] at hj
  have hname := List.find?_some h
  rw [List.getElem?_eq_getElem hj] at hname ⊢
  exact ⟨hj, _, rfl, by simpa using hname⟩

/-- The name of a target has a place. -/
theorem exists_placeOf? {u : Target} (hu : u ∈ ts) : ∃ j, placeOf? ts u.name = some j := by
  obtain ⟨j, hj, rfl⟩ := List.getElem_of_mem hu
  refine Option.isSome_iff_exists.1 (List.find?_isSome.2 ⟨j, ?_, ?_⟩)
  · rw [List.mem_reverse, List.mem_range]
    exact hj
  · rw [List.getElem?_eq_getElem hj]
    simp

theorem mem_waitsFor {t : Target} (ht : ts[i]? = some t) :
    j ∈ waitsFor g ts i ↔ ∃ d ∈ (g.predecessors t.name).new, placeOf? ts d = some j := by
  simp [waitsFor, ht]

/-- If nothing waits for itself, some place is open as long as one is left. -/
theorem exists_isOpen (hg : g.findCycle = none) (h : ∃ i < ts.length, i ∉ done) :
    ∃ i, IsOpen g ts done i := by
  -- The name that comes first among those of the places that are left.
  obtain ⟨n, ⟨i, t, ht, hi, hn⟩, hfirst⟩ := Prerequisites.exists_first_of_findCycle hg
    (P := fun n => ∃ i t, ts[i]? = some t ∧ i ∉ done ∧ t.name = n) (by
      obtain ⟨i, hlt, hi⟩ := h
      exact ⟨_, i, ts[i], List.getElem?_eq_getElem hlt, hi, rfl⟩)
  refine ⟨i, (List.getElem?_eq_some_iff.1 ht).1, hi, fun j hj => ?_⟩
  obtain ⟨d, hd, hplace⟩ := (mem_waitsFor ht).1 hj
  obtain ⟨-, u, hu, hname⟩ := placeOf?_eq_some hplace
  rw [hn] at hd
  exact Decidable.byContradiction fun hnot => hfirst d hd ⟨j, u, hu, hnot, hname⟩

/-! ## Choosing from the worklist -/

theorem run_nil (hready : w.ready = []) : run g ts fuel w = [] := by
  cases fuel with
  | zero => rfl
  | succ fuel => rw [run, hready]

theorem run_cons {ready : List Nat} (hready : w.ready = i :: ready) :
    run g ts (fuel + 1) w =
      i :: run g ts fuel ((dependents g ts i).foldl (release ts) { w with ready }) := by
  rw [run, hready]

/-- **The chosen places, after those of a schedule, are a schedule.** -/
theorem isSchedule_run (h : IsSchedule g ts done) (hw : Owes g ts done [] w) :
    IsSchedule g ts (done ++ run g ts fuel w) := by
  induction fuel generalizing done w with
  | zero =>
    rw [run, List.append_nil]
    exact h
  | succ fuel ih =>
    rcases hready : w.ready with _ | ⟨i, ready⟩
    · rw [run_nil hready, List.append_nil]
      exact h
    · have hnext := ih (h.concat (hw.isNext hready).isOpen)
        (hw.next hready fun j hj k hk => h.closed hj hk)
      rw [List.append_assoc] at hnext
      rw [run_cons hready]
      exact hnext

/-- **Each chosen place is the next one.** -/
theorem isNext_of_run (h : IsSchedule g ts done) (hw : Owes g ts done [] w)
    (heq : run g ts fuel w = pre ++ i :: post) : IsNext g ts (done ++ pre) i := by
  induction fuel generalizing done w pre with
  | zero => simp [run] at heq
  | succ fuel ih =>
    rcases hready : w.ready with _ | ⟨k, ready⟩
    · simp [run_nil hready] at heq
    · have hnext := hw.isNext hready
      rw [run_cons hready] at heq
      rcases pre with _ | ⟨l, pre⟩
      · obtain rfl := (List.cons.inj heq).1
        rw [List.append_nil]
        exact hnext
      · obtain ⟨rfl, hrest⟩ := List.cons.inj heq
        rw [List.append_cons]
        exact ih (h.concat hnext.isOpen) (hw.next hready fun j hj k hk => h.closed hj hk) hrest

/-- Distinct places, as many as there are targets, are all places. -/
theorem mem_of_length_le (hnd : done.Nodup) (hb : ∀ i ∈ done, i < ts.length)
    (hlen : ts.length ≤ done.length) (hi : i < ts.length) : i ∈ done := by
  refine Decidable.byContradiction fun hnot => ?_
  have hsub : i :: done ⊆ List.range ts.length := fun k hk => by
    rw [List.mem_range]
    rcases List.mem_cons.1 hk with rfl | hk
    · exact hi
    · exact hb k hk
  have hle := List.Nodup.length_le_of_subset (List.nodup_cons.2 ⟨hnot, hnd⟩) hsub
  rw [List.length_cons, List.length_range] at hle
  omega

/-- **If nothing waits for itself, every place is chosen.** -/
theorem mem_run (hg : g.findCycle = none) (h : IsSchedule g ts done) (hw : Owes g ts done [] w)
    (hlen : ts.length ≤ done.length + fuel) (hi : i < ts.length) :
    i ∈ done ++ run g ts fuel w := by
  induction fuel generalizing done w with
  | zero =>
    rw [run, List.append_nil]
    exact mem_of_length_le h.nodup h.bound hlen hi
  | succ fuel ih =>
    rcases hready : w.ready with _ | ⟨k, ready⟩
    · rw [run_nil hready, List.append_nil]
      refine Decidable.byContradiction fun hnot => ?_
      obtain ⟨k, hk⟩ := exists_isOpen hg ⟨i, hi, hnot⟩
      exact absurd (hready ▸ hw.mem_ready_iff.2 hk) List.not_mem_nil
    · have hmem := ih (h.concat (hw.isNext hready).isOpen)
        (hw.next hready fun j hj k hk => h.closed hj hk)
        (by rw [List.length_append, List.length_singleton]; omega)
      rw [List.append_assoc] at hmem
      rw [run_cons hready]
      exact hmem

/-! ## The order of all targets -/

/-- The places that are chosen in a frame. -/
def chosen (g : Prerequisites) (ts : List Target) : List Nat := run g ts ts.length (start g ts)

theorem isSchedule_chosen : IsSchedule g ts (chosen g ts) := by
  have h : IsSchedule g ts ([] ++ chosen g ts) := isSchedule_run isSchedule_nil owes_start
  exact h

theorem places_eq : places g ts =
    chosen g ts ++ (List.range ts.length).filter fun i => !(chosen g ts).contains i := rfl

/-- **Every place is in the order once.** -/
theorem places_perm (g : Prerequisites) (ts : List Target) :
    (places g ts).Perm (List.range ts.length) := by
  have h : IsSchedule g ts (chosen g ts) := isSchedule_chosen
  rw [places_eq]
  refine (List.perm_ext_iff_of_nodup ?_ List.nodup_range).2 fun i => ?_
  · refine List.nodup_append.2 ⟨h.nodup, List.nodup_range.filter _, fun a ha b hb hab => ?_⟩
    have hb := (List.mem_filter.1 hb).2
    simp only [Bool.not_eq_eq_eq_not, Bool.not_true, List.contains_eq_mem,
      decide_eq_false_iff_not] at hb
    exact hb (hab ▸ ha)
  · simp only [List.mem_append, List.mem_filter, List.mem_range, List.contains_eq_mem,
      Bool.not_eq_eq_eq_not, Bool.not_true, decide_eq_false_iff_not]
    constructor
    · rintro (hi | ⟨hi, -⟩)
      · exact h.bound i hi
      · exact hi
    · intro hi
      by_cases hmem : i ∈ chosen g ts
      · exact Or.inl hmem
      · exact Or.inr ⟨hi, hmem⟩

/-- If nothing waits for itself, no place is left over. -/
theorem places_eq_chosen (hg : g.findCycle = none) : places g ts = chosen g ts := by
  have hrest : (List.range ts.length).filter (fun i => !(chosen g ts).contains i) = [] := by
    refine List.filter_eq_nil_iff.2 fun i hi => ?_
    have hmem : i ∈ [] ++ chosen g ts :=
      mem_run hg isSchedule_nil owes_start (by simp) (List.mem_range.1 hi)
    simpa using hmem
  rw [places_eq, hrest, List.append_nil]

/-- **If nothing waits for itself, each target comes after those it waits for.** -/
theorem isSchedule_places (hg : g.findCycle = none) : IsSchedule g ts (places g ts) := by
  rw [places_eq_chosen hg]
  exact isSchedule_chosen

/-- **If nothing waits for itself, each place is the next one after those before it.** -/
theorem isNext_of_places (hg : g.findCycle = none) (heq : places g ts = pre ++ i :: post) :
    IsNext g ts pre i := by
  rw [places_eq_chosen hg] at heq
  have h : IsNext g ts ([] ++ pre) i := isNext_of_run isSchedule_nil owes_start heq
  exact h

end Order

end Screenmark
