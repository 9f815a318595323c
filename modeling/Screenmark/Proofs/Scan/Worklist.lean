/-
  Screenmark — the worklist of a frame.

  After the targets of some places are worked out, a place is open (`IsOpen`) if it is
  still to come and waits for none but those; the next one (`IsNext`) is the earliest of
  the open ones. The worklist finds it by counting (`Owes`): the count of a place is the
  number of targets that it waits for and that are still to come, and the places without
  any are ready.

  * `Owes.release` : a target that is released has a count to take from, so that the
    counts stay right;
  * `Owes.next` : after the first of the ready places is worked out and its dependents
    are released, the counts are right again;
  * `Owes.isNext` : with right counts, the first of the ready places is the next one.
-/
import Screenmark.Scan.Target

namespace Screenmark

namespace Order

variable {g : Prerequisites} {ts : List Target} {done owed ready ks : List Nat} {w : Worklist}
  {i j k : Nat}

/-! ## The earlier of two places -/

theorem precedes_iff : precedes ts i j = true ↔
    rankAt ts i < rankAt ts j ∨ rankAt ts i = rankAt ts j ∧ i < j := by
  simp [precedes]

theorem precedes_trans (hij : precedes ts i j = true) (hjk : precedes ts j k = true) :
    precedes ts i k = true := by
  rw [precedes_iff] at *
  omega

/-- Of two places one is the earlier. -/
theorem precedes_of_not (hij : ¬precedes ts i j = true) (hne : i ≠ j) :
    precedes ts j i = true := by
  rw [precedes_iff] at *
  omega

theorem mem_insert : k ∈ insert ts j ks ↔ k = j ∨ k ∈ ks := by
  induction ks with
  | nil => exact List.mem_cons
  | cons l ks ih =>
    rw [insert]
    split
    · exact List.mem_cons
    split
    · next heq => simp [heq]
    · rw [List.mem_cons, List.mem_cons, ih, or_left_comm]

theorem pairwise_insert (h : ks.Pairwise (precedes ts · · = true)) :
    (insert ts j ks).Pairwise (precedes ts · · = true) := by
  induction ks with
  | nil => exact List.pairwise_singleton _ _
  | cons l ks ih =>
    obtain ⟨hl, hks⟩ := List.pairwise_cons.1 h
    rw [insert]
    split
    · next hj =>
      refine List.pairwise_cons.2 ⟨fun k hk => ?_, h⟩
      rcases List.mem_cons.1 hk with rfl | hk
      · exact hj
      · exact precedes_trans hj (hl k hk)
    split
    · exact h
    · next hj hne =>
      refine List.pairwise_cons.2 ⟨fun k hk => ?_, ih hks⟩
      rcases mem_insert.1 hk with rfl | hk
      · exact precedes_of_not hj hne
      · exact hl k hk

/-! ## Open places -/

/-- A place that is still to come and waits only for places that are done. -/
structure IsOpen (g : Prerequisites) (ts : List Target) (done : List Nat) (i : Nat) : Prop where
  bound : i < ts.length
  new : i ∉ done
  waits : ∀ j ∈ waitsFor g ts i, j ∈ done

/-- The earliest of the open places. -/
structure IsNext (g : Prerequisites) (ts : List Target) (done : List Nat) (i : Nat) : Prop where
  isOpen : IsOpen g ts done i
  least : ∀ j, IsOpen g ts done j → j ≠ i → precedes ts i j = true

/-! ## Counts -/

/-- How many targets the `j`-th one waits for that are still to come. -/
def missing (g : Prerequisites) (ts : List Target) (done : List Nat) (j : Nat) : Nat :=
  (waitsFor g ts j).countP (!done.contains ·)

theorem missing_nil : missing g ts [] j = (waitsFor g ts j).length := by
  simp [missing]

theorem missing_eq_zero_iff : missing g ts done j = 0 ↔ ∀ k ∈ waitsFor g ts j, k ∈ done := by
  simp [missing, List.countP_eq_zero]

/-- A target that is worked out is missing no more, to those that wait for it. -/
theorem missing_eq_add (hi : i ∉ done) :
    missing g ts done j = missing g ts (done ++ [i]) j + (waitsFor g ts j).count i := by
  unfold missing
  induction waitsFor g ts j with
  | nil => rfl
  | cons k ks ih =>
    rw [List.countP_cons, List.countP_cons, List.count_cons, ih]
    by_cases hki : k = i
    · subst hki
      simp [hi]
      omega
    · simp [hki]
      omega

theorem count_dependents (hj : j < ts.length) :
    (dependents g ts i).count j = (waitsFor g ts j).count i := by
  have key : ∀ n, ((List.range n).flatMap fun k =>
      List.replicate ((waitsFor g ts k).count i) k).count j =
        if j < n then (waitsFor g ts j).count i else 0 := by
    intro n
    induction n with
    | zero => rfl
    | succ n ih =>
      rw [List.range_succ, List.flatMap_append, List.count_append, ih, List.flatMap_singleton,
        List.count_replicate]
      by_cases hjn : j = n
      · simp [hjn]
      · have hlt : j < n + 1 ↔ j < n := by omega
        simp [hlt, Ne.symm hjn]
  rw [dependents, key, if_pos hj]

theorem mem_dependents : j ∈ dependents g ts i ↔ j < ts.length ∧ i ∈ waitsFor g ts j := by
  simp only [dependents, List.mem_flatMap, List.mem_range, List.mem_replicate]
  constructor
  · rintro ⟨k, hk, hcount, rfl⟩
    exact ⟨hk, List.count_pos_iff.1 (Nat.pos_of_ne_zero hcount)⟩
  · rintro ⟨hj, hi⟩
    exact ⟨j, hj, Nat.ne_of_gt (List.count_pos_iff.2 hi), rfl⟩

/-- The worklist after the places of `done`, when those of `owed` are still to be
    released. -/
structure Owes (g : Prerequisites) (ts : List Target) (done owed : List Nat) (w : Worklist) :
    Prop where
  length : w.waiting.length = ts.length
  waiting : ∀ j < ts.length, w.waiting[j]? = some (missing g ts done j + owed.count j)
  mem_ready : ∀ j, j ∈ w.ready ↔ w.waiting[j]? = some 0 ∧ j ∉ done
  sorted : w.ready.Pairwise (precedes ts · · = true)

theorem owes_start : Owes g ts [] [] (start g ts) where
  length := by simp [start]
  waiting j hj := by simp [start, hj, missing_nil]
  mem_ready j := by
    have key : ∀ ks : List Nat, j ∈ ks.foldr (insert ts) [] ↔ j ∈ ks := by
      intro ks
      induction ks with
      | nil => exact Iff.rfl
      | cons k ks ih => rw [List.foldr_cons, mem_insert, ih, List.mem_cons]
    rw [start, key]
    by_cases hj : j < ts.length <;> simp [hj]
  sorted := by
    rw [start]
    induction (List.range ts.length).filter fun i => (waitsFor g ts i).isEmpty with
    | nil => exact List.Pairwise.nil
    | cons k ks ih => exact pairwise_insert ih

/-- **One target is released.** Its count is positive. -/
theorem Owes.release (h : Owes g ts done (j :: owed) w) (hj : j < ts.length) (hnew : j ∉ done) :
    Owes g ts done owed (release ts w j) := by
  have hcount : w.waiting[j]? = some (missing g ts done j + owed.count j + 1) := by
    rw [h.waiting j hj, List.count_cons_self]
    rfl
  have hleft : w.waiting.getD j 0 - 1 = missing g ts done j + owed.count j := by
    rw [List.getD_eq_getElem?_getD, hcount]
    rfl
  have hself : (w.waiting.set j (missing g ts done j + owed.count j))[j]? =
      some (missing g ts done j + owed.count j) :=
    List.getElem?_set_self (h.length ▸ hj)
  have hothers : ∀ k, k ≠ j →
      (w.waiting.set j (missing g ts done j + owed.count j))[k]? = w.waiting[k]? :=
    fun k hk => List.getElem?_set_ne (Ne.symm hk)
  unfold Order.release
  simp only [hleft]
  refine ⟨by rw [List.length_set, h.length], fun k hk => ?_, fun k => ?_, ?_⟩
  · by_cases hkj : k = j
    · rw [hkj, hself]
    · rw [hothers k hkj, h.waiting k hk, List.count_cons_of_ne (Ne.symm hkj)]
  · by_cases hkj : k = j
    · subst hkj
      rw [hself]
      split
      · next hzero => simp [mem_insert, hzero, hnew]
      · next hzero =>
        refine iff_of_false (fun hk => ?_) fun hk => hzero (Option.some.inj hk.1)
        exact absurd (hcount.symm.trans ((h.mem_ready k).1 hk).1) (by simp)
    · rw [hothers k hkj, ← h.mem_ready k]
      split
      · rw [mem_insert]
        exact or_iff_right hkj
      · exact Iff.rfl
  · split
    · exact pairwise_insert h.sorted
    · exact h.sorted

theorem Owes.releaseAll (h : Owes g ts done owed w) (hlt : ∀ j ∈ owed, j < ts.length)
    (hnew : ∀ j ∈ owed, j ∉ done) : Owes g ts done [] (owed.foldl (Order.release ts) w) := by
  induction owed generalizing w with
  | nil => exact h
  | cons j owed ih =>
    rw [List.forall_mem_cons] at hlt hnew
    exact ih (h.release hlt.1 hnew.1) hlt.2 hnew.2

/-- With right counts, the open places are ready. -/
theorem Owes.mem_ready_iff (h : Owes g ts done [] w) : k ∈ w.ready ↔ IsOpen g ts done k := by
  rw [h.mem_ready]
  constructor
  · rintro ⟨hzero, hnew⟩
    have hlt : k < ts.length := h.length ▸ (List.getElem?_eq_some_iff.1 hzero).1
    rw [h.waiting k hlt] at hzero
    exact ⟨hlt, hnew, missing_eq_zero_iff.1 (Option.some.inj hzero)⟩
  · intro hk
    rw [h.waiting k hk.bound, missing_eq_zero_iff.2 hk.waits]
    exact ⟨rfl, hk.new⟩

/-- **The first of the ready places is the next one.** -/
theorem Owes.isNext (h : Owes g ts done [] w) (hready : w.ready = i :: ready) :
    IsNext g ts done i := by
  refine ⟨h.mem_ready_iff.1 (hready ▸ List.mem_cons_self), fun j hj hne => ?_⟩
  have hmem := h.mem_ready_iff.2 hj
  have hsorted := h.sorted
  rw [hready] at hmem hsorted
  rcases List.mem_cons.1 hmem with heq | hmem
  · exact absurd heq hne
  · exact (List.pairwise_cons.1 hsorted).1 j hmem

/-- **The first of the ready places is worked out.** What is done waits for nothing else,
    so no dependent of that place is done. -/
theorem Owes.next (h : Owes g ts done [] w) (hready : w.ready = i :: ready)
    (hclosed : ∀ j ∈ done, ∀ k ∈ waitsFor g ts j, k ∈ done) :
    Owes g ts (done ++ [i]) [] ((dependents g ts i).foldl (Order.release ts) { w with ready }) := by
  have hopen : IsOpen g ts done i := (h.isNext hready).isOpen
  have hsorted := h.sorted
  rw [hready, List.pairwise_cons] at hsorted
  have howes : Owes g ts (done ++ [i]) (dependents g ts i) { w with ready } := by
    refine ⟨h.length, fun j hj => ?_, fun j => ?_, hsorted.2⟩
    · rw [h.waiting j hj, missing_eq_add hopen.new, count_dependents hj]
      rfl
    · have hmem := h.mem_ready j
      rw [hready, List.mem_cons] at hmem
      by_cases hji : j = i
      · have hnot : i ∉ ready := fun hi => by
          have hself := hsorted.1 i hi
          rw [precedes_iff] at hself
          omega
        simp [hji, hnot]
      · simpa [hji] using hmem
  refine howes.releaseAll (fun j hj => (mem_dependents.1 hj).1) fun j hj hdone => ?_
  have hi := (mem_dependents.1 hj).2
  rcases List.mem_append.1 hdone with hdone | hself
  · exact hopen.new (hclosed j hdone i hi)
  · rw [List.mem_singleton.1 hself] at hi
    exact hopen.new (hopen.waits i hi)

end Order

end Screenmark
