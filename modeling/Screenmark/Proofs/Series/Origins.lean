/-
  Screenmark — where tracks come from.

  Every track carries its origin from the moment it is put in, and rows that are added later
  do not change it. So what a step does to origins is told by the names that it puts in
  (`Tracks.Stamps`), and steps one after the other put in the names of both.

  * `Tracks.count_eq_length` : the tracks of an origin are counted by listing their names.
-/
import Screenmark.Proofs.Series.First

namespace Screenmark

namespace Tracks

variable {ts us vs : Tracks} {ns ms : List String} {n : String} {o : Origin} {t : Track}

/-- The origin of the track of a name. -/
def originOf? (ts : Tracks) (n : String) : Option Origin := (ts.find? n).map (·.origin)

/-! ## Putting in tracks of an origin -/

/-- Tracks of an origin were put in under the names, and no other name has another origin
    than before. -/
structure Stamps (ts : Tracks) (ns : List String) (o : Origin) (us : Tracks) : Prop where
  written : ∀ n ∈ ns, us.originOf? n = some o
  others : ∀ n, n ∉ ns → us.originOf? n = ts.originOf? n

theorem Stamps.refl (ts : Tracks) (o : Origin) : ts.Stamps [] o ts where
  written _ hn := absurd hn List.not_mem_nil
  others _ _ := rfl

theorem Stamps.append (h : ts.Stamps ns o us) (h' : us.Stamps ms o vs) :
    ts.Stamps (ns ++ ms) o vs where
  written n hn := by
    by_cases hm : n ∈ ms
    · exact h'.written n hm
    · rw [h'.others n hm]
      exact h.written n ((List.mem_append.1 hn).resolve_right hm)
  others n hn := by
    rw [List.mem_append, not_or] at hn
    rw [h'.others n hn.2, h.others n hn.1]

theorem originOf?_insert (ts : Tracks) (n : String) (t : Track) (m : String) :
    (ts.insert n t).originOf? m = if n = m then some t.origin else ts.originOf? m := by
  rw [originOf?, find?_insert]
  split <;> rfl

theorem stamps_insert (ts : Tracks) (n : String) (t : Track) :
    ts.Stamps [n] t.origin (ts.insert n t) where
  written m hm := by
    rw [List.mem_singleton.1 hm, originOf?_insert, if_pos rfl]
  others m hm := by
    rw [originOf?_insert, if_neg fun h => hm (List.mem_singleton.2 h.symm)]

theorem origin_eq_of_begins {u : Track} (h : t.Begins u) : u.origin = t.origin := by
  induction h with
  | self => rfl
  | push _ hpush ih =>
    simp only [Track.push?, Option.map_eq_some_iff] at hpush
    obtain ⟨s, -, rfl⟩ := hpush
    exact ih

/-- Added rows leave all origins. -/
theorem originOf?_eq_of_begins (h : ts.Begins us) (n : String) :
    us.originOf? n = ts.originOf? n := by
  have hn := h n
  unfold originOf?
  generalize ts.find? n = x at hn
  generalize us.find? n = y at hn
  cases hn with
  | none => rfl
  | some hbegins => exact congrArg some (origin_eq_of_begins hbegins)

theorem Stamps.begins (h : ts.Stamps ns o us) (h' : us.Begins vs) : ts.Stamps ns o vs where
  written n hn := (originOf?_eq_of_begins h' n).trans (h.written n hn)
  others n hn := (originOf?_eq_of_begins h' n).trans (h.others n hn)

/-! ## Counting -/

/-- The names of the tracks of an origin, in order. -/
def namesOf (ts : Tracks) (o : Origin) : List String :=
  (ts.byName.entries.filter fun e => e.2.origin = o).map (·.1)

theorem mem_namesOf : n ∈ ts.namesOf o ↔ ts.originOf? n = some o := by
  simp only [namesOf, List.mem_map, List.mem_filter, decide_eq_true_eq, originOf?,
    Option.map_eq_some_iff]
  constructor
  · rintro ⟨⟨m, t⟩, ⟨hmem, horigin⟩, rfl⟩
    exact ⟨t, NameMap.mem_entries_iff.1 hmem, horigin⟩
  · rintro ⟨t, ht, horigin⟩
    exact ⟨(n, t), ⟨NameMap.mem_entries_iff.2 ht, horigin⟩, rfl⟩

theorem nodup_namesOf (ts : Tracks) (o : Origin) : (ts.namesOf o).Nodup := by
  refine List.pairwise_map.2 ((ts.byName.sorted.filter _).imp fun hlt heq => ?_)
  rw [heq] at hlt
  exact String.lt_irrefl _ hlt

theorem count_eq (ts : Tracks) (o : Origin) : ts.count o = (ts.namesOf o).length := by
  rw [count, NameMap.values, List.countP_map, List.countP_eq_length_filter, namesOf,
    List.length_map]
  rfl

/-- As many tracks have an origin as a list of their names is long. -/
theorem count_eq_length (hnd : ns.Nodup) (h : ∀ n, n ∈ ns ↔ ts.originOf? n = some o) :
    ts.count o = ns.length := by
  rw [count_eq]
  refine ((List.perm_ext_iff_of_nodup (nodup_namesOf ts o) hnd).2 fun n => ?_).length_eq
  rw [mem_namesOf, h]

end Tracks

end Screenmark
