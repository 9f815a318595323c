/-
  Screenmark — tracks of one length.

  The tracks of earlier runs belong to one recording, so no two of them may differ by more
  than one frame: `Tracks.IsAligned`. The check compares the shortest of them with the
  longest, and it accepts exactly the tracks that are aligned (`checkAligned_eq_ok_iff`).

  * `size_of_parse` : the tracks of one file are all as long as its table;
  * `isAligned_putAll_iff` : when tracks of one length fit to those that stay.
-/
import Screenmark.Series.Logged
import Screenmark.Series.Tracks

namespace Screenmark

namespace Tracks

variable {ts : Tracks} {n : String} {t : Track}

/-! ## The check -/

/-- No two tracks of earlier runs differ by more than one frame. -/
def IsAligned (ts : Tracks) : Prop := ∀ n m t u, ts.find? n = some t → ts.find? m = some u →
  t.origin = .logged → u.origin = .logged → t.size ≤ u.size + 1

theorem mem_loggedNames : n ∈ ts.loggedNames ↔ ∃ t, ts.find? n = some t ∧ t.origin = .logged := by
  simp only [loggedNames, List.mem_map, List.mem_filter, decide_eq_true_eq]
  constructor
  · rintro ⟨⟨m, t⟩, ⟨hmem, horigin⟩, rfl⟩
    exact ⟨t, NameMap.mem_entries_iff.1 hmem, horigin⟩
  · rintro ⟨t, ht, horigin⟩
    exact ⟨(n, t), ⟨NameMap.mem_entries_iff.2 ht, horigin⟩, rfl⟩

theorem sizeOf_eq (h : ts.find? n = some t) : ts.sizeOf n = t.size := by
  rw [sizeOf, h]
  rfl

/-- None of the names has a size that is better than that of the one that is found. -/
theorem firstBest_cons (better : Nat → Nat → Bool) (size : String → Nat)
    (hasymm : ∀ a b, better a b = true → better b a = false)
    (htrans : ∀ a b c, better a b = false → better b c = false → better a c = false)
    (n : String) (ns : List String) :
    ∃ b ∈ n :: ns, firstBest better size (n :: ns) = some b ∧
      ∀ m ∈ n :: ns, better (size m) (size b) = false := by
  have hirrefl : ∀ a, better a a = false := fun a =>
    Bool.eq_false_iff.2 fun h => by simpa [h] using hasymm a a h
  suffices ∀ best, ∃ b ∈ best :: ns,
      ns.foldl (fun best n => if better (size n) (size best) then n else best) best = b ∧
        ∀ m ∈ best :: ns, better (size m) (size b) = false by
    obtain ⟨b, hb, hfold, hbest⟩ := this n
    exact ⟨b, hb, congrArg some hfold, hbest⟩
  induction ns with
  | nil => exact fun best => ⟨best, List.mem_cons_self, rfl, by simp [hirrefl]⟩
  | cons m ns ih =>
    intro best
    rw [List.foldl_cons]
    split
    · next hm =>
      obtain ⟨b, hb, hfold, hbest⟩ := ih m
      refine ⟨b, List.mem_cons_of_mem _ hb, hfold, List.forall_mem_cons.2 ⟨?_, hbest⟩⟩
      exact htrans _ _ _ (hasymm _ _ hm) (hbest m List.mem_cons_self)
    · next hm =>
      obtain ⟨b, hb, hfold, hbest⟩ := ih best
      rw [List.forall_mem_cons] at hbest
      refine ⟨b, ?_, hfold, List.forall_mem_cons.2 ⟨hbest.1, List.forall_mem_cons.2 ⟨?_, hbest.2⟩⟩⟩
      · rcases List.mem_cons.1 hb with rfl | hb
        · exact List.mem_cons_self
        · exact List.mem_cons_of_mem _ (List.mem_cons_of_mem _ hb)
      · exact htrans _ _ _ (Bool.eq_false_iff.2 hm) hbest.1

/-- **The check accepts the names whose sizes differ by one at most.** -/
theorem checkAligned_eq_ok_iff {names : List String} : ts.checkAligned names = .ok () ↔
    ∀ n ∈ names, ∀ m ∈ names, ts.sizeOf n ≤ ts.sizeOf m + 1 := by
  cases names with
  | nil => simp [checkAligned, firstBest]
  | cons n ns =>
    obtain ⟨short, hshort, hleast, hmin⟩ := firstBest_cons (· < ·) ts.sizeOf
      (by simp; omega) (by simp; omega) n ns
    obtain ⟨long, hlong, hgreatest, hmax⟩ := firstBest_cons (· > ·) ts.sizeOf
      (by simp; omega) (by simp; omega) n ns
    simp only [decide_eq_false_iff_not] at hmin hmax
    rw [checkAligned, hleast, hgreatest]
    dsimp only
    constructor
    · intro h k hk m hm
      split at h
      · cases h
      · have := hmax k hk
        have := hmin m hm
        omega
    · intro h
      have := h long hlong short hshort
      rw [if_neg (by omega)]

theorem checkAligned_loggedNames : ts.checkAligned ts.loggedNames = .ok () ↔ ts.IsAligned := by
  rw [checkAligned_eq_ok_iff]
  constructor
  · intro h n m t u hn hm ht hu
    have := h n (mem_loggedNames.2 ⟨t, hn, ht⟩) m (mem_loggedNames.2 ⟨u, hm, hu⟩)
    rwa [sizeOf_eq hn, sizeOf_eq hm] at this
  · intro h n hn m hm
    obtain ⟨t, ht, horigin⟩ := mem_loggedNames.1 hn
    obtain ⟨u, hu, horigin'⟩ := mem_loggedNames.1 hm
    rw [sizeOf_eq ht, sizeOf_eq hu]
    exact h n m t u ht hu horigin horigin'

/-! ## Tracks put in one after another -/

/-- The tracks with others put in; of two with one name the later counts. -/
def putAll (ts : Tracks) (ps : List (String × Track)) : Tracks :=
  ps.foldl (fun ts p => ts.insert p.1 p.2) ts

variable {ps : List (String × Track)}

/-- The track that `ps` has for the name. -/
def latest? (ps : List (String × Track)) (n : String) : Option Track :=
  (ps.reverse.find? (·.1 = n)).map (·.2)

theorem find?_putAll (ts : Tracks) (ps : List (String × Track)) (n : String) :
    (ts.putAll ps).find? n = (latest? ps n).or (ts.find? n) := by
  induction ps generalizing ts with
  | nil => rfl
  | cons p ps ih =>
    rw [putAll, List.foldl_cons, ← putAll, ih, latest?, latest?, List.reverse_cons,
      List.find?_append, find?_insert]
    cases hrest : ps.reverse.find? (·.1 = n) with
    | some q => simp
    | none => by_cases hp : p.1 = n <;> simp [hp]

theorem threshold_putAll (ts : Tracks) (ps : List (String × Track)) :
    (ts.putAll ps).threshold = ts.threshold := by
  induction ps generalizing ts with
  | nil => rfl
  | cons p ps ih => exact ih _

theorem mem_of_latest? (h : latest? ps n = some t) : (n, t) ∈ ps := by
  obtain ⟨p, hp, rfl⟩ := Option.map_eq_some_iff.1 h
  have hname : p.1 = n := by simpa using List.find?_some hp
  rw [← hname]
  exact List.mem_reverse.1 (List.mem_of_find?_eq_some hp)

theorem latest?_eq_none_iff : latest? ps n = none ↔ ∀ p ∈ ps, p.1 ≠ n := by
  simp [latest?]

/-- Nothing changes if each of the tracks is there already. -/
theorem putAll_eq_self_iff : ts.putAll ps = ts ↔
    ∀ n t, latest? ps n = some t → ts.find? n = some t := by
  constructor
  · intro h n t ht
    rw [← h, find?_putAll, ht]
    rfl
  · intro h
    have hbyName : (ts.putAll ps).byName = ts.byName := by
      refine NameMap.ext_find? fun n => ?_
      have hn := find?_putAll ts ps n
      rcases ht : latest? ps n with _ | t
      · rwa [ht] at hn
      · rw [ht] at hn
        exact hn.trans (h n t ht).symm
    have hthreshold := threshold_putAll ts ps
    cases hts : ts.putAll ps
    rw [hts] at hbyName hthreshold
    cases hbyName
    cases hthreshold
    rfl

/-- The tracks `ps` differ by one frame at most from every track of an earlier run that
    stays beside them. -/
def Fit (ts : Tracks) (ps : List (String × Track)) : Prop := ∀ p ∈ ps, ∀ n t,
  ts.find? n = some t → t.origin = .logged → (∀ q ∈ ps, q.1 ≠ n) →
    t.size ≤ p.2.size + 1 ∧ p.2.size ≤ t.size + 1

/-- **Tracks of one length are put in beside aligned ones, and all are aligned just if
    the new tracks fit to those that stay.** -/
theorem isAligned_putAll_iff {k : Nat} (h : ts.IsAligned)
    (hps : ∀ p ∈ ps, p.2.size = k ∧ p.2.origin = .logged) :
    (ts.putAll ps).IsAligned ↔ ts.Fit ps := by
  have hfind : ∀ {n t}, (ts.putAll ps).find? n = some t →
      (n, t) ∈ ps ∨ (ts.find? n = some t ∧ ∀ q ∈ ps, q.1 ≠ n) := by
    intro n t hn
    rw [find?_putAll] at hn
    rcases hlatest : latest? ps n with _ | u
    · rw [hlatest] at hn
      exact .inr ⟨hn, latest?_eq_none_iff.1 hlatest⟩
    · rw [hlatest] at hn
      obtain rfl : u = t := Option.some.inj hn
      exact .inl (mem_of_latest? hlatest)
  constructor
  · intro hafter p hp n t hn horigin hstays
    obtain ⟨u, hu⟩ : ∃ u, latest? ps p.1 = some u := by
      rcases hlatest : latest? ps p.1 with _ | u
      · exact absurd rfl (latest?_eq_none_iff.1 hlatest p hp)
      · exact ⟨u, rfl⟩
    have hnew : (ts.putAll ps).find? p.1 = some u := by rw [find?_putAll, hu]; rfl
    have hold : (ts.putAll ps).find? n = some t := by
      rw [find?_putAll, latest?_eq_none_iff.2 hstays, hn]
      rfl
    obtain ⟨hsize, hlogged⟩ := hps _ (mem_of_latest? hu)
    have hto := hafter _ _ _ _ hold hnew horigin hlogged
    have hfrom := hafter _ _ _ _ hnew hold hlogged horigin
    rw [(hps p hp).1, ← hsize]
    exact ⟨hto, hfrom⟩
  · intro hfit n m t u hn hm ht hu
    rcases hfind hn with hn | ⟨hn, hstays⟩
    · rcases hfind hm with hm | ⟨hm, hstays'⟩
      · have hsize : t.size = u.size := (hps _ hn).1.trans (hps _ hm).1.symm
        omega
      · exact (hfit _ hn m u hm hu hstays').2
    · rcases hfind hm with hm | ⟨hm, -⟩
      · exact (hfit _ hm n t hn ht hstays).1
      · exact h n m t u hn hm ht hu

end Tracks

/-! ## The tracks of a file -/

namespace LoggedFile

variable {content origin : String} {threshold : Single} {rows : List (List String)}

theorem size_seriesOf (column : LoggedColumn) (fields : List String) :
    (seriesOf column threshold fields).size = fields.length := by
  cases column <;> simp [seriesOf, Series.size]

theorem size_annotationOf (base : Nat) (name : String) (column : LoggedColumn) :
    (annotationOf threshold rows base name column).track.size = rows.length := by
  rw [Track.size, annotationOf, size_seriesOf, columnOf, List.length_map]

theorem size_of_annotationsOf : ∀ {base : Nat} {header : List String}
    {as : List LoggedAnnotation}, annotationsOf origin threshold rows base header = .ok as →
      ∀ a ∈ as, a.track.size = rows.length ∧ a.track.origin = .logged := by
  intro base header
  induction base, header using annotationsOf.induct origin threshold rows with
  | case1 base c c' value rest hname =>
    intro as h
    rw [annotationsOf, hname] at h
    cases h
  | case2 base c c' value rest name column hname e hrest ih =>
    intro as h
    rw [annotationsOf, hname] at h
    simp only [hrest] at h
    cases h
  | case3 base c c' value rest name column hname bs hrest ih =>
    intro as h
    rw [annotationsOf, hname] at h
    simp only [hrest] at h
    cases h
    exact List.forall_mem_cons.2 ⟨⟨size_annotationOf base name column, rfl⟩, ih hrest⟩
  | case4 base header hshort =>
    intro as h
    rw [annotationsOf] at h
    · cases h
      exact fun a ha => by cases ha
    · exact hshort

/-- **The tracks of a file are as long as its table.** -/
theorem size_of_parse {frames : Nat} {as : List LoggedAnnotation}
    (h : parse content origin threshold = .ok (.annotations frames as)) :
    ∀ a ∈ as, a.track.size = frames ∧ a.track.origin = .logged := by
  unfold parse at h
  split at h
  · cases h
  · dsimp only at h
    split at h
    · split at h
      · cases h
      · split at h
        · cases h
        · cases h
    · split at h
      · cases h
      · split at h
        · cases h
        · next bs hbs =>
          cases h
          exact size_of_annotationsOf hbs

end LoggedFile

end Screenmark
