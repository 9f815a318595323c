/-
  Screenmark — writing files.

  A path *takes* a file if it leads to a place in a folder, and the place is no folder
  itself (`Tree.Takes`). A file is written exactly there, and folders stay folders; so
  all paths lead where they led, and take files as before (`Takes.put`).

  * `readText_put_self`, `readText_put_of_ne` : a text that is written can be read, and
    texts at other places stay;
  * `Takes.congr` : which paths take files hangs on the folders of the tree only;
  * `locate_append_inj` : two names behind the same beginning of a path lead to two
    places.
-/
import Screenmark.Files.Tree
import Screenmark.Proofs.Text.Fields

namespace Screenmark.Tree

open Text

variable {t t' : Tree} {here place q : List String} {i : Item} {path s : String}

/-! ## Folders stay -/

@[simp] theorem put_home : (t.put place i).home = t.home := rfl

/-- The working folder and those above it are folders whatever the items are. -/
theorem itemAt?_above (h : q.isPrefixOf t.home = true) : t.itemAt? q = some .folder := if_pos h

theorem itemAt?_below (h : ¬ q.isPrefixOf t.home = true) : t.itemAt? q = t.items.find? (key q) :=
  if_neg h

theorem itemAt?_put : (t.put place i).itemAt? q =
    if q.isPrefixOf t.home then some .folder
    else if key place = key q then some i else t.itemAt? q := by
  rw [itemAt?, put_home]
  split
  · rfl
  · next hbelow => rw [itemAt?_below hbelow, put, NameMap.find?_insert]

/-- An item that is not put over a folder leaves all folders. -/
theorem itemAt?_put_folder (hplace : t.itemAt? place ≠ some .folder)
    (hq : t.itemAt? q = some .folder) : (t.put place i).itemAt? q = some .folder := by
  rw [itemAt?_put]
  split
  · rfl
  · next hne =>
    split
    · next hkey =>
      -- Then the folder would be the item that is at the place.
      refine absurd ?_ hplace
      rw [itemAt?_below hne] at hq
      rw [itemAt?, hkey, hq, ite_self]
    · exact hq

/-- A path leads to the same place in a tree with more folders. -/
theorem walk_mono (h : ∀ q, t.itemAt? q = some .folder → t'.itemAt? q = some .folder) :
    ∀ {ps here : List String}, t.walk here ps = .ok q → t'.walk here ps = .ok q
  | [], _, hwalk => hwalk
  | p :: ps, here, hwalk => by
    rw [walk] at hwalk ⊢
    split at hwalk
    · cases hwalk
    · next hhere =>
      rw [h here hhere]
      dsimp only
      split
      · next hup =>
        rw [if_pos hup] at hwalk
        exact walk_mono h hwalk
      · next hup =>
        rw [if_neg hup] at hwalk
        split
        · next hlong =>
          rw [if_pos hlong] at hwalk
          cases hwalk
        · next hlong =>
          rw [if_neg hlong] at hwalk
          exact walk_mono h hwalk
    · cases hwalk

theorem locate_eq_ok_iff : t.locate path = .ok q ↔
    path.isEmpty = false ∧ t.walk (t.base path) (Path.parts path) = .ok q := by
  rw [locate]
  cases path.isEmpty <;> simp

theorem locate_mono (hhome : t'.home = t.home)
    (h : ∀ q, t.itemAt? q = some .folder → t'.itemAt? q = some .folder)
    (hlocate : t.locate path = .ok q) : t'.locate path = .ok q := by
  rw [locate_eq_ok_iff] at hlocate ⊢
  have hbase : t'.base path = t.base path := by rw [base, base, hhome]
  exact ⟨hlocate.1, hbase ▸ walk_mono h hlocate.2⟩

theorem locate_put (hplace : t.itemAt? place ≠ some .folder) (h : t.locate path = .ok q) :
    (t.put place i).locate path = .ok q :=
  locate_mono put_home (fun _ => itemAt?_put_folder hplace) h

/-! ## Paths that take files -/

/-- The path leads to a place for a file. -/
structure Takes (t : Tree) (path : String) (place : List String) : Prop where
  locate : t.locate path = .ok place
  folder : t.itemAt? place.dropLast = some .folder
  free : t.itemAt? place ≠ some .folder

theorem write_eq_ok (h : t.write path i = .ok t') :
    ∃ place, t.Takes path place ∧ t' = t.put place i := by
  unfold write at h
  split at h
  · cases h
  · next place hlocate =>
    split at h
    · cases h
    · next hfree =>
      split at h
      · next hfolder => exact ⟨place, ⟨hlocate, hfolder, hfree⟩, (Except.ok.inj h).symm⟩
      · cases h
      · cases h

/-- A path takes a file if a text can be written there. -/
theorem exists_takes (h : (t.write path i).toOption.isSome = true) :
    ∃ place, t.Takes path place := by
  rcases hwrite : t.write path i with e | t'
  · rw [hwrite] at h
    cases h
  · obtain ⟨place, htakes, -⟩ := write_eq_ok hwrite
    exact ⟨place, htakes⟩

theorem Takes.write_eq (h : t.Takes path place) : t.write path i = .ok (t.put place i) := by
  unfold write
  rw [h.locate]
  dsimp only
  split
  · next hfolder => exact absurd hfolder h.free
  · rw [h.folder]

theorem Takes.below (h : t.Takes path place) : ¬ place.isPrefixOf t.home = true :=
  fun habove => h.free (itemAt?_above habove)

/-- **A path that takes a file goes on to do so** when a text is written. -/
theorem Takes.put (h : t.Takes path place) (hq : t.itemAt? q ≠ some .folder) :
    (t.put q (.text s)).Takes path place where
  locate := locate_put hq h.locate
  folder := itemAt?_put_folder hq h.folder
  free := by
    rw [itemAt?_put, if_neg h.below]
    split
    · simp
    · exact h.free

theorem Takes.readText_put_self (h : t.Takes path place) :
    (t.put place (.text s)).readText path = .ok s := by
  rw [readText, item, locate_put h.free h.locate]
  dsimp only
  rw [itemAt?_put, if_neg h.below, if_pos rfl]

theorem Takes.readText_put_of_ne (h : t.Takes path place) (hq : t.itemAt? q ≠ some .folder)
    (hne : key q ≠ key place) : (t.put q (.text s)).readText path = t.readText path := by
  have hitem : (t.put q (.text s)).itemAt? place = t.itemAt? place := by
    rw [itemAt?_put, if_neg h.below, if_neg hne]
  rw [readText, readText, item, item, locate_put hq h.locate, h.locate]
  dsimp only
  rw [hitem]

/-! ## Trees with the same folders -/

/-- The trees have the same folders, whatever else there is in them. -/
structure SameFolders (t t' : Tree) : Prop where
  home : t.home = t'.home
  folders : ∀ q, t.itemAt? q = some .folder ↔ t'.itemAt? q = some .folder

theorem SameFolders.refl (t : Tree) : t.SameFolders t := ⟨rfl, fun _ => Iff.rfl⟩

theorem SameFolders.symm (h : t.SameFolders t') : t'.SameFolders t :=
  ⟨h.home.symm, fun q => (h.folders q).symm⟩

theorem SameFolders.trans {t'' : Tree} (h : t.SameFolders t') (h' : t'.SameFolders t'') :
    t.SameFolders t'' := ⟨h.home.trans h'.home, fun q => (h.folders q).trans (h'.folders q)⟩

/-- Which paths take a file hangs on the folders only. -/
theorem Takes.congr (h : t.Takes path place) (hsame : t.SameFolders t') : t'.Takes path place where
  locate := locate_mono hsame.home.symm (fun q => (hsame.folders q).1) h.locate
  folder := (hsame.folders _).1 h.folder
  free := fun hfolder => h.free ((hsame.folders _).2 hfolder)

theorem sameFolders_put (hplace : t.itemAt? place ≠ some .folder) :
    t.SameFolders (t.put place (.text s)) := by
  refine ⟨rfl, fun q => ⟨itemAt?_put_folder hplace, fun hq => ?_⟩⟩
  rw [itemAt?_put] at hq
  split at hq
  · next habove => exact itemAt?_above habove
  · split at hq
    · cases hq
    · exact hq

/-! ## Names in one folder -/

/-- The names of a folder have different keys. -/
theorem key_concat_inj {n n' : String} (h : key (here ++ [n]) = key (here ++ [n'])) : n = n' := by
  by_cases hhere : here = []
  · subst hhere
    simpa [key] using h
  · rw [key, key, String.intercalate_append_of_ne_nil hhere (by simp),
      String.intercalate_append_of_ne_nil hhere (by simp)] at h
    simpa using h

/-- A way that ends with a name leads into a folder. -/
theorem walk_concat {n : String} (hn : n ≠ "..") : ∀ {ps here : List String},
    t.walk here (ps ++ [n]) = .ok place → ∃ q, t.walk here ps = .ok q ∧ place = q ++ [n]
  | [], here, h => by
    rw [List.nil_append, walk] at h
    split at h
    · cases h
    · rw [if_neg hn] at h
      split at h
      · cases h
      · exact ⟨here, rfl, (Except.ok.inj h).symm⟩
    · cases h
  | p :: ps, here, h => by
    rw [List.cons_append, walk] at h
    rw [walk]
    split at h
    · cases h
    · split at h
      · next hup =>
        rw [if_pos hup]
        exact walk_concat hn h
      · next hup =>
        rw [if_neg hup]
        split at h
        · cases h
        · next hlong =>
          rw [if_neg hlong]
          exact walk_concat hn h
    · cases h

/-- The parts of a path that ends with a long name. -/
theorem exists_parts_append (x : String) : ∃ ps last, ∀ y : String, '/' ∉ y.toList →
    2 < y.toList.length → Path.parts (x ++ y) = ps ++ [String.ofList (last ++ y.toList)] := by
  obtain ⟨init, last, -, happend⟩ := exists_pieces_append '/' x.toList
  refine ⟨(init.filter fun q => q ≠ [] ∧ q ≠ ['.']).map String.ofList, last, fun y hy hlong => ?_⟩
  have hlast : last ++ y.toList ≠ [] ∧ last ++ y.toList ≠ ['.'] := by
    constructor <;> intro heq <;> have hlength := congrArg List.length heq <;>
      simp only [List.length_append, List.length_nil, List.length_singleton] at hlength <;> omega
  have hkept : [last ++ y.toList].filter (fun q => q ≠ [] ∧ q ≠ ['.']) = [last ++ y.toList] := by
    refine List.filter_eq_self.2 fun q hq => ?_
    rw [List.mem_singleton.1 hq]
    exact decide_eq_true hlast
  rw [Path.parts, String.toList_append, happend y.toList hy, List.filter_append, List.map_append,
    hkept]
  rfl

/-- What follows the beginning of a path does not make it absolute. -/
theorem startsWith_slash_append {x y : String} (hy : y.toList.head? ≠ some '/') :
    (x ++ y).startsWith "/" = x.startsWith "/" := by
  have hslash : "/".toList = ['/'] := rfl
  rw [Bool.eq_iff_iff, String.startsWith_string_iff, String.startsWith_string_iff,
    String.toList_append, hslash]
  rcases x.toList with _ | ⟨d, ds⟩
  · rcases hlist : y.toList with _ | ⟨c, cs⟩
    · simp
    · have hne : '/' ≠ c := fun heq => hy (by rw [hlist, heq]; rfl)
      simp [hne]
  · simp

theorem base_append {x y : String} (hy : '/' ∉ y.toList) : t.base (x ++ y) = t.base x := by
  rw [base, base, startsWith_slash_append fun hhead => hy (List.mem_of_head? hhead)]

/-- **Two names behind the same beginning of a path lead to two places.** -/
theorem locate_append_inj {x y z : String} {q' : List String} (hy : '/' ∉ y.toList)
    (hz : '/' ∉ z.toList) (hylong : 2 < y.toList.length) (hzlong : 2 < z.toList.length)
    (hq : t.locate (x ++ y) = .ok q) (hq' : t.locate (x ++ z) = .ok q') (hkey : key q = key q') :
    y = z := by
  obtain ⟨ps, last, hparts⟩ := exists_parts_append x
  have hdots : ∀ {y : String}, 2 < y.toList.length → String.ofList (last ++ y.toList) ≠ ".." := by
    intro y hlong heq
    have hlength := congrArg (fun s : String => s.toList.length) heq
    simp only [String.toList_ofList, List.length_append] at hlength
    have : "..".toList.length = 2 := rfl
    omega
  have hwy := (locate_eq_ok_iff.1 hq).2
  have hwz := (locate_eq_ok_iff.1 hq').2
  rw [base_append hy, hparts y hy hylong] at hwy
  rw [base_append hz, hparts z hz hzlong] at hwz
  obtain ⟨here, hhere, rfl⟩ := walk_concat (hdots hylong) hwy
  obtain ⟨here', hhere', rfl⟩ := walk_concat (hdots hzlong) hwz
  obtain rfl : here = here' := Except.ok.inj (hhere.symm.trans hhere')
  have hname := String.ofList_injective (key_concat_inj hkey)
  exact String.toList_inj.1 (List.append_cancel_left hname)

end Screenmark.Tree
