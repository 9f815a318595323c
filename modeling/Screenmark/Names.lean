/-
  Screenmark — finite maps from names.

  Tracks, prerequisites, operators and files are kept by name, in the order of
  the names (by code point, which is also the order of their UTF-8 bytes). A map
  is the list of its entries in that order, so two maps with the same entries
  are equal.

  * `find?` is the view: `find?_insert` and `find?_modify` say what the
    operations do to it;
  * `ext_find?` : maps with the same view are equal;
  * `keys` and `entries` are in increasing order.
-/

namespace Screenmark

/-- A finite map from names. -/
structure NameMap (α : Type) where
  /-- The names with their values, in increasing order. -/
  entries : List (String × α)
  /-- Each name stands before those that are greater. -/
  sorted : entries.Pairwise fun a b => a.1 < b.1

namespace NameMap

variable {α β : Type}

/-! ## The view -/

/-- The value in a list of entries. -/
def lookup (k : String) : List (String × α) → Option α
  | [] => none
  | (k', v) :: es => if k' = k then some v else lookup k es

/-- The value of a name. -/
def find? (m : NameMap α) (k : String) : Option α := lookup k m.entries

/-- Whether the map has a value for the name. -/
def contains (m : NameMap α) (k : String) : Bool := (m.find? k).isSome

/-- The names that have a value, in increasing order. -/
def keys (m : NameMap α) : List String := m.entries.map (·.1)

/-- The values, in the order of their names. -/
def values (m : NameMap α) : List α := m.entries.map (·.2)

/-- The number of names. -/
def size (m : NameMap α) : Nat := m.entries.length

theorem contains_iff {m : NameMap α} {k : String} :
    m.contains k = true ↔ ∃ v, m.find? k = some v := Option.isSome_iff_exists

theorem contains_eq_false_iff {m : NameMap α} {k : String} :
    m.contains k = false ↔ m.find? k = none :=
  Option.isSome_eq_false_iff.trans Option.isNone_iff_eq_none

theorem lookup_eq_none {k : String} {es : List (String × α)} (h : ∀ e ∈ es, e.1 ≠ k) :
    lookup k es = none := by
  induction es with
  | nil => rfl
  | cons e es ih =>
    rw [lookup, if_neg (h e (by simp)), ih fun d hd => h d (by simp [hd])]

theorem lookup_eq_some {k : String} {v : α} {es : List (String × α)} (h : lookup k es = some v) :
    (k, v) ∈ es := by
  induction es with
  | nil => simp [lookup] at h
  | cons e es ih =>
    rw [lookup] at h
    split at h
    · next hk => simp at h; subst h hk; simp
    · exact List.mem_cons_of_mem _ (ih h)

theorem lookup_of_mem {k : String} {v : α} {es : List (String × α)}
    (hs : es.Pairwise fun a b => a.1 < b.1) (h : (k, v) ∈ es) : lookup k es = some v := by
  induction es with
  | nil => simp at h
  | cons e es ih =>
    rw [List.pairwise_cons] at hs
    rw [lookup]
    rcases List.mem_cons.1 h with rfl | h
    · simp
    · have hne : e.1 ≠ k := fun he => by
        have := hs.1 _ h
        rw [he] at this
        exact absurd this (String.lt_irrefl k)
      rw [if_neg hne, ih hs.2 h]

theorem mem_entries_iff {m : NameMap α} {k : String} {v : α} :
    (k, v) ∈ m.entries ↔ m.find? k = some v :=
  ⟨lookup_of_mem m.sorted, lookup_eq_some⟩

/-! ## Building -/

/-- The map without entries. -/
def empty : NameMap α := ⟨[], List.Pairwise.nil⟩

instance : EmptyCollection (NameMap α) := ⟨empty⟩
instance : Inhabited (NameMap α) := ⟨empty⟩

/-- The entries with the value of `k` set to `v`. -/
def insertEntry (k : String) (v : α) : List (String × α) → List (String × α)
  | [] => [(k, v)]
  | (k', v') :: es =>
    if k < k' then (k, v) :: (k', v') :: es
    else if k' = k then (k, v) :: es
    else (k', v') :: insertEntry k v es

theorem mem_insertEntry {k : String} {v : α} {es : List (String × α)} {e : String × α}
    (h : e ∈ insertEntry k v es) : e = (k, v) ∨ e ∈ es := by
  induction es with
  | nil => simpa [insertEntry] using h
  | cons d es ih =>
    rw [insertEntry] at h
    split at h
    · simpa using h
    · split at h
      · rcases List.mem_cons.1 h with h | h <;> simp [h]
      · rcases List.mem_cons.1 h with h | h
        · simp [h]
        · rcases ih h with h | h <;> simp [h]

theorem lt_of_not_lt_of_ne {a b : String} (h : ¬ a < b) (hne : b ≠ a) : b < a :=
  Decidable.byContradiction fun h' =>
    hne (String.le_antisymm (String.not_lt.1 h) (String.not_lt.1 h'))

theorem insertEntry_sorted {k : String} {v : α} {es : List (String × α)}
    (hs : es.Pairwise fun a b => a.1 < b.1) :
    (insertEntry k v es).Pairwise fun a b => a.1 < b.1 := by
  induction es with
  | nil => simp [insertEntry]
  | cons d es ih =>
    have hs' := List.pairwise_cons.1 hs
    rw [insertEntry]
    split
    · next hlt =>
      refine List.pairwise_cons.2 ⟨fun e he => ?_, hs⟩
      rcases List.mem_cons.1 he with rfl | he
      · exact hlt
      · exact String.lt_trans hlt (hs'.1 e he)
    · next hlt =>
      split
      · next heq =>
        exact List.pairwise_cons.2 ⟨fun e he => heq ▸ hs'.1 e he, hs'.2⟩
      · next hne =>
        refine List.pairwise_cons.2 ⟨fun e he => ?_, ih hs'.2⟩
        rcases mem_insertEntry he with rfl | he
        · exact lt_of_not_lt_of_ne hlt hne
        · exact hs'.1 e he

/-- The map with the value of `k` set to `v`. -/
def insert (m : NameMap α) (k : String) (v : α) : NameMap α :=
  ⟨insertEntry k v m.entries, insertEntry_sorted m.sorted⟩

/-- The map with the value of `k`, if it has one, changed by `f`. -/
def modify (m : NameMap α) (k : String) (f : α → α) : NameMap α :=
  match m.find? k with
  | some v => m.insert k (f v)
  | none => m

/-- The map without a value for `k`. -/
def erase (m : NameMap α) (k : String) : NameMap α :=
  ⟨m.entries.filter (·.1 ≠ k), m.sorted.filter _⟩

/-- The map with every value changed by `f`. -/
def map (m : NameMap α) (f : α → β) : NameMap β :=
  ⟨m.entries.map fun e => (e.1, f e.2), by
    rw [List.pairwise_map]; exact m.sorted⟩

/-- The map of the given pairs; of two pairs with one name the later counts. -/
def ofList (es : List (String × α)) : NameMap α :=
  es.foldl (fun m e => m.insert e.1 e.2) empty

/-! ## What the operations do to the view -/

@[simp] theorem find?_empty (k : String) : (empty : NameMap α).find? k = none := rfl

theorem lookup_insertEntry {k j : String} {v : α} {es : List (String × α)}
    (hs : es.Pairwise fun a b => a.1 < b.1) :
    lookup j (insertEntry k v es) = if k = j then some v else lookup j es := by
  induction es with
  | nil => simp [insertEntry, lookup]
  | cons d es ih =>
    have hs' := List.pairwise_cons.1 hs
    rw [insertEntry]
    split
    · simp [lookup]
    · split
      · next heq => simp only [lookup]; subst heq; split <;> simp
      · next hne =>
        simp only [lookup]
        rw [ih hs'.2]
        by_cases hj : d.1 = j
        · have hkj : ¬ k = j := fun h => hne (hj.trans h.symm)
          simp [hj, hkj]
        · simp [hj]

theorem find?_insert (m : NameMap α) (k j : String) (v : α) :
    (m.insert k v).find? j = if k = j then some v else m.find? j :=
  lookup_insertEntry m.sorted

@[simp] theorem find?_insert_self (m : NameMap α) (k : String) (v : α) :
    (m.insert k v).find? k = some v := by simp [find?_insert]

theorem find?_insert_of_ne (m : NameMap α) {k j : String} (v : α) (h : k ≠ j) :
    (m.insert k v).find? j = m.find? j := by simp [find?_insert, h]

theorem find?_modify (m : NameMap α) (k j : String) (f : α → α) :
    (m.modify k f).find? j = if k = j then (m.find? k).map f else m.find? j := by
  unfold modify
  split
  · next v hv => rw [find?_insert, hv]; rfl
  · next hv =>
    rw [hv]
    split
    · next h => rw [← h, hv]; rfl
    · rfl

theorem lookup_filter_ne (k j : String) (es : List (String × α)) :
    lookup j (es.filter (·.1 ≠ k)) = if k = j then none else lookup j es := by
  induction es with
  | nil => simp [lookup]
  | cons e es ih =>
    obtain ⟨i, v⟩ := e
    rw [List.filter_cons]
    by_cases hi : i = k
    · subst hi
      rw [if_neg (by simp), ih, lookup]
      split <;> rfl
    · rw [if_pos (by simpa using hi), lookup, lookup, ih]
      by_cases hj : i = j
      · rw [if_pos hj, if_pos hj, if_neg fun h => hi (hj.trans h.symm)]
      · rw [if_neg hj, if_neg hj]

theorem find?_erase (m : NameMap α) (k j : String) :
    (m.erase k).find? j = if k = j then none else m.find? j := lookup_filter_ne k j m.entries

theorem mem_keys_iff {m : NameMap α} {k : String} : k ∈ m.keys ↔ m.contains k = true := by
  rw [contains_iff]
  constructor
  · intro h
    obtain ⟨⟨k', v⟩, he, rfl⟩ := List.mem_map.1 h
    exact ⟨v, mem_entries_iff.1 he⟩
  · rintro ⟨v, hv⟩
    exact List.mem_map_of_mem (mem_entries_iff.2 hv)

theorem nodup_keys (m : NameMap α) : m.keys.Nodup :=
  List.pairwise_map.2 (m.sorted.imp fun h => String.ne_of_lt h)

/-- Maps with the same view are equal. -/
theorem ext_find? {m n : NameMap α} (h : ∀ k, m.find? k = n.find? k) : m = n := by
  obtain ⟨es, hes⟩ := m
  obtain ⟨ds, hds⟩ := n
  have key : es = ds := by
    induction es generalizing ds with
    | nil =>
      cases ds with
      | nil => rfl
      | cons d ds => have := h d.1; simp [find?, lookup] at this
    | cons e es ih =>
      cases ds with
      | nil => have := h e.1; simp [find?, lookup] at this
      | cons d ds =>
        have hes' := List.pairwise_cons.1 hes
        have hds' := List.pairwise_cons.1 hds
        have he : lookup e.1 (d :: ds) = some e.2 := by
          have := h e.1; simp [find?, lookup] at this; simpa [lookup] using this.symm
        have hd : lookup d.1 (e :: es) = some d.2 := by
          have := h d.1; simp [find?, lookup] at this; simpa [lookup] using this
        have hkey : e.1 = d.1 := by
          rcases List.mem_cons.1 (lookup_eq_some he) with h1 | h1
          · rw [← h1]
          rcases List.mem_cons.1 (lookup_eq_some hd) with h2 | h2
          · rw [← h2]
          exact absurd (String.lt_trans (hes'.1 _ h2) (hds'.1 _ h1)) (String.lt_irrefl _)
        have hed : e = d := by
          have : e.2 = d.2 := by simpa [lookup, hkey] using he.symm
          exact Prod.ext hkey this
        subst hed
        have htail : es = ds := by
          refine ih hes'.2 ds hds'.2 fun k => ?_
          by_cases hk : e.1 = k
          · have h1 : lookup k es = none :=
              lookup_eq_none fun d hd hdk => absurd (hk ▸ hdk ▸ hes'.1 d hd) (String.lt_irrefl _)
            have h2 : lookup k ds = none :=
              lookup_eq_none fun d hd hdk => absurd (hk ▸ hdk ▸ hds'.1 d hd) (String.lt_irrefl _)
            simp [find?, h1, h2]
          · have := h k; simpa [find?, lookup, hk] using this
        rw [htail]
  subst key
  rfl

/-- Maps that only say which names there are. -/
theorem ext_contains {m n : NameMap Unit} (h : ∀ k, m.contains k = n.contains k) : m = n := by
  refine ext_find? fun k => ?_
  have hk : (m.find? k).isSome = (n.find? k).isSome := h k
  rcases hm : m.find? k with _ | u <;> rcases hn : n.find? k with _ | v
  · rfl
  · rw [hm, hn] at hk
    cases hk
  · rw [hm, hn] at hk
    cases hk
  · rfl

end NameMap

end Screenmark
