/-
  Screenmark — conversion rules that commute.

  A chain of rules gives one result after the other, each over the tracks with the
  results before it. Two neighbours change places if neither reads what the other puts
  out (`Chain.swap`); so a rule moves to the front through rules that it has nothing to
  do with (`Chain.move`), and a chain is put into any order that keeps the rules that
  read from each other in order (`Chain.perm`).
-/
import Screenmark.Proofs.Derivation.Reads

namespace Screenmark

namespace Rule

/-- One of the rules reads what the other one puts out. -/
def Linked (a b : Rule) : Prop := a.ReadsFrom b ∨ b.ReadsFrom a

instance (a b : Rule) : Decidable (a.Linked b) :=
  inferInstanceAs (Decidable (a.ReadsFrom b ∨ b.ReadsFrom a))

theorem Linked.symm {a b : Rule} (h : a.Linked b) : b.Linked a := Or.symm h

end Rule

namespace Derivation

variable {threshold : Single} {frames : Nat} {fits : Rule → Derived → Option Nested → Prop}
  {ts ts' : Tracks} {r a b : Rule} {d : Derived} {rs l l' : List Rule}
  {ds : List (Rule × Derived)}

/-! ## Results -/

/-- What a rule gives over some tracks, as far as it fits into the files. -/
def Gives (threshold : Single) (frames : Nat) (fits : Rule → Derived → Option Nested → Prop)
    (ts : Tracks) (r : Rule) (d : Derived) : Prop :=
  ∃ nested warnings, derive ts threshold r frames = .ok (d, nested, warnings) ∧ fits r d nested

theorem Gives.outputs (h : Gives threshold frames fits ts r d) : r.outputs = [d.name] := by
  obtain ⟨nested, warnings, hderive, -⟩ := h
  exact outputs_of_derive hderive

theorem Gives.congr (h : Gives threshold frames fits ts r d)
    (hagree : Tracks.Agree r.reads ts ts') : Gives threshold frames fits ts' r d := by
  obtain ⟨nested, warnings, hderive, hfits⟩ := h
  exact ⟨nested, warnings, (derive_congr hagree).symm.trans hderive, hfits⟩

theorem Gives.unique {e : Derived} (h : Gives threshold frames fits ts r d)
    (h' : Gives threshold frames fits ts r e) : d = e := by
  obtain ⟨nested, warnings, hderive, -⟩ := h
  obtain ⟨nested', warnings', hderive', -⟩ := h'
  rw [hderive] at hderive'
  cases hderive'
  rfl

/-- A track that the rule does not read may be put in or left out. -/
theorem gives_insert_iff {n : String} {t : Track} (hn : n ∉ r.reads) :
    Gives threshold frames fits (ts.insert n t) r d ↔ Gives threshold frames fits ts r d := by
  have hagree : Tracks.Agree r.reads (ts.insert n t) ts := Tracks.agree_insert hn
  exact ⟨fun h => h.congr hagree, fun h => h.congr hagree.symm⟩

/-! ## Chains -/

/-- The rules give their results one after the other, each over the tracks with the
    results of those before it. -/
inductive Chain (threshold : Single) (frames : Nat)
    (fits : Rule → Derived → Option Nested → Prop) :
    Tracks → List Rule → List (Rule × Derived) → Tracks → Prop
  | nil {ts : Tracks} : Chain threshold frames fits ts [] [] ts
  | cons {ts ts' : Tracks} {r : Rule} {d : Derived} {rs : List Rule}
      {ds : List (Rule × Derived)} : Gives threshold frames fits ts r d →
      Chain threshold frames fits (ts.insert d.name d.track) rs ds ts' →
      Chain threshold frames fits ts (r :: rs) ((r, d) :: ds) ts'

theorem Chain.exists_of_cons (h : Chain threshold frames fits ts (r :: rs) ds ts') :
    ∃ d rest, ds = (r, d) :: rest ∧ Gives threshold frames fits ts r d ∧
      Chain threshold frames fits (ts.insert d.name d.track) rs rest ts' := by
  cases h with
  | cons hgives hrest => exact ⟨_, _, rfl, hgives, hrest⟩

/-- The rules alone say what they give. -/
theorem Chain.unique {es : List (Rule × Derived)} {us : Tracks}
    (h : Chain threshold frames fits ts rs ds ts') (h' : Chain threshold frames fits ts rs es us) :
    ds = es ∧ ts' = us := by
  induction h generalizing es us with
  | nil =>
    cases h'
    exact ⟨rfl, rfl⟩
  | cons hgives _ ih =>
    obtain ⟨e, rest, rfl, hgives', hrest⟩ := h'.exists_of_cons
    obtain rfl := hgives.unique hgives'
    obtain ⟨rfl, rfl⟩ := ih hrest
    exact ⟨rfl, rfl⟩

/-- Each rule gives something. -/
theorem Chain.exists_mem (h : Chain threshold frames fits ts rs ds ts') :
    ∀ r ∈ rs, ∃ d, (r, d) ∈ ds := by
  induction h with
  | nil =>
    intro r hr
    cases hr
  | cons _ _ ih =>
    rw [List.forall_mem_cons]
    refine ⟨⟨_, List.mem_cons_self⟩, fun r hr => ?_⟩
    obtain ⟨d, hd⟩ := ih r hr
    exact ⟨d, List.mem_cons_of_mem _ hd⟩

/-- Rules whose results follow each other have outputs. -/
theorem Chain.outputs_ne_nil (h : Chain threshold frames fits ts rs ds ts') :
    ∀ r ∈ rs, r.outputs ≠ [] := by
  induction h with
  | nil =>
    intro r hr
    cases hr
  | cons hgives _ ih =>
    rw [List.forall_mem_cons]
    refine ⟨?_, ih⟩
    rw [hgives.outputs]
    exact List.cons_ne_nil _ _

/-- **Neighbours that are not linked change places.** -/
theorem Chain.swap (h : Chain threshold frames fits ts (a :: b :: rs) ds ts')
    (hlink : ¬ a.Linked b) (hout : ∀ n ∈ a.outputs, n ∉ b.outputs) :
    ∃ ds', Chain threshold frames fits ts (b :: a :: rs) ds' ts' ∧ ds.Perm ds' := by
  obtain ⟨d, rest, rfl, ha, h⟩ := h.exists_of_cons
  obtain ⟨e, rest, rfl, hb, hrest⟩ := h.exists_of_cons
  have hd : d.name ∈ a.outputs := ha.outputs ▸ List.mem_singleton_self _
  have he : e.name ∈ b.outputs := hb.outputs ▸ List.mem_singleton_self _
  have hne : d.name ≠ e.name := by
    intro heq
    exact hout d.name hd (heq ▸ he)
  have hab : d.name ∉ b.reads := fun hmem => hlink (.inr ⟨d.name, hd, hmem⟩)
  have hba : e.name ∉ a.reads := fun hmem => hlink (.inl ⟨e.name, he, hmem⟩)
  rw [Tracks.insert_comm hne] at hrest
  refine ⟨(b, e) :: (a, d) :: rest, ?_, .swap _ _ _⟩
  exact .cons ((gives_insert_iff hab).1 hb) (.cons ((gives_insert_iff hba).2 ha) hrest)

/-- **A rule moves to the front** through rules that it is not linked with. -/
theorem Chain.move (hlink : ∀ b ∈ l, ¬ b.Linked r)
    (hout : ∀ b ∈ l, ∀ n ∈ b.outputs, n ∉ r.outputs) : ∀ {ts ds},
    Chain threshold frames fits ts (l ++ r :: rs) ds ts' →
      ∃ ds', Chain threshold frames fits ts (r :: (l ++ rs)) ds' ts' ∧ ds.Perm ds' := by
  induction l with
  | nil =>
    intro ts ds h
    exact ⟨ds, h, .refl ds⟩
  | cons b l ih =>
    rw [List.forall_mem_cons] at hlink hout
    intro ts ds h
    obtain ⟨d, rest, rfl, hb, hrest⟩ := h.exists_of_cons
    obtain ⟨rest', hmoved, hperm⟩ := ih hlink.2 hout.2 hrest
    obtain ⟨ds', hswapped, hperm'⟩ := (Chain.cons hb hmoved).swap hlink.1 hout.1
    exact ⟨ds', hswapped, (hperm.cons _).trans hperm'⟩

/-! ## Orders -/

/-- Of two rules of which one reads from the other, the one that stands first in `l` also
    stands first in `l'`. -/
def KeepsOrder (l l' : List Rule) : Prop :=
  ∀ a ∈ l, ∀ b ∈ l, a.Linked b → [a, b].Sublist l → [a, b].Sublist l'

instance (l l' : List Rule) : Decidable (KeepsOrder l l') :=
  inferInstanceAs (Decidable (∀ a ∈ l, ∀ b ∈ l, a.Linked b → [a, b].Sublist l → [a, b].Sublist l'))

/-- Of two rules one stands first. -/
theorem sublist_or_sublist (ha : a ∈ l) (hb : b ∈ l) (hne : a ≠ b) :
    [a, b].Sublist l ∨ [b, a].Sublist l := by
  obtain ⟨front, back, rfl⟩ := List.append_of_mem ha
  rcases List.mem_append.1 hb with hfront | hback
  · right
    exact (List.singleton_sublist.2 hfront).append (List.singleton_sublist.2 List.mem_cons_self)
  · left
    rcases List.mem_cons.1 hback with heq | htail
    · exact absurd heq.symm hne
    · exact ((List.singleton_sublist.2 htail).cons_cons a).trans (List.sublist_append_right front _)

/-- Only one of them does. -/
theorem not_sublist_of_sublist (hnd : l.Nodup) (h : [a, b].Sublist l) : ¬ [b, a].Sublist l := by
  induction l with
  | nil => cases h
  | cons c l ih =>
    rw [List.nodup_cons] at hnd
    intro h'
    rcases List.sublist_cons_iff.1 h with hl | ⟨rest, heq, hrest⟩
    · rcases List.sublist_cons_iff.1 h' with hl' | ⟨rest', heq', -⟩
      · exact ih hnd.2 hl hl'
      · obtain ⟨rfl, -⟩ := List.cons.inj heq'
        exact hnd.1 (hl.mem (by simp))
    · obtain ⟨rfl, rfl⟩ := List.cons.inj heq
      rcases List.sublist_cons_iff.1 h' with hl' | ⟨rest', heq', -⟩
      · exact hnd.1 (hl'.mem (by simp))
      · obtain ⟨rfl, -⟩ := List.cons.inj heq'
        exact hnd.1 (hrest.mem List.mem_cons_self)

theorem KeepsOrder.symm (h : KeepsOrder l l') (hperm : l.Perm l') (hnd : l.Nodup) :
    KeepsOrder l' l := by
  intro a ha b hb hlink hsub
  have hnd' := hperm.nodup_iff.1 hnd
  have hne : a ≠ b := by
    rintro rfl
    exact not_sublist_of_sublist hnd' hsub hsub
  have ha := hperm.mem_iff.2 ha
  have hb := hperm.mem_iff.2 hb
  rcases sublist_or_sublist ha hb hne with hl | hl
  · exact hl
  · exact absurd (h b hb a ha hlink.symm hl) (not_sublist_of_sublist hnd' hsub)

/-- Rules with outputs of their own are different rules. -/
theorem nodup_of_outputs (hne : ∀ r ∈ l, r.outputs ≠ []) (hnd : (l.flatMap Rule.outputs).Nodup) :
    l.Nodup := by
  refine (List.pairwise_flatMap.1 hnd).2.imp_of_mem ?_
  rintro a b ha - hdisjoint rfl
  obtain ⟨n, hn⟩ := List.exists_mem_of_ne_nil _ (hne a ha)
  exact hdisjoint n hn n hn rfl

/-- **A chain of rules goes in every order** in which the rules that read from each other
    stand as before. The tracks are the same at the end, and each rule gives the same. -/
theorem Chain.perm (hperm : l.Perm l') (horder : KeepsOrder l l')
    (hnd : (l.flatMap Rule.outputs).Nodup) (h : Chain threshold frames fits ts l ds ts') :
    ∃ ds', Chain threshold frames fits ts l' ds' ts' ∧ ds.Perm ds' := by
  -- The first rule of the new order moves to the front of the old one.
  induction l' generalizing l ts ds with
  | nil =>
    obtain rfl := hperm.eq_nil
    exact ⟨ds, h, .refl ds⟩
  | cons r l' ih =>
    obtain ⟨front, back, rfl⟩ := List.append_of_mem (hperm.mem_iff.2 List.mem_cons_self)
    have hnodup := nodup_of_outputs h.outputs_ne_nil hnd
    have hrest : (front ++ back).Perm l' := (List.perm_middle.symm.trans hperm).cons_inv
    have hr : r ∉ front ++ back := (List.nodup_cons.1 (List.perm_middle.nodup_iff.1 hnodup)).1
    have hlink : ∀ b ∈ front, ¬ b.Linked r := by
      intro b hb hlinked
      have hbefore : [b, r].Sublist (r :: l') :=
        horder b (List.mem_append_left _ hb) r (List.mem_append_right _ List.mem_cons_self)
          hlinked ((List.singleton_sublist.2 hb).append
          (List.singleton_sublist.2 List.mem_cons_self))
      rcases List.sublist_cons_iff.1 hbefore with hafter | ⟨rest, heq, -⟩
      · exact hr (hrest.mem_iff.2 (hafter.mem (by simp)))
      · obtain ⟨rfl, -⟩ := List.cons.inj heq
        exact hr (List.mem_append_left back hb)
    have hsplit := List.perm_middle.flatMap_right Rule.outputs |>.nodup_iff.1 hnd
    rw [List.flatMap_cons, List.nodup_append] at hsplit
    have hout : ∀ b ∈ front, ∀ n ∈ b.outputs, n ∉ r.outputs := by
      intro b hb n hn hnr
      exact hsplit.2.2 n hnr n
        (List.mem_flatMap.2 ⟨b, List.mem_append_left back hb, hn⟩) rfl
    have hkeeps : KeepsOrder (front ++ back) l' := by
      intro x hx y hy hlinked hsub
      have hfewer : (front ++ back).Sublist (front ++ r :: back) :=
        (List.sublist_cons_self r back).append_left front
      have hwhole : [x, y].Sublist (r :: l') :=
        horder x (hfewer.mem hx) y (hfewer.mem hy) hlinked (hsub.trans hfewer)
      rcases List.sublist_cons_iff.1 hwhole with hafter | ⟨rest, heq, -⟩
      · exact hafter
      · obtain ⟨rfl, -⟩ := List.cons.inj heq
        exact absurd (hsub.mem List.mem_cons_self) hr
    obtain ⟨moved, hmoved, hpm⟩ := h.move hlink hout
    obtain ⟨d, tail, rfl, hgives, htail⟩ := hmoved.exists_of_cons
    obtain ⟨tail', hchain, hpt⟩ := ih hrest hkeeps hsplit.2.1 htail
    exact ⟨(r, d) :: tail', .cons hgives hchain, hpm.trans (hpt.cons _)⟩

end Derivation

end Screenmark
