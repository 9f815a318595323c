/-
  Screenmark — the order of a plan.

  For a plan that was made from texts no two targets have the same name, so that what a
  target waits for can be said of the targets themselves (`Awaits`), and the places that
  can follow the first ones of the order are told from the plan alone (`CanFollow`).

  * `isStable_order` : the order is a permutation of the places, in which each target
    comes after those it waits for, and at each position stands, of the targets that can
    follow, the one with the least rank of its stage and, within a rank, the first.
-/
import Screenmark.Proofs.Scan.Order
import Screenmark.Proofs.Scan.Targets

namespace Screenmark

namespace Plan

variable {sources logged : List String} {p : Plan} {pre : List Nat} {i j : Nat}

/-- The `j`-th target is among the new series that the `i`-th one waits for. -/
def Awaits (p : Plan) (i j : Nat) : Prop :=
  ∃ t u, p.targets[i]? = some t ∧ p.targets[j]? = some u ∧
    u.name ∈ (p.prerequisites.predecessors t.name).new

/-- The `i`-th target is not among those listed, but all that it awaits are. -/
structure CanFollow (p : Plan) (pre : List Nat) (i : Nat) : Prop where
  bound : i < p.targets.length
  new : i ∉ pre
  awaits : ∀ j, p.Awaits i j → j ∈ pre

/-- The `i`-th target is of a lower rank than the `j`-th one, or of the same rank and
    registered before it. -/
def ComesBefore (p : Plan) (i j : Nat) : Prop :=
  ∃ t u, p.targets[i]? = some t ∧ p.targets[j]? = some u ∧
    (t.stage.rank < u.stage.rank ∨ t.stage.rank = u.stage.rank ∧ i < j)

namespace IsCompiled

variable (h : IsCompiled logged p)
include h

/-- All new series that a target waits for are targets. -/
theorem exists_target_of_new {t : Target} {n : String} (ht : t ∈ p.targets)
    (hn : n ∈ (p.prerequisites.predecessors t.name).new) : ∃ u ∈ p.targets, u.name = n := by
  rw [h.predecessors_eq ht, Predecessors.mem_new_ofDependencies] at hn
  exact h.exists_target_of_gate ht hn.1 hn.2

/-- The name of a target leads to its place. -/
theorem placeOf?_eq {u : Target} (hu : p.targets[j]? = some u) :
    Order.placeOf? p.targets u.name = some j := by
  obtain ⟨k, hk⟩ := Order.exists_placeOf? (List.mem_of_getElem? hu)
  obtain ⟨hlt, v, hv, hname⟩ := Order.placeOf?_eq_some hk
  have heq : (p.targets.map (·.name))[k]? = (p.targets.map (·.name))[j]? := by
    rw [List.getElem?_map, List.getElem?_map, hv, hu]
    exact congrArg some hname
  rw [hk, (List.getElem?_inj (by rwa [List.length_map]) h.nodup_names).1 heq]

theorem mem_waitsFor_iff : j ∈ Order.waitsFor p.prerequisites p.targets i ↔ p.Awaits i j := by
  rcases ht : p.targets[i]? with _ | t
  · simp [Order.waitsFor, Awaits, ht]
  · rw [Order.mem_waitsFor ht]
    constructor
    · rintro ⟨n, hn, hplace⟩
      obtain ⟨-, u, hu, rfl⟩ := Order.placeOf?_eq_some hplace
      exact ⟨t, u, ht, hu, hn⟩
    · rintro ⟨t', u, ht', hu, hn⟩
      obtain rfl := Option.some.inj (ht.symm.trans ht')
      exact ⟨u.name, hn, h.placeOf?_eq hu⟩

theorem isOpen_iff : Order.IsOpen p.prerequisites p.targets pre i ↔ p.CanFollow pre i :=
  ⟨fun hi => ⟨hi.bound, hi.new, fun j hj => hi.waits j (h.mem_waitsFor_iff.2 hj)⟩,
    fun hi => ⟨hi.bound, hi.new, fun j hj => hi.awaits j (h.mem_waitsFor_iff.1 hj)⟩⟩

end IsCompiled

theorem comesBefore_of_precedes (hi : i < p.targets.length) (hj : j < p.targets.length)
    (h : Order.precedes p.targets i j = true) : p.ComesBefore i j := by
  rw [Order.precedes_iff] at h
  refine ⟨_, _, List.getElem?_eq_getElem hi, List.getElem?_eq_getElem hj, ?_⟩
  simpa [Order.rankAt, hi, hj] using h

/-- **The order is a stable topological order.** Whatever waits for what, the order holds
    each place once. In the order of a plan that was made from texts, all new series that
    a target waits for are targets and come before it, and each position holds, of the
    targets that can follow there, the one that comes before the others. -/
theorem isStable_order (g : Prerequisites) (ts : List Target) (sources logged : List String) :
    (Order.places g ts).Perm (List.range ts.length) ∧
    ∀ p, compile sources logged = .ok p →
      (∀ t ∈ p.targets, ∀ n ∈ (p.prerequisites.predecessors t.name).new,
        ∃ u ∈ p.targets, u.name = n) ∧
      ∀ pre i post, p.order = pre ++ i :: post →
        p.CanFollow pre i ∧ ∀ j, p.CanFollow pre j → j ≠ i → p.ComesBefore i j := by
  refine ⟨Order.places_perm g ts, fun p hp => ?_⟩
  have hc : IsCompiled logged p := isCompiled_of_compile hp
  refine ⟨fun t ht n hn => hc.exists_target_of_new ht hn, fun pre i post horder => ?_⟩
  have hnext : Order.IsNext p.prerequisites p.targets pre i :=
    Order.isNext_of_places hc.acyclic horder
  refine ⟨hc.isOpen_iff.1 hnext.isOpen, fun j hj hne => ?_⟩
  exact comesBefore_of_precedes hnext.isOpen.bound hj.bound
    (hnext.least j (hc.isOpen_iff.2 hj) hne)

/-- A template where a number shows, that number, and another template: the other
    template comes first, though the number could too, and then the number. -/
theorem isStable_order_of_gated :
    ∃ p, compile ["if(count){matchTemplate(icon)}", "detectNumber(count)",
        "matchTemplate(logo)"] [] = .ok p ∧ p.order = [2, 1, 0] ∧
      p.CanFollow [] 1 ∧ p.ComesBefore 2 1 ∧ p.CanFollow [2] 1 := by
  obtain ⟨p, hp, h⟩ := exists_of_any_toOption (x := compile ["if(count){matchTemplate(icon)}",
    "detectNumber(count)", "matchTemplate(logo)"] [])
    (P := fun p => decide (p.order = [2, 1, 0] ∧ p.targets.length = 3 ∧
      Order.waitsFor p.prerequisites p.targets 1 = [])) (by decide +kernel)
  obtain ⟨horder, hlen, hwaits⟩ := of_decide_eq_true h
  have hnumber : p.CanFollow [] 1 := by
    refine ⟨hlen ▸ by decide, List.not_mem_nil, fun j hj => ?_⟩
    rw [← hwaits]
    exact (isCompiled_of_compile hp).mem_waitsFor_iff.2 hj
  have hstable := ((isStable_order .empty [] _ _).2 p hp).2
  exact ⟨p, hp, horder, hnumber, (hstable [] 2 [1, 0] horder).2 1 hnumber (by decide),
    (hstable [2] 1 [0] horder).1⟩

end Plan

end Screenmark
