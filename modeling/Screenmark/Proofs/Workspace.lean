/-
  Screenmark — steps that can fail.

  A step on a workspace, or on the state of a scan, either succeeds or fails, and
  leaves a state in both cases. `Leads` says what holds then; the lemmas about it
  take a step apart along its parts (`leads_bind`), and the lemmas named `_apply`
  run it.

  * `Work.OnlyFiles` : what changing the files leaves as it is.
-/
import Screenmark.Workspace

namespace Screenmark

variable {τ α β : Type} {m : EStateM Failure τ α} {f : α → EStateM Failure τ β} {s s' : τ}
  {Q Q' : α → τ → Prop} {R : β → τ → Prop} {E E' : Failure → τ → Prop}

/-! ## Success and failure -/

/-- What holds after a step, if it succeeds and if it fails. -/
def Leads (m : EStateM Failure τ α) (s : τ) (Q : α → τ → Prop) (E : Failure → τ → Prop) : Prop :=
  match m s with
  | .ok a s' => Q a s'
  | .error e s' => E e s'

theorem Leads.intro (hQ : ∀ a s', m s = .ok a s' → Q a s')
    (hE : ∀ e s', m s = .error e s' → E e s') : Leads m s Q E := by
  unfold Leads
  split
  · next a s' hm => exact hQ a s' hm
  · next e s' hm => exact hE e s' hm

theorem Leads.ok {a : α} (h : Leads m s Q E) (hm : m s = .ok a s') : Q a s' := by
  rwa [Leads, hm] at h

theorem Leads.error {e : Failure} (h : Leads m s Q E) (hm : m s = .error e s') : E e s' := by
  rwa [Leads, hm] at h

/-- A step that never fails succeeds. -/
theorem Leads.exists_ok (h : Leads m s Q fun _ _ => False) : ∃ a s', m s = .ok a s' ∧ Q a s' := by
  rcases hm : m s with ⟨a, s'⟩ | ⟨e, s'⟩
  · exact ⟨a, s', rfl, h.ok hm⟩
  · exact (h.error hm).elim

theorem Leads.mono (h : Leads m s Q E) (hQ : ∀ a s', Q a s' → Q' a s')
    (hE : ∀ e s', E e s' → E' e s') : Leads m s Q' E' :=
  .intro (fun _ _ hm => hQ _ _ (h.ok hm)) fun _ _ hm => hE _ _ (h.error hm)

theorem Leads.and (h : Leads m s Q E) (h' : Leads m s Q' E') :
    Leads m s (fun a s' => Q a s' ∧ Q' a s') fun e s' => E e s' ∧ E' e s' :=
  .intro (fun _ _ hm => ⟨h.ok hm, h'.ok hm⟩) fun _ _ hm => ⟨h.error hm, h'.error hm⟩

@[simp] theorem leads_pure {a : α} : Leads (pure a) s Q E ↔ Q a s := Iff.rfl

@[simp] theorem leads_throw {e : Failure} : Leads (throw e) s Q E ↔ E e s := Iff.rfl

@[simp] theorem leads_bind :
    Leads (m >>= f) s R E ↔ Leads m s (fun a s' => Leads (f a) s' R E) E := by
  simp only [Leads, bind, EStateM.bind]
  cases m s <;> rfl

@[simp] theorem leads_get {Q : τ → τ → Prop} : Leads get s Q E ↔ Q s s := Iff.rfl

@[simp] theorem leads_modify {g : τ → τ} {Q : Unit → τ → Prop} :
    Leads (modify g) s Q E ↔ Q () (g s) := Iff.rfl

/-! ## Running a step -/

theorem bind_apply : (m >>= f) s =
    match m s with
    | .ok a s' => f a s'
    | .error e s' => .error e s' := by
  simp only [bind, EStateM.bind]
  cases m s <;> rfl

/-- Two steps succeed if the first one does and the second one does after it. -/
theorem bind_eq_ok_iff {b : β} {s'' : τ} :
    (m >>= f) s = .ok b s'' ↔ ∃ a s', m s = .ok a s' ∧ f a s' = .ok b s'' := by
  rw [bind_apply]
  constructor
  · intro h
    split at h
    · next a s' hm => exact ⟨a, s', hm, h⟩
    · cases h
  · rintro ⟨a, s', hm, hf⟩
    rw [hm]
    exact hf

theorem pure_apply {a : α} : (pure a : EStateM Failure τ α) s = .ok a s := rfl

theorem get_apply : (get : EStateM Failure τ τ) s = .ok s s := rfl

theorem modify_apply {g : τ → τ} : (modify g : EStateM Failure τ Unit) s = .ok () (g s) := rfl

/-- Whether a failure says that tracks or sheets do not fit together. -/
def Failure.isConsistency : Failure → Bool
  | .consistency _ => true
  | _ => false

/-- A file that cannot be written. -/
def Failure.IsUnwritten (e : Failure) : Prop := ∃ path fault, e = .unwritten path fault

/-! ## Results without a state -/

theorem exists_of_bind_eq_ok {ε : Type} {x : Except ε α} {g : α → Except ε β} {b : β}
    (h : x >>= g = .ok b) : ∃ a, x = .ok a ∧ g a = .ok b := by
  rcases x with e | a
  · cases h
  · exact ⟨a, rfl, h⟩

theorem exists_of_map_eq_ok {ε : Type} {x : Except ε α} {g : α → β} {b : β}
    (h : x.map g = .ok b) : ∃ a, x = .ok a ∧ g a = b := by
  rcases x with e | a
  · cases h
  · exact ⟨a, rfl, Except.ok.inj h⟩

theorem eq_ok_of_mapError {ε ε' : Type} {x : Except ε α} {g : ε → ε'} {a : α}
    (h : x.mapError g = .ok a) : x = .ok a := by
  rcases x with e | b
  · cases h
  · exact congrArg Except.ok (Except.ok.inj h)

/-! ## Files -/

namespace Work

variable {σ : Type} {w : Workspace σ}

theorem ofExcept_apply {x : Except Failure α} : ofExcept x w =
    match x with
    | .ok a => .ok a w
    | .error e => .error e w := by
  cases x <;> rfl

theorem ofExcept_eq_ok_iff {x : Except Failure α} {a : α} {w' : Workspace σ} :
    ofExcept x w = .ok a w' ↔ x = .ok a ∧ w' = w := by
  rcases x with e | b
  · simp [ofExcept_apply]
  · simp [ofExcept_apply, eq_comm]

/-- What changing the files leaves as it is. -/
structure OnlyFiles (w w' : Workspace σ) : Prop where
  world : w'.world = w.world
  tracks : w'.tracks = w.tracks
  status : w'.status = w.status

theorem OnlyFiles.trans {w' w'' : Workspace σ} (h : OnlyFiles w w') (h' : OnlyFiles w' w'') :
    OnlyFiles w w'' :=
  ⟨h'.world.trans h.world, h'.tracks.trans h.tracks, h'.status.trans h.status⟩

end Work

end Screenmark
