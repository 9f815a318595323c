/-
  Screenmark — what a step shows.

  The steps of a session show phases, and warnings between them. `Status.Showed` says that
  just some phases were shown between two statuses; then the later one is in the last of
  them, and its progress is that of the earlier one, whatever warnings there were.

  A kind of phases is a predicate on lists of them: some may be `Followed` by others, and may
  be `Repeated`. A step `Shows` phases of a kind if it shows such when it succeeds, and when
  it fails the first few of such (`Begins`). A step that shows none is one that `Hushes`.

  * `Shows.bind` : one step after another shows the phases of the first and then those of
    the second, and so on for the ways to repeat a step.
-/
import Screenmark.Proofs.Workspace

namespace Screenmark

/-! ## Statuses -/

namespace Status

variable {s s' s'' : Status} {ps qs : List Phase} {p : Phase} {x : Single}

/-- Between the two statuses just the phases were shown, and perhaps some messages. -/
structure Showed (s : Status) (ps : List Phase) (s' : Status) : Prop where
  shown : s'.shown = ps.reverse ++ s.shown
  phase : s'.phase = ps.getLast?.getD s.phase
  progress : s'.progress = s.progress

theorem Showed.refl (s : Status) : s.Showed [] s := ⟨rfl, rfl, rfl⟩

theorem Showed.trans (h : s.Showed ps s') (h' : s'.Showed qs s'') : s.Showed (ps ++ qs) s'' where
  shown := by rw [h'.shown, h.shown, List.reverse_append, List.append_assoc]
  phase := by
    rw [h'.phase, h.phase, List.getLast?_append]
    cases qs.getLast? <;> rfl
  progress := h'.progress.trans h.progress

/-- Once a phase was shown, the status is in the last one. -/
theorem Showed.getLast?_eq (h : s.Showed (p :: ps) s') : (p :: ps).getLast? = some s'.phase := by
  rw [h.phase, List.getLast?_eq_some_getLast (List.cons_ne_nil p ps)]
  rfl

theorem showed_enter (s : Status) (p : Phase) : s.Showed [p] (s.enter p) := ⟨rfl, rfl, rfl⟩

theorem showed_warn (s : Status) (subject message : String) :
    s.Showed [] (s.warn subject message) := ⟨rfl, rfl, rfl⟩

/-- The status with another progress. -/
def withProgress (s : Status) (x : Single) : Status := { s with progress := x }

@[simp] theorem progress_withProgress (s : Status) (x : Single) :
    (s.withProgress x).progress = x := rfl

theorem Showed.withProgress (h : s.Showed ps s') (x : Single) :
    (s.withProgress x).Showed ps (s'.withProgress x) := ⟨h.shown, h.phase, rfl⟩

end Status

/-! ## Kinds of phases -/

variable {P R : List Phase → Prop} {ps qs : List Phase}

/-- Phases of one kind, and then some of another. -/
def Followed (P R : List Phase → Prop) (ps : List Phase) : Prop :=
  ∃ qs rs, P qs ∧ R rs ∧ ps = qs ++ rs

/-- Phases of one kind, so many times. -/
def Repeated (P : List Phase → Prop) : Nat → List Phase → Prop
  | 0 => (· = [])
  | n + 1 => Followed P (Repeated P n)

/-- The first few of some phases of a kind. -/
def Begins (P : List Phase → Prop) (ps : List Phase) : Prop := ∃ qs, P qs ∧ ps <+: qs

theorem Followed.append (h : P ps) (h' : R qs) : Followed P R (ps ++ qs) := ⟨ps, qs, h, h', rfl⟩

theorem Repeated.append : ∀ {m n : Nat} {ps : List Phase}, Repeated P m ps → Repeated P n qs →
    Repeated P (m + n) (ps ++ qs)
  | 0, n, _, h, h' => by
    obtain rfl := h
    rwa [Nat.zero_add]
  | m + 1, n, _, h, h' => by
    obtain ⟨front, rest, hfront, hrest, rfl⟩ := h
    rw [Nat.add_right_comm, List.append_assoc]
    exact Followed.append hfront (hrest.append h')

theorem repeated_one (h : P ps) : Repeated P 1 ps := ⟨ps, [], h, rfl, (List.append_nil ps).symm⟩

theorem exists_repeated (h : ∃ ps, P ps) : ∀ n, ∃ ps, Repeated P n ps
  | 0 => ⟨[], rfl⟩
  | n + 1 => by
    obtain ⟨ps, hps⟩ := h
    obtain ⟨qs, hqs⟩ := exists_repeated ⟨ps, hps⟩ n
    exact ⟨ps ++ qs, Followed.append hps hqs⟩

theorem exists_followed (h : ∃ ps, P ps) (h' : ∃ ps, R ps) : ∃ ps, Followed P R ps := by
  obtain ⟨ps, hps⟩ := h
  obtain ⟨qs, hqs⟩ := h'
  exact ⟨ps ++ qs, .append hps hqs⟩

theorem begins_self (h : P ps) : Begins P ps := ⟨ps, h, List.prefix_refl ps⟩

theorem begins_nil (h : ∃ ps, P ps) : Begins P [] := by
  obtain ⟨ps, hps⟩ := h
  exact ⟨ps, hps, List.nil_prefix⟩

/-- The first few phases stay so in front of others. -/
theorem Begins.followed (h : Begins P ps) (hR : ∃ rs, R rs) : Begins (Followed P R) ps := by
  obtain ⟨qs, hqs, hprefix⟩ := h
  obtain ⟨rs, hrs⟩ := hR
  exact ⟨qs ++ rs, .append hqs hrs, hprefix.trans (List.prefix_append qs rs)⟩

theorem Begins.append (h : P ps) (h' : Begins R qs) : Begins (Followed P R) (ps ++ qs) := by
  obtain ⟨rs, hrs, hprefix⟩ := h'
  exact ⟨ps ++ rs, .append h hrs, (List.prefix_append_right_inj ps).2 hprefix⟩

/-- After some repetitions, the first few phases of one more. -/
theorem Begins.repeated {k n : Nat} (h : Repeated P k ps) (h' : Begins P qs) (hlt : k < n) :
    Begins (Repeated P n) (ps ++ qs) := by
  obtain ⟨rs, hrs, hprefix⟩ := h'
  obtain ⟨rest, hrest⟩ := exists_repeated ⟨rs, hrs⟩ (n - (k + 1))
  have hall := (h.append (repeated_one hrs)).append hrest
  have hcount : k + 1 + (n - (k + 1)) = n := by omega
  rw [hcount] at hall
  refine ⟨_, hall, ?_⟩
  rw [List.append_assoc, List.prefix_append_right_inj]
  exact hprefix.trans (List.prefix_append rs rest)

theorem Begins.of_repeated {k n : Nat} (h : Repeated P k ps) (hle : k ≤ n) (hP : ∃ ps, P ps) :
    Begins (Repeated P n) ps := by
  rcases Nat.lt_or_eq_of_le hle with hlt | rfl
  · exact List.append_nil ps ▸ Begins.repeated h (begins_nil hP) hlt
  · exact begins_self h

theorem followed_eq_iff {a b : List Phase} : Followed (· = a) (· = b) ps ↔ ps = a ++ b := by
  constructor
  · rintro ⟨qs, rs, rfl, rfl, rfl⟩
    rfl
  · exact fun h => ⟨a, b, rfl, rfl, h⟩

theorem followed_nil_left : Followed (· = []) P ps ↔ P ps := by
  constructor
  · rintro ⟨qs, rs, rfl, h, rfl⟩
    exact h
  · exact fun h => ⟨[], ps, rfl, h, rfl⟩

theorem followed_nil_right : Followed P (· = []) ps ↔ P ps := by
  constructor
  · rintro ⟨qs, rs, h, rfl, rfl⟩
    rwa [List.append_nil]
  · exact fun h => ⟨ps, [], h, rfl, (List.append_nil ps).symm⟩

/-! ## Steps -/

section Steps

variable {τ α β ι : Type} {st : τ → Status} {m : EStateM Failure τ α}
  {f : α → EStateM Failure τ β}

/-- The step shows phases of the kind; if it fails, the first few of such. -/
def Shows (st : τ → Status) (P : List Phase → Prop) (m : EStateM Failure τ α) : Prop :=
  ∀ s, Leads m s (fun _ s' => ∃ ps, P ps ∧ (st s).Showed ps (st s'))
    fun _ s' => ∃ ps, Begins P ps ∧ (st s).Showed ps (st s')

/-- The step shows no phase. -/
abbrev Hushes (st : τ → Status) (m : EStateM Failure τ α) : Prop := Shows st (· = []) m

/-- A step that hushes shows no phase, whether it succeeds or fails. -/
theorem hushes_iff : Hushes st m ↔ ∀ s, Leads m s (fun _ s' => (st s).Showed [] (st s'))
    fun _ s' => (st s).Showed [] (st s') := by
  constructor
  · intro h s
    refine (h s).mono (fun _ s' hs => ?_) fun _ s' hs => ?_
    · obtain ⟨ps, rfl, hs⟩ := hs
      exact hs
    · obtain ⟨ps, ⟨qs, rfl, hprefix⟩, hs⟩ := hs
      exact List.prefix_nil.1 hprefix ▸ hs
  · intro h s
    exact (h s).mono (fun _ s' hs => ⟨[], rfl, hs⟩) fun _ s' hs => ⟨[], begins_self rfl, hs⟩

namespace Shows

theorem pure (a : α) : Hushes st (Pure.pure a : EStateM Failure τ α) :=
  fun _ => ⟨[], rfl, .refl _⟩

theorem get : Hushes st (MonadState.get : EStateM Failure τ τ) := fun _ => ⟨[], rfl, .refl _⟩

theorem change {g : τ → τ} (h : ∀ s, (st s).Showed [] (st (g s))) :
    Hushes st (modify g : EStateM Failure τ PUnit) := fun s => ⟨[], rfl, h s⟩

theorem throw (e : Failure) : Hushes st (MonadExcept.throw e : EStateM Failure τ α) :=
  fun _ => ⟨[], begins_self rfl, .refl _⟩

/-- **One step after another shows what both of them do.** -/
theorem bind (h : Shows st P m) (hf : ∀ a, Shows st R (f a)) (hR : ∃ rs, R rs) :
    Shows st (Followed P R) (m >>= f) := by
  intro s
  refine leads_bind.2 ((h s).mono (fun a s₁ h₁ => ?_) fun e s₁ h₁ => ?_)
  · obtain ⟨ps, hps, hshowed⟩ := h₁
    refine (hf a s₁).mono (fun b s₂ h₂ => ?_) fun e s₂ h₂ => ?_
    · obtain ⟨qs, hqs, hshowed'⟩ := h₂
      exact ⟨ps ++ qs, .append hps hqs, hshowed.trans hshowed'⟩
    · obtain ⟨qs, hqs, hshowed'⟩ := h₂
      exact ⟨ps ++ qs, .append hps hqs, hshowed.trans hshowed'⟩
  · obtain ⟨ps, hps, hshowed⟩ := h₁
    exact ⟨ps, hps.followed hR, hshowed⟩

theorem congr (h : Shows st P m) (hPR : ∀ ps, P ps ↔ R ps) : Shows st R m := by
  obtain rfl : P = R := funext fun ps => propext (hPR ps)
  exact h

/-- A step in front of which nothing is shown. -/
theorem bind_left (h : Hushes st m) (hf : ∀ a, Shows st P (f a)) (hP : ∃ ps, P ps) :
    Shows st P (m >>= f) :=
  (h.bind hf hP).congr fun _ => followed_nil_left

/-- A step behind which nothing is shown. -/
theorem bind_right (h : Shows st P m) (hf : ∀ a, Hushes st (f a)) : Shows st P (m >>= f) :=
  (h.bind hf ⟨[], rfl⟩).congr fun _ => followed_nil_right

theorem hush (h : Hushes st m) (hf : ∀ a, Hushes st (f a)) : Hushes st (m >>= f) :=
  h.bind_left hf ⟨[], rfl⟩

theorem mapM {g : ι → EStateM Failure τ α} (h : ∀ i, Shows st P (g i)) (hP : ∃ ps, P ps) :
    ∀ is : List ι, Shows st (Repeated P is.length) (is.mapM g)
  | [] => .pure []
  | i :: is => by
    rw [List.mapM_cons]
    refine (h i).bind (fun a => ?_) (exists_repeated hP _)
    exact (mapM h hP is).bind_right fun as => .pure _

theorem forM {g : ι → EStateM Failure τ PUnit} (h : ∀ i, Hushes st (g i)) :
    ∀ is : List ι, Hushes st (is.forM g)
  | [] => .pure _
  | i :: is => (h i).hush fun _ => forM h is

theorem forIn {g : ι → EStateM Failure τ (ForInStep PUnit)} (h : ∀ i, Hushes st (g i)) :
    ∀ is : List ι, Hushes st (ForIn.forIn is PUnit.unit fun i _ => g i)
  | [] => .pure _
  | i :: is => by
    rw [List.forIn_cons]
    refine (h i).hush fun step => ?_
    rcases step with _ | _
    · exact .pure _
    · exact forIn h is

theorem foldlM {g : α → ι → EStateM Failure τ α} (h : ∀ a i, Hushes st (g a i)) :
    ∀ (is : List ι) (a : α), Hushes st (is.foldlM g a)
  | [], a => .pure a
  | i :: is, a => by
    rw [List.foldlM_cons]
    exact (h a i).hush fun b => foldlM h is b

end Shows

end Steps

/-! ## Steps on a workspace -/

namespace Work

variable {σ α : Type}

theorem hushes_ofExcept (x : Except Failure α) :
    Hushes Workspace.status (ofExcept x : Work σ α) := by
  rcases x with e | a
  · exact .throw e
  · exact .pure a

theorem shows_enter (p : Phase) : Shows Workspace.status (· = [p]) (enter p : Work σ Unit) :=
  fun w => ⟨[p], rfl, w.status.showed_enter p⟩

/-- A step that first enters a phase has shown it in any case. -/
theorem leads_enter_bind {P : List Phase → Prop} {p : Phase} {f : Unit → Work σ α}
    (hf : ∀ a, Shows Workspace.status P (f a)) (w : Workspace σ) : Leads (enter p >>= f) w
      (fun _ w' => ∃ ps, P ps ∧ w.status.Showed (p :: ps) w'.status)
      fun _ w' => ∃ ps, Begins P ps ∧ w.status.Showed (p :: ps) w'.status := by
  have hentered := w.status.showed_enter p
  refine leads_bind.2 ((hf () _).mono (fun _ w' h => ?_) fun _ w' h => ?_)
  · obtain ⟨ps, hps, hshowed⟩ := h
    exact ⟨ps, hps, hentered.trans hshowed⟩
  · obtain ⟨ps, hps, hshowed⟩ := h
    exact ⟨ps, hps, hentered.trans hshowed⟩

theorem hushes_warn (subject message : String) :
    Hushes Workspace.status (warn subject message : Work σ Unit) :=
  .change fun w => w.status.showed_warn subject message

theorem hushes_insert (name : String) (t : Track) :
    Hushes Workspace.status (insert name t : Work σ Unit) := .change fun w => .refl w.status

theorem hushes_changeFiles (g : Tree → Except Failure (Tree × α)) :
    Hushes Workspace.status (changeFiles g : Work σ α) := by
  refine Shows.get.hush fun w => ?_
  rcases g w.files with e | ⟨t, a⟩
  · exact .throw e
  · exact (Shows.change fun w => .refl w.status).hush fun _ => .pure a

theorem hushes_keepSheets (xs : List Sheet) :
    Hushes Workspace.status (keepSheets xs : Work σ Unit) := by
  refine Shows.get.hush fun w => (Shows.change fun w => .refl w.status).hush fun _ => ?_
  rcases Outlet.keepFault? w.files xs with _ | e
  · exact .pure ()
  · exact .throw e

end Work

end Screenmark
