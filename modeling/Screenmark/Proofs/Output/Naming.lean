/-
  Screenmark — the names of exported files.

  The path of an export is made of a folder, the name of the recording, a name and an
  ending (`Outlet.pathOf`). Two paths are the same if they have the same parts. Then the
  exports are of one kind and their names are `Alike`: they make the same parts of a path,
  as `a//b` and `a/b` do. Names without a slash are alike only if they are equal.

  There is one exception, since the sheet of starts and ends of `n` has the path of the
  sheet of `nStartEnd`, as their `Export.label` says.

  * `IsFamily` : exports that belong to some names, so that different names have different
    exports;
  * `nodup_paths_iff` : when such exports have different paths.
-/
import Screenmark.Proofs.Output.Outlet

namespace Screenmark

/-! ## Parts of a path -/

namespace Text

variable {sep c : Char} {a b first last : List Char} {init rest : List (List Char)}

/-- Where two texts meet, the last piece of the one goes on with the first of the other. -/
theorem pieces_append_of_concat (ha : pieces sep a = init ++ [last])
    (hb : pieces sep b = first :: rest) :
    pieces sep (a ++ b) = init ++ (last ++ first) :: rest := by
  induction a generalizing init last with
  | nil =>
    rcases init with _ | ⟨p, init⟩
    · obtain rfl : last = [] := by simpa [pieces, eq_comm] using ha
      exact hb
    · simp [pieces] at ha
  | cons c a ih =>
    by_cases hc : c = sep
    · rw [pieces, if_pos hc] at ha
      rcases init with _ | ⟨p, init⟩
      · exact absurd (List.cons.inj ha).2 (pieces_ne_nil sep a)
      · obtain ⟨rfl, hrest⟩ := List.cons.inj ha
        have hrest : pieces sep a = init ++ [last] := hrest
        rw [List.cons_append, pieces, if_pos hc, ih hrest, List.cons_append]
    · obtain ⟨p, ps, hp⟩ := List.exists_cons_of_ne_nil (pieces_ne_nil sep a)
      rw [pieces_cons_of_ne hc hp] at ha
      rcases init with _ | ⟨q, init⟩
      · obtain ⟨rfl, rfl⟩ := List.cons.inj ha
        have hp : pieces sep a = [] ++ [p] := hp
        exact pieces_cons_of_ne hc (ih hp)
      · obtain ⟨rfl, rfl⟩ := List.cons.inj ha
        have hp : pieces sep a = (p :: init) ++ [last] := hp
        exact pieces_cons_of_ne hc (ih hp)

end Text

namespace Path

open Text

variable {c d : Char} {n m x y z u v : List Char}

/-- The pieces that are parts of a path. -/
def visible (ps : List (List Char)) : List String :=
  (ps.filter fun q => q ≠ [] ∧ q ≠ ['.']).map String.ofList

theorem parts_ofList (cs : List Char) : parts (String.ofList cs) = visible (pieces '/' cs) := by
  rw [parts, String.toList_ofList, visible]

theorem visible_append (ps qs : List (List Char)) :
    visible (ps ++ qs) = visible ps ++ visible qs := by
  rw [visible, List.filter_append, List.map_append, visible, visible]

theorem visible_cons (hc : c ∈ x) (hdot : c ≠ '.') (ps : List (List Char)) :
    visible (x :: ps) = String.ofList x :: visible ps := by
  have hx : x ≠ [] ∧ x ≠ ['.'] :=
    ⟨List.ne_nil_of_mem hc, fun h => hdot (List.mem_singleton.1 (h ▸ hc))⟩
  rw [visible, List.filter_cons_of_pos (by simpa using hx), List.map_cons, visible]

/-- What a name puts into a path: a piece, or two and the parts between them. -/
def spelling (n : List Char) : List Char × Option (List String × List Char) :=
  ((pieces '/' n).headD [], (pieces '/' n).tail.getLast?.map fun q =>
    (visible (pieces '/' n).tail.dropLast, q))

/-- The parts that a name makes between `x` and `y`. -/
def spelled (x y : List Char) : List Char × Option (List String × List Char) → List String
  | (p, none) => [String.ofList (x ++ p ++ y)]
  | (p, some (ps, q)) => String.ofList (x ++ p) :: (ps ++ [String.ofList (q ++ y)])

theorem spelled_inj {s s' : List Char × Option (List String × List Char)} :
    spelled x y s = spelled x y s' ↔ s = s' := by
  refine ⟨fun h => ?_, fun h => congrArg _ h⟩
  obtain ⟨p, _ | ⟨ps, q⟩⟩ := s
  · obtain ⟨p', _ | ⟨ps', q'⟩⟩ := s'
    · have hp := String.ofList_injective (List.cons.inj h).1
      rw [List.append_cancel_left (List.append_cancel_right hp)]
    · simp [spelled] at h
  · obtain ⟨p', _ | ⟨ps', q'⟩⟩ := s'
    · simp [spelled] at h
    · obtain ⟨hp, hrest⟩ := List.cons.inj h
      obtain ⟨hps, hq⟩ := List.append_inj' hrest rfl
      have hq := String.ofList_injective (List.cons.inj hq).1
      rw [List.append_cancel_left (String.ofList_injective hp), hps, List.append_cancel_right hq]

/-- The parts of a path with a name in it. -/
theorem exists_parts_spelled (hc : c ≠ '.') (hslash : c ≠ '/') (x : List Char) : ∃ ps l,
    ∀ n y, '/' ∉ y → (∃ d ∈ y, d ≠ '.') →
      visible (pieces '/' (x ++ c :: (n ++ y))) = ps ++ spelled l y (spelling n) := by
  obtain ⟨init, last, hx, -⟩ := exists_pieces_append '/' x
  refine ⟨visible init, last ++ [c], fun n y hy ⟨d, hd, hdot⟩ => ?_⟩
  obtain ⟨initN, lastN, hn, happend⟩ := exists_pieces_append '/' n
  have hwhole : ∀ {p ps}, pieces '/' (n ++ y) = p :: ps →
      pieces '/' (x ++ c :: (n ++ y)) = init ++ (last ++ c :: p) :: ps := fun h =>
    pieces_append_of_concat hx (pieces_cons_of_ne hslash h)
  have hsign : ∀ p : List Char, c ∈ last ++ c :: p := fun p => by simp
  rcases initN with _ | ⟨p, mid⟩
  · rw [hwhole (happend y hy), visible_append, visible_cons (hsign _) hc, spelling, hn]
    simp [spelled, visible]
  · have hny : pieces '/' (n ++ y) = p :: (mid ++ [lastN ++ y]) := happend y hy
    rw [hwhole hny, visible_append, visible_cons (hsign _) hc, visible_append,
      visible_cons (c := d) (List.mem_append_right _ hd) hdot, spelling, hn]
    simp [spelled, visible]

/-- Two names make the same parts of a path. -/
def Alike (n m : String) : Prop := parts ("-" ++ n ++ "-") = parts ("-" ++ m ++ "-")

instance (n m : String) : Decidable (Alike n m) :=
  inferInstanceAs (Decidable (parts ("-" ++ n ++ "-") = parts ("-" ++ m ++ "-")))

theorem alike_iff_spelling {n m : String} : Alike n m ↔ spelling n.toList = spelling m.toList := by
  obtain ⟨ps, l, h⟩ := exists_parts_spelled (c := '-') (by decide) (by decide) []
  have hparts : ∀ k : String, parts ("-" ++ k ++ "-") = ps ++ spelled l ['-'] (spelling k.toList) := by
    intro k
    rw [← h k.toList ['-'] (by decide) ⟨'-', by decide, by decide⟩, ← parts_ofList]
    congr 1
    exact String.toList_inj.1 (by simp)
  rw [Alike, hparts, hparts, List.append_right_inj, spelled_inj]

/-- **Names between the same texts make the same path if they are alike.** -/
theorem parts_around_eq_iff (hc : c ≠ '.') (hslash : c ≠ '/') (x : List Char) {y : List Char}
    (hy : '/' ∉ y) (hsign : ∃ d ∈ y, d ≠ '.') {n m : String} :
    visible (pieces '/' (x ++ c :: (n.toList ++ y))) =
      visible (pieces '/' (x ++ c :: (m.toList ++ y))) ↔ Alike n m := by
  obtain ⟨ps, l, h⟩ := exists_parts_spelled hc hslash x
  rw [h _ y hy hsign, h _ y hy hsign, List.append_right_inj, spelled_inj, alike_iff_spelling]

theorem alike_refl (n : String) : Alike n n := rfl

/-- Names without slash are alike only if they are equal. -/
theorem eq_of_alike {n m : String} (hn : '/' ∉ n.toList) (h : Alike n m) : n = m := by
  rw [alike_iff_spelling, spelling, spelling, pieces_of_not_mem hn] at h
  obtain ⟨hhead, htail⟩ := Prod.mk.inj h
  obtain ⟨p, ps, hm⟩ := List.exists_cons_of_ne_nil (pieces_ne_nil '/' m.toList)
  rw [hm] at hhead htail
  have hps : ps = [] := by
    rcases List.eq_nil_or_concat ps with hps | ⟨qs, q, rfl⟩
    · exact hps
    · simp at htail
  have hjoin := intercalate_pieces '/' m.toList
  rw [hm, hps, List.intercalate_singleton] at hjoin
  exact String.toList_inj.1 (hhead.trans hjoin)

/-- A path keeps its ending. -/
theorem exists_getLast?_visible (x : List Char) {y : List Char} (hy : '/' ∉ y)
    (hsign : ∃ d ∈ y, d ≠ '.') :
    ∃ l, (visible (pieces '/' (x ++ y))).getLast? = some (String.ofList (l ++ y)) := by
  obtain ⟨init, last, -, happend⟩ := exists_pieces_append '/' x
  obtain ⟨d, hd, hdot⟩ := hsign
  refine ⟨last, ?_⟩
  rw [happend y hy, visible_append, visible_cons (c := d) (List.mem_append_right _ hd) hdot]
  simp [visible]

/-- Paths with different endings have different parts. -/
theorem parts_ne_of_ending (u v : List Char) {y z : List Char} (hy : '/' ∉ y) (hz : '/' ∉ z)
    (hysign : ∃ d ∈ y, d ≠ '.') (hzsign : ∃ d ∈ z, d ≠ '.') (hyz : ¬ y <:+ z) (hzy : ¬ z <:+ y) :
    visible (pieces '/' (u ++ y)) ≠ visible (pieces '/' (v ++ z)) := by
  intro heq
  obtain ⟨l, hl⟩ := exists_getLast?_visible u hy hysign
  obtain ⟨l', hl'⟩ := exists_getLast?_visible v hz hzsign
  rw [heq, hl', Option.some.injEq] at hl
  have hends := String.ofList_injective hl
  rcases Nat.le_total y.length z.length with hle | hle
  · exact hyz (List.suffix_of_suffix_length_le (hends ▸ List.suffix_append l y)
      (List.suffix_append l' z) hle)
  · exact hzy (List.suffix_of_suffix_length_le (List.suffix_append l' z)
      (hends ▸ List.suffix_append l y) hle)

/-- Paths that differ first in a sign have different parts. -/
theorem parts_ne_of_sign (x : List Char) (hc : c ≠ '.' ∧ c ≠ '/') (hd : d ≠ '.' ∧ d ≠ '/')
    (hne : c ≠ d) (u v : List Char) :
    visible (pieces '/' (x ++ c :: u)) ≠ visible (pieces '/' (x ++ d :: v)) := by
  obtain ⟨init, last, hx, -⟩ := exists_pieces_append '/' x
  obtain ⟨p, ps, hu⟩ := List.exists_cons_of_ne_nil (pieces_ne_nil '/' u)
  obtain ⟨q, qs, hv⟩ := List.exists_cons_of_ne_nil (pieces_ne_nil '/' v)
  rw [pieces_append_of_concat hx (pieces_cons_of_ne hc.2 hu),
    pieces_append_of_concat hx (pieces_cons_of_ne hd.2 hv), visible_append, visible_append,
    visible_cons (c := c) (by simp) hc.1, visible_cons (c := d) (by simp) hd.1,
    Ne, List.append_right_inj, List.cons.injEq]
  intro heq
  exact hne (List.cons.inj (List.append_cancel_left (String.ofList_injective heq.1))).1

end Path

/-! ## Exports -/

/-- A file that a run exports. -/
inductive Export where
  | combined (names : List String)
  | sheet (name : String)
  | startEnd (name : String)
  | segments (name : String)
  | overlays (name : String)
deriving DecidableEq

/-- The path of an export. -/
def Outlet.pathOf (o : Outlet) : Export → String
  | .combined names => o.combinedPath names
  | .sheet name => o.sheetPath name
  | .startEnd name => o.startEndPath name
  | .segments name => o.segmentsPath name
  | .overlays name => o.overlaysPath name

namespace Export

/-- The sign behind the name of the recording. -/
def sign : Export → Char
  | combined _ => '+'
  | sheet _ | startEnd _ => '_'
  | segments _ | overlays _ => '-'

/-- What stands between the sign and the ending. -/
def label : Export → String
  | combined names => "+".intercalate names
  | startEnd name => name ++ "StartEnd"
  | sheet name | segments name | overlays name => name

def ending : Export → String
  | combined _ | sheet _ | startEnd _ => ".csv"
  | segments _ => "-segments.json"
  | overlays _ => "-overlays.json"

theorem sign_spec (e : Export) : e.sign ≠ '.' ∧ e.sign ≠ '/' := by
  cases e <;> simp [sign]

theorem ending_spec (e : Export) :
    '/' ∉ e.ending.toList ∧ ∃ d ∈ e.ending.toList, d ≠ '.' := by
  cases e <;> exact ⟨by simp [ending], 's', by simp [ending], by decide⟩

/-- Endings do not end with each other. -/
theorem eq_of_ending_suffix {e e' : Export} (h : e.ending.toList <:+ e'.ending.toList) :
    e.ending = e'.ending := by
  revert h
  cases e <;> cases e' <;> simp only [ending] <;> decide

/-! ### The names that exports belong to -/

/-- The name that an export belongs to; the sheet of all targets belongs to none. -/
def owner? : Export → Option String
  | combined _ => none
  | sheet name | startEnd name | segments name | overlays name => some name

/-- Exports that belong to some names, among them the segments of each. -/
structure IsFamily (ns : List String) (es : List Export) : Prop where
  nodup : es.Nodup
  owned : ∀ e ∈ es, ∃ n ∈ ns, e.owner? = some n
  segments : ∀ n ∈ ns, .segments n ∈ es

variable {ns ms : List String} {es fs : List Export} {n : String}

theorem isFamily_nil : IsFamily [] [] := ⟨.nil, List.forall_mem_nil _, List.forall_mem_nil _⟩

theorem isFamily_singleton (hnd : (segments n :: es).Nodup) (h : ∀ e ∈ es, e.owner? = some n) :
    IsFamily [n] (segments n :: es) where
  nodup := hnd
  owned := List.forall_mem_cons.2 ⟨⟨n, List.mem_singleton_self n, rfl⟩, fun e he =>
    ⟨n, List.mem_singleton_self n, h e he⟩⟩
  segments := List.forall_mem_singleton.2 List.mem_cons_self

/-- One more export of a name. -/
theorem IsFamily.concat {e : Export} (h : IsFamily [n] es) (hown : e.owner? = some n)
    (hnew : e ∉ es) : IsFamily [n] (es ++ [e]) where
  nodup := by
    refine List.nodup_append.2 ⟨h.nodup, List.pairwise_singleton _ e, fun a ha b hb heq => hnew ?_⟩
    exact List.mem_singleton.1 hb ▸ heq ▸ ha
  owned a ha := by
    rcases List.mem_append.1 ha with ha | ha
    · exact h.owned a ha
    · exact ⟨n, List.mem_singleton_self n, List.mem_singleton.1 ha ▸ hown⟩
  segments m hm := List.mem_append_left _ (h.segments m hm)

/-- Different names have different exports. -/
theorem IsFamily.append (h : IsFamily ns es) (h' : IsFamily ms fs) (hnd : (ns ++ ms).Nodup) :
    IsFamily (ns ++ ms) (es ++ fs) where
  nodup := by
    refine List.nodup_append.2 ⟨h.nodup, h'.nodup, fun e he f hf heq => ?_⟩
    obtain ⟨n, hn, hown⟩ := h.owned e he
    obtain ⟨m, hm, hown'⟩ := h'.owned f hf
    rw [heq, hown'] at hown
    exact (List.nodup_append.1 hnd).2.2 n hn m hm (Option.some.inj hown).symm
  owned e he := by
    rcases List.mem_append.1 he with he | he
    · obtain ⟨n, hn, hown⟩ := h.owned e he
      exact ⟨n, List.mem_append_left ms hn, hown⟩
    · obtain ⟨m, hm, hown⟩ := h'.owned e he
      exact ⟨m, List.mem_append_right ns hm, hown⟩
  segments n hn := by
    rcases List.mem_append.1 hn with hn | hn
    · exact List.mem_append_left fs (h.segments n hn)
    · exact List.mem_append_right es (h'.segments n hn)

theorem IsFamily.flatMap {α : Type} {as : List α} {names : α → List String}
    {exports : α → List Export} (h : ∀ a ∈ as, IsFamily (names a) (exports a))
    (hnd : (as.flatMap names).Nodup) : IsFamily (as.flatMap names) (as.flatMap exports) := by
  induction as with
  | nil => exact isFamily_nil
  | cons a as ih =>
    rw [List.forall_mem_cons] at h
    rw [List.flatMap_cons] at hnd
    exact h.1.append (ih h.2 (List.nodup_append.1 hnd).2.1) hnd

/-- The timelines of a name, perhaps one of overlays among them. -/
def timelines (name : String) (hasOverlays : Bool) : List Export :=
  segments name :: if hasOverlays then [overlays name] else []

theorem mem_timelines {e : Export} {hasOverlays : Bool} : e ∈ timelines n hasOverlays ↔
    e = segments n ∨ hasOverlays = true ∧ e = overlays n := by
  cases hasOverlays <;> simp [timelines]

theorem sign_of_mem_timelines {e : Export} {hasOverlays : Bool}
    (he : e ∈ timelines n hasOverlays) : e.sign = '-' := by
  rcases mem_timelines.1 he with rfl | ⟨-, rfl⟩ <;> rfl

theorem isFamily_timelines (n : String) (hasOverlays : Bool) :
    IsFamily [n] (timelines n hasOverlays) := by
  cases hasOverlays <;> exact isFamily_singleton (by simp) (by simp [owner?])

/-- Exports without repetition that come with the segments of the names they belong to, and
    among which there is one sheet of all targets. -/
structure IsRegular (es : List Export) : Prop where
  nodup : es.Nodup
  segments : ∀ e ∈ es, ∀ n, e.owner? = some n → .segments n ∈ es
  combined : ∀ ns ms, .combined ns ∈ es → .combined ms ∈ es → ns = ms
  targets : .combined [] ∉ es

/-- The exports of a family, perhaps with the sheet of all targets. -/
theorem IsFamily.isRegular (h : IsFamily ns es) (hperm : fs.Perm es ∨
    ∃ ms, ms ≠ [] ∧ fs.Perm (.combined ms :: es)) : IsRegular fs := by
  have hunowned : ∀ ms, .combined ms ∉ es := fun ms hms => by
    obtain ⟨n, -, hown⟩ := h.owned _ hms
    cases hown
  have hsegments : ∀ e ∈ es, ∀ n, e.owner? = some n → .segments n ∈ es := fun e he n hown => by
    obtain ⟨m, hm, hown'⟩ := h.owned e he
    rw [hown, Option.some.injEq] at hown'
    exact hown' ▸ h.segments m hm
  rcases hperm with hperm | ⟨ms, hms, hperm⟩
  · have hnone : ∀ ms, .combined ms ∉ fs := fun ms hmem => hunowned ms (hperm.mem_iff.1 hmem)
    refine ⟨hperm.nodup_iff.2 h.nodup, fun e he n hown => ?_, fun ns ms hns _ =>
      absurd hns (hnone ns), hnone []⟩
    exact hperm.mem_iff.2 (hsegments e (hperm.mem_iff.1 he) n hown)
  · have hone : ∀ ns, .combined ns ∈ fs → ns = ms := fun ns hns => by
      rcases List.mem_cons.1 (hperm.mem_iff.1 hns) with heq | hmem
      · exact combined.inj heq
      · exact absurd hmem (hunowned ns)
    refine ⟨hperm.nodup_iff.2 (List.nodup_cons.2 ⟨hunowned ms, h.nodup⟩), fun e he n hown => ?_,
      fun ns ks hns hks => (hone ns hns).trans (hone ks hks).symm, fun hnil => hms (hone [] hnil).symm⟩
    rcases List.mem_cons.1 (hperm.mem_iff.1 he) with rfl | hmem
    · cases hown
    · exact hperm.mem_iff.2 (List.mem_cons_of_mem _ (hsegments e hmem n hown))

end Export

namespace Outlet

open Screenmark.Path Text

variable {o : Outlet} {e e' : Export}

theorem join_plus : ∀ {names : List String}, names ≠ [] →
    (String.join (names.map ("+" ++ ·))).toList = '+' :: ("+".intercalate names).toList
  | [n], _ => by simp
  | n :: m :: ns, _ => by
    have hrest := join_plus (List.cons_ne_nil m ns)
    rw [List.map_cons, String.join_cons, String.toList_append, hrest,
      String.intercalate_cons_of_ne_nil (List.cons_ne_nil m ns)]
    simp

/-- What stands in a path behind the name of the recording. -/
theorem exists_pathOf_eq (o : Outlet) : ∃ x : List Char, ∀ e, e ≠ .combined [] →
    (o.pathOf e).toList = x ++ e.sign :: (e.label.toList ++ e.ending.toList) := by
  have hx : ∀ p c cs, c ≠ '/' → p.toList = c :: cs →
      (Path.join o.folder (o.stem ++ p)).toList = (Path.join o.folder o.stem).toList ++ c :: cs := by
    intro p c cs hc hp
    have hhead : p.toList.head? ≠ some '/' := by
      rw [hp]
      exact fun heq => hc (Option.some.inj heq)
    rw [join_append hhead, String.toList_append, hp]
  refine ⟨(Path.join o.folder o.stem).toList, fun e he => ?_⟩
  cases e with
  | combined names =>
    have hnames : names ≠ [] := fun h => he (h ▸ rfl)
    rw [pathOf, combinedPath, String.append_assoc]
    exact hx _ _ _ (Export.sign_spec _).2 (by rw [String.toList_append, join_plus hnames]; rfl)
  | sheet | startEnd | segments | overlays =>
    simp only [pathOf, sheetPath, startEndPath, segmentsPath, overlaysPath, String.append_assoc]
    exact hx _ _ _ (Export.sign_spec _).2 (by simp [Export.label, Export.ending, Export.sign])

/-- **Exports have the same path if they are of one kind and their names are alike.** -/
theorem parts_pathOf_eq_iff (he : e ≠ .combined []) (he' : e' ≠ .combined []) :
    parts (o.pathOf e) = parts (o.pathOf e') ↔
      e.sign = e'.sign ∧ e.ending = e'.ending ∧ Alike e.label e'.label := by
  obtain ⟨x, hx⟩ := exists_pathOf_eq o
  have hparts : ∀ e, e ≠ .combined [] → parts (o.pathOf e) =
      visible (pieces '/' (x ++ e.sign :: (e.label.toList ++ e.ending.toList))) := by
    intro e he
    rw [← hx e he]
    rfl
  obtain ⟨hslash, hshown⟩ := e.ending_spec
  obtain ⟨hslash', hshown'⟩ := e'.ending_spec
  rw [hparts e he, hparts e' he']
  constructor
  · intro h
    have hsign : e.sign = e'.sign := by
      refine Decidable.byContradiction fun hne => ?_
      exact parts_ne_of_sign x e.sign_spec e'.sign_spec hne _ _ h
    have hending : e.ending = e'.ending := by
      refine Decidable.byContradiction fun hne => ?_
      have hends := parts_ne_of_ending (x ++ e.sign :: e.label.toList)
        (x ++ e'.sign :: e'.label.toList) hslash hslash' hshown hshown'
        (fun hsuffix => hne (Export.eq_of_ending_suffix hsuffix))
        (fun hsuffix => hne (Export.eq_of_ending_suffix hsuffix).symm)
      exact hends (by simpa using h)
    rw [hsign, hending] at h
    exact ⟨hsign, hending,
      (parts_around_eq_iff e'.sign_spec.1 e'.sign_spec.2 x hslash' hshown').1 h⟩
  · rintro ⟨hsign, hending, halike⟩
    rw [hsign, hending]
    exact (parts_around_eq_iff e'.sign_spec.1 e'.sign_spec.2 x hslash' hshown').2 halike

/-! ## Exports of many names -/

theorem nodup_map_iff {α β : Type} {f : α → β} {as : List α} (h : as.Nodup) :
    (as.map f).Nodup ↔ ∀ a ∈ as, ∀ b ∈ as, f a = f b → a = b := by
  rw [List.Nodup, List.pairwise_map]
  constructor
  · intro hpairs a ha b hb
    refine List.Pairwise.forall_of_forall_of_flip (R := fun a b => f a = f b → a = b)
      (fun _ _ _ => rfl) ?_ ?_ ha hb
    · exact hpairs.imp fun hne heq => absurd heq hne
    · exact hpairs.imp fun hne heq => absurd heq.symm hne
  · exact fun hinj => h.imp_of_mem fun ha hb hne heq => hne (hinj _ ha _ hb heq)

theorem alike_append_iff {n m : String} :
    Alike (n ++ "StartEnd") (m ++ "StartEnd") ↔ Alike n m := by
  have hparts : ∀ k : String, parts ("-" ++ (k ++ "StartEnd") ++ "-") =
      visible (pieces '/' ([] ++ '-' :: (k.toList ++ "StartEnd-".toList))) := by
    intro k
    rw [← parts_ofList]
    congr 1
    exact String.toList_inj.1 (by simp)
  rw [Alike, hparts, hparts]
  exact parts_around_eq_iff (by decide) (by decide) [] (by decide) ⟨'S', by decide, by decide⟩

/-- **The exports of a run have different paths just if no two names are alike, and no name
    of a sheet is alike to that of a sheet of starts and ends.** -/
theorem nodup_paths_iff {es : List Export} (h : Export.IsRegular es) :
    (es.map fun e => parts (o.pathOf e)).Nodup ↔
      (∀ n m, .segments n ∈ es → .segments m ∈ es → Alike n m → n = m) ∧
        ∀ n m, .sheet n ∈ es → .startEnd m ∈ es → ¬ Alike n (m ++ "StartEnd") := by
  have hne : ∀ {e}, e ∈ es → e ≠ .combined [] := fun he heq => h.targets (heq ▸ he)
  rw [nodup_map_iff h.nodup]
  constructor
  · intro hinj
    refine ⟨fun n m hn hm halike => ?_, fun n m hn hm halike => ?_⟩
    · have heq := hinj _ hn _ hm ((parts_pathOf_eq_iff (hne hn) (hne hm)).2 ⟨rfl, rfl, halike⟩)
      exact Export.segments.inj heq
    · cases hinj _ hn _ hm ((parts_pathOf_eq_iff (hne hn) (hne hm)).2 ⟨rfl, rfl, halike⟩)
  · rintro ⟨hnames, hsheets⟩ a ha b hb heq
    obtain ⟨hsign, hending, halike⟩ := (parts_pathOf_eq_iff (hne ha) (hne hb)).1 heq
    cases a with
    | combined ns =>
      cases b with
      | combined ms => rw [h.combined ns ms ha hb]
      | sheet | startEnd | segments | overlays => simp [Export.sign] at hsign
    | sheet n =>
      cases b with
      | sheet m => rw [hnames n m (h.segments _ ha n rfl) (h.segments _ hb m rfl) halike]
      | startEnd m => exact absurd halike (hsheets n m ha hb)
      | combined | segments | overlays => simp [Export.sign] at hsign
    | startEnd n =>
      cases b with
      | startEnd m =>
        rw [hnames n m (h.segments _ ha n rfl) (h.segments _ hb m rfl) (alike_append_iff.1 halike)]
      | sheet m => exact absurd halike.symm (hsheets m n hb ha)
      | combined | segments | overlays => simp [Export.sign] at hsign
    | segments n =>
      cases b with
      | segments m => rw [hnames n m ha hb halike]
      | overlays => simp [Export.ending] at hending
      | combined | sheet | startEnd => simp [Export.sign] at hsign
    | overlays n =>
      cases b with
      | overlays m => rw [hnames n m (h.segments _ ha n rfl) (h.segments _ hb m rfl) halike]
      | segments => simp [Export.ending] at hending
      | combined | sheet | startEnd => simp [Export.sign] at hsign

end Outlet

end Screenmark
