/-
  Screenmark — formulas survive being written.

  A formula over the operators of rules can be written in many ways: an operator between two
  operands stands between them, in parentheses and between spaces, or is called with them, and
  one that is joined from the left again and again is called with all of its operands at once.
  `Spells` are these ways, freely mixed; each of them is read back as the formula
  (`parse_spelled`).

  What a spelling is cut into does not depend on what follows it, as long as no name or number
  goes on there: `Stands` is kept by all ways of writing a formula from its parts.
-/
import Screenmark.Proofs.Formula.Lexing
import Screenmark.Proofs.Formula.Precedence

namespace Screenmark

namespace Formula

/-! ## Spellings -/

/-- The text is a way to write the formula. -/
inductive Spells : Formula → String → Prop
  | true : Spells (.literal (.bool true)) "True"
  | false : Spells (.literal (.bool false)) "False"
  | number {x : Double} {text : String} : Decimal.IsNumeral text.toList →
      Binary.ofText? text = some x → Spells (.literal (.number x)) text
  | name {n : String} : IsName n → Value.keyword? n = none → Spells (.name n) n
  | prefixed {s : String} {op : UnaryOp} {e : Formula} {text : String} :
      Table.standard.prefixOps.find? s = some op → Spells e text →
      Spells (.prefixed op e) (s ++ text)
  | between {s : String} {op : InfixOp} {e e' : Formula} {text text' : String} :
      Table.standard.infixOps.find? s = some op → Spells e text → Spells e' text' →
      Spells (.joined op e e') ("(" ++ text ++ " " ++ s ++ " " ++ text' ++ ")")
  | call {s : String} {op : InfixOp} {e : Formula} {text : String}
      {others : List (Formula × String)} : Table.standard.infixOps.find? s = some op →
      Spells e text → others ≠ [] → (∀ q ∈ others, Spells q.1 q.2) →
      Spells ((others.map Prod.fst).foldl (.joined op) e)
        (s ++ "(" ++ ", ".intercalate (text :: others.map Prod.snd) ++ ")")

/-- A leaf that can be written: texts cannot, and numbers only by digits and points. -/
def Leaf.IsSpellable : Leaf → Prop
  | .value (.bool _) => True
  | .value (.number x) =>
    ∃ text : String, Decimal.IsNumeral text.toList ∧ Binary.ofText? text = some x
  | .value (.text _) => False
  | .name n => IsName n ∧ n ≠ "True" ∧ n ≠ "False"

theorem keyword?_eq_none_iff {n : String} :
    Value.keyword? n = none ↔ n ≠ "True" ∧ n ≠ "False" := by
  unfold Value.keyword?
  split
  · next h => simp [h]
  · split
    · next h => simp [h]
    · next h h' => simp [h, h']

/-- Every formula with leaves that can be written can be. -/
theorem exists_spells {e : Formula} (he : e.IsOver .standard)
    (hleaves : ∀ l ∈ e.leaves, l.IsSpellable) : ∃ text, Spells e text := by
  induction he with
  | @literal v =>
    have hv : (Leaf.value v).IsSpellable := hleaves _ List.mem_cons_self
    match v, hv with
    | .bool true, _ => exact ⟨_, .true⟩
    | .bool false, _ => exact ⟨_, .false⟩
    | .number x, hv =>
      obtain ⟨text, hnumeral, hread⟩ := hv
      exact ⟨text, .number hnumeral hread⟩
    | .text s, hv => exact hv.elim
  | @name n =>
    obtain ⟨hname, hword⟩ := hleaves (.name n) List.mem_cons_self
    exact ⟨n, .name hname (keyword?_eq_none_iff.2 hword)⟩
  | prefixed hop _ ih =>
    obtain ⟨text, htext⟩ := ih hleaves
    exact ⟨_, .prefixed hop htext⟩
  | postfixed hop _ _ =>
    rw [postfixOps_standard] at hop
    cases hop
  | joined hop _ _ ih ih' =>
    obtain ⟨text, htext⟩ := ih fun l hl => hleaves l (List.mem_append_left _ hl)
    obtain ⟨text', htext'⟩ := ih' fun l hl => hleaves l (List.mem_append_right _ hl)
    exact ⟨_, .between hop htext htext'⟩

/-! ## The tokens of a spelling -/

/-- The text is cut into tokens that write the formula, whatever stands behind it. -/
structure Stands (cs : List Char) (ts : List Token) (e : Formula) : Prop where
  writes : Writes .standard .unary ts e
  /-- A symbol before it does not go on. -/
  begins : ∃ c cs', cs = c :: cs' ∧ c ≠ '='
  cuts : ∀ {rest us}, Parts rest → Cuts .standard rest us → Cuts .standard (cs ++ rest) (ts ++ us)

theorem mem_symbols_of_infixOps {s : String} {op : InfixOp}
    (h : Table.standard.infixOps.find? s = some op) :
    s ∈ Table.standard.symbols ∧ s ∈ Table.standard.infixOps.keys := by
  have hkey := mem_keys_of_contains (NameMap.contains_iff.2 ⟨op, h⟩)
  exact ⟨List.mem_append_left _ (List.mem_append_right _ hkey), hkey⟩

theorem mem_symbols_of_prefixOps {s : String} {op : UnaryOp}
    (h : Table.standard.prefixOps.find? s = some op) :
    s ∈ Table.standard.symbols ∧ s ∈ Table.standard.prefixOps.keys := by
  have hkey := mem_keys_of_contains (NameMap.contains_iff.2 ⟨op, h⟩)
  exact ⟨List.mem_append_left _ (List.mem_append_left _ hkey), hkey⟩

theorem begins_of_mem_symbols {s : String} (hs : s ∈ Table.standard.symbols) :
    ∃ c cs, s.toList = c :: cs ∧ c ≠ '=' := by
  have hall : ∀ s ∈ Table.standard.symbols, s.toList ≠ [] ∧ s.toList.head? ≠ some '=' := by decide
  obtain ⟨hne, hhead⟩ := hall s hs
  obtain ⟨c, cs, hcs⟩ := List.exists_cons_of_ne_nil hne
  refine ⟨c, cs, hcs, ?_⟩
  rintro rfl
  rw [hcs] at hhead
  exact hhead rfl

/-- A symbol between operands ends at a space and at a parenthesis. -/
theorem infixOps_append_not_mem : ∀ s ∈ Table.standard.infixOps.keys,
    s.toList ++ [' '] ∉ Table.standard.symbols.map String.toList ∧
      s.toList ++ ['('] ∉ Table.standard.symbols.map String.toList := by
  decide

/-- A symbol before an operand ends but at an equals sign. -/
theorem prefixOps_append_not_mem {s : String} (hs : s ∈ Table.standard.prefixOps.keys) {c : Char}
    (hc : c ≠ '=') : s.toList ++ [c] ∉ Table.standard.symbols.map String.toList := by
  have hkeys : Table.standard.prefixOps.keys = ["!", "!="] := by decide
  have hsymbols : Table.standard.symbols.map String.toList =
      [['!'], ['!', '='], ['&'], ['&', '&'], ['|', '|']] := by decide
  rw [hkeys] at hs
  rw [hsymbols]
  rcases List.mem_cons.1 hs with rfl | hs
  · simp [hc]
  · rw [List.mem_singleton.1 hs]
    simp

theorem isName_of_keyword? {n : String} {v : Value} (h : Value.keyword? n = some v) : IsName n := by
  unfold Value.keyword? at h
  split at h
  · next htrue => exact htrue ▸ ⟨'T', ['r', 'u', 'e'], rfl, rfl, List.all_eq_true.1 rfl⟩
  · split at h
    · next hfalse => exact hfalse ▸ ⟨'F', ['a', 'l', 's', 'e'], rfl, rfl, List.all_eq_true.1 rfl⟩
    · cases h

theorem stands_ident {n : String} {e : Formula} (hname : IsName n)
    (h : Writes .standard .atom [.ident n] e) : Stands n.toList [.ident n] e := by
  obtain ⟨c, cs, hn, hstart, -⟩ := id hname
  refine ⟨h.bare, ⟨c, cs, hn, ?_⟩, fun hparts hrest => hrest.name hname hparts⟩
  rintro rfl
  cases hstart

theorem stands_number {x : Double} {cs : List Char} (hnumeral : Decimal.IsNumeral cs)
    (hread : Binary.read? cs = some x) : Stands cs [.number x] (.literal (.number x)) := by
  obtain ⟨c, cs', hcs, hdigit⟩ := hnumeral.head
  refine ⟨Writes.number.bare, ⟨c, cs', hcs, ?_⟩,
    fun hparts hrest => hrest.number hnumeral hread hparts⟩
  rintro rfl
  cases hdigit

theorem Stands.prefixed {s : String} {op : UnaryOp} {cs : List Char} {ts : List Token} {e : Formula}
    (hop : Table.standard.prefixOps.find? s = some op) (h : Stands cs ts e) :
    Stands (s.toList ++ cs) (.op s :: ts) (.prefixed op e) := by
  obtain ⟨hsymbol, hkey⟩ := mem_symbols_of_prefixOps hop
  obtain ⟨d, ds, hs, hd⟩ := begins_of_mem_symbols hsymbol
  obtain ⟨c, cs, rfl, hc⟩ := h.begins
  refine ⟨h.writes.prefixed hop, ⟨d, ds ++ c :: cs, by rw [hs, List.cons_append], hd⟩,
    fun {rest us} hparts hrest => ?_⟩
  rw [List.append_assoc]
  exact Cuts.op_standard hsymbol (prefixOps_append_not_mem hkey hc) (h.cuts hparts hrest)

/-- What stands behind an operand in parentheses. -/
theorem parts_space {cs : List Char} : Parts (' ' :: cs) := parts_cons ⟨by decide, by decide⟩

theorem parts_close {cs : List Char} : Parts (')' :: cs) := parts_cons ⟨by decide, by decide⟩

theorem parts_comma {cs : List Char} : Parts (',' :: cs) := parts_cons ⟨by decide, by decide⟩

theorem Stands.between {s : String} {op : InfixOp} {cs cs' : List Char} {ts ts' : List Token}
    {e e' : Formula} (hop : Table.standard.infixOps.find? s = some op) (h : Stands cs ts e)
    (h' : Stands cs' ts' e') :
    Stands ('(' :: (cs ++ ' ' :: (s.toList ++ ' ' :: (cs' ++ [')']))))
      (.lparen :: (ts ++ .op s :: ts') ++ [.rparen]) (.joined op e e') := by
  obtain ⟨hsymbol, hkey⟩ := mem_symbols_of_infixOps hop
  refine ⟨(Writes.group (.joined hop h.writes h'.writes)).bare, ⟨'(', _, rfl, by decide⟩,
    fun {rest us} hparts hrest => ?_⟩
  have hright : Cuts .standard (cs' ++ ')' :: rest) (ts' ++ .rparen :: us) :=
    h'.cuts parts_close hrest.rparen
  have hop : Cuts .standard (s.toList ++ ' ' :: (cs' ++ ')' :: rest))
      (.op s :: (ts' ++ .rparen :: us)) :=
    Cuts.op_standard hsymbol (infixOps_append_not_mem s hkey).1 hright.space
  have hinner := h.cuts parts_space hop.space
  have hall : Cuts .standard ('(' :: (cs ++ ' ' :: (s.toList ++ ' ' :: (cs' ++ ')' :: rest))))
      (.lparen :: (ts ++ .op s :: (ts' ++ .rparen :: us))) := hinner.lparen
  simpa using hall

/-- The texts behind commas, each with a space before it. -/
def listed (others : List (Formula × String)) : List Char :=
  others.flatMap fun q => ',' :: ' ' :: q.2.toList

/-- Arguments are cut one after another, each into what its text is cut into. -/
theorem exists_arguments_of_stands : ∀ {others : List (Formula × String)},
    (∀ q ∈ others, ∃ ts, Stands q.2.toList ts q.1) →
      ∃ args : List (List Token × Formula), args.map Prod.snd = others.map Prod.fst ∧
        (∀ a ∈ args, Writes .standard .formula a.1 a.2) ∧
        ∀ {rest us}, Parts rest → Cuts .standard rest us → Parts (listed others ++ rest) ∧
          Cuts .standard (listed others ++ rest)
            ((args.map Prod.fst).flatMap (.comma :: ·) ++ us)
  | [], _ => ⟨[], rfl, by simp, fun hparts hrest => ⟨hparts, hrest⟩⟩
  | q :: others, h => by
    rw [List.forall_mem_cons] at h
    obtain ⟨ts, hq⟩ := h.1
    obtain ⟨args, hargs, hwrites, hcuts⟩ := exists_arguments_of_stands h.2
    refine ⟨(ts, q.1) :: args, by rw [List.map_cons, List.map_cons, hargs],
      List.forall_mem_cons.2 ⟨hq.writes.alone, hwrites⟩, fun {rest us} hparts hrest => ?_⟩
    obtain ⟨hparts', hrest'⟩ := hcuts hparts hrest
    have hall : Cuts .standard (',' :: ' ' :: (q.2.toList ++ (listed others ++ rest)))
        (.comma :: (ts ++ ((args.map Prod.fst).flatMap (.comma :: ·) ++ us))) :=
      (hq.cuts hparts' hrest').space.comma
    simp only [listed, List.flatMap_cons, List.map_cons, List.cons_append, List.append_assoc]
    exact ⟨parts_comma, hall⟩

theorem toList_intercalate_comma (text : String) (others : List (Formula × String)) :
    (", ".intercalate (text :: others.map Prod.snd)).toList = text.toList ++ listed others := by
  induction others generalizing text with
  | nil => simp [listed]
  | cons q others ih =>
    simp only [String.toList_intercalate] at ih ⊢
    rw [List.map_cons, List.map_cons, List.map_cons, List.intercalate_cons_cons, ← List.map_cons,
      ih q.2]
    simp [listed]

theorem exists_stands_call {s : String} {op : InfixOp} {cs : List Char} {ts : List Token}
    {e : Formula} {others : List (Formula × String)}
    (hop : Table.standard.infixOps.find? s = some op) (h : Stands cs ts e) (hne : others ≠ [])
    (hothers : ∀ q ∈ others, ∃ us, Stands q.2.toList us q.1) :
    ∃ us, Stands (s.toList ++ '(' :: (cs ++ (listed others ++ [')']))) us
      ((others.map Prod.fst).foldl (.joined op) e) := by
  obtain ⟨hsymbol, hkey⟩ := mem_symbols_of_infixOps hop
  obtain ⟨d, ds, hs, hd⟩ := begins_of_mem_symbols hsymbol
  obtain ⟨args, hargs, hwrites, hcuts⟩ := exists_arguments_of_stands hothers
  have hargs_ne : args ≠ [] := by
    rintro rfl
    exact hne (List.map_eq_nil_iff.1 hargs.symm)
  have hcall := (Writes.call hop h.writes.alone hargs_ne hwrites).bare
  rw [hargs] at hcall
  refine ⟨_, hcall, ⟨d, ds ++ '(' :: (cs ++ (listed others ++ [')'])), by rw [hs, List.cons_append],
    hd⟩, fun {rest us} hparts hrest => ?_⟩
  obtain ⟨hparts', hrest'⟩ := hcuts parts_close hrest.rparen
  have hall : Cuts .standard (s.toList ++ '(' :: (cs ++ (listed others ++ ')' :: rest)))
      (.op s :: .lparen :: (ts ++ ((args.map Prod.fst).flatMap (.comma :: ·) ++ .rparen :: us))) :=
    Cuts.op_standard hsymbol (infixOps_append_not_mem s hkey).2 (h.cuts hparts' hrest').lparen
  simpa using hall

/-- A spelling stands for its formula. -/
theorem exists_stands_of_spells {e : Formula} {text : String} (h : Spells e text) :
    ∃ ts, Stands text.toList ts e := by
  induction h with
  | true => exact ⟨_, stands_ident (isName_of_keyword? rfl) (.word rfl)⟩
  | false => exact ⟨_, stands_ident (isName_of_keyword? rfl) (.word rfl)⟩
  | number hnumeral hread => exact ⟨_, stands_number hnumeral hread⟩
  | name hname hword => exact ⟨_, stands_ident hname (.name hword)⟩
  | prefixed hop _ ih =>
    obtain ⟨ts, hts⟩ := ih
    rw [String.toList_append]
    exact ⟨_, hts.prefixed hop⟩
  | between hop _ _ ih ih' =>
    obtain ⟨ts, hts⟩ := ih
    obtain ⟨ts', hts'⟩ := ih'
    have hall := hts.between hop hts'
    simp only [String.toList_append, List.append_assoc]
    exact ⟨_, hall⟩
  | call hop _ hne _ ih ihothers =>
    obtain ⟨ts, hts⟩ := ih
    obtain ⟨us, hus⟩ := exists_stands_call hop hts hne ihothers
    simp only [String.toList_append, toList_intercalate_comma, List.append_assoc]
    exact ⟨us, hus⟩

/-! ## Reading -/

/-- **A spelling of a formula is read as the formula**, and every formula over the operators
    of rules with leaves that can be written has one. -/
theorem parse_spelled {e : Formula} (he : e.IsOver .standard)
    (hleaves : ∀ l ∈ e.leaves, l.IsSpellable) :
    (∃ text, Spells e text) ∧ ∀ text, Spells e text → parse .standard text = .ok e := by
  refine ⟨exists_spells he hleaves, fun text htext => ?_⟩
  obtain ⟨ts, hts⟩ := exists_stands_of_spells htext
  have hcuts := hts.cuts parts_nil .nil
  rw [List.append_nil, List.append_nil] at hcuts
  obtain ⟨ls, hls, hmap⟩ := exists_tokens_of_cuts hcuts
  rw [parse_eq_ok_iff hls]
  exact isRead_of_writes isApart_standard hts.writes.alone _ ls hmap

/-- The number one half. -/
def half : Double := .ofDecimal false ⟨5, -1⟩

/-- The operator of rules that a symbol stands for before an operand. -/
def prefixOf (s : String) (h : Table.standard.prefixOps.contains s = true) : UnaryOp :=
  (Table.standard.prefixOps.find? s).get h

/-- The operator of rules that a symbol stands for between operands. -/
def infixOf (s : String) (h : Table.standard.infixOps.contains s = true) : InfixOp :=
  (Table.standard.infixOps.find? s).get h

/-- `!(logo && 0.5 && True) || menu`. -/
def darkOrMenu : Formula :=
  .joined (infixOf "||" (by decide))
    (.prefixed (prefixOf "!" (by decide))
      (.joined (infixOf "&&" (by decide))
        (.joined (infixOf "&&" (by decide)) (.name "logo") (.literal (.number half)))
        (.literal (.bool true))))
    (.name "menu")

theorem isName_logo : IsName "logo" := ⟨'l', ['o', 'g', 'o'], rfl, rfl, List.all_eq_true.1 rfl⟩

theorem isName_menu : IsName "menu" := ⟨'m', ['e', 'n', 'u'], rfl, rfl, List.all_eq_true.1 rfl⟩

theorem ofText?_half : Decimal.IsNumeral "0.5".toList ∧ Binary.ofText? "0.5" = some half :=
  ⟨⟨⟨'0', ['.', '5'], rfl, rfl⟩, by simp⟩, by decide +kernel⟩

/-- A call between two operands and operands in a call, behind an operator before an operand. -/
theorem spells_darkOrMenu : Spells darkOrMenu "(!&&(logo, 0.5, True) || menu)" ∧
    Spells darkOrMenu "||(!(&&(logo, 0.5) && True), menu)" := by
  have hlogo : Spells (.name "logo") "logo" := .name isName_logo (by decide)
  have hmenu : Spells (.name "menu") "menu" := .name isName_menu (by decide)
  have hhalf : Spells (.literal (.number half)) "0.5" := .number ofText?_half.1 ofText?_half.2
  refine ⟨?_, ?_⟩
  · have hcall := @Spells.call "&&" _ _ _ [(_, _), (_, _)] rfl hlogo (by simp)
      (List.forall_mem_cons.2 ⟨hhalf, List.forall_mem_singleton.2 Spells.true⟩)
    have hall := @Spells.between "||" _ _ _ _ _ rfl (@Spells.prefixed "!" _ _ _ rfl hcall) hmenu
    exact hall
  · have hcall := @Spells.call "&&" _ _ _ [(_, _)] rfl hlogo (by simp)
      (List.forall_mem_singleton.2 hhalf)
    have hinner := @Spells.between "&&" _ _ _ _ _ rfl hcall .true
    have hall := @Spells.call "||" _ _ _ [(_, _)] rfl (@Spells.prefixed "!" _ _ _ rfl hinner)
      (by simp) (List.forall_mem_singleton.2 hmenu)
    exact hall

theorem isOver_darkOrMenu : darkOrMenu.IsOver .standard :=
  .joined (s := "||") rfl
    (.prefixed (s := "!") rfl
      (.joined (s := "&&") rfl (.joined (s := "&&") rfl .name .literal) .literal)) .name

theorem isSpellable_darkOrMenu : ∀ l ∈ darkOrMenu.leaves, l.IsSpellable := by
  have hleaves : darkOrMenu.leaves =
      [.name "logo", .value (.number half), .value (.bool true), .name "menu"] := rfl
  rw [hleaves]
  exact List.forall_mem_cons.2 ⟨⟨isName_logo, by decide, by decide⟩,
    List.forall_mem_cons.2 ⟨⟨"0.5", ofText?_half⟩, List.forall_mem_cons.2 ⟨trivial,
      List.forall_mem_singleton.2 ⟨isName_menu, by decide, by decide⟩⟩⟩⟩

/-- Two spellings of one formula. -/
theorem parse_spelled_of_darkOrMenu : darkOrMenu.IsOver .standard ∧
    (∀ l ∈ darkOrMenu.leaves, l.IsSpellable) ∧
    parse .standard "(!&&(logo, 0.5, True) || menu)" = .ok darkOrMenu ∧
    parse .standard "||(!(&&(logo, 0.5) && True), menu)" = .ok darkOrMenu := by
  obtain ⟨-, hread⟩ := parse_spelled isOver_darkOrMenu isSpellable_darkOrMenu
  exact ⟨isOver_darkOrMenu, isSpellable_darkOrMenu, hread _ spells_darkOrMenu.1,
    hread _ spells_darkOrMenu.2⟩

end Formula

end Screenmark
