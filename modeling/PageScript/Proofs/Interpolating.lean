/-
Variables in texts.

A text in double quotes is a sequence of variables, each with what stands before it
(`Spot`), and what stands behind the last.  It should come out with the texts of the
variables in their places, where a pair of braces goes away (`Spot.faithful`).

What happens differs in two ways.  A single brace goes away, too
(`loosely_eq_faithfully_iff`), and some texts with a `$` that begins no variable cannot be
read (`run_readPieces_stray`).  There is no third (`interpolated`).
-/
import PageScript.Proofs.Paths
import PageScript.Proofs.Resolution
import PageScript.Proofs.Splitting

namespace PageScript

open EStateM List

variable {kept segments : List (Option String)} {cs : List Char}

namespace Literal

/-! ### What a text should come out as -/

namespace Spot

/-- There are braces on both sides, or on none. -/
def IsPaired (spot : Spot) : Prop := spot.opened = spot.closed

instance (spot : Spot) : Decidable spot.IsPaired := inferInstanceAs (Decidable (_ = _))

variable (value : List Char → List Char)

/-- A text in the place of the variable, and of the braces around it if these are a pair. -/
def faithful (spot : Spot) : List Char :=
  if spot.IsPaired then spot.before ++ value spot.name
  else spot.before ++ (spot.opening ++ (value spot.name ++ spot.closing))

/-- A text in the place of the variable, and of any brace next to it. -/
def loose (spot : Spot) : List Char := spot.before ++ value spot.name

end Spot

/-- A text with texts in the place of its variables. -/
def faithfully (value : List Char → List Char) (cs : List Char) : List Char :=
  (spots cs).1.flatMap (Spot.faithful value) ++ (spots cs).2

def loosely (value : List Char → List Char) (cs : List Char) : List Char :=
  (spots cs).1.flatMap (Spot.loose value) ++ (spots cs).2

/-- What stands between the variables of a text, before the first and behind the last. -/
def texts (cs : List Char) : List (List Char) := (spots cs).1.map Spot.before ++ [(spots cs).2]

/-- No variable has an index. -/
def Plain (cs : List Char) : Prop :=
  ∀ rest ∈ cs.tails, ∀ p ∈ takeName rest, takeBracket p.2 = none

instance (cs : List Char) : Decidable (Plain cs) := inferInstanceAs (Decidable (∀ _ ∈ _, _))

theorem Plain.of_suffix {rest : List Char} (h : Plain cs) (hrest : rest <:+ cs) : Plain rest :=
  fun rest' hrest' => h rest' ((mem_tails _ _).2 (((mem_tails _ _).1 hrest').trans hrest))

/-! ### Braces -/

variable {before cs after : List Char} {spot : Spot} {value : List Char → List Char}

theorem Spot.length_faithful (spot : Spot) : (spot.faithful value).length
    = (spot.loose value).length + if spot.IsPaired then 0 else 1 := by
  unfold faithful loose
  split
  case isTrue => rfl
  case isFalse hpaired =>
    unfold IsPaired at hpaired
    cases hopened : spot.opened <;> cases hclosed : spot.closed <;>
      simp [opening, closing, hopened, hclosed] at hpaired ⊢ <;> omega

theorem length_faithful (found : List Spot) : (found.flatMap (Spot.faithful value)).length
    = (found.flatMap (Spot.loose value)).length + found.countP (¬ Spot.IsPaired ·) := by
  induction found with
  | nil => rfl
  | cons spot found ih =>
    rw [flatMap_cons, flatMap_cons, length_append, length_append, ih,
      spot.length_faithful, countP_cons]
    split <;> simp_all <;> omega

theorem loosely_eq_faithfully_iff (value : List Char → List Char) (cs : List Char) :
    loosely value cs = faithfully value cs ↔ ∀ spot ∈ (spots cs).1, spot.IsPaired := by
  unfold loosely faithfully
  rw [append_left_inj]
  constructor
  · intro h
    have hcount := @length_faithful value (spots cs).1
    rw [← h] at hcount
    have hnone : (spots cs).1.countP (¬ Spot.IsPaired ·) = 0 := by omega
    intro spot hspot
    simpa using countP_eq_zero.1 hnone spot hspot
  · intro h
    refine flatMap_congr fun spot hspot => ?_
    rw [Spot.faithful, if_pos (h spot hspot), Spot.loose]

/-! ### Names without indexes -/

theorem takeVariable_eq (h : Plain cs) : takeVariable cs = takeName cs := by
  unfold takeVariable
  cases hname : takeName cs with
  | none => rfl
  | some p =>
    have hnone : takeBrackets p.2 = ([], p.2) := by
      rw [takeBrackets]
      split
      case h_1 hsome =>
        rw [h cs ((mem_tails _ _).2 suffix_rfl) p hname] at hsome
        cases hsome
      case h_2 => rfl
    simp [hnone]

theorem isName_of_takeSpot (h : Plain cs) (hspot : takeSpot before cs = some (spot, after)) :
    IsName spot.name := by
  obtain ⟨⟨name, rest⟩, htake, hspot⟩ := Option.map_eq_some_iff.1 hspot
  obtain ⟨rfl, -⟩ := Prod.mk.inj hspot
  have hsuffix : (if decide (cs.head? = some '\x7b') then cs.drop 1 else cs) <:+ cs := by
    split
    · exact drop_suffix 1 cs
    · exact suffix_rfl
  rw [takeVariable_eq (h.of_suffix hsuffix)] at htake
  exact (isName_of_takeName htake).2

theorem isName_of_mem_spotsFrom (before : List Char) (h : Plain cs) :
    ∀ spot ∈ (spotsFrom before cs).1, IsName spot.name := by
  fun_induction spotsFrom before cs with
  | case1 before => simp
  | case2 before c rest spot after hspot _ found last hfound ih =>
    obtain ⟨-, hcs, -⟩ := takeSpot_eq hspot
    have hafter : after <:+ c :: rest :=
      ⟨spot.opening ++ spot.name ++ spot.closing, by rw [hcs]; simp⟩
    rw [hfound] at ih
    exact forall_mem_cons.2 ⟨isName_of_takeSpot h hspot, ih (h.of_suffix hafter)⟩
  | case3 before c rest _ ih => exact ih (h.of_suffix (suffix_cons ..))

theorem takeName_of_bare (h : Bare cs) : takeName cs = none := by
  unfold takeName
  split
  case h_2 => rfl
  case h_1 c cs =>
    have hc : isNameStart c = false := (isChain_cons_cons.1 h).1 rfl
    rw [hc]
    rfl

theorem variableName?_of_isName (h : IsName cs) : variableName? cs = some cs := by
  have htake := takeName_append h []
  rw [append_nil, takeWhile_nil, dropWhile_nil, append_nil] at htake
  rw [variableName?, htake]

/-! ### Reading -/

def Spot.node (s : Scope) (spot : Spot) : Node :=
  .variable (String.ofList spot.name) (s.symbols.lookup (some (String.ofList spot.name)))

/-- The segments and the texts of the variables make up the text. -/
def Fills (found : List Spot) (last : List Char) (segments : List (Option String)) : Prop :=
  ∀ (s : Store) (v : List Char → Value) (value : List Char → List Char),
    (∀ spot ∈ found, s.textOf (v spot.name) = .ok (String.ofList (value spot.name))) →
    ∃ ts, s.fill segments (found.map fun spot => v spot.name) = .ok ts ∧
      (String.join ts).toList = found.flatMap (Spot.loose value) ++ last

end Literal

namespace Reading

open Literal

variable {d : Declarations} {id : Nat} {rest : List Nat} {done : List (Option String)}
  {filled : List Node} {piece : List Char} {pieces : List (List Char)} {found : List Spot}
  {last : List Char}

/-- The segments that a text adds: one, or none if it is empty. -/
def Kept (piece : List Char) (kept : List (Option String)) : Prop :=
  kept = [some (String.ofList piece)] ∨ piece = [] ∧ kept = []

section

variable (done filled)

theorem readPieces_text (h : piece.head? ≠ some '$') (pieces : List (List Char)) : ∃ kept, Kept piece kept ∧
      readPieces done filled (piece :: pieces) = readPieces (done ++ kept) filled pieces := by
  rw [readPieces]
  split
  case isTrue hempty =>
    rw [Bool.and_eq_true, List.isEmpty_iff] at hempty
    exact ⟨[], .inr ⟨hempty.1, rfl⟩, by rw [append_nil]⟩
  case isFalse => exact ⟨_, .inl rfl, rfl⟩

theorem readPieces_variable (h : IsName piece) (pieces : List (List Char)) :
    readPieces done filled (piece :: pieces) = readVariable (String.ofList piece) >>= fun part =>
      readPieces (done ++ [none]) (filled ++ [part]) pieces := by
  have hname := variableName?_of_isName h
  obtain ⟨c, part, rfl, -⟩ := h
  simp [readPieces, hname]

theorem readPieces_stray (hname : takeName piece = none) (h : piece.head? = some '$')
    (pieces : List (List Char)) :
    readPieces done filled (piece :: pieces) = throw .unreadable := by
  obtain ⟨chars, rfl⟩ := head?_eq_some_iff.1 h
  simp [readPieces, variableName?, hname]

end

theorem Kept.fill (h : Kept piece kept) {s : Store}
    {vs : List Value} {ts : List String} (hfill : s.fill segments vs = .ok ts) :
    ∃ ts', s.fill (kept ++ segments) vs = .ok ts' ∧
      (String.join ts').toList = piece ++ (String.join ts).toList := by
  rcases h with rfl | ⟨rfl, rfl⟩
  · refine ⟨String.ofList piece :: ts, ?_, ?_⟩
    · rw [singleton_append, Store.fill, hfill]
      rfl
    · rw [String.join_cons, String.toList_append, String.toList_ofList]
  · exact ⟨ts, hfill, rfl⟩

theorem Kept.fills (h : Kept last kept) : Fills [] last kept := by
  intro s v value _
  obtain ⟨ts, hfill, htext⟩ := h.fill (show s.fill [] [] = .ok [] from rfl)
  rw [append_nil] at hfill
  exact ⟨ts, hfill, by rw [htext]; simp⟩

theorem Kept.fills_cons {spot : Spot}
    (h : Kept spot.before kept) (hfills : Fills found last segments) :
    Fills (spot :: found) last (kept ++ none :: segments) := by
  intro s v value hvalue
  obtain ⟨hspot, hfound⟩ := forall_mem_cons.1 hvalue
  obtain ⟨ts, hfill, htext⟩ := hfills s v value hfound
  have hgap : s.fill (none :: segments) (v spot.name :: found.map fun spot => v spot.name)
      = .ok (String.ofList (value spot.name) :: ts) := by
    rw [Store.fill, hspot, hfill]
    rfl
  obtain ⟨ts', hfill', htext'⟩ := h.fill hgap
  refine ⟨ts', hfill', ?_⟩
  rw [htext', String.join_cons, String.toList_append, htext, String.toList_ofList,
    flatMap_cons, Spot.loose]
  simp

variable (hopened : d.opened = id :: rest) (hid : id < d.scopes.size)

include hopened hid

theorem run_readPieces_spot {spot : Spot} (hbefore : spot.before.head? ≠ some '$')
    (hname : IsName spot.name)
    (done : List (Option String)) (filled : List Node) (found : List Spot) (last : List Char) :
    ∃ kept d', Kept spot.before kept ∧ d'.opened = id :: rest ∧
      d'.scopes.size = d.scopes.size ∧
      d'.scope id = ((d.scope id).addVariable (String.ofList spot.name)).2 ∧
      (readPieces done filled (alternating (spot :: found) last)).run d
        = (readPieces (done ++ kept ++ [none]) (filled ++ [.variable (String.ofList spot.name)
          ((d.scope id).addVariable (String.ofList spot.name)).1]) (alternating found last)).run d' := by
  obtain ⟨kept, hkept, hread⟩ :=
    readPieces_text done filled hbefore (spot.name :: alternating found last)
  obtain ⟨d', hdeclare, hopened', hsize, hscope⟩ :=
    exists_declared hopened hid (·.addVariable (String.ofList spot.name))
  refine ⟨kept, d', hkept, hopened'.trans hopened, hsize, hscope, ?_⟩
  rw [alternating, hread, readPieces_variable _ _ hname, readVariable, bind_assoc,
    run_bind, hdeclare]
  rfl

theorem run_readPieces (hnames : ∀ spot ∈ found, IsName spot.name)
    (htexts : ∀ text ∈ found.map Spot.before ++ [last], text.head? ≠ some '$')
    (done : List (Option String)) (filled : List Node) :
    ∃ segments d', (readPieces done filled (alternating found last)).run d
        = .ok (done ++ segments, filled ++ found.map (Spot.node (d'.scope id))) d' ∧
      Fills found last segments ∧ d'.opened = id :: rest ∧ d'.scopes.size = d.scopes.size ∧
      (d.scope id).Extends (d'.scope id) := by
  induction found generalizing d done filled with
  | nil =>
    obtain ⟨kept, hkept, hread⟩ := readPieces_text done filled (htexts last (by simp)) []
    refine ⟨kept, d, ?_, hkept.fills, hopened, rfl, .refl _⟩
    rw [alternating, hread, map_nil, append_nil]
    rfl
  | cons spot found ih =>
    obtain ⟨hbefore, htexts⟩ := forall_mem_cons.1 htexts
    obtain ⟨hname, hnames⟩ := forall_mem_cons.1 hnames
    obtain ⟨kept, d₁, hkept, hopened₁, hsize₁, hscope₁, hrun₁⟩ :=
      run_readPieces_spot hopened hid hbefore hname done filled found last
    obtain ⟨segments, d', hrun, hfills, hopened', hsize, hextends⟩ :=
      ih hopened₁ (hsize₁ ▸ hid) hnames htexts _ _
    rw [hscope₁] at hextends
    -- The name keeps its slot while the others get theirs.
    obtain ⟨hslot, -⟩ := @slotIn_of_addSymbol (d.scope id) (d'.scope id)
      (String.ofList spot.name) ⟨hextends.symbols, hextends.constants⟩
    have hgrows : (d.scope id).Extends ((d.scope id).addVariable (String.ofList spot.name)).2 :=
      { Scope.Extends.addSymbol (d.scope id) (String.ofList spot.name) with }
    refine ⟨kept ++ none :: segments, d', ?_, hkept.fills_cons hfills, hopened',
      hsize.trans hsize₁, hgrows.trans hextends⟩
    have hpart : Node.variable (String.ofList spot.name)
        ((d.scope id).addVariable (String.ofList spot.name)).1 = spot.node (d'.scope id) :=
      congrArg (Node.variable _) hslot
    rw [hrun₁, hrun, hpart, map_cons]
    simp only [append_assoc, singleton_append]

theorem run_readPieces_stray (hnames : ∀ spot ∈ found, IsName spot.name)
    (hnone : ∀ text ∈ found.map Spot.before ++ [last], takeName text = none)
    (hstray : ∃ text ∈ found.map Spot.before ++ [last], text.head? = some '$')
    (done : List (Option String)) (filled : List Node) :
    ∃ d', (readPieces done filled (alternating found last)).run d = .error .unreadable d' := by
  induction found generalizing d done filled with
  | nil =>
    obtain ⟨text, htext, hdollar⟩ := hstray
    obtain rfl : text = last := mem_singleton.1 htext
    refine ⟨d, ?_⟩
    rw [alternating, readPieces_stray _ _ (hnone text htext) hdollar]
    rfl
  | cons spot found ih =>
    obtain ⟨hname, hnames⟩ := forall_mem_cons.1 hnames
    obtain ⟨hbefore, hnone⟩ := forall_mem_cons.1 hnone
    by_cases hdollar : spot.before.head? = some '$'
    · refine ⟨d, ?_⟩
      rw [alternating, readPieces_stray _ _ hbefore hdollar]
      rfl
    · obtain ⟨text, htext, hhead⟩ := hstray
      have hlater : text ∈ found.map Spot.before ++ [last] := by
        rcases mem_cons.1 htext with rfl | htext
        · exact absurd hhead hdollar
        · exact htext
      obtain ⟨kept, d₁, -, hopened₁, hsize₁, -, hrun₁⟩ :=
        run_readPieces_spot hopened hid hdollar hname done filled found last
      rw [hrun₁]
      exact ih hopened₁ (hsize₁ ▸ hid) hnames hnone ⟨text, hlater, hhead⟩ _ _

end Reading

/-! ### Evaluating -/

namespace Node

open Literal

variable {S : Situation}

theorem run_evalAll {nodes : List Node} {vs : List Value} (h : Forall₂ (Denotes S) nodes vs)
    (fuel : Nat) : (evalAll fuel nodes).run S = .ok vs S := by
  induction h with
  | nil => rfl
  | @cons node v nodes vs hnode _ ih =>
    have hvalue : (node.eval fuel).run S = .ok v S := hnode fuel
    rw [evalAll, run_bind, hvalue]
    simp only [run_bind, ih]
    rfl

theorem run_constantAt {s : Scope} {place : Nat} {v : Value} (h : s.constants[place]? = some v)
    (hconstants : s.constants <+: S.constants.toList) :
    (Eval.act (Exec.constantAt place)).run S = .ok v S := by
  obtain ⟨hlt, -⟩ := List.getElem?_eq_some_iff.1 h
  have hplace : S.constants[place]? = some v := by
    obtain ⟨more, hmore⟩ := hconstants
    rw [← Array.getElem?_toList, ← hmore, getElem?_append_left hlt, h]
  obtain ⟨hlt, -⟩ := Array.getElem?_eq_some_iff.1 hplace
  have hfound : (Store.place? S.constants.size place).bind (fun n => S.constants[n]?) = some v := by
    rw [Store.place?, if_pos (Int.natCast_nonneg place), Int.toNat_natCast, if_pos hlt]
    exact hplace
  have hrun : (Exec.constantAt place).run (S.under default) = .ok v (S.under default) := by
    rw [Exec.constantAt, run_bind, run_get]
    simp only [show (S.under default).current.frame.code.constants = S.constants from rfl, hfound]
    rfl
  rw [Eval.run_act, Exec.seen, hrun]
  rfl

theorem denotes_interpolation {s : Scope} {found : List Spot} {last : List Char}
    (hfills : Fills found last segments) {text : String}
    {place : Nat} (hplace : s.constants[place]? = some (.template segments))
    (hconstants : s.constants <+: S.constants.toList) {v : List Char → Value}
    {value : List Char → List Char} (hvalues : ∀ spot ∈ found,
      (spot.node s).Denotes S (v spot.name) ∧
      S.world.store.textOf (v spot.name) = .ok (String.ofList (value spot.name))) :
    (Node.interpolation text (found.map (Spot.node s)) place).Denotes S
      (.text (String.ofList (found.flatMap (Spot.loose value) ++ last))) := by
  intro fuel
  have hall : Forall₂ (Denotes S) (found.map (Spot.node s)) (found.map fun spot => v spot.name) := by
    rw [forall₂_map_left_iff, forall₂_map_right_iff, forall₂_same]
    exact fun spot hspot => (hvalues spot hspot).1
  obtain ⟨ts, hfill, htext⟩ := hfills S.world.store v value fun spot hspot => (hvalues spot hspot).2
  have hsubstitute : S.world.store.substitute (.template segments) (found.map fun spot => v spot.name)
      = .ok (.text (String.join ts)) := by
    rw [Store.substitute, hfill]
    rfl
  rw [eval, run_bind, run_evalAll hall]
  simp only [run_bind, run_constantAt hplace hconstants, Eval.run_act_fromStore, hsubstitute]
  rw [← htext, String.ofList_toList]
  rfl

end Node

open Literal Reading

/-- A literal in double quotes is read piece by piece. -/
theorem read_doubleQuoted {literal : String} {quoted : List Char}
    (hquotes : unquote literal.toList = .ok (quoted, .double))
    (hescapes : unescape quoted = .ok cs) (d : Declarations) :
    (Part.ofTree (.leaf "DOUBLESTRING" literal)).read.run d
      = (readPieces [] [] (alternating (spots cs).1 (spots cs).2) >>= fun r =>
        if r.2.isEmpty then constantText (String.ofList cs)
        else declare (·.addTemplate r.1) >>= fun place =>
          pure (.interpolation (String.ofList cs) r.2 place)).run d := by
  show (readText literal).run d = _
  rw [readText, hquotes]
  show (ofExcept (unescape quoted) >>= _ : Reading Node).run d = _
  rw [hescapes]
  show (readPieces [] [] (splitFrom [] cs) >>= _ : Reading Node).run d = _
  rw [splitFrom_eq]
  rfl

/-- The variables of a literal are replaced, if it can be read: if no `$` that begins
no variable stands at the start or right behind a variable.  This is faithful just if
braces next to variables come in pairs. -/
theorem interpolated {literal : String} {quoted cs : List Char}
    (hquotes : unquote literal.toList = .ok (quoted, .double))
    (hescapes : unescape quoted = .ok cs) (hplain : Plain cs) {d : Declarations} {id : Nat}
    {rest : List Nat} (hopened : d.opened = id :: rest) (hid : id < d.scopes.size) :
    (spots cs).1.flatMap Spot.written ++ (spots cs).2 = cs ∧
    ((∃ text ∈ texts cs, text.head? = some '$') →
      ∃ d', (Part.ofTree (.leaf "DOUBLESTRING" literal)).read.run d = .error .unreadable d') ∧
    ((∀ text ∈ texts cs, text.head? ≠ some '$') →
      ∃ node d', (Part.ofTree (.leaf "DOUBLESTRING" literal)).read.run d = .ok node d' ∧
        (d.scope id).Extends (d'.scope id) ∧
        ∀ (S : Situation) (v : List Char → Value) (value : List Char → List Char),
          (d'.scope id).constants <+: S.constants.toList →
          (∀ spot ∈ (spots cs).1, (spot.node (d'.scope id)).Denotes S (v spot.name) ∧
            S.world.store.textOf (v spot.name) = .ok (String.ofList (value spot.name))) →
          node.Denotes S (.text (String.ofList (loosely value cs)))) ∧
    ∀ value, loosely value cs = faithfully value cs ↔ ∀ spot ∈ (spots cs).1, spot.IsPaired := by
  obtain ⟨hwritten, hbetween, -⟩ := spots_cuts cs
  have hnames : ∀ spot ∈ (spots cs).1, IsName spot.name := isName_of_mem_spotsFrom [] hplain
  have hnone := fun text htext => takeName_of_bare (hbetween text htext)
  have hread := read_doubleQuoted hquotes hescapes d
  refine ⟨hwritten, fun hstray => ?_, fun htexts => ?_, fun value => loosely_eq_faithfully_iff value cs⟩
  · obtain ⟨d', hrun⟩ := run_readPieces_stray hopened hid hnames hnone hstray [] []
    exact ⟨d', by rw [hread, EStateM.run_bind, hrun]⟩
  · obtain ⟨segments, d₁, hrun, hfills, hopened₁, hsize₁, hextends₁⟩ :=
      run_readPieces hopened hid hnames htexts [] []
    rw [hread, EStateM.run_bind, hrun]
    unfold loosely
    generalize (spots cs).2 = last at *
    generalize (spots cs).1 = found at *
    cases found with
    | nil =>
      -- Without variables the text is a constant.
      obtain ⟨d', hdeclare, -, -, hscope⟩ :=
        exists_declared hopened₁ (hsize₁ ▸ hid) (·.addText (String.ofList cs))
      have hextends : (d₁.scope id).Extends (d'.scope id) := hscope ▸ .addConstant _ _ _
      refine ⟨.constantText (String.ofList cs) ((d₁.scope id).addText (String.ofList cs)).1, d', ?_,
        hextends₁.trans hextends, fun S v value hconstants _ fuel => ?_⟩
      · show (constantText (String.ofList cs)).run d₁ = _
        rw [constantText, EStateM.run_bind, hdeclare]
        rfl
      · rw [show [].flatMap (Spot.loose value) ++ last = cs from hwritten]
        exact Node.run_constantAt (hscope ▸ constant_of_addText (.refl _)) hconstants
    | cons spot found =>
      obtain ⟨d', hdeclare, -, -, hscope⟩ :=
        exists_declared hopened₁ (hsize₁ ▸ hid) (·.addTemplate segments)
      have hextends : (d₁.scope id).Extends (d'.scope id) := hscope ▸ .addConstant _ _ _
      -- A template in the pool changes no slots.
      have hnodes : Spot.node (d₁.scope id) = Spot.node (d'.scope id) := by
        have hsymbols : (d'.scope id).symbols = (d₁.scope id).symbols := by
          rw [hscope, Scope.addTemplate, Scope.addConstant]
          split <;> rfl
        funext spot
        rw [Spot.node, Spot.node, hsymbols]
      refine ⟨.interpolation (String.ofList cs) ((spot :: found).map (Spot.node (d₁.scope id)))
        ((d₁.scope id).addTemplate segments).1, d', ?_, hextends₁.trans hextends,
        fun S v value hconstants hvalues => ?_⟩
      · show (declare (·.addTemplate segments) >>= _ : Reading Node).run d₁ = _
        rw [EStateM.run_bind, hdeclare]
        rfl
      · rw [hnodes]
        exact Node.denotes_interpolation hfills (hscope ▸ constant_of_addTemplate (.refl _)) hconstants
          hvalues

open Sample

/-- A scope that has `$x` in its first slot. -/
def openDeclarations : Declarations :=
  { scopes := #[{ symbols := SymbolMap.root.insert "$x" }], opened := [0] }

/-- The literal `"a{$x}b"` is `a7b` where the variable is 7. -/
theorem interpolated_braces : ∃ node d' S,
    (Part.ofTree (.leaf "DOUBLESTRING" "\"a\x7b$x\x7db\"")).read.run openDeclarations = .ok node d' ∧
    (Node.variable "$x" 0).Denotes S (.int 7) ∧ node.Denotes S (.text "a7b") := by
  have hspots : spots "a\x7b$x\x7db".toList = ([⟨['a'], true, ['$', 'x'], true⟩], ['b']) := by
    decide +kernel
  have hquotes : unquote "\"a\x7b$x\x7db\"".toList = .ok ("a\x7b$x\x7db".toList, .double) := by
    decide
  have hescapes : unescape "a\x7b$x\x7db".toList = .ok "a\x7b$x\x7db".toList := by decide +kernel
  have htexts : ∀ text ∈ texts "a\x7b$x\x7db".toList, text.head? ≠ some '$' := by decide +kernel
  obtain ⟨node, d', hread, hextends, hdenotes⟩ :=
    (interpolated hquotes hescapes (by decide +kernel)
      (d := openDeclarations) rfl Nat.one_pos).2.2.1 htexts
  have hslot : (d'.scope 0).symbols.lookup (some "$x") = 0 :=
    hextends.symbols (some "$x") (by decide)
  have hx : ∀ constants, (Node.variable "$x" 0).Denotes
      { world := {}, interpreter := {}, constants, symbols := .root, slots := #[.int 7] } (.int 7) :=
    fun _ _ => rfl
  refine ⟨node, d', _, hread, hx (d'.scope 0).constants.toArray, ?_⟩
  have hmeans := hdenotes
    { world := {}, interpreter := {}, constants := (d'.scope 0).constants.toArray, symbols := .root,
      slots := #[.int 7] } (fun _ => .int 7) (fun _ => ['7']) (List.prefix_refl _)
  rw [hspots, loosely, hspots] at hmeans
  refine hmeans (List.forall_mem_singleton.2 ⟨?_, rfl⟩)
  rw [Spot.node, show String.ofList ['$', 'x'] = "$x" from rfl, hslot]
  exact hx _

def printingTree (literal : String) : Tree :=
  programTree [assignTree "$a" (numeral "1"), printTree (doubleText literal)]

/-- `"$5"` cannot be read, and the brace of `"\x7b$a"` is lost. -/
theorem interpolated_awry : (∃ e, Script.ofTree (printingTree "$5") = .error e) ∧
    ∃ s b start, Script.ofTree (printingTree "\x7b$a") = .ok s ∧ s.compile "main" = .ok b ∧
      Machine.launch {} {} b = .ok start ∧ (start.run 9).2.world.written = "1" := by
  constructor
  · have hfails : (Script.ofTree (printingTree "$5")).toBool = false := by decide +kernel
    cases hread : Script.ofTree (printingTree "$5") with
    | error e => exact ⟨e, rfl⟩
    | ok s =>
      rw [hread] at hfails
      cases hfails
  · obtain ⟨s, hread, b, hcompile, start, hlaunch, hwritten⟩ :
        ∃ s, Script.ofTree (printingTree "\x7b$a") = .ok s ∧ ∃ b, s.compile "main" = .ok b ∧
        ∃ start, Machine.launch {} {} b = .ok start ∧ (start.run 9).2.world.written = "1" := by
      decide +kernel
    exact ⟨s, b, start, hread, hcompile, hlaunch, hwritten⟩

end PageScript
