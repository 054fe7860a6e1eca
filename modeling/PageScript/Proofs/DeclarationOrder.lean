/-
The order of declarations.

A program may declare its functions in any order and anywhere among its statements: its
runs show the same (`declarations_in_any_order`).  The variables of two runs are
compared as values with all that they lead to (`Store.view`), and functions by their
code, as they have other numbers.
-/
import PageScript.Proofs.Hoisting
import PageScript.Proofs.Rearranging
import PageScript.Proofs.Transcript

namespace PageScript

/-! ### Values with all that they lead to -/

/-- A value in which what is in the store stands in place of its number. -/
inductive View where
  /-- A value that the store has no part in. -/
  | plain (v : Value)
  | concat (text : String) (length : Nat)
  | list (items : List View)
  | dict (entries : List (String × View))
  | ref (cell : Option View)
  | cursor (dict : View) (keys : List String) (index stop : Nat)
  | code (b : Bytecode)
  | items (items : List View)
  /-- What is further down than the view goes. -/
  | deeper

/-- A value with what it leads to, down to a depth. -/
def Store.view (s : Store) : Nat → Value → View
  | 0, _ => .deeper
  | _ + 1, .concat id length => .concat (s.builder id) length
  | depth + 1, .list id => .list ((s.list id).toList.map (s.view depth))
  | depth + 1, .dict id => .dict ((s.dict id).map fun (key, v) => (key, s.view depth v))
  | depth + 1, .ref id => .ref ((s.ref id).map (s.view depth))
  | depth + 1, .cursor id => .cursor (s.view depth (.dict (s.cursor id).dict)) (s.cursor id).keys
      (s.cursor id).index (s.cursor id).stop
  | _ + 1, .code id => .code (s.code id)
  | depth + 1, .datum (.items id) => .items ((s.list id).toList.map (s.view depth))
  | _ + 1, v => .plain v

theorem Transfer.view {ρ : Renumbering} (T : Transfer ρ) {s : Store} (depth : Nat) (v : Value) :
    (T.store s).view depth (v.renumbered ρ) = s.view depth v := by
  induction depth generalizing v with
  | zero => rfl
  | succ depth ih =>
    have hitems : ∀ id, ((T.store s).list (ρ.list id)).toList.map ((T.store s).view depth)
        = (s.list id).toList.map (s.view depth) := by
      intro id
      rw [T.list, Array.toList_map, List.map_map]
      exact List.map_congr_left fun v _ => ih v
    cases v with
    | concat id length => exact congrArg (View.concat · length) (T.builder s id)
    | list id => exact congrArg View.list (hitems id)
    | dict id =>
      refine congrArg View.dict ?_
      rw [T.dict, Entries.renumbered, List.map_map]
      exact List.map_congr_left fun e _ => congrArg (Prod.mk e.1) (ih e.2)
    | ref id =>
      refine congrArg View.ref ?_
      rw [T.ref, Option.map_map]
      exact Option.map_congr fun v _ => ih v
    | cursor id =>
      rw [Value.renumbered, Store.view, Store.view, T.cursor]
      exact congrArg (View.cursor · _ _ _) (ih (.dict (s.cursor id).dict))
    | code id => exact congrArg View.code (T.code s id)
    | datum d =>
      cases d with
      | items id => exact congrArg View.items (hitems id)
      | _ => rfl
    | _ => rfl

def Store.viewed (depth : Nat) (s : Store) (v : Value) : Except Fault View := .ok (s.view depth v)

theorem Store.numberless_viewed (depth : Nat) : Store.Numberless (Store.viewed depth) :=
  fun T _ v => congrArg Except.ok (T.view depth v)

/-! ### Runs that show the same -/

namespace Run

/-- The variables of the program after the last step, and what is read off
them. -/
def contents {α : Type} (read : Store → Value → Except Fault α) (r : Run) :
    List (String × Except Fault α) :=
  (r.course.map fun (_, last) => last.contents read).getD []

/-- The same shows of two runs, and their programs leave the same variables. -/
structure Alike (r r' : Run) : Prop where
  outcome : r.outcome = r'.outcome
  contents : ∀ depth, r.contents (Store.viewed depth) = r'.contents (Store.viewed depth)

theorem alike_of_sameShown {x y : Ending × Machine} (h : SameShown x y) (start start' : Machine) :
    Alike
      { world := x.2.world, interpreter := x.2.interpreter, ending := x.1,
        course := some (start, x.2) }
      { world := y.2.world, interpreter := y.2.interpreter, ending := y.1,
        course := some (start', y.2) } where
  outcome := by
    have hresult := h.result? Store.numberless_displayOf
    have hbindings : x.2.bindings = y.2.bindings := h.contents Store.numberless_displayOf
    unfold Ending.result? at hresult
    simp only [outcome, Option.map_some, Option.getD_some, h.written, h.buffers, h.fault?, h.steps,
      hbindings]
    exact congrArg (Outcome.mk _ _ _ _ · _ _) hresult
  contents depth := h.contents (Store.numberless_viewed depth)

end Run

/-- The outcome, when what is left in open buffers is written out at the end. -/
def Outcome.flushed (o : Outcome) : Outcome :=
  match o.result with
  | some _ => { o with written := o.written ++ String.join o.buffers.reverse, buffers := [] }
  | none => o

/-- The outcome, when what is left in open buffers is collected at the end. -/
def Outcome.collected (o : Outcome) : Outcome :=
  match o.result, o.buffers with
  | some _, _ :: _ => { o with returned := some (String.join o.buffers.reverse), buffers := [] }
  | _, _ => o

namespace Interpreter

variable {i : Interpreter} {w : World} {code : Bytecode} {fuel : Nat}

theorem outcome_run : (i.run fuel w code).outcome = (i.execute fuel w code).outcome.flushed := by
  unfold run
  generalize i.execute fuel w code = r
  obtain ⟨world, interpreter, ending, course, returned⟩ := r
  cases ending with
  | finished v =>
    simp only [collect_eq]
    rfl
  | failed fault => rfl
  | outOfFuel => rfl

theorem outcome_runReturn : (i.runReturn fuel w code).outcome
    = ({ i with buffers := "" :: i.buffers }.execute fuel w code).outcome.collected := by
  unfold runReturn
  generalize { i with buffers := "" :: i.buffers }.execute fuel w code = r
  obtain ⟨world, ⟨functions, buffers, superglobals⟩, ending, course, returned⟩ := r
  cases ending with
  | finished v =>
    simp only [collect_eq]
    cases buffers <;> rfl
  | failed fault => rfl
  | outOfFuel => rfl

theorem course_run : (i.run fuel w code).course = (i.execute fuel w code).course := by
  unfold run
  dsimp only
  split <;> rfl

theorem course_runReturn : (i.runReturn fuel w code).course
    = ({ i with buffers := "" :: i.buffers }.execute fuel w code).course := by
  unfold runReturn
  dsimp only
  split <;> rfl

section

variable {tail : Bytecode} {fs gs : List (String × Bytecode)} (hw : w.Furnished i.superglobals)
  (hi : i.functions = ({} : Interpreter).functions) (hresolved : (tail.headed fs).IsResolved)
  (hnodup : (namesOf fs).Nodup) (hfree : ∀ f ∈ Native.all, f.name ∉ namesOf fs)
  (hjump : ∀ kind target, .jump kind target ∈ tail.code → fs.length ≤ target)
  (hperm : fs.Perm gs)

include hw hi hresolved hnodup hfree hjump hperm

theorem alike_execute (fuel : Nat) :
    (i.execute fuel w (tail.headed fs)).Alike (i.execute fuel w (tail.headed gs)) := by
  have hold : Machine.launch w i (tail.headed fs) = _ := Machine.launch_headed
  have hnew : Machine.launch w i (tail.headed gs) = _ := Machine.launch_headed
  have hempty : (tail.headed gs).code.isEmpty = (tail.headed fs).code.isEmpty := by
    simp only [Bytecode.headed, Array.isEmpty, Array.size_append, List.size_toArray,
      List.length_map, hperm.length_eq]
  cases hlaunch : Machine.launch w i tail with
  | error fault =>
    rw [hlaunch] at hold hnew
    rw [execute, execute, hold, hnew]
    exact ⟨rfl, fun _ => rfl⟩
  | ok start =>
    have hdeclares := Machine.Declares.of_launch hw hi hresolved hnodup hfree hjump hlaunch
    rw [hlaunch] at hold hnew
    by_cases hcode : (tail.headed fs).code.isEmpty = true
    · rw [execute_of_isEmpty hold hcode, execute_of_isEmpty hnew (hempty.trans hcode)]
      exact ⟨rfl, fun _ => rfl⟩
    · rw [execute_of_launch hold hcode, execute_of_launch hnew (by rwa [hempty])]
      exact Run.alike_of_sameShown (hdeclares.sameShown hperm fuel) _ _

theorem alike_run (fuel : Nat) :
    (i.run fuel w (tail.headed fs)).Alike (i.run fuel w (tail.headed gs)) := by
  have halike := alike_execute hw hi hresolved hnodup hfree hjump hperm fuel
  refine ⟨by rw [outcome_run, outcome_run, halike.outcome], fun depth => ?_⟩
  rw [Run.contents, Run.contents, course_run, course_run]
  exact halike.contents depth

theorem alike_runReturn (fuel : Nat) :
    (i.runReturn fuel w (tail.headed fs)).Alike (i.runReturn fuel w (tail.headed gs)) := by
  have halike := alike_execute (i := { i with buffers := "" :: i.buffers }) hw hi hresolved hnodup
    hfree hjump hperm fuel
  refine ⟨by rw [outcome_runReturn, outcome_runReturn, halike.outcome], fun depth => ?_⟩
  rw [Run.contents, Run.contents, course_runReturn, course_runReturn]
  exact halike.contents depth

end

end Interpreter

/-! ### Trees -/

namespace Tree

variable {elements elements' : List Tree} {name : String}

def declares? (tree : Tree) : Option String := tree.definition?.map Definition.name

theorem names_definitions :
    (elements.filterMap definition?).map Definition.name = elements.filterMap declares? :=
  List.map_filterMap

theorem names_functions :
    (namesOf (elements.filterMap function?)).Sublist (elements.filterMap declares?) := by
  induction elements with
  | nil => exact .slnil
  | cons tree elements ih =>
    rw [List.filterMap_cons, List.filterMap_cons, function?, declares?]
    cases tree.definition? with
    | none => exact ih
    | some d =>
      have hcoded : d.coded? = d.code.toOption.map (d.name, ·) := rfl
      cases hcode : d.code.toOption with
      | none =>
        rw [hcode] at hcoded
        simpa [hcoded] using ih.cons d.name
      | some b =>
        rw [hcode] at hcoded
        simpa [hcoded, namesOf] using ih.cons_cons d.name

/-- Elements in another order: statements stay in theirs, and declarations may
stand anywhere. -/
structure Reordered (elements elements' : List Tree) : Prop where
  perm : elements.Perm elements'
  statements : elements.filter (!·.isDeclaration) = elements'.filter (!·.isDeclaration)

theorem Reordered.symm (h : Reordered elements elements') : Reordered elements' elements :=
  ⟨h.perm.symm, h.statements.symm⟩

/-- Functions are declared under different names, and statements and functions
stand where they may. -/
structure Declares (elements : List Tree) : Prop where
  orderly : allOrderly "sourceelements" elements
  nodup : (elements.filterMap declares?).Nodup

theorem Declares.reordered (h : Declares elements) (hreordered : Reordered elements elements') :
    Declares elements' := by
  refine ⟨allOrderly_iff.2 fun tree htree => ?_, ?_⟩
  · exact allOrderly_iff.1 h.orderly tree (hreordered.perm.mem_iff.2 htree)
  · exact (hreordered.perm.filterMap declares?).nodup_iff.1 h.nodup

theorem Declares.fresh (h : Declares elements) :
    Reading.Fresh [] (elements.filterMap definition?) :=
  ⟨names_definitions ▸ h.nodup, nofun⟩

theorem compile_reordered (h : Declares elements) (hreordered : Reordered elements elements')
    {b : Bytecode} (hcompile : (main elements).compile name = .ok b) :
    ∃ tail : Bytecode, b = tail.headed (elements.filterMap function?) ∧
      (main elements').compile name = .ok (tail.headed (elements'.filterMap function?)) ∧
      ∀ kind target, .jump kind target ∈ tail.code →
        (elements.filterMap function?).length ≤ target := by
  have h' := h.reordered hreordered
  obtain ⟨hfunctions, statements, s, tail, hsurvey, htail, hb⟩ :=
    (compile_main_iff h.orderly h.fresh).1 hcompile
  refine ⟨tail, hb, ?_, fun kind target hjump => ?_⟩
  · refine (compile_main_iff h'.orderly h'.fresh).2
      ⟨fun tree htree => ?_, statements, s, tail, ?_, ?_, rfl⟩
    · exact hfunctions tree (hreordered.perm.mem_iff.2 htree)
    · rw [← hreordered.statements, hsurvey]
    · rw [← (hreordered.perm.filterMap function?).length_eq, htail]
  · unfold Node.assembleBodyAt at htail
    split at htail
    · exact Bytecode.le_of_assembleAt htail hjump
    · cases htail

end Tree

/-- A program whose functions have different names, none of which is that of a
native function, and the same program with its declarations in another order and
at other places among the statements.  The one can be compiled if the other can.
In a new interpreter they run alike, for as many steps as one likes, whether the
output is written or collected: the same is printed, the same goes wrong, as many
steps are made, and the variables are the same. -/
theorem declarations_in_any_order {elements elements' : List Tree}
    (horderly : Tree.allOrderly "sourceelements" elements)
    (hnodup : (elements.filterMap Tree.declares?).Nodup)
    (hfree : ∀ f : Native, f.name ∉ elements.filterMap Tree.declares?)
    (hperm : elements.Perm elements')
    (hstatements : elements.filter (!·.isDeclaration) = elements'.filter (!·.isDeclaration))
    (name : String) :
    ((∃ b, (Tree.main elements).compile name = .ok b) ↔
      ∃ b', (Tree.main elements').compile name = .ok b') ∧
    ∀ b b', (Tree.main elements).compile name = .ok b →
      (Tree.main elements').compile name = .ok b' →
      ∀ (i : Interpreter) (w : World) (fuel : Nat), i.functions = ({} : Interpreter).functions →
        w.Furnished i.superglobals →
        (i.run fuel w b).Alike (i.run fuel w b') ∧
          (i.runReturn fuel w b).Alike (i.runReturn fuel w b') := by
  have hdeclares : Tree.Declares elements := ⟨horderly, hnodup⟩
  have hreordered : Tree.Reordered elements elements' := ⟨hperm, hstatements⟩
  refine ⟨⟨fun ⟨b, hb⟩ => ?_, fun ⟨b', hb'⟩ => ?_⟩, fun b b' hb hb' i w fuel hi hw => ?_⟩
  · obtain ⟨tail, -, hcompile, -⟩ := Tree.compile_reordered hdeclares hreordered hb
    exact ⟨_, hcompile⟩
  · obtain ⟨tail, -, hcompile, -⟩ :=
      Tree.compile_reordered (hdeclares.reordered hreordered) hreordered.symm hb'
    exact ⟨_, hcompile⟩
  · have hresolved := Tree.isResolved_of_compile horderly hb
    obtain ⟨tail, rfl, hcompile, hjump⟩ := Tree.compile_reordered hdeclares hreordered hb
    rw [hcompile] at hb'
    cases hb'
    have hsublist : (namesOf (elements.filterMap Tree.function?)).Sublist _ := Tree.names_functions
    have hnames := hnodup.sublist hsublist
    have hfree' : ∀ f ∈ Native.all, f.name ∉ namesOf (elements.filterMap Tree.function?) :=
      fun f _ hmem => hfree f (hsublist.subset hmem)
    have hfunctions := hperm.filterMap Tree.function?
    exact ⟨Interpreter.alike_run hw hi hresolved hnames hfree' hjump hfunctions fuel,
      Interpreter.alike_runReturn hw hi hresolved hnames hfree' hjump hfunctions fuel⟩

section

open Sample

/-- `print f($_GET["n"]);` -/
def askingTree : Tree :=
  printTree (callTree "f" [elementTree (variableTree "$_GET") (doubleText "n")])

/-- `$t = true;` -/
def settingTree : Tree := assignTree "$t" (truthLiteral "true")

/-- `function f($x) { return g($x); }` -/
def passingOnTree : Tree := declarationTree "f" [parameterTree "$x"] [.branch "returnstatement"
  [callTree "g" [variableTree "$x"]]]

/-- `function g($y) { return $y . "!"; }` -/
def exclaimingTree : Tree := declarationTree "g" [parameterTree "$y"] [.branch "returnstatement"
  [operatorTree "stringjoinexpression" "." (variableTree "$y") (doubleText "!")]]

/-- A function that calls another one, declared between the statements and
before them. -/
theorem declarations_in_any_order_calling : ∃ b b',
    (Tree.main [askingTree, passingOnTree, settingTree, exclaimingTree]).compile "main" = .ok b ∧
      (Tree.main [exclaimingTree, askingTree, settingTree, passingOnTree]).compile "main" = .ok b' ∧
      ∀ w i, Interpreter.setup {} {} [("n", "Hello")] = (w, i) →
        (i.run 40 w b).Alike (i.run 40 w b') ∧ (i.run 40 w b).outcome.written = "Hello!" := by
  obtain ⟨b, hb, hwritten⟩ :
      ∃ b, (Tree.main [askingTree, passingOnTree, settingTree, exclaimingTree]).compile "main" = .ok b ∧
      ((Interpreter.setup {} {} [("n", "Hello")]).2.run 40
        (Interpreter.setup {} {} [("n", "Hello")]).1 b).outcome.written = "Hello!" := by
    decide +kernel
  have hnames : [askingTree, passingOnTree, settingTree, exclaimingTree].filterMap Tree.declares?
      = ["f", "g"] := by decide +kernel
  have hperm : [askingTree, passingOnTree, settingTree, exclaimingTree].Perm
      [exclaimingTree, askingTree, settingTree, passingOnTree] :=
    ((List.perm_append_comm : ([passingOnTree] ++ [settingTree, exclaimingTree]).Perm
      ([settingTree, exclaimingTree] ++ [passingOnTree])).cons askingTree).trans
    (List.perm_middle : ([askingTree, settingTree] ++ exclaimingTree :: [passingOnTree]).Perm _)
  obtain ⟨hcompiles, halike⟩ := declarations_in_any_order (by decide) (by rw [hnames]; decide)
    (by rw [hnames]; intro f; cases f <;> decide) hperm rfl "main"
  obtain ⟨b', hb'⟩ := hcompiles.1 ⟨b, hb⟩
  refine ⟨b, b', hb, hb', fun w i hsetup => ?_⟩
  have hw := World.Furnished.new.setup {} [("n", "Hello")]
  have hfunctions : (Interpreter.setup {} {} [("n", "Hello")]).2.functions
      = ({} : Interpreter).functions := rfl
  rw [hsetup] at hw hwritten hfunctions
  exact ⟨(halike b b' hb hb' i w 40 hfunctions hw).1, hwritten⟩

end

end PageScript
