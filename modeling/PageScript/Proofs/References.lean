/-
References stay where they belong.

No cell, no element of an array, no named constant and no result of a function is a
reference or an iteration, and on an operand stack a reference is an argument of a call
that is being put together (`Machine.Confined`).  This holds in every run of a program that
leaves only `for` loops (`references_confined`), as long as no parameter by reference has
the slot of a superglobal, as the second of two parameters with one name may have
(`reference_in_superglobal`).
-/
import PageScript.Proofs.Observance
import PageScript.Sample.Grammar

namespace PageScript

open Sample List

def Value.isPlain (v : Value) : Bool := !v.isRef && !v.isIteration

theorem Value.isPlain_iff {v : Value} : v.isPlain ↔ v.isRef = false ∧ v.isIteration = false := by
  simp [isPlain]

theorem Value.isIteration_of_isRef {v : Value} (h : v.isRef) : v.isIteration = false := by
  cases v with
  | ref => rfl
  | _ => cases h

theorem Store.isRef_of_copy {s t : Store} {v w : Value} (h : s.copy v = .ok (w, t)) :
    w.isRef = v.isRef ∧ w.isIteration = v.isIteration := by
  cases v <;> cases h <;> exact ⟨rfl, rfl⟩

/-! ### Keeping to policies from the start -/

namespace Policy

theorem guards_new {p : Policy} (hp : p.Lawful) (hpools : p.pools #[] #[]) : p.Guards {} {} where
  store := ⟨nofun, nofun, nofun, hpools, nofun⟩
  named := nofun
  functions {e} he := by
    obtain ⟨f, -, rfl⟩ := mem_map.1 he
    exact hp.plain rfl rfl
  superglobals := nofun

end Policy

/-! ### Where values may be -/

/-- Only `for` loops are left, and no `global` stands inside other statements. -/
def Rules.leavingFor : Rules := .leaving false (· = .forLoop)

namespace Policy

/-- Only plain values are stored, and all cells may be reached. -/
def plainOnly : Policy where
  storable v := v.isPlain
  reachable _ := True
  pools _ _ := True
  codes := Bytecode.Proper false .leavingFor

theorem lawful_plainOnly : plainOnly.Lawful where
  plain href hiteration := Value.isPlain_iff.2 ⟨href, hiteration⟩
  copy {s t v w} hv hcopy := by
    obtain ⟨href, hiteration⟩ := Store.isRef_of_copy hcopy
    exact Value.isPlain_iff.2 (by rw [href, hiteration]; exact Value.isPlain_iff.1 hv)
  refs h := by cases h
  newCell _ _ := ⟨trivial, trivial⟩
  setCell _ _ _ := trivial
  constants {code v} hcode hv := by
    have hliteral := hcode.literal hv
    cases v with
    | int | float | text | template => rfl
    | _ => cases hliteral
  separate hcode := .inr hcode.separate

/-- Where only `for` loops are left, operands are of the kinds they are said to
be. -/
theorem governs_plainOnly : plainOnly.Governs false .leavingFor Eq where
  lawful := lawful_plainOnly
  codes := rfl
  compares := by
    refine ⟨fun _ => rfl, ?_⟩
    rintro (h | ⟨kind, hkind, h⟩)
    · cases h
    · exact absurd (of_decide_eq_true h) hkind
  fits := by
    rintro ks _ stack rfl h
    exact h
  texts _ := trivial

theorem kind_of_allows {k : Kind} {v : Value} (h : plainOnly.regime.Allows k v) :
    (v.isRef → k = .reference) ∧ (v.isIteration → k = .iteration) := by
  have hplain : plainOnly.storable v → v.isRef = false ∧ v.isIteration = false := Value.isPlain_iff.1
  cases k with
  | plain => simp [hplain h]
  | reference =>
    rcases h with h | ⟨id, rfl, -⟩
    · simp [hplain h]
    · exact ⟨fun _ => rfl, nofun⟩
  | iteration =>
    refine ⟨fun hv => ?_, fun _ => rfl⟩
    rcases h with h | h
    · rw [(hplain h).1] at hv
      cases hv
    · rw [Value.isIteration_of_isRef hv] at h
      cases h

end Policy

/-! ### Runs -/

/-- In the slots of the activation there are no iterations, and its operands
are references or iterations only where these are known to be: references where
the arguments of a call are put together, iterations in `foreach` loops.  Of
the operands that are known for its position the first `n` are missing. -/
structure Activation.Confined (n : Nat) (a : Activation) : Prop where
  slots : ∀ v ∈ a.frame.slots, v.isIteration = false
  stems : ∃ scopes body, a.frame.code.Stems false .leavingFor scopes body
  operands : ∀ scopes body, a.frame.code.Stems false .leavingFor scopes body → ∀ j v,
    a.frame.stack[j]? = some v →
      (v.isRef → (body.kindsAt a.pos).getD (n + j) .plain = .reference) ∧
      (v.isIteration → (body.kindsAt a.pos).getD (n + j) .plain = .iteration)

/-- References and iterations are where they belong. -/
structure Machine.Confined (m : Machine) : Prop where
  /-- None is in a cell or an array or has a name. -/
  guards : Policy.plainOnly.Guards m.world m.interpreter
  current : m.current.Confined 0
  /-- An activation that waits is short of what its call has taken. -/
  callers : ∀ a ∈ m.callers, ∃ count, a.frame.code.code[a.pos]? = some (.call count) ∧
    a.Confined (count.toNat + 1)
  /-- The result of a call, which is on top of the stack behind it, is none. -/
  results : ∀ pos count v, m.current.pos = pos + 1 →
    m.current.frame.code.code[pos]? = some (.call count) →
    m.current.frame.stack.head? = some v → v.isPlain
  takes : ∀ i, m.next? = some i → (∀ count, i ≠ .call count) → ∀ j < i.needs, ∀ v,
    m.current.frame.stack[j]? = some v → v.isRef = false

open Policy (plainOnly governs_plainOnly lawful_plainOnly kind_of_allows)

theorem Activation.Abides.confined {n : Nat} {a : Activation}
    (h : a.Abides plainOnly false .leavingFor n) : a.Confined n where
  slots v hv := by
    rcases h.slots v hv with hv | ⟨id, rfl, -⟩
    · exact (Value.isPlain_iff.1 hv).2
    · rfl
  stems := h.stems
  operands scopes body hstems j v hv := by
    have hallows := h.fits scopes body hstems j v hv
    rw [getD_drop] at hallows
    exact kind_of_allows hallows

theorem Machine.Abides.confined {m : Machine} (h : m.Abides plainOnly false .leavingFor []) :
    m.Confined where
  guards := h.guards
  current := h.current.confined
  callers a ha := by
    obtain ⟨above, habove, hwaits⟩ := h.callers
    rw [habove, append_nil] at ha
    obtain ⟨count, hcall, hwaiting⟩ := hwaits a ha
    exact ⟨count, hcall, hwaiting.confined⟩
  results pos count v hpos hcall hv := by
    obtain ⟨scopes, body, hstems⟩ := h.current.stems
    obtain ⟨⟨ks, hafter, hnext⟩, -, -, -⟩ := hstems.kinded governs_plainOnly.compares hcall
    obtain ⟨-, -, rfl⟩ := Instr.after_call hafter
    have hallows := h.current.fits scopes body hstems 0 v (by rw [← head?_eq_getElem?, hv])
    -- Behind a call there is one plain operand in the place of those it takes.
    rw [drop_zero, hpos, ← hnext rfl] at hallows
    exact hallows
  takes i hi hcall j hj v hv := by
    obtain ⟨scopes, body, hstems⟩ := h.current.stems
    have hkinded := hstems.kinded governs_plainOnly.compares hi
    have hallows := h.current.fits scopes body hstems j v hv
    rw [drop_zero] at hallows
    by_contra href
    have hkind := (kind_of_allows hallows).1 (Bool.not_eq_false _ ▸ href)
    obtain ⟨count, hcount⟩ := hkinded.operands j hj hkind
    exact hcall count hcount

/-- In every state of every run of a grammatical program with its `global`
statements directly in bodies that leaves only `for` loops, references and
iterations are where they belong, if no parameter by reference has the slot of
a superglobal. -/
theorem references_confined {tree : Tree} (htree : tree.Program false) {s : Script}
    (hread : Script.ofTree tree = .ok s)
    (hleaves : s.root.leavesOnly (· = .forLoop) none = true)
    (hseparate : ∀ scope ∈ s.scopes, scope.Separate) {name : String} {b : Bytecode}
    (hcompile : s.compile name = .ok b) {world : World} {interpreter : Interpreter}
    (hguards : plainOnly.Guards world interpreter) {start : Machine}
    (hlaunch : Machine.launch world interpreter b = .ok start) {n : Nat} {m : Machine}
    (hcourse : Machine.Course (fun _ => True) n start m) : m.Confined := by
  have htidy : s.root.TidyProgram .leavingFor := htree.tidyLeaving hread hcompile hleaves
  obtain ⟨hproper, hstems⟩ := htree.proper hread htidy hseparate hcompile
  have hstart := Machine.Abides.launch governs_plainOnly hguards hproper hstems hlaunch
  have hm := hstart.course governs_plainOnly (hcourse.mono fun _ _ => Nat.zero_le _) (Nat.zero_le _)
  exact hm.confined

/-- `function f(&$a, $b) { $a = $b; return $a; } $v = 1; f($v, 2);` -/
def passingTree : Tree := programTree [
  declarationTree "f" [referenceTree "$a", parameterTree "$b"] [
    assignTree "$a" (variableTree "$b"),
    .branch "returnstatement" [variableTree "$a"]],
  assignTree "$v" (numeral "1"),
  expressionTree (callTree "f" [variableTree "$v", numeral "2"])]

theorem program_passingTree : passingTree.Program false := by
  refine .main ?_
  simp only [forall_mem_cons]
  refine ⟨.declarationTree (by decide) ?_ ?_, .statement (.assignTree (by decide) .number),
    .statement (.expression (.callTree ?_)), by simp⟩ <;> simp only [forall_mem_cons]
  · exact ⟨.reference, .value, by simp⟩
  · exact ⟨.statement (.assignTree (by decide) (.variable (by decide))),
      .statement (.returnValue (by simpa using .variable (by decide))), by simp⟩
  · exact ⟨.variable (by decide), .number, by simp⟩

/-- While the second argument is on the stack above it, the reference to `$v` is
known to be one. -/
theorem references_confined_passing :
    ∃ s b start m, Script.ofTree passingTree = .ok s ∧ s.compile "main" = .ok b ∧
      Machine.launch {} {} b = .ok start ∧ Machine.Course (fun _ => True) 6 start m ∧
      m.current.frame.stack.map Value.isRef = [false, true] ∧ m.Confined := by
  obtain ⟨s, hread, b, hcompile, start, hlaunch, m, hcourse, hleaves, hseparate, hstack⟩ :
      passingTree.ComesTo {} {} 6 fun s _ m => s.root.leavesOnly (· = .forLoop) none = true ∧
      (∀ scope ∈ s.scopes, scope.Separate) ∧
      m.current.frame.stack.map Value.isRef = [false, true] := by decide +kernel
  exact ⟨s, b, start, m, hread, hcompile, hlaunch, hcourse, hstack,
    references_confined program_passingTree hread hleaves hseparate hcompile
      (Policy.guards_new lawful_plainOnly trivial) hlaunch hcourse⟩

/-- `function f($a, &$a) { print $_GET; } $v = 1; f(1, $v);` -/
def doubledTree : Tree := programTree [
  declarationTree "f" [parameterTree "$a", referenceTree "$a"] [printTree (variableTree "$_GET")],
  assignTree "$v" (numeral "1"),
  expressionTree (callTree "f" [numeral "1", variableTree "$v"])]

theorem program_doubledTree : doubledTree.Program false := by
  refine .main ?_
  simp only [forall_mem_cons]
  refine ⟨.declarationTree (by decide) ?_ ?_, .statement (.assignTree (by decide) .number),
    .statement (.expression (.callTree ?_)), by simp⟩ <;> simp only [forall_mem_cons]
  · exact ⟨.value, .reference, by simp⟩
  · exact ⟨.statement (.printTree (.variable (by decide))), by simp⟩
  · exact ⟨.number, .variable (by decide), by simp⟩

/-- No parameter has the name of a superglobal, but the second one is bound to
the slot of `$_GET`: the cell of `$_GET` holds the reference to `$v`, which is
about to be printed. -/
theorem reference_in_superglobal :
    ∃ s b start m id id', doubledTree.Program false ∧ Script.ofTree doubledTree = .ok s ∧
      s.root.leavesOnly (· = .forLoop) none = true ∧
      (∀ scope ∈ s.scopes, ∀ e ∈ scope.parameters, e.1 ∉ superglobalNames) ∧
      s.compile "main" = .ok b ∧
      Machine.launch (Interpreter.setup {} {} [("k", "v")]).1
        (Interpreter.setup {} {} [("k", "v")]).2 b = .ok start ∧
      Machine.Course (fun _ => True) 9 start m ∧ m.world.store.ref id = some (.ref id') ∧
      m.next? = some .print ∧ m.current.frame.stack = [.ref id'] := by
  obtain ⟨s, hread, b, hcompile, start, hlaunch, m, hcourse, hleaves, hnames, hstate⟩ :
      doubledTree.ComesTo (Interpreter.setup {} {} [("k", "v")]).1
        (Interpreter.setup {} {} [("k", "v")]).2 9 fun s _ m =>
      s.root.leavesOnly (· = .forLoop) none = true ∧
      decide (∀ scope ∈ s.scopes, ∀ e ∈ scope.parameters, e.1 ∉ superglobalNames) = true ∧
      m.world.store.ref 0 = some (.ref 1) ∧ m.next? = some .print ∧
      m.current.frame.stack = [.ref 1] := by decide +kernel
  exact ⟨s, b, start, m, 0, 1, program_doubledTree, hread, hleaves, of_decide_eq_true hnames, hcompile,
    hlaunch, hcourse, hstate⟩

end PageScript
