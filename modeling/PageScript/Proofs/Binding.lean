/-
Parameters are bound by position.

A call stores what is passed in the first slots of the new frame.  These are the
slots of the parameters, as a function declares them before anything else.  So what
the function finds is known from its declaration (`parameters_bound`), if the
parameters have different names, none of a superglobal or declared global.
-/
import PageScript.Proofs.Passing

namespace PageScript

open List Tree

open Reading (declared)

/-! ### The scope of a function -/

theorem Tree.Parameters.formalsIn_append {trees : List Tree} (h : Parameters trees)
    (rest : List Tree) : formalsIn (trees ++ rest) = formalsIn trees := by
  cases h <;> rfl

theorem Tree.Element.later_of_definition {globals : Bool} {tree : Tree} (h : tree.Element globals)
    (hdeclares : tree.isDeclaration) {d e : Declarations} {id : Nat} {opened : List Nat}
    {definition : Node × Node} (hopened : d.opened = id :: opened) (hid : id < d.scopes.size)
    (hrun : (Reading.readDefinition (Part.ofTrees tree.children)).run d = .ok definition e) :
    (declared d id tree.formals).Later e := by
  cases h with
  | statement hstatement => cases hstatement <;> cases hdeclares
  | global => cases hdeclares
  | function hname hparameters helements =>
    rw [children, Part.ofTrees, Part.ofTrees, ofTrees_append] at hrun
    rw [formals, children, drop_succ_cons, drop_succ_cons, drop_zero,
      hparameters.formalsIn_append]
    exact (Reading.run_readDefinition hname hparameters
      (Reading.gives_nextBody fun t ht => (helements t ht).adds) hopened hid hrun).2.2.2
  | emptyFunction hname hparameters hbrace =>
    rw [children, Part.ofTrees, Part.ofTrees, ofTrees_append] at hrun
    rw [formals, children, drop_succ_cons, drop_succ_cons, drop_zero,
      hparameters.formalsIn_append]
    exact (Reading.run_readDefinition hname hparameters
      (Reading.gives_nextBody_missing globals hbrace) hopened hid hrun).2.2.2

/-- The parameters have the first slots, and the names that are declared global and
the superglobals have those that are noted for them. -/
structure Bytecode.Positional (b : Bytecode) : Prop where
  parameter : ∀ (i : Nat) p, b.parameters[i]? = some p → b.slotOf p.1 = i
  global : ∀ e ∈ b.globals, b.slotOf e.1 = e.2 ∧ 0 ≤ e.2
  superglobal : ∀ {k : Nat} {slot}, b.superglobals[k]? = some slot → 0 ≤ slot →
    ∃ g, superglobalNames[k]? = some g ∧ b.slotOf g = slot ∧ slot.toNat < b.symbolSize
  noted : ∀ {k : Nat} {g}, superglobalNames[k]? = some g → 0 ≤ b.slotOf g →
    g ∉ b.globals.map Prod.fst → b.superglobals[k]? = some (b.slotOf g)
  pairwise : b.superglobals.Pairwise fun slot other => 0 ≤ slot → slot ≠ other

theorem Bytecode.eq_of_slotOf {b : Bytecode} {name other : String} (hge : 0 ≤ b.slotOf name)
    (h : b.slotOf name = b.slotOf other) : name = other :=
  Option.some.inj (SymbolMap.lookup_inj hge h)

theorem Bytecode.IsIn.positional {b : Bytecode} {s : Scope} (h : b.IsIn s)
    {formals : List (String × Bool)} (hlater : (formals.foldl Scope.addFormal {}).Later s)
    (hnames : (formals.map Prod.fst).Nodup) : b.parameters = formals ∧ b.Positional := by
  obtain ⟨hnamed, hnoted⟩ : (formals.foldl Scope.addFormal {}).Named ∧ _ :=
    Scope.named_foldl_addFormal .new .new
  replace hnamed := hlater.named hnamed
  replace hnoted := hlater.noted hnoted
  obtain ⟨hparameters, hslots⟩ :=
    Scope.foldl_addFormal (s := {}) hnames fun p _ => ⟨rfl, not_mem_nil⟩
  replace hparameters : b.parameters = formals := by
    rw [h.parameters, hlater.parameters, hparameters]
    rfl
  have hslotOf : ∀ name, b.slotOf name = s.symbols.lookup (some name) := by
    intro name
    rw [slotOf, h.symbols]
  refine ⟨hparameters, fun i p hp => ?_, fun e he => ?_, fun {k slot} hk hge => ?_,
    fun {k g} hg hge hglobal => ?_, ?_⟩
  · have hslot := hslots i p (hparameters ▸ hp)
    have hroot : ({} : Scope).symbols.size = 0 := rfl
    rw [hslotOf, hlater.growth.symbols _ (by omega), hslot, hroot, Int.zero_add]
  · rw [h.globals] at he
    obtain ⟨hslot, hge, -⟩ := hnamed.globals e he
    exact ⟨(hslotOf e.1).trans hslot.symm, hge⟩
  · rw [h.superglobals] at hk
    obtain ⟨g, hg, hslot, -, hlt⟩ := hnamed.superglobal hnoted hk hge
    refine ⟨g, hg, (hslotOf g).trans hslot.symm, ?_⟩
    rw [symbolSize, h.symbols]
    omega
  · rw [h.globals] at hglobal
    rw [hslotOf] at hge ⊢
    rw [h.superglobals]
    exact hnoted.superglobal hg hge hglobal
  · rw [h.superglobals]
    exact hnamed.pairwise hnoted

theorem Tree.Element.positional {globals : Bool} {tree : Tree} (h : tree.Element globals)
    {name : String} {code : Bytecode} (hfunction : tree.function? = some (name, code))
    (hnames : (tree.formals.map Prod.fst).Nodup) :
    code.parameters = tree.formals ∧ code.Positional := by
  obtain ⟨definition, hdefinition, hcoded⟩ := Option.bind_eq_some_iff.1 hfunction
  obtain ⟨_, hcode, ⟨⟩⟩ := Option.map_eq_some_iff.1 hcoded
  replace hcode : definition.code = .ok code := by
    cases hresult : definition.code with
    | error => cases (congrArg Except.toOption hresult).symm.trans hcode
    | ok =>
      cases (congrArg Except.toOption hresult).symm.trans hcode
      rfl
  unfold definition? at hdefinition
  split at hdefinition
  case isFalse => cases hdefinition
  case isTrue hdeclares =>
    unfold Reading.readAlone at hdefinition
    split at hdefinition
    case h_2 => cases hdefinition
    case h_1 e hrun =>
      obtain ⟨_, -, rfl⟩ := Option.map_eq_some_iff.1 hdefinition
      have hzero : (declared (.alone {}) 0 tree.formals).scopes[0]?
          = some (tree.formals.foldl Scope.addFormal {}) := rfl
      obtain ⟨s, hs, hlater⟩ := (h.later_of_definition hdeclares rfl Nat.one_pos hrun).later hzero
      have hin : code.IsIn s := by
        rw [← Declarations.scope_of_getElem? hs]
        exact Bytecode.isIn_of_assembleBody hcode
      exact hin.positional hlater hnames

/-! ### The frame of a function -/

namespace Frame

theorem exists_fillSuperglobals {values : List Value} {slots slots' : Array Value}
    {places : List Int} (h : fillSuperglobals values slots places = .ok slots')
    (hplaces : places.Pairwise fun slot other => 0 ≤ slot → slot ≠ other) {k : Nat} {slot : Int}
    (hk : places[k]? = some slot) (hge : 0 ≤ slot) (hlt : slot.toNat < slots.size) :
    ∃ v, values[k]? = some v ∧ slots'[slot.toNat]? = some v := by
  induction places generalizing values slots k with
  | nil => cases hk
  | cons place places ih =>
    obtain ⟨hplace, hplaces⟩ := pairwise_cons.1 hplaces
    unfold fillSuperglobals at h
    split at h
    · cases k with
      | zero =>
        cases hk
        omega
      | succ k =>
        obtain ⟨v, hv, hslot⟩ := ih h hplaces hk hlt
        exact ⟨v, by rwa [getElem?_drop, Nat.add_comm] at hv, hslot⟩
    · cases values with
      | nil => cases h
      | cons v values =>
        cases k with
        | zero =>
          cases hk
          refine ⟨v, rfl, ?_⟩
          have hother : ((slot.toNat : Nat) : Int) ∉ places := by
            rw [Int.toNat_of_nonneg hge]
            exact fun hmem => hplace _ hmem hge rfl
          rw [(fillSuperglobals_spec h).2 hother]
          exact Array.getElem?_setIfInBounds_self_of_lt hlt
        | succ k => exact ih h hplaces hk (by rwa [Array.size_setIfInBounds])

end Frame

namespace Bytecode.Positional

variable {b : Bytecode}

theorem name_mem (h : b.Positional) {n : Nat} {name : String} (hn : n < b.parameters.length)
    (hname : b.slotOf name = n) : ∃ p ∈ b.parameters, p.1 = name := by
  obtain ⟨p, hp⟩ : ∃ p, b.parameters[n]? = some p := ⟨_, getElem?_eq_getElem hn⟩
  have hslot := h.parameter n p hp
  exact ⟨p, mem_of_getElem? hp, eq_of_slotOf (by omega) (hslot.trans hname.symm)⟩

theorem superglobal_ne (h : b.Positional) (hnames : ∀ p ∈ b.parameters, p.1 ∉ superglobalNames) :
    ∀ n < b.parameters.length, (n : Int) ∉ b.superglobals := by
  intro n hn hmem
  obtain ⟨k, hk⟩ := mem_iff_getElem?.1 hmem
  obtain ⟨g, hg, hslot, -⟩ := h.superglobal hk (by omega)
  obtain ⟨p, hp, rfl⟩ := h.name_mem hn hslot
  exact hnames p hp (mem_of_getElem? hg)

theorem global_ne (h : b.Positional)
    (hnames : ∀ p ∈ b.parameters, p.1 ∉ b.globals.map Prod.fst) :
    ∀ e ∈ b.globals, ∀ n < b.parameters.length, e.2 ≠ n := by
  intro e he n hn heq
  obtain ⟨p, hp, hpe⟩ := h.name_mem hn ((h.global e he).1.trans heq)
  exact hnames p hp (hpe ▸ mem_map_of_mem he)

theorem load_superglobal (h : b.Positional) {values : List Value} {f : Frame}
    (hnew : Frame.new values b = .ok f) {k : Nat} {slot : Int}
    (hk : b.superglobals[k]? = some slot) (hge : 0 ≤ slot) :
    ∃ v, values[k]? = some v ∧ f.load slot = .ok v := by
  obtain ⟨_, -, -, hlt⟩ := h.superglobal hk hge
  obtain ⟨slots, hfill, hframe⟩ := ok_of_bind hnew
  cases hframe
  obtain ⟨v, hv, hslot⟩ := Frame.exists_fillSuperglobals hfill h.pairwise hk hge
    (by rwa [Array.size_replicate])
  refine ⟨v, hv, ?_⟩
  rw [Frame.load, if_neg (by omega)]
  simp only [hslot]

end Bytecode.Positional

open Sample

/-- `function f($a, &$b) { global $g; $c = $_GET; }` -/
def boundTree : Tree := declarationTree "f" [parameterTree "$a", referenceTree "$b"]
  [globalTree "$g", assignTree "$c" (variableTree "$_GET")]

theorem element_boundTree : boundTree.Element true := by
  refine .declarationTree (by decide) ?_ ?_ <;> simp only [forall_mem_cons]
  · exact ⟨.value, .reference, by simp⟩
  · exact ⟨@Element.global true (token "global") "globallist" ["$g"],
      .statement (.assignTree (by decide) (.variable (by decide))), by simp⟩

/-- Its code, and a machine that calls it with 7 and a reference. -/
def boundCode : Bytecode := (boundTree.function?.map Prod.snd).getD default

def boundMachine : Machine where
  world := { store := { codes := #[boundCode], refs := #[some .null] } }
  interpreter := { superglobals := [.int 3, .int 4] }
  current :=
    { frame :=
        { code :=
            { (default : Bytecode) with
              code := #[.call 2]
              symbols := SymbolMap.root.insert "$g" }
          capacity := 3
          stack := [.code 0, .ref 0, .int 7]
          slots := #[.int 5] } }

end PageScript
