/-
Slots and places within range.

The code of a node that is resolved mentions only slots and places that its scope has
(`Node.layout_finds`), and passes this on to the functions it declares
(`Bytecode.hereditary_isResolved`).  So no instruction made from what is read from a tree
goes out of range, in the code and in every run (`places_resolved`).
-/
import PageScript.Proofs.Resolution
import PageScript.Proofs.StackBound
import PageScript.Proofs.Steady

namespace PageScript

open List

open Node (Resolved SlotIn)

/-! ### Instructions -/

/-- The slot of a variable that an instruction mentions, with its name. -/
def Instr.slot? {L B : Type} : Instr L B → Option (Int × String)
  | .loadVar slot name => some (slot, name)
  | .loadRef slot name => some (slot, name)
  | .loadMemberVar slot name => some (slot, name)
  | .storeMemberVar slot name => some (slot, name)
  | .assign slot name => some (slot, name)
  | _ => none

/-- The place of a constant that an instruction mentions. -/
def Instr.place? {L B : Type} : Instr L B → Option Int
  | .loadConstant place => some place
  | _ => none

/-- What an instruction mentions is in the code: the slot that the code has
for the name, and a place in its pool. -/
structure Instr.Within (b : Bytecode) (i : Instr Nat Bytecode) : Prop where
  slot : ∀ slot name, i.slot? = some (slot, name) →
    slot = b.slotOf name ∧ 0 ≤ slot ∧ slot < b.symbols.size
  place : ∀ place, i.place? = some place → 0 ≤ place ∧ place < b.constants.size

/-- The code of a function, made from a body that is resolved. -/
def Bytecode.Comes (scopes : Nat → Scope) (name : String) (b : Bytecode) : Prop :=
  ∃ body id, Resolved scopes (some id) body ∧
    b = Node.functionCode name (scopes id) (body.compile scopes)

/-- What an instruction mentions is in a scope. -/
def Instr.Finds (scopes : Nat → Scope) (s : Scope) : Instr Nat Bytecode → Prop
  | .loadVar slot name => SlotIn s name slot
  | .loadRef slot name => SlotIn s name slot
  | .loadMemberVar slot name => SlotIn s name slot
  | .storeMemberVar slot name => SlotIn s name slot
  | .assign slot name => SlotIn s name slot
  | .loadConstant place => 0 ≤ place ∧ place < s.constants.length
  | .declareFunction name code => code.Comes scopes name
  | _ => True

namespace Node

variable {scopes : Nat → Scope} {s : Scope}

def Finds (scopes : Nat → Scope) (s : Scope) (lines : List Line) : Prop :=
  ∀ line ∈ lines, line.instr.Finds scopes s

section

variable {lines lines' : List Line}

@[simp] theorem finds_nil : Finds scopes s [] := nofun

@[simp] theorem finds_cons {line : Line} :
    Finds scopes s (line :: lines) ↔ line.instr.Finds scopes s ∧ Finds scopes s lines :=
  forall_mem_cons

@[simp] theorem finds_append :
    Finds scopes s (lines ++ lines') ↔ Finds scopes s lines ∧ Finds scopes s lines' :=
  forall_mem_append

theorem finds_place {place : Nat} {v : Value} (h : s.constants[place]? = some v) :
    Instr.Finds scopes s (.loadConstant place) := by
  obtain ⟨hlt, -⟩ := List.getElem?_eq_some_iff.1 h
  exact ⟨by omega, by omega⟩

variable {base target node : Node} {d id : Nat}

theorem memberLines_finds (hbase : Resolved scopes (some id) base)
    (h : Finds scopes (scopes id) lines) : Finds scopes (scopes id) (memberLines base lines d) := by
  cases base with
  | «variable» name slot => exact finds_cons.2 ⟨hbase.self, finds_nil⟩
  | _ => simp [memberLines, h, Instr.Finds]

theorem storeLines_finds (hbase : Resolved scopes (some id) base)
    (h : Finds scopes (scopes id) lines) : Finds scopes (scopes id) (storeLines base lines d) := by
  cases base with
  | «variable» name slot => exact finds_cons.2 ⟨hbase.self, finds_nil⟩
  | _ => simp [storeLines, h, Instr.Finds]

theorem orNullLines_finds (h : Finds scopes s lines) : Finds scopes s (orNullLines node lines d) := by
  cases node with
  | absent => simp [orNullLines, Instr.Finds]
  | _ => exact h

theorem targetLines_finds (htarget : Resolved scopes (some id) target) :
    Finds scopes (scopes id) (targetLines target d) := by
  cases target with
  | «variable» name slot => exact finds_cons.2 ⟨htarget.self, by simp [Instr.Finds]⟩
  | _ => simp [targetLines, Instr.Finds]

theorem keyLines_finds (hkey : Resolved scopes (some id) target) :
    Finds scopes (scopes id) (keyLines target d) := by
  unfold keyLines
  split
  · simp [Instr.Finds]
  · exact targetLines_finds hkey

theorem argumentLines_finds (hnode : Resolved scopes (some id) node)
    (h : Finds scopes (scopes id) lines) :
    Finds scopes (scopes id) (argumentLines node lines d) := by
  cases node with
  | «variable» name slot => exact finds_cons.2 ⟨hnode.self, finds_nil⟩
  | _ => exact h

theorem lineIf_finds (condition : Bool) {i : Instr Nat Bytecode} (h : i.Finds scopes s) :
    Finds scopes s (lineIf condition i d) := by
  cases condition <;> simp [lineIf, h]

theorem operationLine_finds (operator : String) : Finds scopes s [operationLine operator d] := by
  unfold operationLine operation?
  split <;> simp [Instr.Finds]

variable {nodes : List Node} (h : ∀ n ∈ nodes, ∀ pos d x, Finds scopes s (layout scopes pos d x n))

include h

theorem layoutAll_finds (pos d step : Nat) (x : Exits) :
    Finds scopes s (layoutAll scopes pos d step x nodes) := by
  induction nodes generalizing pos d with
  | nil => exact finds_nil
  | cons node nodes ih =>
    obtain ⟨hnode, hnodes⟩ := forall_mem_cons.1 h
    exact finds_append.2 ⟨hnode _ _ _, ih hnodes _ _⟩

theorem layoutBody_finds (pos d : Nat) (x : Exits) :
    Finds scopes s (layoutBody scopes pos d x nodes) := by
  induction nodes generalizing pos d with
  | nil => simp [layoutBody, Instr.Finds]
  | cons node nodes ih =>
    obtain ⟨hnode, hnodes⟩ := forall_mem_cons.1 h
    cases nodes with
    | nil => exact finds_append.2 ⟨hnode _ _ _, lineIf_finds _ trivial⟩
    | cons next nodes =>
      simp only [layoutBody, finds_append]
      exact ⟨⟨hnode _ _ _, lineIf_finds _ trivial⟩, ih hnodes _ _⟩

theorem layoutBlock_finds (pos d : Nat) (x : Exits) :
    Finds scopes s (layoutBlock scopes pos d x nodes) := by
  induction nodes generalizing pos d with
  | nil => simp [layoutBlock, Instr.Finds]
  | cons node nodes ih =>
    obtain ⟨hnode, hnodes⟩ := forall_mem_cons.1 h
    cases nodes with
    | nil => exact hnode _ _ _
    | cons next nodes => simp [layoutBlock, hnode, ih hnodes, Instr.Finds]

end

theorem layoutArguments_finds {id : Nat} {nodes : List Node}
    (hnodes : ∀ n ∈ nodes, Resolved scopes (some id) n ∧
      ∀ pos d x, Finds scopes (scopes id) (layout scopes pos d x n)) (pos d : Nat) (x : Exits) :
    Finds scopes (scopes id) (layoutArguments scopes pos d x nodes) := by
  induction nodes generalizing pos d with
  | nil => exact finds_nil
  | cons node nodes ih =>
    obtain ⟨⟨hresolved, hnode⟩, hnodes⟩ := forall_mem_cons.1 hnodes
    exact finds_append.2 ⟨argumentLines_finds hresolved (hnode _ _ _), ih hnodes _ _⟩

theorem layout_finds {id : Nat} (n : Node) (h : Resolved scopes (some id) n) :
    ∀ pos d x, Finds scopes (scopes id) (n.layout scopes pos d x) := by
  induction n using induction_on_parts with
  | _ n ih =>
  have hparts : ∀ m ∈ n.parts, Resolved scopes (some id) m ∧
      ∀ pos d x, Finds scopes (scopes id) (m.layout scopes pos d x) :=
    fun m hm => ⟨h.part hm, ih m hm (h.part hm)⟩
  intro pos d x
  cases n with
  -- Nodes that mention something themselves.
  | program body scope => exact absurd h.self (by rintro ⟨⟩)
  | function name body scope => exact finds_cons.2 ⟨⟨body, scope, h.body rfl rfl, rfl⟩, finds_nil⟩
  | constantInt _ _ | constantText _ _ => exact finds_cons.2 ⟨finds_place h.self, finds_nil⟩
  | constantFloat value place =>
    obtain ⟨y, hy, -⟩ := h.self
    exact finds_cons.2 ⟨finds_place hy, finds_nil⟩
  | interpolation text fillers place =>
    simp only [layout, finds_append, finds_cons]
    exact ⟨layoutAll_finds (fun m hm => (hparts m hm).2) _ _ _ _, finds_place h.self.1, trivial,
      finds_nil⟩
  | «variable» name slot => exact finds_cons.2 ⟨h.self, finds_nil⟩
  | assignment name slot right operator post =>
    have hright := (hparts right (mem_singleton_self _)).2
    have hslot : SlotIn (scopes id) name slot := h.self
    simp only [layout, finds_append, finds_cons]
    refine ⟨?_, hslot, lineIf_finds post trivial⟩
    split
    · exact hright _ _ _
    · exact finds_append.2 ⟨finds_append.2 ⟨finds_cons.2 ⟨hslot, lineIf_finds post trivial⟩,
        hright _ _ _⟩, operationLine_finds operator⟩
  -- Nodes of which only the parts do.
  | sourceElements functions nodes =>
    exact finds_append.2 ⟨layoutAll_finds (fun m hm => (hparts m (mem_append_left _ hm)).2) _ _ _ _,
      layoutBody_finds (fun m hm => (hparts m (mem_append_right _ hm)).2) _ _ _⟩
  | argumentList nodes => exact layoutArguments_finds hparts _ _ _
  | array nodes =>
    exact finds_append.2 ⟨layoutAll_finds (fun m hm => (hparts m hm).2) _ _ _ _,
      finds_cons.2 ⟨trivial, finds_nil⟩⟩
  | block nodes => exact layoutBlock_finds (fun m hm => (hparts m hm).2) _ _ _
  | member base index =>
    simp only [parts, forall_mem_cons] at hparts
    obtain ⟨⟨hresolved, hbase⟩, ⟨-, hindex⟩, -⟩ := hparts
    exact finds_append.2 ⟨hindex _ _ _, memberLines_finds hresolved (hbase _ _ _)⟩
  | memberAssignment base index right operator post =>
    simp only [parts, forall_mem_cons] at hparts
    obtain ⟨⟨hresolved, hbase⟩, ⟨-, hindex⟩, ⟨-, hright⟩, -⟩ := hparts
    simp only [layout, finds_append]
    refine ⟨⟨⟨?_, hindex _ _ _⟩, storeLines_finds hresolved (hbase _ _ _)⟩,
      lineIf_finds post trivial⟩
    split
    · exact hright _ _ _
    · simp only [finds_append]
      exact ⟨⟨⟨⟨hindex _ _ _, memberLines_finds hresolved (hbase _ _ _)⟩,
        lineIf_finds post trivial⟩, hright _ _ _⟩, operationLine_finds operator⟩
  | ifElse condition yes no =>
    simp only [parts, forall_mem_cons] at hparts
    simp [layout, hparts, orNullLines_finds (hparts.2.2.1.2 _ _ _), Instr.Finds]
  | foreachLoop subject key value body =>
    simp only [parts, forall_mem_cons] at hparts
    simp [layout, hparts, keyLines_finds hparts.2.1.1, targetLines_finds hparts.2.2.1.1, Instr.Finds]
  | returnValue expr =>
    have hexpr := (hparts expr (mem_singleton_self _)).2
    exact finds_append.2 ⟨orNullLines_finds (hexpr _ _ _), by simp [Instr.Finds]⟩
  | _ =>
    simp only [parts, forall_mem_cons] at hparts
    simp [layout, exitLines, hparts, Instr.Finds]

end Node

/-! ### Code -/

namespace Bytecode

theorem mem_of_mem_dropReturns {afterReturn : Bool} {is : List (Instr Nat Bytecode)}
    {i : Instr Nat Bytecode} (h : i ∈ dropReturns afterReturn is) : i ∈ is := by
  induction is generalizing afterReturn with
  | nil => exact h
  | cons first is ih =>
    rw [dropReturns] at h
    split at h
    · exact mem_cons_of_mem _ (ih h)
    · rcases mem_cons.1 h with rfl | h
      · exact mem_cons_self
      · exact mem_cons_of_mem _ (ih h)

/-- What the code declares is what a scope declares. -/
structure IsIn (s : Scope) (b : Bytecode) : Prop where
  symbols : b.symbols = s.symbols
  globals : b.globals = s.globals
  parameters : b.parameters = s.parameters
  superglobals : b.superglobals = s.superglobals
  constants : b.constants = s.constants.toArray

/-- Code of a body that is resolved in scopes that are sound, with what the
scope declares that the body belongs to. -/
def IsResolved (b : Bytecode) : Prop :=
  ∃ scopes id body, (∀ id, (scopes id).Sound) ∧ Resolved scopes (some id) body ∧
    b.IsIn (scopes id) ∧ b.listing.toList = (body.layout scopes 0 0 {}).map Line.instr ∧
    ∀ i ∈ b.code, i ∈ b.listing

variable {scopes : Nat → Scope} {id : Nat} {body : Node} {name : String} {b : Bytecode}

theorem isIn_of_assembleBody {s : Scope} {emit : Emit Unit}
    (h : Node.assembleBody name s emit = .ok b) : b.IsIn s := by
  unfold Node.assembleBody at h
  split at h
  case h_2 => cases h
  case h_1 =>
    obtain ⟨listing, -, h⟩ := ok_of_bind h
    obtain ⟨size, -, h⟩ := ok_of_bind h
    cases h
    exact ⟨rfl, rfl, rfl, rfl, rfl⟩

theorem isResolved_of_assembleBody (hscopes : ∀ id, (scopes id).Sound)
    (hbody : Resolved scopes (some id) body)
    (h : Node.assembleBody name (scopes id) (body.compile scopes) = .ok b) : b.IsResolved := by
  have hcode : b.IsCodeOf scopes body := ⟨name, scopes id, h⟩
  refine ⟨scopes, id, body, hscopes, hbody, isIn_of_assembleBody h, hcode.listing_eq, fun i hi => ?_⟩
  rw [← Array.mem_toList_iff, hcode.code_eq] at hi
  exact Array.mem_toList_iff.1 (mem_of_mem_dropReturns hi)

theorem isResolved_default : (default : Bytecode).IsResolved :=
  ⟨fun _ => { superglobals := [] }, 0, .absent, fun _ => ⟨nofun, nofun, nofun⟩,
    .of_parts rfl trivial nofun, ⟨rfl, rfl, rfl, rfl, rfl⟩, rfl, nofun⟩

theorem Comes.isResolved (hscopes : ∀ id, (scopes id).Sound) (h : b.Comes scopes name) :
    b.IsResolved := by
  obtain ⟨body, id, hbody, rfl⟩ := h
  unfold Node.functionCode
  split
  · exact isResolved_of_assembleBody hscopes hbody ‹_›
  · exact isResolved_default

namespace IsResolved

variable {i : Instr Nat Bytecode}

theorem finds (h : b.IsResolved) (hi : i ∈ b.listing) :
    ∃ scopes s, (∀ id, (scopes id).Sound) ∧ b.IsIn s ∧ i.Finds scopes s := by
  obtain ⟨scopes, id, body, hscopes, hbody, hscope, hlisting, -⟩ := h
  rw [← Array.mem_toList_iff, hlisting] at hi
  obtain ⟨line, hline, rfl⟩ := mem_map.1 hi
  exact ⟨scopes, scopes id, hscopes, hscope, Node.layout_finds body hbody 0 0 {} line hline⟩

theorem within (h : b.IsResolved) (hi : i ∈ b.listing) : i.Within b := by
  obtain ⟨scopes, s, -, hscope, hfinds⟩ := h.finds hi
  constructor
  · intro slot name hslot
    have hin : SlotIn s name slot := by
      cases i with
      | loadVar | loadRef | loadMemberVar | storeMemberVar | assign =>
        cases hslot
        exact hfinds
      | _ => cases hslot
    rw [slotOf, hscope.symbols]
    exact hin
  · intro place hplace
    cases i with
    | loadConstant own =>
      cases hplace
      rw [hscope.constants, size_toArray]
      exact hfinds
    | _ => cases hplace

theorem declared (h : b.IsResolved) {code : Bytecode}
    (hi : .declareFunction name code ∈ b.listing) : code.IsResolved := by
  obtain ⟨scopes, s, hscopes, -, hfinds⟩ := h.finds hi
  exact Comes.isResolved hscopes hfinds

theorem mem_listing (h : b.IsResolved) (hi : i ∈ b.code) : i ∈ b.listing := by
  obtain ⟨-, -, -, -, -, -, -, hcode⟩ := h
  exact hcode i hi

theorem literal (h : b.IsResolved) {v : Value} (hv : v ∈ b.constants) : v.isLiteral := by
  obtain ⟨scopes, id, -, hscopes, -, hscope, -⟩ := h
  rw [hscope.constants, mem_toArray] at hv
  exact (hscopes id).literal v hv

theorem global (h : b.IsResolved) {slot : Int} (hglobal : (name, slot) ∈ b.globals) :
    slot = b.slotOf name ∧ 0 ≤ slot := by
  obtain ⟨scopes, id, -, hscopes, -, hscope, -⟩ := h
  rw [hscope.globals] at hglobal
  obtain ⟨hslot, hge, -⟩ := (hscopes id).named.globals _ hglobal
  rw [slotOf, hscope.symbols]
  exact ⟨hslot, hge⟩

end IsResolved

theorem hereditary_isResolved : Hereditary IsResolved :=
  ⟨isResolved_default, fun h hi => h.declared (h.mem_listing hi)⟩

/-- Code and, in turn, the code of functions that it declares. -/
inductive Has : Bytecode → Bytecode → Prop where
  | self {b : Bytecode} : Has b b
  | declared {b c d : Bytecode} : c ∈ b.functions → Has c d → Has b d

theorem Has.isResolved {c : Bytecode} (h : b.Has c) (hb : b.IsResolved) : c.IsResolved := by
  induction h with
  | self => exact hb
  | declared hc _ ih =>
    obtain ⟨i, hi, hdeclares⟩ := mem_filterMap.1 hc
    refine ih ?_
    split at hdeclares <;> cases hdeclares
    exact hb.declared (Array.mem_toList_iff.1 hi)

end Bytecode

theorem Script.isResolved_of_compile {s : Script} (hs : s.root.Resolved s.scope none)
    (hsound : ∀ scope ∈ s.scopes, scope.Sound) {name : String} {b : Bytecode}
    (h : s.compile name = .ok b) : b.IsResolved := by
  obtain ⟨own, hown, h⟩ := ok_of_bind h
  unfold ownScope at hown
  split at hown <;> cases hown
  rename_i id hid
  have hscopes : ∀ id, (s.scope id).Sound := by
    intro id
    rw [scope, Array.getD_eq_getD_getElem?]
    cases hscope : s.scopes[id]? with
    | none => exact ⟨nofun, .new⟩
    | some scope => exact hsound scope (Array.mem_of_getElem? hscope)
  cases hroot : s.root with
  | program body scope =>
    rw [hroot] at hid h hs
    cases hid
    exact Bytecode.isResolved_of_assembleBody hscopes (hs.body rfl rfl) h
  | function own body scope =>
    rw [hroot] at hid h hs
    cases hid
    exact Bytecode.isResolved_of_assembleBody hscopes (.function (hs.body rfl rfl)) h
  | _ =>
    rw [hroot] at hid
    cases hid

/-! ### Runs -/

/-- The next instruction of an activation goes neither outside of the slots of
the frame nor outside of the pool of its code. -/
def Activation.InRange (a : Activation) : Prop :=
  ∀ i, a.frame.code.code[a.pos]? = some i →
    (∀ slot name, i.slot? = some (slot, name) → 0 ≤ slot ∧ slot < a.frame.slots.size) ∧
    ∀ place, i.place? = some place → 0 ≤ place ∧ place < a.frame.code.constants.size

theorem Activation.RunsOnly.inRange {a : Activation} (h : a.RunsOnly Bytecode.IsResolved) :
    a.InRange := by
  intro i hi
  have hwithin := h.code.within (h.code.mem_listing (Array.mem_of_getElem? hi))
  refine ⟨fun slot name hslot => ?_, hwithin.place⟩
  obtain ⟨-, hslot, hlt⟩ := hwithin.slot slot name hslot
  rw [h.size, Bytecode.symbolSize]
  omega

/-- In what is read from a tree with `main` at the root only, every node is
resolved in the scope that it belongs to, and variables of one scope share a
slot just if they share their name.  Code made from it mentions only slots and
places of its own scope, and in every run of it, in a world where all code is
such, no activation goes outside of its slots or its pool. -/
theorem places_resolved {tree : Tree} (hmain : tree.MainAtRoot) {s : Script}
    (hread : Script.ofTree tree = .ok s) :
    (∀ owner n, Node.Belongs none s.root owner n → n.Resolves s.scope owner) ∧
    (∀ owner name name' slot slot', Node.Belongs none s.root owner (.variable name slot) →
      Node.Belongs none s.root owner (.variable name' slot') → (slot = slot' ↔ name = name')) ∧
    ∀ name b, s.compile name = .ok b → (∀ c, b.Has c → ∀ i ∈ c.listing, i.Within c) ∧
      ∀ (world : World) interpreter start n m,
        (∀ code ∈ world.store.codes, code.IsResolved) →
        Machine.launch world interpreter b = .ok start →
        Machine.Course (fun _ => True) n start m → ∀ a ∈ m.current :: m.callers, a.InRange := by
  obtain ⟨hresolved, hliteral⟩ := Script.resolved hmain hread
  refine ⟨hresolved, fun owner name name' slot slot' h h' => ?_, fun name b hcompile => ?_⟩
  · obtain ⟨rfl, hslot, -⟩ := hresolved owner _ h
    obtain ⟨rfl, -, -⟩ := hresolved owner _ h'
    refine ⟨fun heq => ?_, fun heq => by rw [heq]⟩
    exact Option.some.inj (SymbolMap.lookup_inj hslot heq)
  · have hb := Script.isResolved_of_compile hresolved hliteral hcompile
    refine ⟨fun c hc i hi => (hc.isResolved hb).within hi, ?_⟩
    intro world interpreter start n m hworld hlaunch hcourse a ha
    have hm := (Machine.RunsOnly.launch hworld hb hlaunch).course Bytecode.hereditary_isResolved hcourse
    exact (hm.activations a ha).inRange

open Sample

/-- `function f($x, $y) { $z = "$y!"; return $z; } f(1, "a");` -/
def placesTree : Tree := programTree [
  declarationTree "f" [parameterTree "$x", parameterTree "$y"] [
    assignTree "$z" (doubleText "$y!"),
    .branch "returnstatement" [variableTree "$z"]],
  expressionTree (callTree "f" [numeral "1", doubleText "a"])]

/-- The function is about to store into the last of its slots, and it has as
many. -/
theorem places_resolved_lastSlot :
    ∃ s b start m, placesTree.MainAtRoot ∧ Script.ofTree placesTree = .ok s ∧
      s.compile "main" = .ok b ∧ Machine.launch {} {} b = .ok start ∧
      Machine.Course (fun _ => True) 8 start m ∧ m.callers.length = 1 ∧
      (m.current.frame.code.code[m.current.pos]?.bind Instr.slot?) = some (2, "$z") ∧
      2 < m.current.frame.slots.size := by
  obtain ⟨s, hread, b, hcompile, start, hlaunch, m, hcourse, hcallers, hslot⟩ :
      placesTree.ComesTo {} {} 8 fun _ _ m => m.callers.length = 1 ∧
      (m.current.frame.code.code[m.current.pos]?.bind Instr.slot?) = some (2, "$z") := by
    decide +kernel
  have hmain : placesTree.MainAtRoot := by decide
  obtain ⟨i, hi, hi'⟩ := Option.bind_eq_some_iff.1 hslot
  have hrange := ((places_resolved hmain hread).2.2 "main" b hcompile).2 {} {} start 8 m
    (fun code h => absurd h (Array.not_mem_empty code)) hlaunch hcourse m.current List.mem_cons_self
  have hlt := ((hrange i hi).1 2 "$z" hi').2
  exact ⟨s, b, start, m, hmain, hread, hcompile, hlaunch, hcourse, hcallers, hslot, by omega⟩

end PageScript
