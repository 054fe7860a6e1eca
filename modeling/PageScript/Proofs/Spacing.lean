/-
Where a `RETURN` follows a `RETURN`.

From the code of a body each `RETURN` that directly follows a `RETURN` is
left out.  In the code of a tidy node there is none: a value comes before
every `RETURN`.  So it can only be the `RETURN` that is added behind the last
statement, and only if that statement ends with one.
-/
import PageScript.Proofs.Emission
import PageScript.Proofs.Tidy

namespace PageScript

open List

/-- No `RETURN` follows a `RETURN`, the first line coming after one or not. -/
def Spaced (after : Bool) : List Line → Prop
  | [] => True
  | line :: lines => ¬(after ∧ line.instr.isReturn) ∧ Spaced line.instr.isReturn lines

/-- Whether the last line is a `RETURN`; without a line, whether one came
before. -/
def endsReturn (after : Bool) : List Line → Bool
  | [] => after
  | line :: lines => endsReturn line.instr.isReturn lines

section

variable {after : Bool} {line : Line} {xs ys : List Line}

@[simp] theorem spaced_nil : Spaced after [] := trivial

@[simp] theorem spaced_cons : Spaced after (line :: xs) ↔
    ¬(after ∧ line.instr.isReturn) ∧ Spaced line.instr.isReturn xs := Iff.rfl

@[simp] theorem endsReturn_nil : endsReturn after [] = after := rfl

@[simp] theorem endsReturn_cons :
    endsReturn after (line :: xs) = endsReturn line.instr.isReturn xs := rfl

@[simp] theorem endsReturn_append :
    endsReturn after (xs ++ ys) = endsReturn (endsReturn after xs) ys := by
  induction xs generalizing after with
  | nil => rfl
  | cons x xs ih => exact ih

@[simp] theorem spaced_append :
    Spaced after (xs ++ ys) ↔ Spaced after xs ∧ Spaced (endsReturn after xs) ys := by
  induction xs generalizing after with
  | nil => simp
  | cons x xs ih => simp [ih, and_assoc]

theorem Spaced.dropReturns_append (h : Spaced after xs) (is : List (Instr Nat Bytecode)) :
    Bytecode.dropReturns after (xs.map Line.instr ++ is)
      = xs.map Line.instr ++ Bytecode.dropReturns (endsReturn after xs) is := by
  induction xs generalizing after with
  | nil => rfl
  | cons x xs ih =>
    obtain ⟨hx, hxs⟩ := h
    rw [map_cons, cons_append, Bytecode.dropReturns, ih hxs, if_neg]
    · rfl
    · rwa [Bool.and_eq_true, and_comm]

theorem Spaced.dropReturns_eq (h : Spaced after xs) :
    Bytecode.dropReturns after (xs.map Line.instr) = xs.map Line.instr := by
  simpa [Bytecode.dropReturns] using h.dropReturns_append []

theorem Spaced.dropReturns_snoc (h : Spaced after xs) :
    Bytecode.dropReturns after (xs.map Line.instr ++ [.returnTop])
      = xs.map Line.instr ++ (if endsReturn after xs then [] else [.returnTop]) := by
  rw [h.dropReturns_append]
  cases endsReturn after xs <;> rfl

end

namespace Node

/-- Where nothing ends with a `RETURN`. -/
def Rules.Shut (r : Rules) (p : Place) : Prop :=
  p = .inner ∨ r.returns = false ∧ r.globals = false

/-- In the code of a node no `RETURN` follows one, whatever comes before it;
and where nothing ends with a `RETURN`, it does not. -/
structure Calm (r : Rules) (scopes : Nat → Scope) (p : Place) (node : Node) : Prop where
  spaced : ∀ (pos d : Nat) (x : Exits) (after : Bool), Spaced after (layout scopes pos d x node)
  last : Rules.Shut r p → ∀ (pos d : Nat) (x : Exits) (after : Bool),
    endsReturn after (layout scopes pos d x node) = false

section

variable {r : Rules} {scopes : Nat → Scope} {p : Place} {node base key target : Node}
  {nodes : List Node} {pos d d' step : Nat} {x : Exits} {after : Bool}

theorem Calm.open (h : Calm r scopes .inner node) :
    endsReturn after (layout scopes pos d x node) = false := h.last (.inl rfl) pos d x after

theorem spaced_layoutAll (h : ∀ n ∈ nodes, Calm r scopes .inner n) :
    Spaced after (layoutAll scopes pos d step x nodes) := by
  induction nodes generalizing pos d after with
  | nil => trivial
  | cons node nodes ih =>
    rw [layoutAll, spaced_append]
    exact ⟨(h node mem_cons_self).spaced _ _ _ _, ih fun n hn => h n (mem_cons_of_mem _ hn)⟩

theorem spaced_layoutArguments (h : ∀ n ∈ nodes, Calm r scopes .inner n) :
    Spaced after (layoutArguments scopes pos d x nodes) := by
  induction nodes generalizing pos d after with
  | nil => trivial
  | cons node nodes ih =>
    rw [layoutArguments, spaced_append]
    refine ⟨?_, ih fun n hn => h n (mem_cons_of_mem _ hn)⟩
    cases node with
    | «variable» name slot => simp [argumentLines, Instr.isReturn]
    | _ => exact (h _ mem_cons_self).spaced pos d x after

theorem calm_block (h : ∀ n ∈ nodes, Calm r scopes p n) : Calm r scopes p (.block nodes) := by
  induction nodes with
  | nil => constructor <;> simp [layout, layoutBlock, Instr.isReturn]
  | cons node nodes ih =>
    have hnode := h node mem_cons_self
    cases nodes with
    | nil => exact ⟨hnode.spaced, hnode.last⟩
    | cons next nodes =>
      have hrest := ih fun n hn => h n (mem_cons_of_mem _ hn)
      constructor
      · intro pos d x after
        have := hrest.spaced (pos + width node + 1) d x
        simp only [layout, layoutBlock] at this ⊢
        simp [this, hnode.spaced, Instr.isReturn]
      · intro hshut pos d x after
        have := hrest.last hshut (pos + width node + 1) d x
        simp only [layout, layoutBlock] at this ⊢
        simp [this]

theorem spaced_memberLines (h : Calm r scopes .inner base) :
    Spaced after (memberLines base (layout scopes pos d x base) d') := by
  cases base with
  | «variable» name slot => simp [memberLines, Instr.isReturn]
  | _ => simp [memberLines, h.spaced, Instr.isReturn]

theorem spaced_storeLines (h : Calm r scopes .inner base) :
    Spaced after (storeLines base (layout scopes pos d x base) d') := by
  cases base with
  | «variable» name slot => simp [storeLines, Instr.isReturn]
  | _ => simp [storeLines, h.spaced, Instr.isReturn]

@[simp] theorem spaced_targetLines : Spaced after (targetLines target d) := by
  cases target <;> simp [targetLines, Instr.isReturn]

@[simp] theorem spaced_keyLines : Spaced after (keyLines key d) := by
  cases key <;> simp [keyLines, Instr.isReturn]

@[simp] theorem endsReturn_memberLines (lines : List Line) :
    endsReturn after (memberLines base lines d) = false := by
  cases base <;> simp [memberLines, Instr.isReturn]

@[simp] theorem endsReturn_storeLines (lines : List Line) :
    endsReturn after (storeLines base lines d) = false := by
  cases base <;> simp [storeLines, Instr.isReturn]

@[simp] theorem isReturn_operationLine (operator : String) (d : Nat) :
    (operationLine operator d).instr.isReturn = false := by
  unfold operationLine operation?
  split <;> rfl

theorem spaced_lineIf {condition : Bool} {i : Instr Nat Bytecode} (hi : i.isReturn = false) :
    Spaced after (lineIf condition i d) := by
  cases condition <;> simp [lineIf, hi]

theorem spaced_orNullLines (h : node = .absent ∨ Calm r scopes p node) :
    Spaced after (orNullLines node (layout scopes pos d x node) d) := by
  cases node with
  | absent => simp [orNullLines, Instr.isReturn]
  | _ =>
    rcases h with h | h
    · cases h
    · exact h.spaced pos d x after

theorem endsReturn_orNullLines (h : node = .absent ∨ Calm r scopes p node)
    (hshut : Rules.Shut r p) :
    endsReturn after (orNullLines node (layout scopes pos d x node) d) = false := by
  cases node with
  | absent => rfl
  | _ =>
    rcases h with h | h
    · cases h
    · exact h.last hshut pos d x after

theorem calm_assignment {right : Node} {name operator : String} {slot : Int} {post : Bool}
    (h : ∀ (pos d : Nat) (x : Exits) (after : Bool), Spaced after (layout scopes pos d x right)) :
    Calm r scopes p (.assignment name slot right operator post) := by
  constructor <;> by_cases hoperator : operator = "=" <;> cases post <;>
    simp [layout, hoperator, lineIf, h] <;> simp [Instr.isReturn]

theorem calm_memberAssignment {right index : Node} {operator : String} {post : Bool}
    (h : ∀ (pos d : Nat) (x : Exits) (after : Bool), Spaced after (layout scopes pos d x right))
    (hindex : Calm r scopes .inner index) (hbase : Calm r scopes .inner base) :
    Calm r scopes p (.memberAssignment base index right operator post) := by
  constructor <;> by_cases hoperator : operator = "=" <;> cases post <;>
    simp [layout, hoperator, lineIf, h, hindex.spaced, spaced_memberLines hbase,
      spaced_storeLines hbase] <;> simp [Instr.isReturn]

theorem calm_ifElse {condition thenBranch elseBranch : Node}
    (hcondition : Calm r scopes .inner condition) (hthen : Calm r scopes p thenBranch)
    (helse : elseBranch = .absent ∨ Calm r scopes p elseBranch) :
    Calm r scopes p (.ifElse condition thenBranch elseBranch) where
  spaced pos d x after := by
    simp [layout, hcondition.spaced, hcondition.open, hthen.spaced, spaced_orNullLines helse,
      Instr.isReturn]
  last hshut pos d x after := by simp [layout, endsReturn_orNullLines helse hshut]

theorem spaced_returnValue {expr : Node} (h : expr = .absent ∨ Calm r scopes .inner expr) :
    Spaced after (layout scopes pos d x (.returnValue expr)) := by
  simp [layout, spaced_orNullLines h, endsReturn_orNullLines h (.inl rfl)]

end

theorem Tidy.calm {r : Rules} {scopes : Nat → Scope} {p : Place} {node : Node}
    (h : Tidy r p node) : Calm r scopes p node := by
  induction h with
  | exprStatement _ ih => exact ⟨ih.spaced, fun _ _ _ _ _ => ih.open⟩
  | call _ _ ihs ih =>
    constructor <;>
      simp [layout, spaced_layoutArguments ihs, ih.spaced, Instr.isReturn]
  | array _ ihs => constructor <;> simp [layout, spaced_layoutAll ihs, Instr.isReturn]
  | member _ _ ihi ihb =>
    constructor <;> simp [layout, ihi.spaced, spaced_memberLines ihb]
  | interpolation _ ihs => constructor <;> simp [layout, spaced_layoutAll ihs, Instr.isReturn]
  | assignment _ _ _ ih => exact calm_assignment ih.spaced
  | step _ => exact calm_assignment fun _ _ _ _ => trivial
  | memberAssignment _ _ _ _ _ ihr ihi ihb => exact calm_memberAssignment ihr.spaced ihi ihb
  | memberStep _ _ _ ihi ihb => exact calm_memberAssignment (fun _ _ _ _ => trivial) ihi ihb
  | ifElse _ _ _ ihc iht ihe => exact calm_ifElse ihc iht (.inr ihe)
  | ifThen _ _ ihc iht => exact calm_ifElse ihc iht (.inl rfl)
  | whileLoop _ _ ihc ihb =>
    constructor <;> simp [layout, ihc.spaced, ihb.spaced, Instr.isReturn]
  | forLoop _ _ _ _ ihs ihc ihu ihb =>
    constructor <;> simp [layout, ihs.spaced, ihc.spaced, ihu.spaced, ihb.spaced, Instr.isReturn]
  | foreachLoop _ _ _ _ ihs ihb =>
    constructor <;> simp [layout, ihs.spaced, ihb.spaced, Instr.isReturn]
  | print _ ih | not _ ih => constructor <;> simp [layout, ih.spaced, Instr.isReturn]
  | block _ ihs => exact calm_block ihs
  | binary _ _ ihl ihr =>
    constructor <;> simp [layout, ihl.spaced, ihr.spaced, Instr.isReturn]
  | both _ _ ihl ihr | either _ _ ihl ihr =>
    constructor <;> simp [layout, ihl.spaced, ihr.spaced, ihr.open, Instr.isReturn]
  | returnNothing h =>
    exact ⟨fun _ _ _ _ => spaced_returnValue (r := r) (.inl rfl),
      fun hshut => by simp [Rules.Shut, h] at hshut⟩
  | returnValue h _ ih =>
    exact ⟨fun _ _ _ _ => spaced_returnValue (.inr ih), fun hshut => by simp [Rules.Shut, h] at hshut⟩
  | global h => exact ⟨fun _ _ _ _ => trivial, fun hshut => by simp [Rules.Shut, h] at hshut⟩
  | breakLoop _ | continueLoop _ =>
    constructor <;> simp [layout, exitLines, Instr.isReturn]
  | _ => constructor <;> simp [layout, Instr.isReturn]

/-! ### Bodies -/

section

variable {r : Rules} {scopes : Nat → Scope} {pos d step : Nat} {x : Exits} {node body : Node}
  {functions nodes : List Node} {after : Bool}

theorem TidyElement.spaced (h : TidyElement r node) :
    Spaced after (layout scopes pos d x node) := by
  cases h with
  | statement h => exact h.calm.spaced pos d x after
  | returnNothing => exact spaced_returnValue (r := r) (.inl rfl)
  | returnValue h => exact spaced_returnValue (.inr h.calm)

theorem TidyElement.last (h : TidyElement r node) (hreturn : node.isReturn = false)
    (hshut : r.returns = false ∧ r.globals = false) :
    endsReturn after (layout scopes pos d x node) = false := by
  cases h with
  | statement h => exact h.calm.last (.inr hshut) pos d x after
  | returnNothing | returnValue => cases hreturn

theorem layoutBody_spaced (scopes : Nat → Scope) (h : ∀ n ∈ nodes, TidyElement r n)
    (pos : Nat) :
    ∃ init tail, layoutBody scopes pos d x nodes = init ++ tail ∧ (∀ after, Spaced after init) ∧
      (tail = [] ∨ tail = [⟨.returnTop, d + 1, .plain⟩] ∧
        (r.returns = false ∧ r.globals = false → ∀ after, endsReturn after init = false)) := by
  induction nodes generalizing pos with
  | nil => exact ⟨_, [], (append_nil _).symm, by simp [layoutBody, Instr.isReturn], .inl rfl⟩
  | cons node nodes ih =>
    have hnode := h node mem_cons_self
    cases nodes with
    | nil =>
      refine ⟨_, _, rfl, fun _ => hnode.spaced, ?_⟩
      cases hreturn : node.isReturn with
      | true => exact .inl rfl
      | false => exact .inr ⟨rfl, fun hshut _ => hnode.last hreturn hshut⟩
    | cons next nodes =>
      obtain ⟨init, tail, hlines, hspaced, htail⟩ :=
        ih (fun n hn => h n (mem_cons_of_mem _ hn))
          (pos + width node + (!node.isReturn).toNat)
      refine ⟨layout scopes pos d x node ++ lineIf (!node.isReturn) .discardTop (d + 1) ++ init,
        tail, ?_, fun after => ?_, ?_⟩
      · rw [layoutBody_cons, hlines, append_assoc _ init tail]
      · rw [spaced_append, spaced_append]
        exact ⟨⟨hnode.spaced, spaced_lineIf rfl⟩, hspaced _⟩
      · refine htail.imp_right fun ⟨htail, hlast⟩ => ⟨htail, fun hshut after => ?_⟩
        rw [endsReturn_append]
        exact hlast hshut _

theorem spaced_functions (h : ∀ f ∈ functions, ∃ name body scope, f = .function name body scope) :
    Spaced after (layoutAll scopes pos d step x functions) := by
  induction functions generalizing pos d after with
  | nil => trivial
  | cons f functions ih =>
    obtain ⟨name, body, scope, rfl⟩ := h f mem_cons_self
    refine ⟨(nomatch ·.2), ?_⟩
    exact ih fun f hf => h f (mem_cons_of_mem _ hf)

/-- In the lines of a body only the last one may be a `RETURN` that follows
one, and only if there is a `return` inside a statement. -/
theorem TidyBody.spaced (h : TidyBody r body) (scopes : Nat → Scope) :
    ∃ init tail, layout scopes 0 0 {} body = init ++ tail ∧ Spaced false init ∧
      (tail = [] ∨ tail = [⟨.returnTop, 1, .plain⟩] ∧
        (r.returns = false ∧ r.globals = false → endsReturn false init = false)) := by
  cases h with
  | nothing =>
    exact ⟨_, [], (append_nil _).symm, spaced_returnValue (r := r) (.inl rfl), .inl rfl⟩
  | @elements functions nodes hfunctions _ hnodes =>
    obtain ⟨init, tail, hlines, hspaced, htail⟩ :=
      layoutBody_spaced scopes hnodes (0 + widthAll functions)
    refine ⟨layoutAll scopes 0 0 0 {} functions ++ init, tail, ?_, ?_, ?_⟩
    · rw [layout, hlines, append_assoc]
    · exact spaced_append.2 ⟨spaced_functions hfunctions, hspaced _⟩
    · refine htail.imp_right fun ⟨htail, hlast⟩ => ⟨htail, fun hshut => ?_⟩
      rw [endsReturn_append]
      exact hlast hshut _

end

end Node

namespace Bytecode

variable {r : Rules} {scopes : Nat → Scope} {body : Node} {b : Bytecode}

/-- The code of a tidy body is its listing, unless the last statement ends
with a `RETURN` of its own: then it is the listing without the last
`RETURN`. -/
theorem IsCodeOf.code_cases (h : b.IsCodeOf scopes body) (hbody : body.TidyBody r) :
    b.code.toList = b.listing.toList ∨ ∃ init,
      body.layout scopes 0 0 {} = init ++ [⟨.returnTop, 1, .plain⟩] ∧
      endsReturn false init = true ∧ b.code.toList = init.map Line.instr ∧
      ¬(r.returns = false ∧ r.globals = false) := by
  obtain ⟨init, tail, hlines, hspaced, rfl | ⟨rfl, hlast⟩⟩ := hbody.spaced scopes
  · left
    rw [append_nil] at hlines
    rw [h.code_eq, h.listing_eq, hlines, hspaced.dropReturns_eq]
  · have hcode : b.code.toList
        = init.map Line.instr ++ (if endsReturn false init then [] else [.returnTop]) := by
      rw [h.code_eq, h.listing_eq, hlines, map_append]
      exact hspaced.dropReturns_snoc
    cases hends : endsReturn false init with
    | false =>
      left
      rw [hcode, hends, h.listing_eq, hlines, map_append]
      rfl
    | true =>
      right
      rw [hends, if_pos rfl, append_nil] at hcode
      refine ⟨init, hlines, hends, hcode, fun hshut => ?_⟩
      rw [hlast hshut] at hends
      cases hends

theorem IsCodeOf.code_eq_listing (h : b.IsCodeOf scopes body) (hbody : body.TidyBody r)
    (hreturns : r.returns = false) (hglobals : r.globals = false) :
    b.code.toList = b.listing.toList := by
  rcases h.code_cases hbody with hcode | ⟨_, -, -, -, hnot⟩
  · exact hcode
  · exact absurd ⟨hreturns, hglobals⟩ hnot

theorem IsCodeOf.exists_line (h : b.IsCodeOf scopes body) (hbody : body.TidyBody r) {pos : Nat}
    {i : Instr Nat Bytecode} (hi : b.code[pos]? = some i) :
    ∃ line, (body.layout scopes 0 0 {})[pos]? = some line ∧ line.instr = i := by
  have hlist : b.listing.toList[pos]? = some i := by
    rw [← Array.getElem?_toList] at hi
    rcases h.code_cases hbody with hcode | ⟨init, hlines, -, hcode, -⟩
    · rwa [← hcode]
    · rw [h.listing_eq, hlines, map_append, ← hcode]
      exact (getElem?_append_left (List.getElem?_eq_some_iff.1 hi).1).trans hi
  rw [h.listing_eq, getElem?_map, Option.map_eq_some_iff] at hlist
  exact hlist

end Bytecode

end PageScript
