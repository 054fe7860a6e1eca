/-
Texts under construction.

Joining two texts makes a text under construction, or goes on with the one on
its left, for all values that share it.  Nothing else touches such a text: it
only ever grows, by what the joins append that have it on their left.  So a
text that was made keeps what it said, and its length, just as long as all
that is appended to it is empty (`text_kept_iff`).
-/
import PageScript.Proofs.Policy
import PageScript.Proofs.Course
import PageScript.Sample.Grammar

namespace PageScript

open Exec Sample

/-! ### Instructions that join nothing -/

/-- Nothing is minded but the texts under construction, which stay. -/
def Policy.sameTexts (texts : Array String) : Policy where
  storable _ := True
  reachable _ := True
  pools _ now := now = texts
  codes _ := True

theorem Policy.lawful_sameTexts (texts : Array String) : (sameTexts texts).Lawful where
  plain _ _ := trivial
  copy _ _ := trivial
  refs _ := trivial
  newCell _ h := ⟨h, trivial⟩
  setCell _ h _ := h
  constants _ _ := trivial
  separate _ := .inl fun _ => trivial

theorem Policy.meets_sameTexts (ks : List Kind) (m : Machine) :
    (sameTexts m.world.store.builders).regime.Meets ks m where
  holds := {
    guards := guards_iff.2 {
      store := ⟨fun _ => trivial, fun _ => trivial, fun _ => trivial, rfl, fun _ => trivial⟩
      named := fun _ => trivial
      functions := fun _ => trivial
      superglobals := fun _ => .inl trivial }
    constants := fun _ => trivial
    slots := fun _ _ => .inl trivial }
  fits _ _ _ := (lawful_sameTexts _).complete.allows trivial

theorem Instr.exists_after {L : Type} (i : Instr L Bytecode) : ∃ ks, i.after [] = some ks := by
  refine Option.isSome_iff_exists.1 ?_
  cases i <;> simp [after, operation?]

theorem builders_of_exec {i : Instr Nat Bytecode} {flow : Flow Nat} {m m' : Machine}
    (hi : i ≠ .binary .concat) (h : i.exec.run m = .ok flow m') :
    m'.world.store.builders = m.world.store.builders := by
  obtain ⟨ks, hafter⟩ := i.exists_after
  have hobeys := Instr.obeys (A := True) (Policy.lawful_sameTexts m.world.store.builders).complete
    hafter (fun hconcat => absurd hconcat hi) fun _ _ _ => trivial
  obtain ⟨-, hmeets⟩ := hobeys m flow m' h trivial
  exact (hmeets (Policy.meets_sameTexts [] m) trivial).1.holds.guards.store.pools

/-! ### The one that joins -/

/-- A text that is as it was made: its length is that of what it says. -/
def Store.Fresh (s : Store) : Value → Prop
  | .text _ => True
  | .concat id n => n = (s.builder id).length
  | _ => False

/-- What joining two texts appends to a text: what is on the right, to the text
on the left.  If that one is not under construction, a new one is. -/
def Store.appended (s : Store) (left right : Value) : Value → String
  | .concat id _ =>
    let u := (s.textOf right).toOption.getD ""
    match left with
    | .text t => if id = s.builders.size then t ++ u else ""
    | .concat id' _ => if id = id' ∧ id < s.builders.size then u else ""
    | _ => ""
  | _ => ""

namespace Machine

def appends (m : Machine) (v : Value) : String :=
  match m.next?, m.current.frame.stack with
  | some (.binary .concat), right :: left :: _ => m.world.store.appended left right v
  | _, _ => ""

end Machine

namespace Store

variable {s t : Store} {left right v : Value}

theorem fresh_of_concatenate (h : s.concatenate left right = .ok (v, t)) : t.Fresh v := by
  unfold concatenate at h
  split at h
  · obtain ⟨u, -, h⟩ := ok_of_bind h
    cases h
    simp [Fresh, builder]
  · obtain ⟨u, -, h⟩ := ok_of_bind h
    cases h
    rfl
  · cases h

theorem builder_of_concatenate {id n : Nat} (h : s.concatenate left right = .ok (v, t)) :
    t.builder id = s.builder id ++ s.appended left right (.concat id n) := by
  unfold concatenate at h
  split at h
  · obtain ⟨u, hu, h⟩ := ok_of_bind h
    cases h
    by_cases hid : id = s.builders.size <;>
      simp [builder, appended, hu, Array.getElem?_push, hid, Except.toOption]
  · rename_i id' n'
    obtain ⟨u, hu, h⟩ := ok_of_bind h
    cases h
    by_cases hid : id = id' ∧ id < s.builders.size
    · obtain ⟨rfl, hid⟩ := hid
      simp [appendTo, builder, appended, hu, hid, Except.toOption]
    · -- Nothing is appended past the end of the pool.
      rcases eq_or_ne id' id with rfl | hne
      · have hid : ¬id' < s.builders.size := fun h => hid ⟨rfl, h⟩
        simp [appendTo, builder, appended, hid]
      · simp [appendTo, builder, appended, hid, hne]
  · cases h

end Store

def Machine.withStack (m : Machine) (s : List Value) : Machine :=
  { m with current := { m.current with frame := { m.current.frame with stack := s } } }

theorem Exec.ok_of_run_pop {m m' : Machine} {v : Value} (h : pop.run m = .ok v m') :
    ∃ rest, m.current.frame.stack = v :: rest ∧ m' = m.withStack rest := by
  obtain ⟨world, interpreter, ⟨⟨code, capacity, stack, slots⟩, pos⟩, callers, steps, fault⟩ := m
  cases stack <;> cases h
  exact ⟨_, rfl, rfl⟩

theorem Exec.ok_of_run_push {m m' : Machine} {v : Value} (h : (push v).run m = .ok () m') :
    m' = m.withStack (v :: m.current.frame.stack) := by
  obtain ⟨world, interpreter, ⟨⟨code, capacity, stack, slots⟩, pos⟩, callers, steps, fault⟩ := m
  obtain ⟨_, _, hget, h⟩ := ok_of_run_bind h
  cases hget
  obtain ⟨frame, m₁, hframe, h⟩ := ok_of_run_bind h
  unfold Frame.push at hframe
  split at hframe <;> cases hframe
  cases h
  rfl

theorem concatenate_of_exec {flow : Flow Nat} {m m' : Machine}
    (h : (Instr.binary .concat : Instr Nat Bytecode).exec.run m = .ok flow m') :
    ∃ left right rest v, m.current.frame.stack = right :: left :: rest ∧
      m.world.store.concatenate left right = .ok (v, m'.world.store) ∧
      m'.current.frame.stack = v :: rest ∧ flow = .next := by
  obtain ⟨right, m₁, hright, h⟩ := ok_of_run_bind h
  obtain ⟨left, m₂, hleft, h⟩ := ok_of_run_bind h
  obtain ⟨v, m₃, hv, h⟩ := ok_of_run_bind h
  obtain ⟨_, m₄, hpush, h⟩ := ok_of_run_bind h
  cases h
  obtain ⟨stack, hstack, rfl⟩ := ok_of_run_pop hright
  obtain ⟨rest, rfl, rfl⟩ := ok_of_run_pop hleft
  obtain rfl := ok_of_run_push hpush
  replace hv : (onStore (·.concatenate left right)).run (m.withStack rest) = .ok v m₃ := hv
  rw [run_onStore] at hv
  split at hv <;> cases hv
  exact ⟨left, right, rest, v, hstack, ‹_›, rfl, rfl⟩

/-! ### Steps and runs -/

namespace Machine

variable {m m' : Machine}

theorem Goes.world_eq {pos : Nat} {flow : Flow Nat} (h : Goes pos m flow m') :
    m'.world = m.world := by
  cases h <;> rfl

/-- A step leaves every text as it was, but for what it appends. -/
theorem builder_of_step (h : step.run m = .ok .running m') (id n : Nat) :
    m'.world.store.builder id = m.world.store.builder id ++ m.appends (.concat id n) := by
  obtain ⟨i, flow, m₁, hi, hexec, hgoes⟩ := step_goes h
  rw [hgoes.world_eq]
  by_cases hjoin : i = .binary .concat
  · subst hjoin
    obtain ⟨left, right, rest, v, hstack, hconcat, -⟩ := concatenate_of_exec hexec
    have hstack : m.current.frame.stack = right :: left :: rest := hstack
    rw [Store.builder_of_concatenate hconcat (n := n), appends, hi, hstack]
    rfl
  · have hnone : m.appends (.concat id n) = "" := by
      unfold appends
      rw [hi]
      split
      · simp_all
      · rfl
    rw [hnone, String.append_empty, Store.builder, builders_of_exec hjoin hexec]
    rfl

theorem fresh_of_join (h : step.run m = .ok .running m') (hi : m.next? = some (.binary .concat)) :
    ∃ v rest, m'.current.frame.stack = v :: rest ∧ m'.world.store.Fresh v := by
  obtain ⟨i, flow, m₁, hi', hexec, hgoes⟩ := step_goes h
  cases hi.symm.trans hi'
  obtain ⟨left, right, rest, v, -, hconcat, hstack, rfl⟩ := concatenate_of_exec hexec
  cases hgoes
  exact ⟨v, rest, hstack, Store.fresh_of_concatenate hconcat⟩

/-- Along a run a text only grows, and it stays the same just if no step
appends anything to it. -/
theorem builder_of_course {n : Nat} (h : Course (fun _ => True) n m m') (id k : Nat) :
    ∃ u, m'.world.store.builder id = m.world.store.builder id ++ u ∧
      (u = "" ↔ Course (fun m => m.appends (.concat id k) = "") n m m') := by
  induction h with
  | stay m => exact ⟨"", by simp, by simpa using .stay m⟩
  | @next n m m₁ m' _ hstep hcourse ih =>
    obtain ⟨u, hu, hiff⟩ := ih
    refine ⟨m.appends (.concat id k) ++ u, ?_, ?_⟩
    · rw [hu, builder_of_step hstep id k, String.append_assoc]
    · rw [String.append_eq_empty_iff, hiff]
      constructor
      · rintro ⟨hnone, hrest⟩
        exact .next hnone hstep hrest
      · intro h
        cases h with
        | next hnone hstep' hrest =>
          cases hstep.symm.trans hstep'
          exact ⟨hnone, hrest⟩

end Machine

/-- Whenever a text is as it was made, it goes on from there only by growing,
while its length stays; and it keeps what it said just if no step of the run
appends anything to it.  What a join makes is such a text. -/
theorem text_kept_iff {n : Nat} {m m' : Machine}
    (hcourse : Machine.Course (fun _ => True) n m m') :
    (∀ v, m.world.store.Fresh v → ∃ t u, m.world.store.textOf v = .ok t ∧
      m.world.store.lengthOf v = .ok t.length ∧ m'.world.store.textOf v = .ok (t ++ u) ∧
      m'.world.store.lengthOf v = .ok t.length ∧
      (u = "" ↔ Machine.Course (fun m => m.appends v = "") n m m')) ∧
    ∀ m'', Machine.step.run m' = .ok .running m'' → m'.next? = some (.binary .concat) →
      ∃ v rest, m''.current.frame.stack = v :: rest ∧ m''.world.store.Fresh v := by
  refine ⟨fun v hfresh => ?_, fun m'' hstep hjoin => Machine.fresh_of_join hstep hjoin⟩
  match v with
  | .text t =>
    have hquiet : ∀ m : Machine, m.appends (.text t) = "" := by
      intro m
      unfold Machine.appends
      split <;> rfl
    exact ⟨t, "", rfl, rfl, by simp [Store.textOf], rfl,
      by simpa [hquiet] using hcourse⟩
  | .concat id k =>
    obtain ⟨u, hu, hiff⟩ := Machine.builder_of_course hcourse id k
    obtain rfl : k = (m.world.store.builder id).length := hfresh
    exact ⟨_, u, rfl, rfl, congrArg Except.ok hu, rfl, hiff⟩

/-- `$a = "x" . "y"; $b = $a . "z"; print $a;` -/
def textTree : Tree := programTree [
  assignTree "$a" (operatorTree "stringjoinexpression" "." (doubleText "x") (doubleText "y")),
  assignTree "$b" (operatorTree "stringjoinexpression" "." (variableTree "$a") (doubleText "z")),
  printTree (variableTree "$a")]

/-- The second join appends to what the first one made. -/
theorem text_kept_iff_joined :
    ∃ s b start m m', Script.ofTree textTree = .ok s ∧ s.compile "main" = .ok b ∧
      Machine.launch {} {} b = .ok start ∧ Machine.Course (fun _ => True) 3 start m ∧
      m.world.store.Fresh (.concat 0 2) ∧ Machine.Course (fun _ => True) 6 m m' ∧
      ¬Machine.Course (fun m => m.appends (.concat 0 2) = "") 6 m m' := by
  obtain ⟨s, hread, b, hcompile, start, hlaunch, m, hcourse, hm, m', hrest, hm'⟩ :
      textTree.ComesTo {} {} 3 fun _ _ m => m.world.store.builder 0 = "xy" ∧
      ∃ m', Machine.Course (fun _ => True) 6 m m' ∧ m'.world.store.builder 0 = "xyz" := by
    decide +kernel
  have hfresh : m.world.store.Fresh (.concat 0 2) := by rw [Store.Fresh, hm]; decide
  refine ⟨s, b, start, m, m', hread, hcompile, hlaunch, hcourse, hfresh, hrest, fun hquiet => ?_⟩
  obtain ⟨t, u, ht, -, htu, -, hiff⟩ := (text_kept_iff hrest).1 _ hfresh
  obtain rfl : "xy" = t := Except.ok.inj (by rw [← ht, Store.textOf, hm])
  rw [hiff.2 hquiet, Store.textOf, hm'] at htu
  exact absurd (Except.ok.inj htu) (by decide)

/-- So the first text changes under the variable that holds it, and no longer
has its length. -/
theorem join_changes_its_left :
    ∃ s b start m m', Script.ofTree textTree = .ok s ∧ s.compile "main" = .ok b ∧
      Machine.launch {} {} b = .ok start ∧ Machine.Course (fun _ => True) 4 start m ∧
      m.current.frame.slots.toList.head? = some (.concat 0 2) ∧
      m.world.store.textOf (.concat 0 2) = .ok "xy" ∧ Machine.Course (fun _ => True) 8 m m' ∧
      m'.current.frame.slots.toList.head? = some (.concat 0 2) ∧
      m'.world.store.textOf (.concat 0 2) = .ok "xyz" ∧
      m'.world.store.lengthOf (.concat 0 2) = .ok 2 ∧ m'.world.written = "xyz" := by
  obtain ⟨s, hread, b, hcompile, start, hlaunch, m, hcourse, hslot, htext, m', hrest⟩ :
      textTree.ComesTo {} {} 4 fun _ _ m =>
      m.current.frame.slots.toList.head? = some (.concat 0 2) ∧
      m.world.store.textOf (.concat 0 2) = .ok "xy" ∧
      ∃ m', Machine.Course (fun _ => True) 8 m m' ∧
        m'.current.frame.slots.toList.head? = some (.concat 0 2) ∧
        m'.world.store.textOf (.concat 0 2) = .ok "xyz" ∧
        m'.world.store.lengthOf (.concat 0 2) = .ok 2 ∧ m'.world.written = "xyz" := by decide +kernel
  exact ⟨s, b, start, m, m', hread, hcompile, hlaunch, hcourse, hslot, htext, hrest⟩

end PageScript
