/-
Arguments of native functions.

A native function looks at the values its arguments stand for, so it does not
matter whether an argument is a value or a reference to a cell with this value
(`Native.run_call_congr`).  There is one exception.  The template of `printf` has
to be a text itself, and a reference to a text is none; so `printf` fails whenever
its template is in a variable (`native_call_eq`).
-/
import PageScript.Proofs.Transport
import PageScript.Proofs.Texts

namespace PageScript

namespace Exec

variable {α β : Type} {m : Machine} {args args' : List Value}

theorem run_bind_congr {x x' : Exec α} {k k' : α → Exec β} (hx : x.run m = x'.run m)
    (hk : ∀ a m', x.run m = .ok a m' → (k a).run m' = (k' a).run m') :
    (x >>= k).run m = (x' >>= k').run m := by
  rw [EStateM.run_bind, EStateM.run_bind, ← hx]
  cases h : x.run m with
  | error e m' => rfl
  | ok a m' => exact hk a m' h

/-- So many arguments, which stand for the same values. -/
abbrev Alike (s : Store) : List Value → List Value → Prop :=
  List.Forall₂ fun v w => s.valueOf v = s.valueOf w

theorem Alike.at {s : Store} {v w : Value} (h : s.valueOf v = s.valueOf w) (before after : List Value) :
    Alike s (before ++ v :: after) (before ++ w :: after) := by
  induction before with
  | nil => exact .cons h (List.forall₂_same.2 fun _ _ => rfl)
  | cons b before ih => exact .cons rfl ih

theorem argumentIn_congr {s : Store} (h : Alike s args args') (i : Nat) :
    Native.argumentIn s args i = Native.argumentIn s args' i := by
  induction h generalizing i with
  | nil => rfl
  | cons hv _ ih =>
    cases i with
    | zero => exact hv
    | succ i => exact ih i

theorem run_argumentValue_bind {k k' : Value → Exec β} (h : Alike m.world.store args args') (i : Nat)
    (hk : ∀ v, (k v).run m = (k' v).run m) :
    (argumentValue args i >>= k).run m = (argumentValue args' i >>= k').run m := by
  simp only [EStateM.run_bind, Native.run_argumentValue, argumentIn_congr h]
  cases Native.argumentIn m.world.store args' i with
  | error e => rfl
  | ok v => exact hk v

theorem run_check_bind {k k' : Unit → Exec β} (b : Bool) (hk : (k ()).run m = (k' ()).run m) :
    (check b >>= k).run m = (check b >>= k').run m := by
  cases b with
  | false => rfl
  | true => exact hk

theorem run_valuesOf_congr (h : Alike m.world.store args args') :
    (valuesOf args).run m = (valuesOf args').run m := by
  induction h with
  | nil => rfl
  | @cons v w vs ws hv hvs ih =>
    simp only [valuesOf, EStateM.run_bind, Native.run_fromStore, hv]
    cases m.world.store.valueOf w with
    | error e => rfl
    | ok v => simp only [ih]

end Exec

namespace Native

open Exec

variable {m : Machine} {f : Native} {args args' : List Value}

theorem run_call_congr (h : Alike m.world.store args args')
    (htemplate : f = .printf → args[0]? = args'[0]?) :
    (f.call args).run m = (f.call args').run m := by
  cases f with
  | define =>
    exact run_argumentValue_bind h 0 fun _ => run_check_bind _ (run_argumentValue_bind h 1 fun _ => rfl)
  | strlen | printR | dechex => exact run_argumentValue_bind h 0 fun _ => rfl
  | strRepeat | range =>
    exact run_argumentValue_bind h 0 fun _ => run_argumentValue_bind h 1 fun _ => rfl
  | numberFormat =>
    exact run_argumentValue_bind h 0 fun _ => run_check_bind _ (run_argumentValue_bind h 1 fun _ => rfl)
  | printf =>
    cases h with
    | nil => rfl
    | cons _ hrest =>
      cases htemplate rfl
      exact run_check_bind _ (run_bind_congr (run_valuesOf_congr hrest) fun _ _ _ => rfl)
  | getTimeOfDay | obStart | obEndClean | obFlush => rfl

theorem run_call_ref {id : Nat} {v : Value} (hcell : m.world.store.ref id = some v)
    (hscript : v.isScript) (hplain : v.isRef = false) (before after : List Value) :
    (f.call (before ++ .ref id :: after)).run m
      = if f = .printf ∧ before = [] then .error .checkFailed m
        else (f.call (before ++ v :: after)).run m := by
  have hvalue : m.world.store.valueOf (.ref id) = m.world.store.valueOf v := by
    rw [Store.valueOf, hcell]
    cases v with
    | unset | datum => cases hscript
    | ref => cases hplain
    | _ => rfl
  split
  · rename_i h
    obtain ⟨rfl, rfl⟩ := h
    rfl
  · rename_i h
    refine run_call_congr (.at hvalue before after) fun hf => ?_
    cases before with
    | nil => exact absurd ⟨hf, rfl⟩ h
    | cons => rfl

end Native

namespace Machine

def calling (m : Machine) (f : Native) (args : List Value) : Machine :=
  m.withStack (.native f :: (args.reverse ++ m.current.frame.stack))

theorem step_calling {m : Machine} {f : Native} {args : List Value}
    (hnext : m.next? = some (.call args.length)) :
    step.run (m.calling f args) = match (f.call args >>= deliver).run m.tick with
      | .ok flow m' => (proceed m.current.pos flow).run m'
      | .error e m' => .error e m' := by
  have hexec : (Instr.call (L := Nat) args.length).exec.run (m.calling f args).tick
      = (f.call args >>= deliver).run m.tick := by
    rw [tick_eq, tick_eq m]
    exact Instr.exec_call_native rfl (Int.toNat_natCast _).symm
  rw [step_of_some (m := m.calling f args) hnext, hexec]
  rfl

end Machine

/-- What a native function does with a reference to a cell: the same as with the
value in it, except that a reference for the template of `printf` fails.  The step
that makes the call does so too.  A value that is no text fails as a template like
a reference, so a difference is made for texts only. -/
theorem native_call_eq {m : Machine} {id : Nat} {v : Value} (hcell : m.world.store.ref id = some v)
    (hscript : v.isScript) (hplain : v.isRef = false) (f : Native) (before after : List Value) :
    (f.call (before ++ .ref id :: after)).run m
      = (if f = .printf ∧ before = [] then .error .checkFailed m
        else (f.call (before ++ v :: after)).run m) ∧
    (m.next? = some (.call (before ++ v :: after).length) →
      Machine.step.run (m.calling f (before ++ .ref id :: after))
        = if f = .printf ∧ before = [] then .error .checkFailed m.tick
          else Machine.step.run (m.calling f (before ++ v :: after))) ∧
    (v.isText = false → (Native.printf.call (v :: after)).run m = .error .checkFailed m) := by
  refine ⟨Native.run_call_ref hcell hscript hplain before after, fun hnext => ?_, fun htext => ?_⟩
  · have hnext' : m.next? = some (.call (before ++ .ref id :: after).length) := by
      rw [hnext, List.length_append, List.length_append, List.length_cons, List.length_cons]
    have hrun := Native.run_call_ref (m := m.tick) (f := f) hcell hscript hplain before after
    rw [Machine.step_calling hnext', Machine.step_calling hnext, EStateM.run_bind, hrun,
      EStateM.run_bind]
    by_cases h : f = .printf ∧ before = []
    · rw [if_pos h, if_pos h]
    · rw [if_neg h, if_neg h]
  · show (Exec.check v.isText >>= _).run m = _
    rw [htext]
    rfl

/-- A machine before a call with one argument, which has a text in a cell. -/
def lendingMachine : Machine where
  world := { store := { refs := #[some (.text "abc")] } }
  interpreter := {}
  current :=
    { frame := { code := { (default : Bytecode) with code := #[.call 1] }, capacity := 2, slots := #[] } }

/-- The length of a text in a cell. -/
theorem native_call_eq_strlen :
    (Native.strlen.call [.ref 0]).run lendingMachine = .ok (.int 3) lendingMachine ∧
    Machine.step.run (lendingMachine.calling .strlen [.ref 0])
      = Machine.step.run (lendingMachine.calling .strlen [.text "abc"]) := by
  have hcell : lendingMachine.world.store.ref 0 = some (.text "abc") := rfl
  obtain ⟨hcall, hstep, -⟩ := native_call_eq hcell rfl rfl .strlen [] []
  exact ⟨hcall, hstep rfl⟩

/-- `printf` fails on a text in a cell, and prints it if it is the argument itself. -/
theorem printf_unlike :
    (Native.printf.call [.ref 0]).run lendingMachine = .error .checkFailed lendingMachine ∧
    ∃ m, (Native.printf.call [.text "abc"]).run lendingMachine = .ok .null m ∧
      m.world.written = "abc" := by
  have hformat : lendingMachine.world.store.format "abc" [] = .ok ("abc", 0) := by decide +kernel
  have hcall : (Native.printf.call [.text "abc"]).run lendingMachine
      = (ofExcept (lendingMachine.world.store.format "abc" []) >>= fun p => do
          Exec.output p.1
          return Value.null).run lendingMachine := rfl
  rw [hcall, hformat]
  exact ⟨rfl, _, rfl, by decide⟩

end PageScript
