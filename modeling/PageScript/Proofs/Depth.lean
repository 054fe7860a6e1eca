/-
How deep texts go.

The text of an array is computed with a bound on the depth.  Each bound adds one level,
so the answers are those of an operation applied again and again to one that always
refuses (`refuse`).  Each level answers for at least one node more, or for no node any
more; so all bounds beyond the number of nodes give the same answer (`Deepens.stable`,
`Store.fullTextWithin_stable`, `Store.displayWithin_stable`).
-/
import Mathlib.Data.Finset.Card
import Mathlib.Data.Finset.Range
import Mathlib.Order.Monotone.Basic
import PageScript.Value.Text

namespace PageScript

variable {α β : Type}

def refuse (_ : α) : Except Fault β := .error .tooDeep

/-- The second function answers like the first wherever that one does not go
too deep. -/
def Deeper (g h : α → Except Fault β) : Prop := ∀ x, g x ≠ .error .tooDeep → h x = g x

theorem Deeper.refl (g : α → Except Fault β) : Deeper g g := fun _ _ => rfl

theorem Deeper.trans {g h k : α → Except Fault β} (hgh : Deeper g h) (hhk : Deeper h k) :
    Deeper g k := by
  intro x hx
  have hh := hgh x hx
  rw [hhk x (by rwa [hh]), hh]

theorem bind_congr_of_ne_tooDeep {x y : Except Fault α} {f : α → Except Fault β}
    (h : x ≠ .error .tooDeep → y = x) (hbind : x >>= f ≠ .error .tooDeep) :
    y >>= f = x >>= f := by
  rw [h]
  rintro rfl
  exact hbind rfl

theorem Deeper.mapM {g h : α → Except Fault β} (hgh : Deeper g h) :
    Deeper (fun xs : List α => xs.mapM g) (fun xs => xs.mapM h) := by
  intro xs
  induction xs with
  | nil => exact fun _ => rfl
  | cons x xs ih =>
    intro hne
    simp only [List.mapM_cons] at hne ⊢
    cases hx : g x with
    | error e =>
      rw [hx] at hne
      have he : Except.error e ≠ (.error .tooDeep : Except Fault β) := by
        rintro ⟨⟩
        exact hne rfl
      rw [hgh x (by rwa [hx]), hx]
      rfl
    | ok b =>
      rw [hx] at hne
      rw [hgh x (by rw [hx]; nofun), hx]
      exact bind_congr_of_ne_tooDeep ih hne

/-- An operation that answers more where it is given more, and looks at what it
is given only for finitely many nodes. -/
structure Deepens (F : (α → Except Fault β) → α → Except Fault β) (nodes : Finset α) : Prop where
  mono : ∀ {g h}, Deeper g h → Deeper (F g) (F h)
  leaf : ∀ {x}, x ∉ nodes → ∀ g h, F g x = F h x

namespace Deepens

open Classical

variable {F : (α → Except Fault β) → α → Except Fault β} {nodes : Finset α}

theorem deeper_succ (hF : Deepens F nodes) (n : Nat) : Deeper (F^[n] refuse) (F^[n + 1] refuse) := by
  induction n with
  | zero => exact fun _ h => absurd rfl h
  | succ n ih =>
    rw [Function.iterate_succ_apply', Function.iterate_succ_apply' F (n + 1)]
    exact hF.mono ih

theorem deeper (hF : Deepens F nodes) {m n : Nat} (hmn : m ≤ n) :
    Deeper (F^[m] refuse) (F^[n] refuse) := by
  induction n, hmn using Nat.le_induction with
  | base => exact .refl _
  | succ n _ ih => exact ih.trans (hF.deeper_succ n)

noncomputable def answered (F : (α → Except Fault β) → α → Except Fault β) (nodes : Finset α)
    (n : Nat) : Finset α :=
  nodes.filter fun x => F^[n + 1] refuse x ≠ .error .tooDeep

theorem answered_subset (hF : Deepens F nodes) {m n : Nat} (hmn : m ≤ n) :
    answered F nodes m ⊆ answered F nodes n := by
  intro x hx
  obtain ⟨hnode, hanswer⟩ := Finset.mem_filter.1 hx
  refine Finset.mem_filter.2 ⟨hnode, ?_⟩
  rwa [hF.deeper (Nat.succ_le_succ hmn) x hanswer]

/-- If no more nodes have an answer, nothing changes any more. -/
theorem eq_of_card (hF : Deepens F nodes) {m n : Nat} (hmn : m ≤ n)
    (hcard : (answered F nodes m).card = (answered F nodes n).card) :
    F^[m + 1] refuse = F^[n + 1] refuse := by
  have hsame := Finset.eq_of_subset_of_card_le (hF.answered_subset hmn) hcard.ge
  funext x
  by_cases hnode : x ∈ nodes
  · by_cases hanswer : F^[m + 1] refuse x = .error .tooDeep
    · -- A node without an answer stays without one.
      have hnot : x ∉ answered F nodes n := by
        rw [← hsame]
        intro hx
        exact (Finset.mem_filter.1 hx).2 hanswer
      by_contra hne
      refine hnot (Finset.mem_filter.2 ⟨hnode, ?_⟩)
      rw [hanswer] at hne
      exact Ne.symm hne
    · exact (hF.deeper (Nat.succ_le_succ hmn) x hanswer).symm
  · rw [Function.iterate_succ_apply', Function.iterate_succ_apply' F n]
    exact hF.leaf hnode _ _

/-- Bounds beyond the number of nodes give the same answers. -/
theorem stable (hF : Deepens F nodes) {m n : Nat} (hm : nodes.card < m) (hn : nodes.card < n) :
    F^[m] refuse = F^[n] refuse := by
  have hstable : ∀ k, nodes.card ≤ k → F^[k + 1] refuse = F^[nodes.card + 1] refuse := by
    intro k hk
    refine (hF.eq_of_card hk ?_).symm
    refine (Nat.stabilises_of_monotone (f := fun k => (answered F nodes k).card) ?_ ?_ ?_ hk).symm
    · exact fun i j hij => Finset.card_le_card (hF.answered_subset hij)
    · exact fun i => Finset.card_filter_le _ _
    · -- Where one level adds nothing, neither does the next one.
      intro i hi
      have heq := hF.eq_of_card (Nat.le_succ i) hi
      have hnext : F^[i + 1 + 1] refuse = F^[i + 1 + 1 + 1] refuse := by
        rw [Function.iterate_succ_apply', Function.iterate_succ_apply' F (i + 1 + 1), heq]
      simp only [answered, hnext]
  obtain ⟨i, rfl⟩ := Nat.exists_eq_succ_of_ne_zero (Nat.ne_zero_of_lt hm)
  obtain ⟨j, rfl⟩ := Nat.exists_eq_succ_of_ne_zero (Nat.ne_zero_of_lt hn)
  exact (hstable i (Nat.le_of_lt_succ hm)).trans (hstable j (Nat.le_of_lt_succ hn)).symm

end Deepens

namespace Store

/-! ### Full texts -/

def entryTexts (g : Value → Except Fault String) (entries : Entries Value) :
    Except Fault (List (String × String)) :=
  entries.mapM fun (k, v) => do return (k, ← g v)

def fullTextStep (s : Store) (g : Value → Except Fault String) : Value → Except Fault String
  | .list id => do return arrayText (← entryTexts g (listEntries (s.list id)))
  | .dict id => do return arrayText (← entryTexts g (s.dict id))
  | v => s.textOf v

theorem fullTextWithin_eq (s : Store) (n : Nat) :
    s.fullTextWithin n = s.fullTextStep^[n] refuse := by
  induction n with
  | zero => rfl
  | succ n ih =>
    rw [Function.iterate_succ_apply', ← ih]
    funext v
    cases v <;> rfl

theorem deeper_entryTexts {g h : Value → Except Fault String} (hgh : Deeper g h) :
    Deeper (entryTexts g) (entryTexts h) :=
  .mapM fun _ hne => bind_congr_of_ne_tooDeep (hgh _) hne

open Classical in
noncomputable def arrays (s : Store) : Finset Value :=
  (Finset.range s.lists.size).image .list ∪ (Finset.range s.dicts.size).image .dict

open Classical in
theorem card_arrays_le (s : Store) : s.arrays.card ≤ s.lists.size + s.dicts.size := by
  refine (Finset.card_union_le _ _).trans (Nat.add_le_add ?_ ?_)
  · exact Finset.card_image_le.trans (Finset.card_range _).le
  · exact Finset.card_image_le.trans (Finset.card_range _).le

theorem list_of_le {s : Store} {id : Nat} (h : s.lists.size ≤ id) : s.list id = #[] := by
  simp [list, h]

theorem dict_of_le {s : Store} {id : Nat} (h : s.dicts.size ≤ id) : s.dict id = [] := by
  simp [dict, h]

theorem deepens_fullTextStep (s : Store) : Deepens s.fullTextStep s.arrays where
  mono := by
    intro g h hgh v hne
    cases v with
    | list id | dict id => exact bind_congr_of_ne_tooDeep (deeper_entryTexts hgh _) hne
    | _ => rfl
  leaf := by
    intro v hv g h
    -- An array that is not in the store has no elements.
    cases v with
    | list id =>
      have hid : s.lists.size ≤ id := by
        by_contra hlt
        exact hv (by simp [arrays, Nat.lt_of_not_le hlt])
      rw [fullTextStep, fullTextStep, list_of_le hid]
      rfl
    | dict id =>
      have hid : s.dicts.size ≤ id := by
        by_contra hlt
        exact hv (by simp [arrays, Nat.lt_of_not_le hlt])
      rw [fullTextStep, fullTextStep, dict_of_le hid]
      rfl
    | _ => rfl

theorem fullTextWithin_stable (s : Store) {m n : Nat} (hm : s.lists.size + s.dicts.size < m)
    (hn : s.lists.size + s.dicts.size < n) : s.fullTextWithin m = s.fullTextWithin n := by
  rw [fullTextWithin_eq, fullTextWithin_eq]
  exact s.deepens_fullTextStep.stable (s.card_arrays_le.trans_lt hm) (s.card_arrays_le.trans_lt hn)

/-! ### Displayed values -/

/-- What is in the cell of a reference, shown: plain text is not quoted. -/
def cellText (g : Value → Except Fault String) : Option Value → Except Fault String
  | none => .error .noOperation
  | some (.datum (.text t)) => .ok t
  | some v => g v

/-- A value with its kind, from what references and sequences lead to. -/
def displayStep (s : Store) (g : Value → Except Fault String) : Value → Except Fault String
  | .ref id => do return "W_Reference(" ++ (← cellText g (s.ref id)) ++ ")"
  | .datum (.items id) => do
    let items ← (s.list id).toList.mapM fun v => g v
    return "[" ++ ", ".intercalate items ++ "]"
  | v => s.displayWithin 1 v

theorem displayWithin_eq (s : Store) (n : Nat) : s.displayWithin n = s.displayStep^[n] refuse := by
  induction n with
  | zero => rfl
  | succ n ih =>
    rw [Function.iterate_succ_apply', ← ih]
    funext v
    cases v with
    | ref id =>
      rw [displayStep, displayWithin]
      unfold cellText
      cases s.ref id with
      | none => rfl
      | some v =>
        cases v with
        | datum d => cases d <;> rfl
        | _ => rfl
    | datum d => cases d <;> rfl
    | hollow kind => cases kind <;> rfl
    | _ => rfl

open Classical in
/-- The references of a store and the sequences that are its lists. -/
noncomputable def leads (s : Store) : Finset Value :=
  (Finset.range s.refs.size).image .ref ∪
    (Finset.range s.lists.size).image fun id => .datum (.items id)

open Classical in
theorem card_leads_le (s : Store) : s.leads.card ≤ s.refs.size + s.lists.size := by
  refine (Finset.card_union_le _ _).trans (Nat.add_le_add ?_ ?_)
  · exact Finset.card_image_le.trans (Finset.card_range _).le
  · exact Finset.card_image_le.trans (Finset.card_range _).le

theorem deepens_displayStep (s : Store) : Deepens s.displayStep s.leads where
  mono := by
    intro g h hgh v hne
    cases v with
    | ref id =>
      refine bind_congr_of_ne_tooDeep (fun hcell => ?_) hne
      unfold cellText at hcell ⊢
      split at hcell
      · rfl
      · rfl
      · exact hgh _ hcell
    | datum d =>
      cases d with
      | items id => exact bind_congr_of_ne_tooDeep (Deeper.mapM hgh _) hne
      | _ => rfl
    | _ => rfl
  leaf := by
    intro v hv g h
    cases v with
    | ref id =>
      have hid : s.refs.size ≤ id := by
        by_contra hlt
        exact hv (by simp [leads, Nat.lt_of_not_le hlt])
      have hnone : s.ref id = none := by simp [Store.ref, hid]
      rw [displayStep, displayStep, hnone]
      rfl
    | datum d =>
      cases d with
      | items id =>
        have hid : s.lists.size ≤ id := by
          by_contra hlt
          exact hv (by simp [leads, Nat.lt_of_not_le hlt])
        rw [displayStep, displayStep, list_of_le hid]
        rfl
      | _ => rfl
    | _ => rfl

theorem displayWithin_stable (s : Store) {m n : Nat} (hm : s.refs.size + s.lists.size < m)
    (hn : s.refs.size + s.lists.size < n) : s.displayWithin m = s.displayWithin n := by
  rw [displayWithin_eq, displayWithin_eq]
  exact s.deepens_displayStep.stable (s.card_leads_le.trans_lt hm) (s.card_leads_le.trans_lt hn)

end Store

end PageScript
