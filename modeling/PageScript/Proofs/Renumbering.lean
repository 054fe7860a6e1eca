/-
Stores with other numbers.

A value holds the number of what it stands for in the pools of a store, and a program never
sees these numbers.  `Value.renumbered` gives a value other numbers, and a `Transfer` takes a
store to one where everything has its other number: each operation on the pools does the same
after the transfer as before.  From this the same is derived here for every operation on
values, once for each as an equation.
-/
import PageScript.Proofs.Depth
import PageScript.Proofs.Regime

namespace PageScript

open List Entries

/-! ### Values -/

/-- Other numbers for what is in the pools of a store. -/
structure Renumbering where
  list : Nat → Nat := id
  dict : Nat → Nat := id
  ref : Nat → Nat := id
  builder : Nat → Nat := id
  cursor : Nat → Nat := id
  code : Nat → Nat := id

def Datum.renumbered (ρ : Renumbering) : Datum → Datum
  | .items id => .items (ρ.list id)
  | d => d

/-- A value with other numbers for its entries. -/
def Value.renumbered (ρ : Renumbering) : Value → Value
  | .concat id n => .concat (ρ.builder id) n
  | .list id => .list (ρ.list id)
  | .dict id => .dict (ρ.dict id)
  | .ref id => .ref (ρ.ref id)
  | .cursor id => .cursor (ρ.cursor id)
  | .code id => .code (ρ.code id)
  | .datum d => .datum (d.renumbered ρ)
  | v => v

def Entries.renumbered (ρ : Renumbering) (es : Entries Value) : Entries Value :=
  es.map fun (k, v) => (k, v.renumbered ρ)

def Cursor.renumbered (ρ : Renumbering) (c : Cursor) : Cursor := { c with dict := ρ.dict c.dict }

section

variable {α β : Type}

theorem bind_map_congr {ε γ δ : Type} {x : Except ε α} {f : α → Except ε γ} {g : α → β}
    {f' : β → Except ε δ} {h : γ → δ} (hf : ∀ a, f' (g a) = (f a).map h) :
    x.map g >>= f' = (x >>= f).map h := by
  cases x with
  | error e => rfl
  | ok a => exact hf a

theorem getD_map (f : α → β) (xs : Array α) (i : Nat) (d : α) :
    (xs.map f).getD i (f d) = f (xs.getD i d) := by
  simp only [Array.getD_eq_getD_getElem?, Array.getElem?_map]
  cases xs[i]? <;> rfl

end

namespace Entries

variable {ρ : Renumbering} {es : Entries Value} {key : String} {v : Value}

theorem get?_renumbered : (es.renumbered ρ).get? key = (es.get? key).map (·.renumbered ρ) := by
  induction es with
  | nil => rfl
  | cons e es ih =>
    obtain ⟨k, v⟩ := e
    show lookup key ((k, v.renumbered ρ) :: renumbered ρ es) = _
    rw [get?, lookup_cons, lookup_cons]
    split
    · rfl
    · exact ih

theorem put_renumbered :
    (es.renumbered ρ).put key (v.renumbered ρ) = (es.put key v).renumbered ρ := by
  induction es with
  | nil => rfl
  | cons e es ih =>
    obtain ⟨k, old⟩ := e
    show put ((k, old.renumbered ρ) :: renumbered ρ es) key (v.renumbered ρ) = _
    rw [put, put]
    split
    · rfl
    · rw [ih]
      rfl

theorem keys_renumbered : (es.renumbered ρ).keys = es.keys := by
  simp [keys, renumbered, Function.comp_def]

theorem length_renumbered : (es.renumbered ρ).length = es.length := length_map _

end Entries

namespace Value

variable {ρ : Renumbering} {v w : Value}

@[simp] theorem isRef_renumbered : (v.renumbered ρ).isRef = v.isRef := by cases v <;> rfl

@[simp] theorem isText_renumbered : (v.renumbered ρ).isText = v.isText := by cases v <;> rfl

@[simp] theorem isInt_renumbered : (v.renumbered ρ).isInt = v.isInt := by cases v <;> rfl

@[simp] theorem isFloat_renumbered : (v.renumbered ρ).isFloat = v.isFloat := by cases v <;> rfl

@[simp] theorem isNumber_renumbered : (v.renumbered ρ).isNumber = v.isNumber := by simp [isNumber]

@[simp] theorem isFunction_renumbered : (v.renumbered ρ).isFunction = v.isFunction := by
  cases v <;> rfl

@[simp] theorem isScript_renumbered : (v.renumbered ρ).isScript = v.isScript := by cases v <;> rfl

@[simp] theorem toNumber_renumbered : (v.renumbered ρ).toNumber = v.toNumber := by cases v <;> rfl

@[simp] theorem getInt_renumbered : (v.renumbered ρ).getInt = v.getInt := by cases v <;> rfl

@[simp] theorem isTrue_renumbered : (v.renumbered ρ).isTrue = v.isTrue := by cases v <;> rfl

theorem renumbered_eq_plainText {t : String} :
    v.renumbered ρ = .datum (.text t) ↔ v = .datum (.text t) := by
  cases v with
  | datum d => cases d <;> simp [renumbered, Datum.renumbered]
  | _ => simp [renumbered]

theorem renumbered_eq_int {n : Int} : v.renumbered ρ = .int n ↔ v = .int n := by
  cases v <;> simp [renumbered]

theorem renumbered_eq_unset : v.renumbered ρ = .unset ↔ v = .unset := by
  cases v <;> simp [renumbered]

theorem renumbered_of_isNumber (h : v.isNumber) : v.renumbered ρ = v := by
  cases v <;> first | rfl | cases h

end Value

/-! ### Stores -/

/-- Takes every store to one where everything has its other number. -/
structure Transfer (ρ : Renumbering) where
  store : Store → Store
  list : ∀ s id, (store s).list (ρ.list id) = (s.list id).map (·.renumbered ρ)
  dict : ∀ s id, (store s).dict (ρ.dict id) = (s.dict id).renumbered ρ
  ref : ∀ s id, (store s).ref (ρ.ref id) = (s.ref id).map (·.renumbered ρ)
  builder : ∀ s id, (store s).builder (ρ.builder id) = s.builder id
  cursor : ∀ s id, (store s).cursor (ρ.cursor id) = (s.cursor id).renumbered ρ
  code : ∀ s id, (store s).code (ρ.code id) = s.code id
  newList : ∀ s items, (store s).newList (items.map (·.renumbered ρ))
    = ((s.newList items).1.renumbered ρ, store (s.newList items).2)
  newDict : ∀ s entries, (store s).newDict (entries.renumbered ρ)
    = ((s.newDict entries).1.renumbered ρ, store (s.newDict entries).2)
  newRef : ∀ s v, (store s).newRef (v.renumbered ρ)
    = ((s.newRef v).1.renumbered ρ, store (s.newRef v).2)
  newEmptyRef : ∀ s, (store s).newEmptyRef = (s.newEmptyRef.1.renumbered ρ, store s.newEmptyRef.2)
  newConcat : ∀ s t, (store s).newConcat t
    = ((s.newConcat t).1.renumbered ρ, store (s.newConcat t).2)
  newCursor : ∀ s c, (store s).newCursor (c.renumbered ρ)
    = ((s.newCursor c).1.renumbered ρ, store (s.newCursor c).2)
  setList : ∀ s id items, (store s).setList (ρ.list id) (items.map (·.renumbered ρ))
    = store (s.setList id items)
  setDict : ∀ s id entries, (store s).setDict (ρ.dict id) (entries.renumbered ρ)
    = store (s.setDict id entries)
  setRef : ∀ s id v, (store s).setRef (ρ.ref id) (v.renumbered ρ) = store (s.setRef id v)
  appendTo : ∀ s id t, (store s).appendTo (ρ.builder id) t = store (s.appendTo id t)
  setCursor : ∀ s id c, (store s).setCursor (ρ.cursor id) (c.renumbered ρ)
    = store (s.setCursor id c)
  lists_le : ∀ s, s.lists.size ≤ (store s).lists.size
  dicts_le : ∀ s, s.dicts.size ≤ (store s).dicts.size
  refs_le : ∀ s, s.refs.size ≤ (store s).refs.size

namespace Transfer

variable {ρ : Renumbering} (T : Transfer ρ) {s : Store} {v w : Value}

/-- A result and the store it comes with, both taken elsewhere. -/
def carry {α β : Type} (g : α → β) (r : α × Store) : β × Store := (g r.1, T.store r.2)

theorem dicts_size (s : Store) : (T.store s).dicts.size = ρ.dict s.dicts.size := by
  have hnew := congrArg Prod.fst (T.newDict s [])
  injection hnew

/-! ### Texts -/

theorem textOf (v : Value) : (T.store s).textOf (v.renumbered ρ) = s.textOf v := by
  cases v with
  | concat id n => exact congrArg Except.ok (T.builder s id)
  | _ => rfl

theorem numberedFrom (n : Nat) (vs : List Value) :
    Store.numberedFrom n (vs.map (·.renumbered ρ)) = (Store.numberedFrom n vs).renumbered ρ := by
  induction vs generalizing n with
  | nil => rfl
  | cons v vs ih =>
    rw [map_cons, Store.numberedFrom, ih]
    rfl

theorem listEntries (items : Array Value) :
    Store.listEntries (items.map (·.renumbered ρ)) = (Store.listEntries items).renumbered ρ := by
  rw [Store.listEntries, Array.toList_map, numberedFrom, Store.listEntries]

theorem entryTexts (g : Value → Except Fault String) (es : Entries Value) :
    Store.entryTexts g (es.renumbered ρ) = Store.entryTexts (fun v => g (v.renumbered ρ)) es := by
  induction es with
  | nil => rfl
  | cons e es ih =>
    show Store.entryTexts g ((e.1, e.2.renumbered ρ) :: renumbered ρ es) = _
    rw [Store.entryTexts, mapM_cons, Store.entryTexts, mapM_cons]
    rw [Store.entryTexts, Store.entryTexts] at ih
    rw [ih]

theorem fullTextWithin (n : Nat) (v : Value) :
    (T.store s).fullTextWithin n (v.renumbered ρ) = s.fullTextWithin n v := by
  induction n generalizing v with
  | zero => rfl
  | succ n ih =>
    have hentries : ∀ es : Entries Value,
        Store.entryTexts ((T.store s).fullTextWithin n) (es.renumbered ρ)
          = Store.entryTexts (s.fullTextWithin n) es := by
      intro es
      rw [entryTexts]
      simp only [ih]
    cases v with
    | list id =>
      show (do return Store.arrayText (← Store.entryTexts _
        (Store.listEntries ((T.store s).list _)))) = _
      rw [T.list, listEntries, hentries]
      rfl
    | dict id =>
      show (do return Store.arrayText (← Store.entryTexts _ ((T.store s).dict _))) = _
      rw [T.dict, hentries]
      rfl
    | concat id n => exact congrArg Except.ok (T.builder s id)
    | _ => rfl

theorem fullTextOf (v : Value) : (T.store s).fullTextOf (v.renumbered ρ) = s.fullTextOf v := by
  have hlists := T.lists_le s
  have hdicts := T.dicts_le s
  rw [Store.fullTextOf, Store.fullTextOf, T.fullTextWithin]
  refine congrFun (s.fullTextWithin_stable ?_ ?_) v
  · rw [Store.nesting]
    omega
  · rw [Store.nesting]
    omega

theorem cellText {f g : Value → Except Fault String} (h : ∀ v, f (v.renumbered ρ) = g v)
    (o : Option Value) : Store.cellText f (o.map (·.renumbered ρ)) = Store.cellText g o := by
  cases o with
  | none => rfl
  | some v =>
    by_cases hv : ∃ t, v = .datum (.text t)
    · obtain ⟨t, rfl⟩ := hv
      rfl
    · rw [Option.map_some, Store.cellText.eq_3, Store.cellText.eq_3, h]
      · exact fun t heq => hv ⟨t, heq⟩
      · exact fun t heq => hv ⟨t, Value.renumbered_eq_plainText.1 heq⟩

theorem mapM {f g : Value → Except Fault String} (h : ∀ v, f (v.renumbered ρ) = g v)
    (vs : List Value) : (vs.map (·.renumbered ρ)).mapM f = vs.mapM g := by
  induction vs with
  | nil => rfl
  | cons v vs ih => rw [map_cons, mapM_cons, mapM_cons, h, ih]

theorem displayWithin (n : Nat) (v : Value) :
    (T.store s).displayWithin n (v.renumbered ρ) = s.displayWithin n v := by
  induction n generalizing v with
  | zero => rfl
  | succ n ih =>
    have hcell := cellText ih
    have hitems := mapM ih
    simp only [Store.displayWithin_eq, Function.iterate_succ_apply'] at hcell hitems ⊢
    cases v with
    | list id =>
      show (Store.fullTextOf _ (Value.renumbered ρ (.list id)) >>=
        fun t => pure ("W_ListArray(" ++ t ++ ")")) = _
      rw [T.fullTextOf]
      rfl
    | dict id =>
      show (Store.fullTextOf _ (Value.renumbered ρ (.dict id)) >>=
        fun t => pure ("W_DictArray(" ++ t ++ ")")) = _
      rw [T.fullTextOf]
      rfl
    | concat id n =>
      show Except.ok ("W_ConcatStringObject(" ++ (T.store s).builder _ ++ ")") = _
      rw [T.builder]
      rfl
    | code id =>
      show Except.ok ("W_CodeFunction(" ++ ((T.store s).code _).name ++ ")") = _
      rw [T.code]
      rfl
    | ref id =>
      rw [Value.renumbered, Store.displayStep, Store.displayStep, T.ref, hcell]
    | datum d =>
      cases d with
      | items id =>
        rw [Value.renumbered, Datum.renumbered, Store.displayStep, Store.displayStep, T.list,
          Array.toList_map, hitems]
      | _ => rfl
    | hollow kind => cases kind <;> rfl
    | _ => rfl

theorem displayOf (v : Value) : (T.store s).displayOf (v.renumbered ρ) = s.displayOf v := by
  have hlists := T.lists_le s
  have hrefs := T.refs_le s
  rw [Store.displayOf, Store.displayOf, T.displayWithin]
  exact congrFun (s.displayWithin_stable (by omega) (by omega)) v

theorem mentionOf (v : Value) : (T.store s).mentionOf (v.renumbered ρ) = s.mentionOf v := by
  by_cases hv : ∃ t, v = .datum (.text t)
  · obtain ⟨t, rfl⟩ := hv
    rfl
  · rw [Store.mentionOf.eq_2, Store.mentionOf.eq_2, T.displayOf]
    · exact fun t h => hv ⟨t, h⟩
    · exact fun t h => hv ⟨t, Value.renumbered_eq_plainText.1 h⟩

/-! ### Operations that read -/

theorem lengthOf (v : Value) : (T.store s).lengthOf (v.renumbered ρ) = s.lengthOf v := by
  cases v with
  | list id =>
    show Except.ok ((T.store s).list _).size = _
    rw [T.list, Array.size_map]
    rfl
  | dict id =>
    show Except.ok ((T.store s).dict _).length = _
    rw [T.dict, length_renumbered]
    rfl
  | _ => rfl

theorem valueOf (v : Value) :
    (T.store s).valueOf (v.renumbered ρ) = (s.valueOf v).map (·.renumbered ρ) := by
  cases v with
  | ref id =>
    rw [Value.renumbered, Store.valueOf, Store.valueOf, T.ref]
    cases s.ref id <;> rfl
  | _ => rfl

theorem charAt (t : String) (i : Int) :
    Store.charAt t i = (Store.charAt t i).map (·.renumbered ρ) := by
  unfold Store.charAt
  split <;> rfl

theorem missingKey (key v : Value) :
    (T.store s).missingKey (key.renumbered ρ) (v.renumbered ρ)
      = (s.missingKey key v).map (·.renumbered ρ) := by
  rw [Store.missingKey, Store.missingKey, T.mentionOf, T.mentionOf]
  cases s.mentionOf key with
  | error e => rfl
  | ok k => cases s.mentionOf v <;> rfl

theorem getMember (v key : Value) :
    (T.store s).getMember (v.renumbered ρ) (key.renumbered ρ)
      = (s.getMember v key).map (·.renumbered ρ) := by
  cases v with
  | text t =>
    cases key with
    | int i => exact charAt t i
    | _ => rfl
  | concat id n =>
    rw [Value.renumbered, Store.getMember, Store.getMember, T.builder, Value.getInt_renumbered]
    cases key.getInt with
    | error e => rfl
    | ok i => exact charAt _ i
  | list id =>
    cases key with
    | int i =>
      simp only [Value.renumbered, Store.getMember, T.list, Array.size_map, Array.getElem?_map]
      cases Store.place? (s.list id).size i with
      | none => rfl
      | some n =>
        rw [Option.bind_some, Option.bind_some]
        cases (s.list id)[n]? <;> rfl
    | _ => exact T.missingKey _ (.list id)
  | dict id =>
    rw [Value.renumbered, Store.getMember, Store.getMember, T.textOf, T.dict]
    cases s.textOf key with
    | error e => rfl
    | ok k =>
      simp only [bind, Except.bind, get?_renumbered]
      cases (s.dict id).get? k with
      | none => exact T.missingKey key (.dict id)
      | some element => rfl
  | _ => rfl

theorem currentElement (c : Cursor) :
    (T.store s).currentElement (c.renumbered ρ) = (s.currentElement c).map (·.renumbered ρ) := by
  have hkey : Store.currentKey (c.renumbered ρ) = Store.currentKey c := rfl
  have hdict : (c.renumbered ρ).dict = ρ.dict c.dict := rfl
  rw [Store.currentElement, Store.currentElement, hkey, hdict, T.dict, get?_renumbered]
  cases (s.dict c.dict).get? (Store.currentKey c) <;> rfl

theorem fill (parts : List (Option String)) (vs : List Value) :
    (T.store s).fill parts (vs.map (·.renumbered ρ)) = s.fill parts vs := by
  induction parts generalizing vs with
  | nil =>
    rw [Store.fill, Store.fill]
  | cons part parts ih =>
    cases part with
    | some t => rw [Store.fill, Store.fill, ih]
    | none =>
      cases vs with
      | nil => rfl
      | cons v vs => rw [map_cons, Store.fill, Store.fill, T.textOf, ih]

theorem substitute (v : Value) (fillers : List Value) :
    (T.store s).substitute (v.renumbered ρ) (fillers.map (·.renumbered ρ))
      = (s.substitute v fillers).map (·.renumbered ρ) := by
  cases v with
  | template parts =>
    rw [Value.renumbered, Store.substitute, Store.substitute, T.fill]
    · cases s.fill parts fillers <;> rfl
    all_goals
      intros
      contradiction
  | _ => rfl

theorem formatItem (letter : Char) (width : Nat) (v : Value) :
    (T.store s).formatItem letter width (v.renumbered ρ) = s.formatItem letter width v := by
  rw [Store.formatItem, Store.formatItem, T.textOf, Value.toNumber_renumbered]

end Transfer

theorem Store.formatFrom_directive {s : Store} {rest more : List Char} {width used : Nat}
    {letter : Char} {item : Value} {items : List Value}
    (h : directive? rest = some (width, letter, more)) :
    s.formatFrom ('%' :: rest) (item :: items) used = do
      let piece ← s.formatItem letter width item
      let (text, used) ← s.formatFrom more items (used + 1)
      return (piece.toList ++ text, used) := by
  rw [formatFrom.eq_def]
  simp only [↓reduceIte]
  split <;> simp_all

namespace Transfer

variable {ρ : Renumbering} (T : Transfer ρ) {s : Store} {v w : Value}

theorem formatFrom (cs : List Char) (items : List Value) (used : Nat) :
    (T.store s).formatFrom cs (items.map (·.renumbered ρ)) used = s.formatFrom cs items used := by
  induction cs, items, used using Store.formatFrom.induct with
  | case1 items used => rw [Store.formatFrom.eq_def, Store.formatFrom.eq_def s]
  | case2 _ used rest h | case3 used rest _ h =>
    rw [Store.formatFrom.eq_def, Store.formatFrom.eq_def s]
    simp only [↓reduceIte]
    split <;> split <;> simp_all
  | case4 used rest width letter more item items h _ ih =>
    rw [map_cons, Store.formatFrom_directive h, Store.formatFrom_directive h, T.formatItem, ih]
  | case5 items used c rest h ih =>
    rw [Store.formatFrom.eq_def, Store.formatFrom.eq_def s]
    simp only [h, ↓reduceIte, ih]

theorem format (template : String) (items : List Value) :
    (T.store s).format template (items.map (·.renumbered ρ)) = s.format template items := by
  rw [Store.format, Store.format, T.formatFrom]

/-! ### Operations that change the store -/

theorem putItem (items : Array Value) (i : Int) (v : Value) :
    Store.putItem (items.map (·.renumbered ρ)) i (v.renumbered ρ)
      = (Store.putItem items i v).map (·.map (·.renumbered ρ)) := by
  rw [Store.putItem, Store.putItem, Array.size_map]
  split
  · exact congrArg Except.ok (by simp)
  · split
    · rfl
    · dsimp only
      split
      · rfl
      · exact congrArg Except.ok (by simp [Value.renumbered])

theorem putMember (v key element : Value) :
    (T.store s).putMember (v.renumbered ρ) (key.renumbered ρ) (element.renumbered ρ)
      = (s.putMember v key element).map (T.carry (·.renumbered ρ)) := by
  -- A key that is no integer makes a dictionary of the list.
  have hkey : ∀ id : Nat, (do
      let k ← (T.store s).textOf (key.renumbered ρ)
      return (T.store s).newDict
        ((Store.listEntries ((T.store s).list (ρ.list id))).put k (element.renumbered ρ)))
      = Except.map (T.carry (Value.renumbered ρ)) (do
        let k ← s.textOf key
        return s.newDict ((Store.listEntries (s.list id)).put k element)) := by
    intro id
    rw [T.textOf, T.list, listEntries]
    cases s.textOf key with
    | error e => rfl
    | ok k => exact congrArg Except.ok (by rw [put_renumbered, T.newDict]; rfl)
  cases v with
  | list id =>
    cases key with
    | int i =>
      show (do
        let items ← Store.putItem ((T.store s).list (ρ.list id)) i (element.renumbered ρ)
        return (Value.list (ρ.list id), (T.store s).setList (ρ.list id) items)) = _
      rw [T.list, putItem, Store.putMember]
      cases Store.putItem (s.list id) i element with
      | error e => rfl
      | ok items => exact congrArg Except.ok (by rw [T.setList]; rfl)
    | _ => exact hkey id
  | dict id =>
    rw [Value.renumbered, Store.putMember, Store.putMember, T.textOf, T.dict]
    cases s.textOf key with
    | error e => rfl
    | ok k => exact congrArg Except.ok (by rw [put_renumbered, T.setDict]; rfl)
  | _ => rfl

theorem iterateDict (id : Nat) :
    (T.store s).iterateDict (ρ.dict id) = T.carry (·.renumbered ρ) (s.iterateDict id) := by
  simp only [Store.iterateDict, T.dict, keys_renumbered]
  exact T.newCursor s { dict := id, keys := (s.dict id).keys, index := 0, stop := _ }

theorem iterate (v : Value) :
    (T.store s).iterate (v.renumbered ρ) = (s.iterate v).map (T.carry (·.renumbered ρ)) := by
  cases v with
  | list id =>
    show Except.ok ((((T.store s).newDict (Store.listEntries ((T.store s).list _))).2).iterateDict
      (T.store s).dicts.size) = _
    rw [T.list, listEntries, T.newDict, T.dicts_size]
    exact congrArg Except.ok (T.iterateDict _)
  | dict id => exact congrArg Except.ok (T.iterateDict id)
  | _ => rfl

theorem nextElement (id : Nat) :
    (T.store s).nextElement (ρ.cursor id)
      = (s.nextElement id).map (T.carry (·.renumbered ρ)) := by
  rw [Store.nextElement, Store.nextElement]
  simp only [T.cursor, T.currentElement]
  cases s.currentElement (s.cursor id) with
  | error e => rfl
  | ok v =>
    exact congrArg (fun t => Except.ok (v.renumbered ρ, t))
      (T.setCursor s id { s.cursor id with index := (s.cursor id).index + 1 })

theorem concatenate (v w : Value) :
    (T.store s).concatenate (v.renumbered ρ) (w.renumbered ρ)
      = (s.concatenate v w).map (T.carry (·.renumbered ρ)) := by
  cases v with
  | text t =>
    rw [Value.renumbered, Store.concatenate, Store.concatenate, T.textOf]
    · cases s.textOf w with
      | error e => rfl
      | ok u => exact congrArg Except.ok (T.newConcat s _)
    all_goals
      intros
      contradiction
  | concat id n =>
    rw [Value.renumbered, Store.concatenate, Store.concatenate, T.textOf]
    cases s.textOf w with
    | error e => rfl
    | ok u =>
      refine congrArg Except.ok ?_
      show (Value.concat _ (((T.store s).appendTo _ u).builder _).length, _) = _
      rw [T.appendTo, T.builder]
      rfl
  | _ => rfl

theorem copy (v : Value) :
    (T.store s).copy (v.renumbered ρ) = (s.copy v).map (T.carry (·.renumbered ρ)) := by
  cases v with
  | list id =>
    show Except.ok ((T.store s).newList ((T.store s).list _)) = _
    rw [T.list, T.newList]
    rfl
  | dict id =>
    show Except.ok ((T.store s).newDict ((T.store s).dict _)) = _
    rw [T.dict, T.newDict]
    rfl
  | ref id => exact congrArg Except.ok (T.newEmptyRef s)
  | _ => rfl

end Transfer

/-! ### Operators -/

section

variable {ρ : Renumbering} {s : Store} {x y : Value}

theorem Test.values_renumbered (T : Transfer ρ) (t : Test) :
    t.values (T.store s) (x.renumbered ρ) (y.renumbered ρ) = t.values s x y := by
  by_cases h : ∃ m n, x = .int m ∧ y = .int n
  · obtain ⟨m, n, rfl, rfl⟩ := h
    rfl
  · rw [values.eq_2, values.eq_2, Value.isNumber_renumbered, Value.isNumber_renumbered,
      Value.toNumber_renumbered, Value.toNumber_renumbered, T.textOf, T.textOf]
    · exact fun m n hm hn => h ⟨m, n, hm, hn⟩
    · exact fun m n hm hn =>
        h ⟨m, n, Value.renumbered_eq_int.1 hm, Value.renumbered_eq_int.1 hn⟩

theorem Comparison.holds_renumbered (T : Transfer ρ) (c : Comparison) :
    c.holds (T.store s) (x.renumbered ρ) (y.renumbered ρ) = c.holds s x y := by
  cases c <;> exact Test.values_renumbered T _

theorem map_renumbered_of_isNumber {r : Except Fault Value} (h : ∀ v, r = .ok v → v.isNumber) :
    r.map (·.renumbered ρ) = r := by
  cases r with
  | error e => rfl
  | ok v => exact congrArg Except.ok (Value.renumbered_of_isNumber (h v rfl))

theorem ArithOp.apply_renumbered (op : ArithOp) :
    op.apply (x.renumbered ρ) (y.renumbered ρ) = (op.apply x y).map (·.renumbered ρ) := by
  rw [map_renumbered_of_isNumber fun v h => ArithOp.isNumber_of_apply h]
  cases x <;> cases y <;> rfl

theorem Value.shiftRight_renumbered :
    (x.renumbered ρ).shiftRight (y.renumbered ρ) = (x.shiftRight y).map (·.renumbered ρ) := by
  rw [shiftRight, shiftRight, getInt_renumbered, getInt_renumbered]
  cases y.getInt with
  | error e => rfl
  | ok r => cases x.getInt <;> rfl

theorem Value.shiftLeft_renumbered :
    (x.renumbered ρ).shiftLeft (y.renumbered ρ) = (x.shiftLeft y).map (·.renumbered ρ) := by
  rw [shiftLeft, shiftLeft, getInt_renumbered, getInt_renumbered]
  cases y.getInt with
  | error e => rfl
  | ok r => cases x.getInt <;> rfl

theorem Value.increment_renumbered (step : Option Step) :
    (x.renumbered ρ).increment step = (x.increment step).map (·.renumbered ρ) := by
  rw [map_renumbered_of_isNumber fun v h => isNumber_of_increment step h]
  cases x <;> rfl

theorem UnaryOperator.evaluate_renumbered (op : UnaryOperator) :
    op.evaluate (x.renumbered ρ) = (op.evaluate x).map (·.renumbered ρ) := by
  cases op with
  | not =>
    rw [evaluate, evaluate, Value.isTrue_renumbered]
    cases x.isTrue <;> rfl
  | incr => exact Value.increment_renumbered (some (.int 1))
  | decr => exact Value.increment_renumbered (some (.int (-1)))

end

/-! ### What can be read -/

/-- What is read off a value is the same under other numbers. -/
def Store.Numberless {α : Type} (read : Store → Value → Except Fault α) : Prop :=
  ∀ {ρ : Renumbering} (T : Transfer ρ) (s : Store) (v : Value),
    read (T.store s) (v.renumbered ρ) = read s v

theorem Store.numberless_displayOf : Store.Numberless Store.displayOf := fun T _ v => T.displayOf v

end PageScript
