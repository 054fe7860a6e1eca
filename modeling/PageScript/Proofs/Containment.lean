/-
Pages inside and outside of the root.

The path of a page is the normal form of the root followed by the name that a request
gives, which may have steps up in it.  Seen from the folder that the root is in, the
path leads so many folders up and then down through some names (`climb`).  It is inside
the root exactly if it leads down through the names of the root (`within_root_iff`).
-/
import PageScript.Web.Server

namespace PageScript

open List Text

variable {root : String} {ns done : List (List Char)}

namespace Path

/-! ### Steps -/

/-- A step that leads down, to a file or a folder. -/
def IsName (step : List Char) : Prop :=
  step ≠ [] ∧ step ≠ ['.'] ∧ step ≠ ['.', '.'] ∧ '/' ∉ step

/-- The steps so far, the last one first, after one more step from the top. -/
def advance (done : List (List Char)) (step : List Char) : List (List Char) :=
  if step = [] ∨ step = ['.'] then done
  else if step = ['.', '.'] then done.drop 1
  else step :: done

/-- How many folders up, and then down through which names, the last one
first, after one more step. -/
def lead (place : Nat × List (List Char)) (step : List Char) : Nat × List (List Char) :=
  if step = [] ∨ step = ['.'] then place
  else if step = ['.', '.'] then
    match place with
    | (ups, []) => (ups + 1, [])
    | (ups, _ :: before) => (ups, before)
  else (place.1, step :: place.2)

/-- Where steps lead: how many folders up, and then down through which
names. -/
def climb (steps : List (List Char)) : Nat × List (List Char) :=
  let (ups, below) := steps.foldl lead (0, [])
  (ups, below.reverse)

theorem isName_of_mem_advance {step : List Char}
    (hdone : ∀ n ∈ done, IsName n) (hstep : '/' ∉ step) : ∀ n ∈ advance done step, IsName n := by
  unfold advance
  by_cases hstay : step = [] ∨ step = ['.']
  · rw [if_pos hstay]
    exact hdone
  · rw [if_neg hstay]
    by_cases hup : step = ['.', '.']
    · rw [if_pos hup]
      exact fun n hn => hdone n (mem_of_mem_drop hn)
    · rw [if_neg hup]
      rintro n (_ | ⟨_, hn⟩)
      · exact ⟨fun h => hstay (.inl h), fun h => hstay (.inr h), hup, hstep⟩
      · exact hdone n hn

theorem isName_of_mem_foldl {steps : List (List Char)} (hdone : ∀ n ∈ done, IsName n)
    (hsteps : ∀ step ∈ steps, '/' ∉ step) : ∀ n ∈ steps.foldl advance done, IsName n := by
  induction steps generalizing done with
  | nil => exact hdone
  | cons step steps ih =>
    exact ih (isName_of_mem_advance hdone (hsteps step mem_cons_self))
      fun s hs => hsteps s (mem_cons_of_mem _ hs)

theorem walk_eq_foldl {steps : List (List Char)} (hdone : ∀ n ∈ done, IsName n)
    (hsteps : ∀ step ∈ steps, '/' ∉ step) : walk true done steps = steps.foldl advance done := by
  induction steps generalizing done with
  | nil => rw [walk.eq_def, foldl_nil]
  | cons step steps ih =>
    have hnext := ih (isName_of_mem_advance hdone (hsteps step mem_cons_self))
      fun s hs => hsteps s (mem_cons_of_mem _ hs)
    rw [foldl_cons, ← hnext, walk.eq_def]
    unfold advance
    dsimp only
    split
    · rfl
    · split
      · cases done with
        | nil => rfl
        | cons last before =>
          have hlast : last ≠ ['.', '.'] := (hdone last mem_cons_self).2.2.1
          dsimp only
          rw [if_neg hlast]
          rfl
      · rfl

theorem foldl_advance_replicate (done : List (List Char)) (n : Nat) :
    (replicate n []).foldl advance done = done := by
  induction n with
  | zero => rfl
  | succ n ih => rwa [replicate_succ, foldl_cons, advance, if_pos (.inl rfl)]

theorem foldl_advance_names {names : List (List Char)} (h : ∀ n ∈ names, IsName n)
    (done : List (List Char)) : names.foldl advance done = names.reverse ++ done := by
  induction names generalizing done with
  | nil => rfl
  | cons name names ih =>
    obtain ⟨hempty, hself, hup, -⟩ := h name mem_cons_self
    have hstay : ¬(name = [] ∨ name = ['.']) := fun hor => hor.elim hempty hself
    rw [foldl_cons, advance, if_neg hstay, if_neg hup,
      ih fun n hn => h n (mem_cons_of_mem _ hn), reverse_cons, append_assoc,
      singleton_append]

theorem advance_eq_lead (base : List (List Char)) (place : Nat × List (List Char))
    (step : List Char) :
    advance (place.2 ++ base.drop place.1) step =
      (lead place step).2 ++ base.drop (lead place step).1 := by
  unfold advance lead
  by_cases hstay : step = [] ∨ step = ['.']
  · rw [if_pos hstay, if_pos hstay]
  · rw [if_neg hstay, if_neg hstay]
    by_cases hup : step = ['.', '.']
    · rw [if_pos hup, if_pos hup]
      obtain ⟨ups, below⟩ := place
      cases below with
      | nil => simp [drop_drop]
      | cons last before => rfl
    · rw [if_neg hup, if_neg hup]
      rfl

theorem foldl_advance_eq_climb (base steps : List (List Char)) :
    steps.foldl advance base.reverse =
      (base.take (base.length - (climb steps).1) ++ (climb steps).2).reverse := by
  have hrun : ∀ place, steps.foldl advance (place.2 ++ base.reverse.drop place.1) =
      (steps.foldl lead place).2 ++ base.reverse.drop (steps.foldl lead place).1 := by
    induction steps with
    | nil => exact fun place => rfl
    | cons step steps ih =>
      intro place
      rw [foldl_cons, foldl_cons, advance_eq_lead, ih]
  have hstart := hrun (0, [])
  rw [nil_append, drop_zero] at hstart
  rw [hstart, climb, reverse_append, reverse_reverse, drop_reverse]

/-! ### Roots -/

/-- A normal form of an absolute path. -/
def IsRoot (root : String) : Prop := ['/'] <+: root.toList ∧ normalize root = root

def names (path : List Char) : List (List Char) := (Text.splitAt '/' path).filter (· ≠ [])

/-- The path is the root, or it goes on from the root with a slash. -/
def Within (root path : String) : Prop :=
  path = root ∨ root.toList ++ ['/'] <+: path.toList

instance (root path : String) : Decidable (Within root path) :=
  inferInstanceAs (Decidable (_ ∨ _))

theorem leadingSlashes_eq (cs : List Char) (h : ['/'] <+: cs) :
    leadingSlashes cs = ['/'] ∨ leadingSlashes cs = ['/', '/'] := by
  obtain ⟨rest, rfl⟩ := h
  rw [singleton_append]
  unfold leadingSlashes
  split
  · exact .inl rfl
  · exact .inr rfl
  · exact .inl rfl
  · next hnone => exact absurd rfl (hnone rest)

theorem toList_normalize {path : String} (h : ['/'] <+: path.toList) :
    (normalize path).toList = leadingSlashes path.toList ++
      joinWith ['/'] ((splitAt '/' path.toList).foldl advance []).reverse := by
  have hsteps : ∀ step ∈ splitAt '/' path.toList, '/' ∉ step :=
    fun _ => not_mem_of_mem_splitAt
  have hrooted : (!(leadingSlashes path.toList).isEmpty) = true := by
    rcases leadingSlashes_eq _ h with hs | hs <;> rw [hs] <;> rfl
  have hnone : ∀ n ∈ ([] : List (List Char)), IsName n := nofun
  unfold normalize
  dsimp only
  rw [hrooted, walk_eq_foldl hnone hsteps]
  rcases leadingSlashes_eq _ h with hs | hs <;> rw [hs] <;> exact String.toList_ofList

theorem splitAt_replicate (n : Nat) (cs : List Char) :
    splitAt '/' (replicate n '/' ++ cs) = replicate n [] ++ splitAt '/' cs := by
  induction n with
  | zero => rfl
  | succ n ih =>
    rw [replicate_succ, replicate_succ, cons_append, cons_append, ← ih,
      Text.splitAt, if_pos rfl]

theorem splitAt_names (h : ∀ n ∈ ns, IsName n) :
    splitAt '/' (joinWith ['/'] ns) = ns.dropLast ++ [ns.getLastD []] := by
  by_cases hns : ns = []
  · rw [hns]
    rfl
  · rw [splitAt_joinWith hns fun n hn => (h n hn).2.2.2, getLastD_eq_getLast?,
      getLast?_eq_some_getLast hns, Option.getD_some, dropLast_concat_getLast]

theorem names_eq (h : ∀ n ∈ ns, IsName n) (n : Nat) :
    names (replicate n '/' ++ joinWith ['/'] ns) = ns := by
  have hkept : ∀ n ∈ ns, decide (n ≠ []) = true := fun n hn => decide_eq_true (h n hn).1
  have hblank : (replicate n []).filter (fun s : List Char => decide (s ≠ [])) = [] := by
    simp
  unfold names
  rw [splitAt_replicate, filter_append, hblank, nil_append]
  by_cases hns : ns = []
  · rw [hns]
    rfl
  · rw [splitAt_joinWith hns fun n hn => (h n hn).2.2.2, filter_eq_self.2 hkept]

theorem IsRoot.toList_eq (h : IsRoot root) :
    ∃ n, (n = 1 ∨ n = 2) ∧ (∀ n ∈ names root.toList, IsName n) ∧
      root.toList = replicate n '/' ++ joinWith ['/'] (names root.toList) := by
  obtain ⟨hslash, hnormal⟩ := h
  have hroot := toList_normalize hslash
  rw [hnormal] at hroot
  have hns : ∀ n ∈ ((splitAt '/' root.toList).foldl advance []).reverse, IsName n := by
    intro n hn
    have hnone : ∀ n ∈ ([] : List (List Char)), IsName n := nofun
    exact isName_of_mem_foldl hnone (fun _ => not_mem_of_mem_splitAt) n (mem_reverse.1 hn)
  generalize ((splitAt '/' root.toList).foldl advance []).reverse = ns at hns hroot
  obtain ⟨n, hn, hslashes⟩ : ∃ n, (n = 1 ∨ n = 2) ∧
      leadingSlashes root.toList = replicate n '/' := by
    rcases leadingSlashes_eq _ hslash with hs | hs
    · exact ⟨1, .inl rfl, hs⟩
    · exact ⟨2, .inr rfl, hs⟩
  rw [hslashes] at hroot
  refine ⟨n, hn, ?_⟩
  rw [hroot, names_eq hns]
  exact ⟨hns, rfl⟩

/-! ### Paths below a root -/

/-- The steps that lead to a page, seen from the folder that the root is in:
the name of the page goes on where the last name of the root ends. -/
def stepsTo (root filename : String) : List (List Char) :=
  Text.splitAt '/' ((names root.toList).getLastD [] ++ filename.toList)

def namesTo (root filename : String) : List (List Char) :=
  (names root.toList).dropLast.take
      ((names root.toList).dropLast.length - (climb (stepsTo root filename)).1) ++
    (climb (stepsTo root filename)).2

section

variable (h : IsRoot root) (filename : String)

include h

theorem foldl_advance_append :
    (splitAt '/' (root ++ filename).toList).foldl advance [] =
      (namesTo root filename).reverse := by
  obtain ⟨n, -, hnames, hroot⟩ := h.toList_eq
  -- the pieces of the root, but for the last one, lead to the folder it is in
  have hpieces : splitAt '/' root.toList =
      (replicate n [] ++ (names root.toList).dropLast) ++ [(names root.toList).getLastD []] := by
    rw [append_assoc, ← splitAt_names hnames, ← splitAt_replicate]
    exact congrArg (splitAt '/') hroot
  obtain ⟨pieces, last, hsplit, happend⟩ := splitAt_append_eq '/' root.toList
  rw [hpieces] at hsplit
  obtain ⟨hfolder, hlast⟩ := append_inj' hsplit rfl
  have hfolded : pieces.foldl advance [] = (names root.toList).dropLast.reverse := by
    have hbelow : ∀ n ∈ (names root.toList).dropLast, IsName n :=
      fun n hn => hnames n (dropLast_subset _ hn)
    rw [← hfolder, foldl_append, foldl_advance_replicate, foldl_advance_names hbelow,
      append_nil]
  rw [String.toList_append, happend, foldl_append, hfolded, foldl_advance_eq_climb, namesTo,
    stepsTo, singleton_inj.1 hlast]

theorem isName_of_mem_namesTo : ∀ n ∈ namesTo root filename, IsName n := by
  have hnone : ∀ n ∈ ([] : List (List Char)), IsName n := nofun
  have hsteps : ∀ step ∈ splitAt '/' (root ++ filename).toList, '/' ∉ step :=
    fun _ => not_mem_of_mem_splitAt
  have hnames := isName_of_mem_foldl hnone hsteps
  rw [foldl_advance_append h] at hnames
  exact fun n hn => hnames n (mem_reverse.2 hn)

theorem toList_normalize_append :
    (normalize (root ++ filename)).toList = leadingSlashes (root.toList ++ filename.toList) ++
      joinWith ['/'] (namesTo root filename) := by
  have hslash : ['/'] <+: (root ++ filename).toList := by
    rw [String.toList_append]
    exact h.1.trans (prefix_append _ _)
  rw [toList_normalize hslash, foldl_advance_append h, reverse_reverse, String.toList_append]

end

theorem head_joinWith (h : ∀ n ∈ ns, IsName n) (hns : ns ≠ []) :
    ∃ c cs, c ≠ '/' ∧ joinWith ['/'] ns = c :: cs := by
  obtain ⟨name, rest, rfl⟩ := exists_cons_of_ne_nil hns
  obtain ⟨hname, -, -, hslash⟩ := h name mem_cons_self
  obtain ⟨c, cs, rfl⟩ := exists_cons_of_ne_nil hname
  have hc : c ≠ '/' := fun hc => hslash (hc ▸ mem_cons_self)
  cases rest with
  | nil => exact ⟨c, cs, hc, rfl⟩
  | cons next rest => exact ⟨c, _, hc, rfl⟩

theorem leadingSlashes_replicate {n : Nat} (hn : n = 1 ∨ n = 2) {c : Char} (hc : c ≠ '/')
    (cs : List Char) : leadingSlashes (replicate n '/' ++ c :: cs) = replicate n '/' := by
  rcases hn with rfl | rfl
  · show leadingSlashes ('/' :: c :: cs) = ['/']
    unfold leadingSlashes
    split
    · simp_all
    · simp_all
    · rfl
    · simp_all
  · show leadingSlashes ('/' :: '/' :: c :: cs) = ['/', '/']
    unfold leadingSlashes
    split
    · simp_all
    · rfl
    · next hno heq =>
      cases heq
      exact absurd rfl (hno _)
    · simp_all

theorem joinWith_prefix_iff {ms : List (List Char)} (hns : ∀ n ∈ ns, IsName n) (hne : ns ≠ [])
    (hms : ∀ n ∈ ms, IsName n) :
    (joinWith ['/'] ms = joinWith ['/'] ns ∨
      joinWith ['/'] ns ++ ['/'] <+: joinWith ['/'] ms) ↔ ns <+: ms := by
  have hsplit : ∀ {ks : List (List Char)}, (∀ n ∈ ks, IsName n) → ks ≠ [] →
      splitAt '/' (joinWith ['/'] ks) = ks :=
    fun hks hne => splitAt_joinWith hne fun n hn => (hks n hn).2.2.2
  obtain ⟨c, cs, -, hhead⟩ := head_joinWith hns hne
  constructor
  · rintro (heq | ⟨rest, hrest⟩)
    · have hms' : ms ≠ [] := by
        rintro rfl
        rw [hhead] at heq
        cases heq
      have hsame : ms = ns := by rw [← hsplit hms hms', heq, hsplit hns hne]
      exact hsame ▸ prefix_rfl
    · have hms' : ms ≠ [] := by
        rintro rfl
        rw [hhead] at hrest
        cases hrest
      rw [← hsplit hms hms', ← hrest, append_assoc, singleton_append,
        splitAt_append, hsplit hns hne]
      exact prefix_append _ _
  · rintro ⟨rest, rfl⟩
    by_cases hrest : rest = []
    · rw [hrest, append_nil]
      exact .inl rfl
    · have hall : ∀ n ∈ rest, IsName n := fun n hn => hms n (mem_append_right _ hn)
      refine .inr ⟨joinWith ['/'] rest, ?_⟩
      rw [append_assoc, singleton_append,
        ← joinWith_splitAt '/' (_ ++ '/' :: _), splitAt_append, hsplit hns hne,
        hsplit hall hrest]

/-- From the folder that the root is in, the steps to the page lead down
again through the names of the root.  If the root has no names, there is just
the number of slashes to mind. -/
def Returns (root filename : String) : Prop :=
  (names root.toList ≠ [] →
    (names root.toList).drop ((names root.toList).length - 1 - (climb (stepsTo root filename)).1)
      <+: (climb (stepsTo root filename)).2) ∧
  (names root.toList = [] →
    (leadingSlashes (root.toList ++ filename.toList) = root.toList ∧
        (climb (stepsTo root filename)).2 = []) ∨
      leadingSlashes (root.toList ++ filename.toList) = root.toList ++ ['/'])

instance (root filename : String) : Decidable (Returns root filename) :=
  inferInstanceAs (Decidable (_ ∧ _))

theorem within_iff_names (h : IsRoot root) (hnames : names root.toList ≠ []) (filename : String) :
    Within root (normalize (root ++ filename)) ↔ names root.toList <+: namesTo root filename := by
  obtain ⟨n, hn, hroot, hlist⟩ := h.toList_eq
  obtain ⟨c, cs, hc, hhead⟩ := head_joinWith hroot hnames
  have hslashes : leadingSlashes (root.toList ++ filename.toList) = replicate n '/' := by
    rw [hlist, hhead, append_assoc, cons_append, leadingSlashes_replicate hn hc]
  have hpath := toList_normalize_append h filename
  rw [hslashes] at hpath
  rw [← joinWith_prefix_iff hroot hnames (isName_of_mem_namesTo h filename), Within,
    ← String.toList_inj, hpath]
  conv => lhs; rw [hlist]
  rw [append_right_inj, append_assoc, prefix_append_right_inj]

theorem prefix_namesTo_iff (filename : String) :
    names root.toList <+: namesTo root filename ↔
      (names root.toList).drop ((names root.toList).length - 1 - (climb (stepsTo root filename)).1)
        <+: (climb (stepsTo root filename)).2 := by
  generalize hj : (names root.toList).length - 1 - (climb (stepsTo root filename)).1 = j
  have hfolder : (names root.toList).dropLast.take j = (names root.toList).take j := by
    rw [dropLast_eq_take, take_take, Nat.min_eq_left (by omega)]
  rw [namesTo, length_dropLast, hj, hfolder]
  conv => lhs; lhs; rw [← take_append_drop j (names root.toList)]
  exact prefix_append_right_inj _

/-- A root without names is one or two slashes.  All paths begin with one or
two of them, and then comes a name. -/
theorem within_iff_slashes (h : IsRoot root) (hnames : names root.toList = []) (filename : String) :
    Within root (normalize (root ++ filename)) ↔
      (leadingSlashes (root.toList ++ filename.toList) = root.toList ∧
          (climb (stepsTo root filename)).2 = []) ∨
        leadingSlashes (root.toList ++ filename.toList) = root.toList ++ ['/'] := by
  obtain ⟨n, hn, -, hlist⟩ := h.toList_eq
  rw [hnames] at hlist
  have hpath := toList_normalize_append h filename
  have hbelow := isName_of_mem_namesTo h filename
  have hto : namesTo root filename = (climb (stepsTo root filename)).2 := by
    rw [namesTo, hnames, dropLast_nil, take_nil, nil_append]
  rw [hto] at hpath hbelow
  generalize (climb (stepsTo root filename)).2 = below at *
  have hslashes := leadingSlashes_eq (root.toList ++ filename.toList)
    (h.1.trans (prefix_append _ _))
  generalize leadingSlashes (root.toList ++ filename.toList) = slashes at *
  rw [Within, ← String.toList_inj, hpath]
  simp only [joinWith, append_nil] at hlist
  rw [hlist]
  by_cases hnone : below = []
  · subst hnone
    rcases hslashes with rfl | rfl <;> rcases hn with rfl | rfl <;> simp [joinWith]
  · obtain ⟨c, cs, hc, hhead⟩ := head_joinWith hbelow hnone
    rw [hhead]
    rcases hslashes with rfl | rfl <;> rcases hn with rfl | rfl <;> simp [hnone, hc, Ne.symm hc]

theorem within_iff_returns (h : IsRoot root) (filename : String) :
    Within root (normalize (root ++ filename)) ↔ Returns root filename := by
  unfold Returns
  by_cases hnames : names root.toList = []
  · rw [within_iff_slashes h hnames]
    simp [hnames]
  · rw [within_iff_names h hnames, prefix_namesTo_iff]
    simp [hnames]

end Path

open Path

theorem Server.pathOf_eq {server : Server} (h : IsRoot server.root) (filename : String) :
    server.pathOf filename = normalize (server.root ++ filename) := by
  have hslash : (server.root ++ filename).startsWith "/" = true := by
    rw [String.startsWith_string_iff, String.toList_append]
    exact h.1.trans (prefix_append _ _)
  rw [pathOf, absolute, join, if_pos (.inl hslash)]

theorem Serve.run_findPage_congr {files others : Files} {filename : String} {s : Service}
    (h : others (s.server.pathOf filename) = files (s.server.pathOf filename)) :
    (findPage others filename).run s = (findPage files filename).run s := by
  unfold findPage
  rw [EStateM.run_bind, EStateM.run_bind, EStateM.run_get]
  dsimp only
  generalize s.server.pathOf filename = path at h ⊢
  cases s.server.cache.get? path with
  | some code => rfl
  | none => rw [h]

/-- The path at which a page is looked up and read is in the root exactly if
the steps to the page return to the root.  If it is, files outside of the root
make no difference to what is found. -/
theorem within_root_iff {server : Server} (hroot : IsRoot server.root) (filename : String) :
    (Path.Within server.root (server.pathOf filename) ↔ Returns server.root filename) ∧
    (Returns server.root filename → ∀ files others : Files,
      (∀ path, Path.Within server.root path → others path = files path) → ∀ world client,
        (Serve.findPage others filename).run ⟨world, server, client⟩ =
          (Serve.findPage files filename).run ⟨world, server, client⟩) := by
  have hiff := within_iff_returns hroot filename
  rw [← server.pathOf_eq hroot] at hiff
  refine ⟨hiff, fun hreturns files others hsame world client => ?_⟩
  exact Serve.run_findPage_congr (hsame _ (hiff.2 hreturns))

/-- A page that is reached through the folders around the root. -/
theorem within_root_iff_roundabout :
    IsRoot "/srv/www" ∧ Returns "/srv/www" "/../../srv/www/./a.php" ∧
      Path.Within "/srv/www" (({ root := "/srv/www" } : Server).pathOf "/../../srv/www/./a.php") := by
  have hroot : IsRoot ({ root := "/srv/www" } : Server).root := ⟨by decide, by decide⟩
  have hreturns : Returns "/srv/www" "/../../srv/www/./a.php" := by decide
  exact ⟨hroot, hreturns, (within_root_iff hroot _).1.2 hreturns⟩

/-- A step up leads out of the root, and so does a name without a slash. -/
theorem page_outside_root :
    IsRoot "/srv/www" ∧
      Request.parse "GET /../secret.php HTTP/1.1" = .ok ⟨"/../secret.php", []⟩ ∧
      ¬Path.Within "/srv/www" (({ root := "/srv/www" } : Server).pathOf "/../secret.php") ∧
      Request.parse "GET -private/a.php HTTP/1.1" = .ok ⟨"-private/a.php", []⟩ ∧
      ¬Path.Within "/srv/www" (({ root := "/srv/www" } : Server).pathOf "-private/a.php") := by
  have hroot : IsRoot ({ root := "/srv/www" } : Server).root := ⟨by decide, by decide⟩
  rw [Server.pathOf_eq hroot, Server.pathOf_eq hroot]
  exact ⟨hroot, rfl, by decide, rfl, by decide⟩

end PageScript
