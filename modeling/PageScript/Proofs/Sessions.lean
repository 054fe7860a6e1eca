/-
Programs and requests, one after the other.

A program that runs in a world that others have used is, renumbered, the one that runs in a
new world (`World.new_atop`), just as long as it looks up no constant that the others have
left (`isolated_iff`).  A server is such a world, too: the pages it keeps are those it would
read again (`Server.Served.alike`).
-/
import PageScript.Proofs.Isolation

open EStateM (Result)

namespace PageScript

open EStateM Entries Serve Page

variable {code : Bytecode} {source : String} {w : World} {other : Server} {fuel : Nat}

/-! ### Programs -/

theorem World.new_atop (w : World) : ({ clock := w.clock } : World).atop w = w := by
  obtain ⟨⟨lists, dicts, refs, builders, cursors, codes⟩, constants, written, clock⟩ := w
  simp [World.atop, Transport.world, Transport.behind, Transfer.behind, Store.atop, renumbered]

/-- A world and a new interpreter in it, with the query of a request if there
is one. -/
def Interpreter.prepare (world : World) : Option (List (String × String)) → World × Interpreter
  | none => (world, {})
  | some query => setup world {} query

theorem Interpreter.prepare_eq (w : World) (query : Option (List (String × String))) :
    prepare w query = ((prepare { clock := w.clock } query).1.atop w,
      (prepare { clock := w.clock } query).2.atop w) := by
  cases query with
  | none => exact congrArg (·, ({} : Interpreter)) w.new_atop.symm
  | some query =>
    have hsetup := setup_atop (u := { clock := w.clock }) (w := w) (i := {}) query
    rwa [World.new_atop] at hsetup

theorem Interpreter.prepare_new (clock : Float) (query : Option (List (String × String))) :
    (∀ code ∈ (prepare { clock := clock } query).1.store.codes, code.IsResolved) ∧
      (prepare { clock := clock } query).1.constants = [] := by
  cases query <;> exact ⟨fun code h => absurd h (Array.not_mem_empty code), rfl⟩

theorem Ending.fault?_renumbered {ρ : Renumbering} (e : Ending) :
    (e.renumbered ρ).fault? = e.fault? := by
  cases e <;> rfl

/-! ### Pages -/

theorem Page.compile_eq (w u : World) (source name : String) :
    (compile w source name).2 = (compile u source name).2 := by
  unfold compile read
  cases Tree.ofSource source with
  | error fault => rfl
  | ok tree =>
    dsimp only
    cases Script.ofTree tree <;> rfl

theorem Page.ok_of_compile {name : String} (h : (compile w source name).2 = .ok code) :
    ∃ tree script, Tree.ofSource source = .ok tree ∧ Script.ofTree tree = .ok script ∧
      script.compile name = .ok code ∧ compile w source name = (w, .ok code) := by
  unfold compile read at h ⊢
  cases htree : Tree.ofSource source with
  | error fault =>
    rw [htree] at h
    cases h
  | ok tree =>
    rw [htree] at h
    dsimp only at h ⊢
    cases hscript : Script.ofTree tree with
    | error fault =>
      rw [hscript] at h
      cases h
    | ok script =>
      rw [hscript] at h
      exact ⟨tree, script, rfl, hscript, h, congrArg (Prod.mk w) h⟩

theorem Tree.mainAtRoot_of_ofSource {tree : Tree}
    (h : Tree.ofSource source = .ok tree) : tree.MainAtRoot := by
  unfold Tree.ofSource at h
  dsimp only at h
  split at h
  · cases h
    rfl
  · split at h
    · cases h
      rfl
    · cases h

theorem Page.isResolved_of_compile {name : String}
    (h : (compile w source name).2 = .ok code) : code.IsResolved := by
  obtain ⟨tree, script, htree, hscript, hcompile, -⟩ := ok_of_compile h
  obtain ⟨hresolved, hliteral⟩ := Script.resolved (Tree.mainAtRoot_of_ofSource htree) hscript
  exact Script.isResolved_of_compile hresolved hliteral hcompile

namespace Server

variable {files : Files} {server : Server} {filename : String}

/-- The code of a page that is kept, or else what the file at this path compiles
to.  There is none without a file.  Reading and compiling can fail. -/
def pageAt (files : Files) (path : String) : Option Bytecode → Except Fault (Option Bytecode)
  | some code => .ok (some code)
  | none =>
    match files path with
    | .error fault => .error fault
    | .ok none => .ok none
    | .ok (some source) => (Page.compile {} source path).2.map some

/-- The code of a page that a server has, or what goes wrong when it looks. -/
def page (server : Server) (files : Files) (filename : String) : Except Fault (Option Bytecode) :=
  pageAt files (server.pathOf filename) (server.cache.get? (server.pathOf filename))

/-- All code that is kept has only variables and constants that are there. -/
def Resolved (server : Server) : Prop := ∀ entry ∈ server.cache, entry.2.IsResolved

theorem pageAt_of_source {path : String} (h : files path = .ok (some source)) :
    pageAt files path none = (Page.compile {} source path).2.map some := by
  rw [pageAt, h]

theorem Resolved.page (h : server.Resolved)
    (hpage : server.page files filename = .ok (some code)) : code.IsResolved := by
  unfold Server.page at hpage
  cases hcache : server.cache.get? (server.pathOf filename) with
  | some kept =>
    rw [hcache] at hpage
    cases hpage
    exact h _ (mem_of_get? hcache)
  | none =>
    rw [hcache] at hpage
    -- The page is not kept, so its file was read and compiled just now.
    cases hfile : files (server.pathOf filename) with
    | error fault =>
      rw [pageAt, hfile] at hpage
      cases hpage
    | ok source? =>
      cases source? with
      | none =>
        rw [pageAt, hfile] at hpage
        cases hpage
      | some source =>
        rw [pageAt_of_source hfile] at hpage
        cases hcompile : (compile {} source (server.pathOf filename)).2 with
        | error fault =>
          rw [hcompile] at hpage
          cases hpage
        | ok compiled =>
          rw [hcompile] at hpage
          cases hpage
          exact isResolved_of_compile hcompile

/-- Two servers have the same pages. -/
structure Alike (files : Files) (server other : Server) : Prop where
  root : other.root = server.root
  page : ∀ filename, other.page files filename = server.page files filename

theorem Alike.refl : Alike files server server := ⟨rfl, fun _ => rfl⟩

theorem Alike.trans {third : Server} (h : Alike files server other)
    (h' : Alike files other third) : Alike files server third :=
  ⟨h'.root.trans h.root, fun filename => (h'.page filename).trans (h.page filename)⟩

/-- A server may keep the code of a page that it has read: it would read the
same again. -/
theorem Alike.keep {path : String} (hcache : server.cache.get? path = none)
    (hread : files path = .ok (some source)) (hcompile : (compile {} source path).2 = .ok code) :
    Alike files server { server with cache := server.cache.put path code } := by
  refine ⟨rfl, fun filename => ?_⟩
  have hput := put_of_not_mem (v := code) (get?_eq_none_iff.1 hcache)
  show pageAt files (server.pathOf filename)
    ((server.cache.put path code).get? (server.pathOf filename)) = _
  rw [hput, get?_append, Server.page]
  by_cases hpath : server.pathOf filename = path
  · rw [hpath, hcache, pageAt_of_source hread, hcompile]
    simp [get?, pageAt, Except.map]
  · have hother : get? [(path, code)] (server.pathOf filename) = none :=
      get?_eq_none_iff.2 (by simpa [keys] using hpath)
    rw [hother, Option.or_none]

end Server

namespace Serve

theorem run_compilePage (path source : String) (s : Service) :
    match (compile {} source path).2 with
    | .ok code => (compilePage path source).run s = .ok code { s with
        server := { s.server with cache := s.server.cache.put path code } }
    | .error e => ∃ world, (compilePage path source).run s = .error e { s with world := world } := by
  obtain ⟨world, server, client⟩ := s
  rw [compile_eq {} world]
  cases hcompile : (compile world source path).2 with
  | ok code =>
    obtain ⟨-, -, -, -, -, hsame⟩ := ok_of_compile hcompile
    simp only [compilePage, run_bind, run_get, hsame]
    rfl
  | error e =>
    refine ⟨(compile world source path).1, ?_⟩
    have hpair : compile world source path = ((compile world source path).1, .error e) :=
      Prod.ext rfl hcompile
    simp only [compilePage, run_bind, run_get]
    rw [hpair]
    rfl

/-- A page is found or not, or something goes wrong, as `Server.page` says.
Only the server can have changed if it is found, and else only the world. -/
theorem run_findPage (files : Files) (filename : String) (s : Service) :
    match s.server.page files filename with
    | .ok none => ∃ world, (findPage files filename).run s = .ok none { s with world := world }
    | .ok (some code) => ∃ server, Server.Alike files s.server server ∧
        (findPage files filename).run s = .ok (some code) { s with server := server }
    | .error e => ∃ world, (findPage files filename).run s = .error e { s with world := world } := by
  obtain ⟨world, server, client⟩ := s
  unfold Server.page findPage
  simp only [run_bind, run_get]
  cases hcache : server.cache.get? (server.pathOf filename) with
  | some code => exact ⟨server, .refl, rfl⟩
  | none =>
    cases hread : files (server.pathOf filename) with
    | error fault =>
      rw [Server.pageAt, hread]
      exact ⟨world, rfl⟩
    | ok source? =>
      cases source? with
      | none =>
        rw [Server.pageAt, hread]
        exact ⟨_, rfl⟩
      | some source =>
        have hrun := run_compilePage (server.pathOf filename) source ⟨world, server, client⟩
        rw [Server.pageAt_of_source hread]
        show match (compile {} source (server.pathOf filename)).2.map some with
          | .ok none => ∃ world', (compilePage _ source >>= fun code => pure (some code)).run _ = _
          | .ok (some code) => ∃ server', _ ∧
              (compilePage _ source >>= fun code => pure (some code)).run _ = _
          | .error e => ∃ world', (compilePage _ source >>= fun code => pure (some code)).run _ = _
        rw [run_bind]
        cases hcompile : (compile {} source (server.pathOf filename)).2 with
        | ok code =>
          rw [hcompile] at hrun
          exact ⟨_, .keep hcache hread hcompile, by rw [hrun]; rfl⟩
        | error e =>
          rw [hcompile] at hrun
          obtain ⟨world', hrun⟩ := hrun
          exact ⟨world', by rw [hrun]⟩

/-- What a page has to say to a request. -/
def bodyOf (fuel : Nat) (world : World) (query : Entries String) (code : Bytecode) :
    Except Fault String :=
  let (world, i) := Interpreter.setup world {} query
  let r := i.runReturn fuel world code
  match r.ending.fault?, r.returned with
  | some fault, _ => .error fault
  | none, some body => .ok body
  | none, none => .error .wrongArguments

/-- The status and the body that a message gets, or what goes wrong. -/
def reply (fuel : Nat) (files : Files) (world : World) (server : Server) (message : String) :
    Except Fault (Int × String) := do
  let request ← Request.read messageSize message
  match ← server.page files request.filename with
  | none => return (404, Response.notFoundBody)
  | some code => return (200, ← bodyOf fuel world request.query code)

theorem bodyOf_eq {query : Entries String} (hcode : code.IsResolved)
    (hfree : Interpreter.Free w fuel (Interpreter.setup { clock := w.clock } {} query).1
      { (Interpreter.setup { clock := w.clock } {} query).2 with
        buffers := "" :: (Interpreter.setup { clock := w.clock } {} query).2.buffers } code) :
    bodyOf fuel w query code = bodyOf fuel { clock := w.clock } query code := by
  have hprepare : Interpreter.setup w {} query
      = ((Interpreter.setup { clock := w.clock } {} query).1.atop w,
        (Interpreter.setup { clock := w.clock } {} query).2.atop w) :=
    Interpreter.prepare_eq w (some query)
  obtain ⟨hcodes, hconstants⟩ := Interpreter.prepare_new w.clock (some query)
  have hrun : ((Interpreter.setup { clock := w.clock } {} query).2.atop w).runReturn fuel
      ((Interpreter.setup { clock := w.clock } {} query).1.atop w) code = _ :=
    Interpreter.runReturn_atop hcodes hconstants hcode hfree
  unfold bodyOf
  rw [hprepare]
  dsimp only
  rw [hrun]
  simp only [Run.atop, Ending.fault?_renumbered]

theorem run_runPage (fuel : Nat) (query : Entries String) (code : Bytecode) (s : Service) :
    ∃ world, (runPage fuel query code).run s = match bodyOf fuel s.world query code with
      | .ok body => .ok body { s with world := world }
      | .error e => .error e { s with world := world } := by
  obtain ⟨world, server, client⟩ := s
  unfold runPage bodyOf
  simp only [run_bind, run_get]
  refine ⟨((Interpreter.setup world {} query).2.runReturn fuel
    (Interpreter.setup world {} query).1 code).world, ?_⟩
  generalize (Interpreter.setup world {} query).2.runReturn fuel
    (Interpreter.setup world {} query).1 code = r
  obtain ⟨world', interpreter, ending, course, returned⟩ := r
  cases ending with
  | finished v => cases returned <;> rfl
  | failed fault => rfl
  | outOfFuel => rfl

/-- Sends a response, logs it and closes the client. -/
def finish (filename : String) (response : Int × String) : Serve Unit := do
  send response.1 response.2
  log response.1 filename
  modify fun s => { s with client := { s.client with closed := true } }

theorem answer_eq {files : Files} {message : String} {request : Request}
    (h : Request.read messageSize message = .ok request) :
    answer fuel files message = findPage files request.filename >>= fun page =>
      match page with
      | none => finish request.filename (404, Response.notFoundBody)
      | some code => runPage fuel request.query code >>= fun body =>
          finish request.filename (200, body) := by
  rw [answer, h]
  rfl

/-- A message is answered with what its page has to say, and the client is
closed, or it fails and the client is left alone. -/
theorem run_answer (fuel : Nat) (files : Files) (message : String) (s : Service) :
    ∃ world server, Server.Alike files s.server server ∧
      (answer fuel files message).run s = match reply fuel files s.world s.server message with
        | .ok (code, body) => .ok () ⟨world, server, { s.client with
            sent := s.client.sent ++ [Response.text code body], closed := true }⟩
        | .error e => .error e ⟨world, server, s.client⟩ := by
  obtain ⟨world, server, client⟩ := s
  cases hrequest : Request.read messageSize message with
  | error e =>
    rw [answer, reply, hrequest]
    exact ⟨world, server, .refl, rfl⟩
  | ok request =>
    have hfind := run_findPage files request.filename ⟨world, server, client⟩
    have hreply : reply fuel files world server message
        = server.page files request.filename >>= fun page =>
          match page with
          | none => .ok ((404 : Int), Response.notFoundBody)
          | some code => do return (200, ← bodyOf fuel world request.query code) := by
      rw [reply, hrequest]
      rfl
    rw [answer_eq hrequest, run_bind, hreply]
    cases hpage : server.page files request.filename with
    | error e =>
      simp only [hpage] at hfind
      obtain ⟨world', hfind⟩ := hfind
      rw [hfind]
      exact ⟨world', server, .refl, rfl⟩
    | ok page =>
      cases page with
      | none =>
        simp only [hpage] at hfind
        obtain ⟨world', hfind⟩ := hfind
        rw [hfind]
        exact ⟨_, server, .refl, rfl⟩
      | some code =>
        simp only [hpage] at hfind
        obtain ⟨server', halike, hfind⟩ := hfind
        obtain ⟨world', hrun⟩ := run_runPage fuel request.query code ⟨world, server', client⟩
        rw [hfind]
        dsimp only at hrun ⊢
        rw [run_bind, hrun]
        dsimp only [bind, Except.bind]
        cases hbody : bodyOf fuel world request.query code with
        | error e => exact ⟨world', server', halike, rfl⟩
        | ok body => exact ⟨_, server', halike, rfl⟩

end Serve

namespace Server

variable {files : Files} {server : Server} {w : World} {address : String}

/-- What the client of a request is told: the fault that it does not see, and
what it was sent. -/
def response (fuel : Nat) (files : Files) (address : String) (world : World)
    (server : Server) (message : String) : Option Fault × Client :=
  let (fault, s) := handle fuel files address world server message
  (fault, s.client)

/-- A server that has answered requests, each in some world. -/
inductive Served (files : Files) (server : Server) : Server → Prop where
  | start : Served files server server
  | answer {other : Server} (fuel : Nat) (address : String) (world : World) (message : String) :
      Served files server other →
      Served files server (handle fuel files address world other message).2.server

theorem alike_of_handle (fuel : Nat) (message : String) :
    Alike files server (handle fuel files address w server message).2.server := by
  obtain ⟨world, other, halike, hrun⟩ :=
    run_answer fuel files message ⟨w, server, { address := address }⟩
  rw [handle, hrun]
  cases reply fuel files w server message <;> exact halike

theorem Served.alike (h : Served files server other) : Alike files server other := by
  induction h with
  | start => exact .refl
  | answer fuel address world message _ ih => exact ih.trans (alike_of_handle fuel message)

/-- The page that a request asks for runs and looks up no name that was left. -/
def Free (w : World) (fuel : Nat) (files : Files) (server : Server) (message : String) : Prop :=
  ∀ request code, Request.read messageSize message = .ok request →
    server.page files request.filename = .ok (some code) →
    let (world, i) := Interpreter.setup { clock := w.clock } {} request.query
    Interpreter.Free w fuel world { i with buffers := "" :: i.buffers } code

theorem response_of_reply (fuel : Nat) (message : String) :
    response fuel files address w server message
      = match reply fuel files w server message with
        | .ok (code, body) =>
          (none, { address := address, sent := [Response.text code body], closed := true })
        | .error e => (some e, { address := address }) := by
  obtain ⟨world, other, -, hrun⟩ :=
    run_answer fuel files message ⟨w, server, { address := address }⟩
  rw [response, handle, hrun]
  cases reply fuel files w server message <;> rfl

theorem reply_eq (hresolved : server.Resolved) (halike : Alike files server other)
    {message : String} (hfree : server.Free w fuel files message) :
    reply fuel files w other message
      = reply fuel files { clock := w.clock } server message := by
  unfold reply
  cases hrequest : Request.read messageSize message with
  | error e => rfl
  | ok request =>
    show (other.page files request.filename >>= _ : Except Fault (Int × String))
      = server.page files request.filename >>= _
    rw [halike.page]
    cases hpage : server.page files request.filename with
    | error e => rfl
    | ok page =>
      cases page with
      | none => rfl
      | some code =>
        have hbody : bodyOf fuel w request.query code = _ :=
          bodyOf_eq (hresolved.page hpage) (hfree request code hrequest hpage)
        show (do return (200, ← bodyOf fuel w request.query code) : Except Fault (Int × String)) = _
        rw [hbody]
        rfl

end Server

/-! ### Isolation -/

open Interpreter (prepare)

/-- A program in a world `w` that others have used, and in a new one with the
same clock.  Both begin in the same state, renumbered, and they go on in the
same states, renumbered, just as long as the program looks up no constant that
the others have left.  A run that looks up none shows the same, whether its
output is written or collected.  A server that has answered any requests answers
a further one as it would have done in a new world in the beginning, unless the
page looks up a constant that was left. -/
theorem isolated_iff {tree : Tree} (hmain : tree.MainAtRoot) {s : Script}
    (hread : Script.ofTree tree = .ok s) {name : String} {code : Bytecode}
    (hcompile : s.compile name = .ok code) {w new used : World} {i j : Interpreter}
    {query : Option (List (String × String))} (hnew : prepare { clock := w.clock } query = (new, i))
    (hused : prepare w query = (used, j)) :
    (∀ start, Machine.launch new i code = .ok start →
      Machine.launch used j code = .ok (start.atop w) ∧
        ∀ n, start.SameWithin w n ↔ start.FreeWithin w n) ∧
    (∀ fuel, i.Free w fuel new code →
      (j.run fuel used code).outcome = (i.run fuel new code).outcome.after w.written) ∧
    (∀ fuel, { i with buffers := "" :: i.buffers }.Free w fuel new code →
      (j.runReturn fuel used code).outcome = (i.runReturn fuel new code).outcome.after w.written) ∧
    ∀ files server other fuel address message, server.Resolved →
      Server.Served files server other → server.Free w fuel files message →
      Server.response fuel files address w other message
        = Server.response fuel files address { clock := w.clock } server message := by
  obtain ⟨hresolved, hliteral⟩ := Script.resolved hmain hread
  have hcode := Script.isResolved_of_compile hresolved hliteral hcompile
  obtain ⟨hcodes, hconstants⟩ := Interpreter.prepare_new w.clock query
  rw [hnew] at hcodes hconstants
  rw [Interpreter.prepare_eq w query, hnew] at hused
  cases hused
  refine ⟨fun start hlaunch => ⟨?_, ?_⟩, fun fuel hfree => ?_, fun fuel hfree => ?_, ?_⟩
  · rw [Machine.launch_atop, hlaunch]
    rfl
  · exact Machine.sameWithin_iff (.launch hcodes hconstants hcode hlaunch)
  · rw [Interpreter.run_atop hcodes hconstants hcode hfree, Run.outcome_atop]
  · rw [Interpreter.runReturn_atop hcodes hconstants hcode hfree, Run.outcome_atop]
  · intro files server other fuel address message hserver hserved hfree
    rw [Server.response_of_reply, Server.response_of_reply,
      Server.reply_eq hserver hserved.alike hfree]

open Sample

/-- `define("A", 1);` -/
def definingTree : Tree :=
  programTree [expressionTree (callTree "define" [doubleText "A", numeral "1"])]

/-- `define("B", 2); print B;` -/
def selfContainedTree : Tree := programTree [
  expressionTree (callTree "define" [doubleText "B", numeral "2"]),
  printTree (.branch "constantexpression" [.leaf "CONSTANT" "B"])]

/-- `print A;` -/
def dependentTree : Tree :=
  programTree [printTree (.branch "constantexpression" [.leaf "CONSTANT" "A"])]

/-- A program that looks up its own constant only. -/
theorem isolated_iff_ownConstant :
    ∃ s b, selfContainedTree.MainAtRoot ∧ Script.ofTree selfContainedTree = .ok s ∧
      s.compile "main" = .ok b ∧
      (({} : Interpreter).run 9 { constants := [("A", .int 1)], written := "1" } b).outcome
        = (({} : Interpreter).run 9 {} b).outcome.after "1" ∧
      (({} : Interpreter).run 9 {} b).outcome.written = "2" := by
  let w : World := { constants := [("A", .int 1)], written := "1" }
  obtain ⟨s, hread, b, hcompile, start, hlaunch, hfree, hwritten⟩ :
      ∃ s, Script.ofTree selfContainedTree = .ok s ∧ ∃ b, s.compile "main" = .ok b ∧
      ∃ start, Machine.launch {} {} b = .ok start ∧ start.FreeWithin w 9 ∧
      (({} : Interpreter).run 9 {} b).outcome.written = "2" := by decide +kernel
  have hmain : selfContainedTree.MainAtRoot := by decide
  have hruns : Interpreter.Free w 9 {} {} b := by
    intro start' hlaunch'
    rw [hlaunch] at hlaunch'
    cases hlaunch'
    exact hfree
  have hnew : prepare { clock := w.clock } none = ({}, {}) := rfl
  have hused : prepare w none = (w, {}) := rfl
  have hisolated := isolated_iff hmain hread hcompile hnew hused
  exact ⟨s, b, hmain, hread, hcompile, hisolated.2.1 9 hruns, hwritten⟩

/-- The one program leaves a constant, and the other finds it. -/
theorem constant_carries_over :
    ∃ s b s' b', Script.ofTree definingTree = .ok s ∧ s.compile "main" = .ok b ∧
      Script.ofTree dependentTree = .ok s' ∧ s'.compile "main" = .ok b' ∧
      (({} : Interpreter).run 9 {} b').outcome.fault?
        = some (.complaint (.undefinedConstant "A")) ∧
      (({} : Interpreter).run 9 (({} : Interpreter).run 9 {} b).world b').outcome.fault? = none ∧
      (({} : Interpreter).run 9 (({} : Interpreter).run 9 {} b).world b').outcome.written = "1" := by
  obtain ⟨s, hread, b, hcompile, s', hread', b', hcompile', hb'⟩ :
      ∃ s, Script.ofTree definingTree = .ok s ∧ ∃ b, s.compile "main" = .ok b ∧
      ∃ s', Script.ofTree dependentTree = .ok s' ∧ ∃ b', s'.compile "main" = .ok b' ∧
      (({} : Interpreter).run 9 {} b').outcome.fault?
        = some (.complaint (.undefinedConstant "A")) ∧
      (({} : Interpreter).run 9 (({} : Interpreter).run 9 {} b).world b').outcome.fault? = none ∧
      (({} : Interpreter).run 9 (({} : Interpreter).run 9 {} b).world b').outcome.written = "1" := by
    decide +kernel
  exact ⟨s, b, s', b', hread, hcompile, hread', hcompile', hb'⟩

end PageScript
