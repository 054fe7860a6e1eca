/-
Which messages are answered.

A message is answered if its client gets one response and its connection is
closed (`Server.Answers`).  For this the message has to begin with one of two
methods and a blank (`Request.read_eq_ok_iff`; what was put together like this is
read back, `Request.parse_lineFor`), and its page has to be one that can be read,
runs to its end and leaves a buffer, or not to be there at all.  Otherwise the
server ends with the fault (`answered_iff`).
-/
import PageScript.Proofs.Sessions

namespace PageScript

open Interpreter Text Serve

theorem Entries.putAll_of_nodup {α : Type} {es new : Entries α} (h : (es ++ new).keys.Nodup) :
    es.putAll new = es ++ new := by
  induction new generalizing es with
  | nil => exact (List.append_nil es).symm
  | cons e new ih =>
    have hsplit : es ++ e :: new = es ++ [e] ++ new := (List.append_assoc es [e] new).symm
    have hnew : e.1 ∉ es.keys := by
      intro hmem
      rw [Entries.keys, List.map_append, List.nodup_append] at h
      exact h.2.2 e.1 hmem e.1 (.head _) rfl
    calc es.putAll (e :: new)
      _ = (es.put e.1 e.2).putAll new := rfl
      _ = (es ++ [e]).putAll new := by rw [Entries.put_of_not_mem hnew]
      _ = es ++ e :: new := by rw [ih (hsplit ▸ h), hsplit]

namespace Request

def lineOf (message : String) : List Char :=
  dropLineEnds (message.toList.take messageSize)

/-- The line has a known method and a blank, and `after` comes after that. -/
def Asks (line after : List Char) : Prop :=
  line = "GET".toList ++ ' ' :: after ∨ line = "HEAD".toList ++ ' ' :: after

theorem asks_iff_words (line path : List Char) :
    (∃ after, Asks line after ∧ path = (splitAt ' ' after).headD []) ↔
      ∃ method words, splitAt ' ' line = method :: path :: words ∧
        (String.ofList method = "GET" ∨ String.ofList method = "HEAD") := by
  constructor
  · rintro ⟨after, hasks, rfl⟩
    cases hafter : splitAt ' ' after with
    | nil => exact absurd hafter (splitAt_ne_nil ' ' after)
    | cons path words =>
      rcases hasks with rfl | rfl
      · refine ⟨"GET".toList, words, ?_, .inl rfl⟩
        rw [splitAt_append, splitAt_of_not_mem (by decide), hafter]
        rfl
      · refine ⟨"HEAD".toList, words, ?_, .inr rfl⟩
        rw [splitAt_append, splitAt_of_not_mem (by decide), hafter]
        rfl
  · rintro ⟨method, words, hsplit, hmethod⟩
    have hline : method ++ ' ' :: joinWith [' '] (path :: words) = line := by
      have hjoined := joinWith_splitAt ' ' line
      rwa [hsplit, joinWith, List.append_assoc] at hjoined
      exact List.cons_ne_nil _ _
    have hpieces : ∀ piece ∈ path :: words, ' ' ∉ piece := fun piece hpiece =>
      not_mem_of_mem_splitAt (hsplit ▸ List.mem_cons_of_mem _ hpiece)
    refine ⟨joinWith [' '] (path :: words), ?_, ?_⟩
    · refine hmethod.imp (fun h => ?_) fun h => ?_
      · rw [← hline, ← h, String.toList_ofList]
      · rw [← hline, ← h, String.toList_ofList]
    · rw [splitAt_joinWith (List.cons_ne_nil path words) hpieces, List.headD_cons]

theorem parse_eq_ok_iff (line : List Char) (request : Request) :
    parse (String.ofList line) = .ok request ↔
      ∃ method path words, splitAt ' ' line = method :: path :: words ∧
        (String.ofList method = "GET" ∨ String.ofList method = "HEAD") ∧ request = ofPath path := by
  unfold parse
  rw [String.toList_ofList]
  dsimp only
  cases splitAt ' ' line with
  | nil => simp
  | cons method words =>
    by_cases hmethod : String.ofList method = "GET" ∨ String.ofList method = "HEAD"
    · cases words with
      | nil => simp [hmethod]
      | cons path words =>
        simp [hmethod]
        exact eq_comm
    · simp [hmethod]

/-- A request can be read exactly from a line that begins with a known method
and a blank.  It asks for the next word of the line. -/
theorem read_eq_ok_iff (message : String) (request : Request) :
    read messageSize message = .ok request ↔
      ∃ after, Asks (lineOf message) after ∧
        request = ofPath ((splitAt ' ' after).headD []) := by
  have hparse : read messageSize message = .ok request ↔
      parse (String.ofList (lineOf message)) = .ok request := by
    unfold read
    rw [← lineOf]
    cases lineOf message with
    | nil => exact iff_of_false (by rintro ⟨⟩) (by rintro ⟨⟩)
    | cons c cs => rfl
  rw [hparse, parse_eq_ok_iff]
  constructor
  · rintro ⟨method, path, words, hwords, hmethod, rfl⟩
    obtain ⟨after, hasks, rfl⟩ := (asks_iff_words _ path).2 ⟨method, words, hwords, hmethod⟩
    exact ⟨after, hasks, rfl⟩
  · rintro ⟨after, hasks, rfl⟩
    obtain ⟨method, words, hwords, hmethod⟩ := (asks_iff_words _ _).1 ⟨after, hasks, rfl⟩
    exact ⟨method, _, words, hwords, hmethod, rfl⟩

/-! ### Requests that are written out -/

/-- A query, written with `=` between a name and its value and `&` between pairs. -/
def queryText (pairs : Entries String) : List Char :=
  joinWith ['&'] (pairs.map fun e => e.1.toList ++ '=' :: e.2.toList)

/-- A line that asks for a page with a query, and has more behind it. -/
def lineFor (method path : String) (pairs : Entries String) (suffix : String) : String :=
  method ++ " " ++ path ++ "?" ++ String.ofList (queryText pairs) ++ " " ++ suffix

theorem not_mem_queryText {pairs : Entries String} {c : Char} (hc : c ∉ ['=', '&'])
    (h : ∀ e ∈ pairs, c ∉ e.1.toList ∧ c ∉ e.2.toList) : c ∉ queryText pairs := by
  unfold queryText
  induction pairs with
  | nil => exact List.not_mem_nil
  | cons e pairs ih =>
    rw [List.forall_mem_cons] at h
    have hpair : c ∉ e.1.toList ++ '=' :: e.2.toList := by simp_all
    cases pairs with
    | nil => exact hpair
    | cons next pairs =>
      have hrest := ih h.2
      simp_all [joinWith]

theorem unpackQuery_queryText {pairs : Entries String} (hne : pairs ≠ []) (hkeys : pairs.keys.Nodup)
    (hnames : ∀ e ∈ pairs, '=' ∉ e.1.toList ∧ '&' ∉ e.1.toList)
    (hvalues : ∀ e ∈ pairs, '&' ∉ e.2.toList) : unpackQuery (queryText pairs) = pairs := by
  have hpieces : ∀ piece ∈ pairs.map fun e => e.1.toList ++ '=' :: e.2.toList, '&' ∉ piece := by
    intro piece hpiece
    obtain ⟨e, he, rfl⟩ := List.mem_map.1 hpiece
    have hname := (hnames e he).2
    have hvalue := hvalues e he
    simp [hname, hvalue]
  have hparameters : (pairs.map fun e => e.1.toList ++ '=' :: e.2.toList).map parameter = pairs := by
    rw [List.map_map]
    refine (List.map_congr_left fun e he => ?_).trans (List.map_id pairs)
    simp [parameter, cutFirst_append (hnames e he).1]
  rw [unpackQuery, queryText, splitAt_joinWith (by simpa using hne) hpieces, hparameters]
  exact Entries.putAll_of_nodup hkeys

/-- A line that was put together from a method, a page and a query is read as
the request for this page with this query, whatever comes behind it. -/
theorem parse_lineFor {method path : String} {pairs : Entries String}
    (hmethod : method = "GET" ∨ method = "HEAD") (hpage : path ≠ "/")
    (hpath : ∀ c ∈ [' ', '?'], c ∉ path.toList) (hne : pairs ≠ []) (hkeys : pairs.keys.Nodup)
    (hnames : ∀ e ∈ pairs, ∀ c ∈ [' ', '?', '&', '='], c ∉ e.1.toList)
    (hvalues : ∀ e ∈ pairs, ∀ c ∈ [' ', '?', '&'], c ∉ e.2.toList) (suffix : String) :
    parse (lineFor method path pairs suffix) = .ok ⟨path, pairs⟩ := by
  simp only [List.forall_mem_cons] at hpath hnames hvalues
  have hline : lineFor method path pairs suffix = String.ofList (method.toList ++
      ' ' :: (path.toList ++ '?' :: queryText pairs ++ ' ' :: suffix.toList)) := by
    simp [lineFor, String.ext_iff]
  have hblank : ' ' ∉ method.toList := by
    rcases hmethod with rfl | rfl <;> decide
  -- Neither the path nor the query has a blank, so they are one word; a
  -- question mark is only between them.
  have hword : ' ' ∉ path.toList ++ '?' :: queryText pairs := by
    have hquery : ' ' ∉ queryText pairs := not_mem_queryText (by decide) fun e he =>
      ⟨(hnames e he).1, (hvalues e he).1⟩
    simp [hpath.1, hquery]
  have hmark : '?' ∉ queryText pairs := not_mem_queryText (by decide) fun e he =>
    ⟨(hnames e he).2.1, (hvalues e he).2.1⟩
  rw [hline, parse_eq_ok_iff]
  refine ⟨method.toList, path.toList ++ '?' :: queryText pairs, splitAt ' ' suffix.toList, ?_, ?_, ?_⟩
  · rw [splitAt_append, splitAt_append, splitAt_of_not_mem hblank, splitAt_of_not_mem hword]
    rfl
  · rwa [String.ofList_toList]
  · rw [ofPath, splitAt_append, splitAt_of_not_mem hpath.2.1, splitAt_of_not_mem hmark]
    simp [hpage, unpackQuery_queryText hne hkeys (fun e he => ⟨(hnames e he).2.2.2.1,
      (hnames e he).2.2.1⟩) fun e he => (hvalues e he).2.2.1]

/-- A value may have the sign in it that stands before it. -/
theorem parse_lineFor_sum :
    let line := lineFor "GET" "/sum.php" [("a", "1"), ("b", "x=y")] "HTTP/1.1"
    line = "GET /sum.php?a=1&b=x=y HTTP/1.1" ∧
      parse line = .ok ⟨"/sum.php", [("a", "1"), ("b", "x=y")]⟩ :=
  ⟨by decide +kernel, parse_lineFor (.inl rfl) (by decide) (by simp) (List.cons_ne_nil _ _)
    (by decide) (by simp) (by simp) "HTTP/1.1"⟩

end Request

/-! ### Pages that have something to say -/

/-- A page runs to its end and leaves an output buffer. -/
def Bytecode.Presents (fuel : Nat) (world : World) (query : Entries String) (code : Bytecode) :
    Prop :=
  let (world, i) := setup world {} query
  let r := { i with buffers := "" :: i.buffers }.execute fuel world code
  (∃ v, r.ending = .finished v) ∧ r.interpreter.buffers ≠ []

theorem Interpreter.returned_execute (fuel : Nat) (world : World) (i : Interpreter)
    (code : Bytecode) : (i.execute fuel world code).returned = none := by
  unfold execute
  cases Machine.launch world i code with
  | error fault => rfl
  | ok start =>
    dsimp only
    split <;> rfl

theorem Serve.bodyOf_eq_ok_iff (fuel : Nat) (world : World) (query : Entries String)
    (code : Bytecode) :
    (∃ body, bodyOf fuel world query code = .ok body) ↔ code.Presents fuel world query := by
  unfold bodyOf Bytecode.Presents runReturn
  dsimp only
  generalize hexecute : execute fuel (setup world {} query).1 _ code = r
  have hreturned : r.returned = none := by rw [← hexecute, returned_execute]
  obtain ⟨world', ⟨functions, buffers, superglobals⟩, ending, course, returned⟩ := r
  cases hreturned
  cases ending with
  | finished v => cases buffers <;> simp [Ending.fault?]
  | failed fault => simp [Ending.fault?]
  | outOfFuel => simp [Ending.fault?]

namespace Server

variable {fuel : Nat} {files : Files} {address : String} {world : World} {server : Server}
  {message : String}

/-- Nothing goes wrong when the page that a request asks for is looked for, and
if there is one, it has something to say. -/
def Presents (fuel : Nat) (files : Files) (world : World) (server : Server) (request : Request) :
    Prop :=
  ∃ page?, server.page files request.filename = .ok page? ∧
    ∀ code ∈ page?, code.Presents fuel world request.query

/-- The client gets one response, its connection is closed, and nothing goes
wrong. -/
def Answers (fuel : Nat) (files : Files) (address : String) (world : World) (server : Server)
    (message : String) : Prop :=
  ∃ code body, response fuel files address world server message =
    (none, { address := address, sent := [Response.text code body], closed := true })

theorem answers_iff_reply :
    server.Answers fuel files address world message ↔
      ∃ answer, reply fuel files world server message = .ok answer := by
  unfold Answers
  rw [response_of_reply]
  cases reply fuel files world server message with
  | error fault => simp
  | ok answer => exact ⟨fun _ => ⟨answer, rfl⟩, fun _ => ⟨answer.1, answer.2, rfl⟩⟩

theorem reply_eq_ok_iff :
    (∃ answer, reply fuel files world server message = .ok answer) ↔
      ∃ request, Request.read messageSize message = .ok request ∧
        server.Presents fuel files world request := by
  unfold reply Presents
  cases Request.read messageSize message with
  | error fault => exact iff_of_false (by rintro ⟨_, ⟨⟩⟩) (by rintro ⟨_, ⟨⟩, -⟩)
  | ok request =>
    simp only [bind, Except.bind, Except.ok.injEq, exists_eq_left']
    cases server.page files request.filename with
    | error fault => exact iff_of_false (by rintro ⟨_, ⟨⟩⟩) (by rintro ⟨_, ⟨⟩, -⟩)
    | ok page? =>
      simp only [Except.ok.injEq, exists_eq_left']
      cases page? with
      | none => exact iff_of_true ⟨_, rfl⟩ (by rintro _ ⟨⟩)
      | some code =>
        have hbody := bodyOf_eq_ok_iff fuel world request.query code
        simp only [Option.mem_some, forall_eq']
        rw [← hbody]
        cases bodyOf fuel world request.query code with
        | error fault => exact iff_of_false (by rintro ⟨_, ⟨⟩⟩) (by rintro ⟨_, ⟨⟩⟩)
        | ok body => exact iff_of_true ⟨(200, body), rfl⟩ ⟨body, rfl⟩

theorem handleAll_of_answers (h : server.Answers fuel files address world message)
    (clients : List Client) (messages : List String) :
    ∃ code body world' server',
      handleAll fuel files address world server clients (message :: messages) =
        handleAll fuel files address world' server' (clients ++
          [{ address := address, sent := [Response.text code body], closed := true }]) messages := by
  obtain ⟨code, body, hresponse⟩ := h
  unfold response at hresponse
  rw [handleAll]
  generalize handle fuel files address world server message = result at hresponse
  obtain ⟨fault?, s⟩ := result
  obtain ⟨rfl, hclient⟩ := Prod.mk.inj hresponse
  exact ⟨code, body, s.world, s.server, by rw [← hclient]⟩

theorem handleAll_of_not_answers (h : ¬server.Answers fuel files address world message)
    (clients : List Client) (messages : List String) :
    ∃ fault world', handleAll fuel files address world server clients (message :: messages) =
      (fault, world', clients ++ [{ address := address }]) := by
  have hresponse : response fuel files address world server message = _ :=
    response_of_reply fuel message
  rw [answers_iff_reply] at h
  cases hreply : reply fuel files world server message with
  | ok answer => exact absurd ⟨answer, hreply⟩ h
  | error fault =>
    rw [hreply] at hresponse
    unfold response at hresponse
    rw [handleAll]
    generalize handle fuel files address world server message = result at hresponse ⊢
    obtain ⟨fault?, s⟩ := result
    obtain ⟨rfl, hclient⟩ := Prod.mk.inj hresponse
    exact ⟨fault, s.world, by rw [← hclient]⟩

end Server

/-- A message gets its one response and a closed connection exactly if its
line begins with a known method and a blank, nothing goes wrong when the page
that the next word asks for is read, and the page has something to say, if it is
there.  After that the server goes on with the next message.  To any other
message it sends nothing, and it ends. -/
theorem answered_iff (fuel : Nat) (files : Files) (address : String)
    (world : World) (server : Server) (message : String) :
    (server.Answers fuel files address world message ↔
      ∃ after, Request.Asks (Request.lineOf message) after ∧
        server.Presents fuel files world (Request.ofPath ((Text.splitAt ' ' after).headD []))) ∧
    (server.Answers fuel files address world message → ∀ clients messages,
      ∃ code body world' server',
        Server.handleAll fuel files address world server clients (message :: messages) =
          Server.handleAll fuel files address world' server' (clients ++
            [{ address := address, sent := [Response.text code body], closed := true }])
            messages) ∧
    (¬server.Answers fuel files address world message → ∀ clients messages, ∃ fault world',
      Server.handleAll fuel files address world server clients (message :: messages) =
        (fault, world', clients ++ [{ address := address }])) := by
  refine ⟨?_, Server.handleAll_of_answers, Server.handleAll_of_not_answers⟩
  rw [Server.answers_iff_reply, Server.reply_eq_ok_iff]
  constructor
  · rintro ⟨request, hread, hpresents⟩
    obtain ⟨after, hasks, rfl⟩ := (Request.read_eq_ok_iff message request).1 hread
    exact ⟨after, hasks, hpresents⟩
  · rintro ⟨after, hasks, hpresents⟩
    exact ⟨_, (Request.read_eq_ok_iff message _).2 ⟨after, hasks, rfl⟩, hpresents⟩

/-- An empty message, a method without a path, an unknown method and a path with
a zero character are not answered, and neither is a page that is no text. -/
theorem bad_requests_unanswered :
    (∀ message ∈ ["", "GET", "POST /index.php HTTP/1.1", "GET /\x00.php HTTP/1.1"],
      ¬({ root := "/srv" } : Server).Answers 0 ({ path := "/srv", files := [] } : Folder).read
        "127.0.0.1:2133" {} message) ∧
    ¬({ root := "/srv" } : Server).Answers 0 (fun _ => .error .malformedText) "127.0.0.1:2133" {}
      "GET /index.php HTTP/1.1" := by
  have hfails : ∀ files message, (reply 0 files {} { root := "/srv" } message).toBool = false →
      ¬({ root := "/srv" } : Server).Answers 0 files "127.0.0.1:2133" {} message := by
    intro files message hreply hanswers
    obtain ⟨answer, hanswer⟩ := Server.answers_iff_reply.1 hanswers
    rw [hanswer] at hreply
    cases hreply
  refine ⟨fun message hmessage => hfails _ message ?_, hfails _ _ (by decide +kernel)⟩
  revert message hmessage
  decide +kernel

end PageScript
