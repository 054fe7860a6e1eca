/-
The server.

A server answers requests with what pages print.  The code of a page is kept
once it is compiled, under the normal form of its path.  Every request gets an
interpreter of its own.  If a request fails, its client gets no answer and
stays connected, and nothing is logged.
-/
import PageScript.Machine.Run
import PageScript.Page
import PageScript.Web.Folder
import PageScript.Web.Request
import PageScript.Web.Response

namespace PageScript

/-- A server: where its pages are, and the code of those it knows. -/
structure Server where
  root : String
  cache : Entries Bytecode := []

namespace Server

/-- The paths of the pages that are kept, in order. -/
def knownPaths (server : Server) : List String :=
  server.cache.keys.mergeSort fun a b => decide (a ≤ b)

/-- Where the page with this name is. -/
def pathOf (server : Server) (filename : String) : String :=
  Path.absolute "/" (server.root ++ filename)

end Server

/-- A client: what it was sent, and whether its connection is closed. -/
structure Client where
  address : String
  sent : List String := []
  closed : Bool := false

/-- What a request can change: the world, the server and its own client. -/
structure Service where
  world : World
  server : Server
  client : Client

/-- A part of the answer to a request; it can fail. -/
abbrev Serve := EStateM Fault Service

namespace Serve

/-- The longest message a client can send. -/
def messageSize : Nat := 1024

/-- Writes a line to the output of the server, not to its client. -/
def writeLine (line : String) : Serve Unit :=
  modify fun s => { s with world := s.world.writeLine line }

/-- Compiles a page and keeps its code. -/
def compilePage (path source : String) : Serve Bytecode := do
  let (world, code) := Page.compile (← get).world source path
  modify fun s => { s with world := world }
  let code ← ofExcept code
  modify fun s => { s with server := { s.server with cache := s.server.cache.put path code } }
  return code

/-- The code of a page, which is read and compiled if it is not known.  If the
file is not there, this is logged; if it cannot be read, the request fails. -/
def findPage (files : Files) (filename : String) : Serve (Option Bytecode) := do
  let server := (← get).server
  let path := server.pathOf filename
  match server.cache.get? path with
  | some code => return some code
  | none =>
    match ← ofExcept (files path) with
    | some source => return some (← compilePage path source)
    | none => do
      writeLine ("File not found " ++ path)
      return none

/-- Runs a page; the query of the request is in its superglobals. -/
def runPage (fuel : Nat) (query : Entries String) (code : Bytecode) : Serve String := do
  let (world, i) := Interpreter.setup (← get).world {} query
  let r := i.runReturn fuel world code
  modify fun s => { s with world := r.world }
  match r.ending.fault?, r.returned with
  | some fault, _ => throw fault
  | none, some body => return body
  | none, none => throw .wrongArguments

/-- Sends a response to the client. -/
def send (code : Int) (body : String) : Serve Unit :=
  modify fun s => { s with
    client := { s.client with sent := s.client.sent ++ [Response.text code body] } }

/-- Logs when and to whom a page was sent. -/
def log (code : Int) (filename : String) : Serve Unit := do
  let s ← get
  writeLine ("[" ++ Decimal.floatText s.world.clock ++ "] " ++ s.client.address ++
    " [" ++ toString code ++ "]: " ++ filename)

/-- Answers a message with what its page prints, and closes the client. -/
def answer (fuel : Nat) (files : Files) (message : String) : Serve Unit := do
  let request ← ofExcept (Request.read messageSize message)
  let (code, body) ← match ← findPage files request.filename with
    | none => pure (404, Response.notFoundBody)
    | some page => do pure (200, ← runPage fuel request.query page)
  send code body
  log code request.filename
  modify fun s => { s with client := { s.client with closed := true } }

end Serve

namespace Server

/-- Answers one message of a client; also says what went wrong. -/
def handle (fuel : Nat) (files : Files) (address : String) (world : World) (server : Server)
    (message : String) : Option Fault × Service :=
  match (Serve.answer fuel files message).run
      { world := world, server := server, client := { address := address } } with
  | .ok () s => (none, s)
  | .error fault s => (some fault, s)

/-- Answers messages one after the other until one fails or none is left;
the clients so far are in `clients`. -/
def handleAll (fuel : Nat) (files : Files) (address : String) (world : World) (server : Server)
    (clients : List Client) : List String → Fault × World × List Client
  | [] => (.endOfRequests, world, clients)
  | message :: messages =>
    match handle fuel files address world server message with
    | (some fault, s) => (fault, s.world, clients ++ [s.client])
    | (none, s) => handleAll fuel files address s.world s.server (clients ++ [s.client]) messages

end Server

end PageScript
