/-
The program.

This is the only module with side effects.  It reads the file that a command
names, runs the command and writes out what it wrote.  A server takes its
messages from standard input, one in a line, and writes its answers to
standard output; the clock counts from an arbitrary start.
-/
import PageScript.CommandLine

namespace PageScript.Program

/-- How many steps a page may take; more than any page will. -/
def fuel : Nat := Nat.pow 2 62

/-- Reads a file as text. -/
def readFile (path : String) : IO (Except Fault (Option String)) := do
  if Path.isBroken path then return .error .malformedPath
  try
    match String.fromUTF8? (← IO.FS.readBinFile path) with
    | some text => return .ok (some text)
    | none => return .error .malformedText
  catch _ => return .ok none

/-- The time in seconds. -/
def now : IO Float := do
  return (← IO.monoMsNow).toFloat / 1000

/-- Writes out what the world has to say. -/
def flush (world : World) : IO World := do
  let stdout ← IO.getStdout
  stdout.putStr world.written
  stdout.flush
  return { world with written := "" }

/-- Tells the user what went wrong. -/
def report (fault : Fault) : IO Unit := do
  (← IO.getStderr).putStrLn (fault.text?.getD "The page failed")

/-- Where the page is that a message asks for. -/
def pageOf (server : Server) (message : String) : Option String :=
  match Request.read Serve.messageSize message with
  | .ok request => some (server.pathOf request.filename)
  | .error _ => none

/-- Answers messages until there are no more or one fails; the result is the
exit code. -/
partial def serveLoop (world : World) (server : Server) : IO UInt32 := do
  let message ← (← IO.getStdin).getLine
  if message.isEmpty then return 0
  let path := pageOf server message
  let content ← match path with
    | some path => readFile path
    | none => pure (.ok none)
  let world := { world with clock := ← now }
  let (fault, s) := server.handle fuel
    (fun p => if some p = path then content else .ok none) "127.0.0.1:0" world message
  for text in s.client.sent do
    IO.println text
  let world ← flush s.world
  match fault with
  | none => serveLoop world s.server
  | some fault => do
    report fault
    return 1

/-- Does a command that is no server. -/
def once (folder : String) (filename : String) (args : List String) : IO UInt32 := do
  let content ← readFile filename
  let site : Surroundings :=
    { folder := folder
      files := fun path => if path = filename then content else .ok none
      canListen := false
      address := "127.0.0.1:0" }
  let c := CommandLine.run fuel site { clock := ← now } args
  let _ ← flush c.world
  match c.result with
  | .ok code => return code.toUInt32
  | .error fault => do
    report fault
    return 1

/-- Greets the user and answers messages. -/
def serve (folder : String) (port : Int) : IO UInt32 := do
  let world := (CommandLine.greeting port folder).foldl World.writeLine {}
  serveLoop (← flush world) { root := folder }

end PageScript.Program

open PageScript in
def main (args : List String) : IO UInt32 := do
  let folder := (← IO.currentDir).toString
  match Options.parse {} args with
  | .error _ => Program.once folder "" args
  | .ok options =>
    match options.port with
    | some port =>
      if options.showTree || options.showCode then Program.once folder "" args
      else Program.serve folder port
    | none => Program.once folder options.filename args
