/-
The command line.

Options come first and the file name ends them.  `--ast` shows the abstract
tree of a file and `--bytecode` its code, and the first goes before the
second.  `--server` takes a port and then no file is read, so that together
with one of the other two there is only an empty source text to show.
Without options the file is run.
-/
import PageScript.Web.Server
import PageScript.Code.Listing
import PageScript.Node.Text
import PageScript.Decimal.Reading

namespace PageScript

/-- What the arguments of a command ask for. -/
structure Options where
  filename : String := ""
  showTree : Bool := false
  showCode : Bool := false
  port : Option Int := none

namespace Options

/-- Reads the arguments after those that gave `options` so far. The error is
a line for the user. -/
def parse (options : Options) : List String → Except String Options
  | [] => .ok options
  | arg :: rest =>
    if arg.startsWith "-" then
      if arg = "--bytecode" then parse { options with showCode := true } rest
      else if arg = "--ast" then parse { options with showTree := true } rest
      else if arg = "--server" then
        match rest with
        | [] => .error "--server requires an int"
        | port :: rest =>
          match Decimal.readInt? port with
          | none => .error "--server requires an int"
          | some port => parse { options with port := some port } rest
      else .error ("Unknown parameter " ++ arg)
    else .ok { options with filename := arg }

/-- What is wrong with the options, as a line for the user, or the content of
their file.  A server has no file.  The fault is that of reading the file. -/
def source (options : Options) (files : Files) : Except Fault (Except String String) :=
  match options.port with
  | some _ => .ok (.ok "")
  | none =>
    if options.filename = "" then .ok (.error "Required parameter filename missing")
    else do
      match ← files options.filename with
      | none => return .error ("File not found " ++ options.filename)
      | some source => return .ok source

end Options

/-- Where a command runs: the current folder and its files, whether a port
can be had, and the messages that clients are going to send. -/
structure Surroundings where
  folder : String
  files : Files
  canListen : Bool := true
  address : String
  messages : List String := []

/-- What came of a command: the world after it, its exit code or what went
wrong, and the clients of a server. -/
structure Completion where
  world : World
  result : Except Fault Nat
  clients : List Client := []

namespace CommandLine

/-- A command that ends with a line for the user and the exit code of a failure. -/
def refuse (world : World) (line : String) : Completion :=
  { world := world.writeLine line, result := .ok 1 }

/-- A command that ends with a line of its own, unless that has failed. -/
def complete (world : World) : Except Fault String → Completion
  | .error fault => { world := world, result := .error fault }
  | .ok line => { world := world.writeLine line, result := .ok 0 }

/-- Shows the abstract tree of a source text. -/
def showTree (world : World) (source : String) : Completion :=
  let (world, script) := Page.read world source
  complete world (script.bind fun s => s.root.text)

/-- Shows the code of a source text. -/
def showCode (world : World) (source name : String) : Completion :=
  let (world, code) := Page.compile world source name
  complete world (code.map Bytecode.text)

/-- Compiles a source text and runs it. -/
def runPage (fuel : Nat) (world : World) (source name : String) : Completion :=
  match Page.compile world source name with
  | (world, .error fault) => { world := world, result := .error fault }
  | (world, .ok code) =>
    let r := ({} : Interpreter).run fuel world code
    match r.ending.fault? with
    | some fault => { world := r.world, result := .error fault }
    | none => { world := r.world, result := .ok 0 }

/-- What a server says in the beginning. -/
def greeting (port : Int) (folder : String) : List String :=
  ["Listening on http://localhost:" ++ toString port,
    "Document root is " ++ folder,
    "Press Ctrl-C to quit."]

/-- Answers all messages, if the port can be had. -/
def serve (fuel : Nat) (site : Surroundings) (world : World) (port : Int) : Completion :=
  if site.canListen then
    let world := (greeting port site.folder).foldl World.writeLine world
    let (fault, world, clients) :=
      Server.handleAll fuel site.files site.address world { root := site.folder } [] site.messages
    { world := world, result := .error fault, clients := clients }
  else
    refuse world ("Failed to acquire a socket for port " ++ toString port ++ " ")

/-- Does what the arguments of a command ask for. -/
def run (fuel : Nat) (site : Surroundings) (world : World) (args : List String) : Completion :=
  match Options.parse {} args with
  | .error line => refuse world line
  | .ok options =>
    match options.source site.files with
    | .error fault => { world := world, result := .error fault }
    | .ok (.error line) => refuse world line
    | .ok (.ok source) =>
      let name := Path.absolute site.folder options.filename
      if options.showTree then showTree world source
      else if options.showCode then showCode world source name
      else match options.port with
        | some port => serve fuel site world port
        | none => runPage fuel world source name

end CommandLine

end PageScript
