/-
Pages: from source text to code.

Reading a page whose source text cannot be read is also reported on standard
output.
-/
import PageScript.Code.OfNode
import PageScript.Machine.State

namespace PageScript.Page

def unreadableLine : String := "ParseError"

/-- Reads a page.  The world gets a line if its text cannot be read. -/
def read (world : World) (source : String) : World × Except Fault Script :=
  match Tree.ofSource source with
  | .error fault => (world.writeLine unreadableLine, .error fault)
  | .ok tree => (world, Script.ofTree tree)

/-- Reads and compiles a page. -/
def compile (world : World) (source name : String) : World × Except Fault Bytecode :=
  match read world source with
  | (world, .error fault) => (world, .error fault)
  | (world, .ok script) => (world, script.compile name)

end PageScript.Page
