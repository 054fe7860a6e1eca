/-
Responses.

A response is a status line for the codes that have one, a few header lines,
an empty line and the body.
-/
namespace PageScript.Response

def statusLine : Int → String
  | 200 => "HTTP/1.1 200 OK\n"
  | 404 => "HTTP/1.1 404 Not Found\n"
  | _ => ""

/-- The header; the length of the body is counted in characters. -/
def header (code : Int) (length : Nat) : String :=
  statusLine code ++
    "Content-Type: text/html;charset=utf-8\n" ++
    "Content-Length: " ++ toString length ++ "\n" ++
    "Server: PyHP-Server\n" ++
    "Connection: close\n\n"

def text (code : Int) (body : String) : String := header code body.length ++ body

def notFoundBody : String := "<html><body><p>404: File not found</p></body></html>"

end PageScript.Response
