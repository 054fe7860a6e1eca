/-
The framing of responses.

A client takes a message apart at its first empty line into header and body, and the
header announces how long the body is (`headerLines`, `payload`, `announced?`).  The
length of a response is announced in characters, while it is sent in UTF-8.  So it is
never too large, and right exactly for bodies in ASCII (`announced_eq_bytes_iff`).
-/
import PageScript.Web.Response
import PageScript.Text.Split

namespace PageScript

open List Text

namespace Response

/-! ### What a client makes of a message -/

def headerLines (message : String) : List (List Char) :=
  (splitAt '\n' message.toList).takeWhile (· ≠ [])

/-- What stands after the first empty line. -/
def payload (message : String) : String :=
  String.ofList (joinWith ['\n']
    (((splitAt '\n' message.toList).dropWhile (· ≠ [])).drop 1))

/-- The length that a line of a header announces: a number in decimal after
the name of the field, a colon and a blank. -/
def lengthIn? (line : List Char) : Option Nat :=
  match cutFirst ':' line with
  | (field, some (' ' :: digits)) =>
    if field = "Content-Length".toList ∧ digits ≠ [] ∧ digits.all Char.isDigit then
      some (Nat.ofDigitChars 10 digits 0)
    else none
  | _ => none

/-- The length of the body as the header announces it. -/
def announced? (message : String) : Option Nat :=
  (headerLines message).findSome? lengthIn?

/-! ### The lines of a response -/

theorem isDigit_of_mem_toDigits {n : Nat} {c : Char} (h : c ∈ Nat.toDigits 10 n) : c.isDigit :=
  Nat.isDigit_of_mem_toDigits (by decide) (by decide) h

def lengthLine (n : Nat) : List Char := ("Content-Length: " ++ toString n).toList

theorem lengthLine_eq (n : Nat) :
    lengthLine n = "Content-Length".toList ++ ':' :: ' ' :: Nat.toDigits 10 n := by
  have hfield : "Content-Length: ".toList = "Content-Length".toList ++ [':', ' '] := rfl
  have hdigits : (toString n).toList = Nat.toDigits 10 n := by
    rw [Nat.toString_eq_ofList_toDigits, String.toList_ofList]
  rw [lengthLine, String.toList_append, hfield, hdigits, append_assoc]
  rfl

theorem lengthIn?_lengthLine (n : Nat) : lengthIn? (lengthLine n) = some n := by
  have hcut : cutFirst ':' (lengthLine n) =
      ("Content-Length".toList, some (' ' :: Nat.toDigits 10 n)) := by
    rw [lengthLine_eq, cutFirst_append (by decide)]
  have hdigits : (Nat.toDigits 10 n).all Char.isDigit :=
    all_eq_true.2 fun _ => isDigit_of_mem_toDigits
  simp only [lengthIn?, hcut]
  rw [if_pos ⟨trivial, Nat.toDigits_ne_nil, hdigits⟩, Nat.ofDigitChars_ten_toDigits]

theorem not_mem_lengthLine (n : Nat) : '\n' ∉ lengthLine n := by
  have hdigits : '\n' ∉ Nat.toDigits 10 n := fun h => absurd (isDigit_of_mem_toDigits h) (by decide)
  simp [lengthLine_eq, hdigits]

/-- The header lines that are the same in all responses, apart from the
length. -/
def commonLines (length : Nat) : List (List Char) :=
  ["Content-Type: text/html;charset=utf-8".toList, lengthLine length,
    "Server: PyHP-Server".toList, "Connection: close".toList]

theorem splitAt_statusLine (code : Int) :
    ∃ status, (∀ line ∈ status, line ≠ [] ∧ lengthIn? line = none) ∧
      ∀ rest, splitAt '\n' ((statusLine code).toList ++ rest) =
        status ++ splitAt '\n' rest := by
  unfold statusLine
  split
  · have hline : "HTTP/1.1 200 OK\n".toList = "HTTP/1.1 200 OK".toList ++ ['\n'] := rfl
    refine ⟨["HTTP/1.1 200 OK".toList], by decide, fun rest => ?_⟩
    rw [hline, append_assoc, singleton_append, splitAt_append,
      splitAt_of_not_mem (by decide)]
  · have hline : "HTTP/1.1 404 Not Found\n".toList =
        "HTTP/1.1 404 Not Found".toList ++ ['\n'] := rfl
    refine ⟨["HTTP/1.1 404 Not Found".toList], by decide, fun rest => ?_⟩
    rw [hline, append_assoc, singleton_append, splitAt_append,
      splitAt_of_not_mem (by decide)]
  · exact ⟨[], nofun, fun _ => rfl⟩

theorem splitAt_afterStatus (body : String) :
    splitAt '\n' ("Content-Type: text/html;charset=utf-8".toList ++ '\n' ::
        (lengthLine body.length ++ '\n' :: ("Server: PyHP-Server".toList ++ '\n' ::
          ("Connection: close".toList ++ '\n' :: '\n' :: body.toList)))) =
      commonLines body.length ++ [] :: splitAt '\n' body.toList := by
  rw [splitAt_append, splitAt_append, splitAt_append, splitAt_append,
    splitAt_of_not_mem (by decide), splitAt_of_not_mem (not_mem_lengthLine _),
    splitAt_of_not_mem (by decide), splitAt_of_not_mem (by decide)]
  rfl

theorem toList_text (code : Int) (body : String) :
    (text code body).toList = (statusLine code).toList ++
      ("Content-Type: text/html;charset=utf-8".toList ++ '\n' ::
        (lengthLine body.length ++ '\n' :: ("Server: PyHP-Server".toList ++ '\n' ::
          ("Connection: close".toList ++ '\n' :: '\n' :: body.toList)))) := by
  have htype : "Content-Type: text/html;charset=utf-8\n".toList =
      "Content-Type: text/html;charset=utf-8".toList ++ ['\n'] := rfl
  have hend : "\n".toList = ['\n'] := rfl
  have hserver : "Server: PyHP-Server\n".toList = "Server: PyHP-Server".toList ++ ['\n'] := rfl
  have hclose : "Connection: close\n\n".toList = "Connection: close".toList ++ ['\n', '\n'] := rfl
  simp only [text, header, lengthLine, String.toList_append, htype, hend, hserver, hclose,
    append_assoc, cons_append, nil_append]

theorem commonLines_ne_nil (length : Nat) : ∀ line ∈ commonLines length, line ≠ [] := by
  intro line hline
  simp only [commonLines, mem_cons, not_mem_nil, or_false] at hline
  rcases hline with rfl | rfl | rfl | rfl
  · decide
  · simp [lengthLine_eq]
  · decide
  · decide

theorem findSome?_commonLines (length : Nat) :
    (commonLines length).findSome? lengthIn? = some length := by
  have hfirst : lengthIn? "Content-Type: text/html;charset=utf-8".toList = none := by decide
  rw [commonLines, findSome?_cons, hfirst, findSome?_cons, lengthIn?_lengthLine]

/-- A response is the lines of its header, which announce the number of
characters, an empty line and the lines of its body. -/
theorem splitAt_text (code : Int) (body : String) :
    ∃ lines, (∀ line ∈ lines, line ≠ []) ∧ lines.findSome? lengthIn? = some body.length ∧
      splitAt '\n' (text code body).toList = lines ++ [] :: splitAt '\n' body.toList := by
  obtain ⟨status, hstatus, hsplit⟩ := splitAt_statusLine code
  refine ⟨status ++ commonLines body.length, ?_, ?_, ?_⟩
  · intro line hline
    rcases mem_append.1 hline with hline | hline
    · exact (hstatus line hline).1
    · exact commonLines_ne_nil _ line hline
  · have hnone : status.findSome? lengthIn? = none :=
      findSome?_eq_none_iff.2 fun line hline => (hstatus line hline).2
    rw [findSome?_append, hnone, Option.none_or, findSome?_commonLines]
  · rw [toList_text, hsplit, splitAt_afterStatus, append_assoc]

theorem takeWhile_lines {lines : List (List Char)} (h : ∀ line ∈ lines, line ≠ [])
    (rest : List (List Char)) :
    (lines ++ [] :: rest).takeWhile (· ≠ []) = lines := by
  rw [takeWhile_append_of_pos fun line hline => decide_eq_true (h line hline)]
  simp

theorem dropWhile_lines {lines : List (List Char)} (h : ∀ line ∈ lines, line ≠ [])
    (rest : List (List Char)) :
    (lines ++ [] :: rest).dropWhile (· ≠ []) = [] :: rest := by
  rw [dropWhile_append_of_pos fun line hline => decide_eq_true (h line hline)]
  simp

theorem payload_text (code : Int) (body : String) : payload (text code body) = body := by
  obtain ⟨lines, hlines, -, hsplit⟩ := splitAt_text code body
  rw [payload, hsplit, dropWhile_lines hlines, drop_one, tail_cons,
    joinWith_splitAt, String.ofList_toList]

theorem announced?_text (code : Int) (body : String) :
    announced? (text code body) = some body.length := by
  obtain ⟨lines, hlines, hlength, hsplit⟩ := splitAt_text code body
  rw [announced?, headerLines, hsplit, takeWhile_lines hlines, hlength]

/-! ### Characters and bytes -/

theorem size_toUTF8_cons (c : Char) (cs : List Char) :
    (String.ofList (c :: cs)).toUTF8.size = c.utf8Size + (String.ofList cs).toUTF8.size := by
  have hcons : String.ofList (c :: cs) = String.singleton c ++ String.ofList cs := by
    rw [String.singleton_eq_ofList, ← String.ofList_append, singleton_append]
  rw [hcons]
  exact String.utf8ByteSize_append.trans (congrArg (· + _) String.utf8ByteSize_singleton)

/-- A text has as many bytes as characters exactly if it is in ASCII, and no
fewer in any case. -/
theorem length_le_size_toUTF8 (cs : List Char) :
    cs.length ≤ (String.ofList cs).toUTF8.size ∧
      (cs.length = (String.ofList cs).toUTF8.size ↔ ∀ c ∈ cs, c.val ≤ 127) := by
  induction cs with
  | nil => exact ⟨Nat.zero_le _, fun _ _ hmem => absurd hmem not_mem_nil, fun _ => rfl⟩
  | cons c cs ih =>
    have hpos := c.utf8Size_pos
    have hone : c.utf8Size = 1 ↔ c.val ≤ 127 := Char.utf8Size_eq_one_iff
    rw [length_cons, size_toUTF8_cons, forall_mem_cons, ← hone, ← ih.2]
    -- both parts are at least what is asked of them, so the sums agree only
    -- if the parts do
    have hle := ih.1
    omega

/-- The announced length of a response against the bytes that a client finds
after the header. -/
theorem announced_eq_bytes_iff (code : Int) (body : String) :
    payload (text code body) = body ∧
      ∃ n, announced? (text code body) = some n ∧
        n ≤ (payload (text code body)).toUTF8.size ∧
        (n = (payload (text code body)).toUTF8.size ↔ ∀ c ∈ body.toList, c.val ≤ 127) := by
  have hbytes : body.toUTF8.size = (String.ofList body.toList).toUTF8.size := by
    rw [String.ofList_toList]
  have hlength : body.length = body.toList.length := String.length_toList.symm
  refine ⟨payload_text code body, body.length, announced?_text code body, ?_⟩
  rw [payload_text, hbytes, hlength]
  exact length_le_size_toUTF8 body.toList

/-- An accented letter is announced as one byte and sent as two. -/
theorem announced_short_of_bytes :
    announced? (text 200 "é") = some 1 ∧ (payload (text 200 "é")).toUTF8.size = 2 := by
  rw [announced?_text, payload_text]
  decide

end Response

end PageScript
