/-
Backslash escapes of string literals.

`unescape` replaces each escape by what it stands for: a letter for a
control character, up to three octal digits for the character with that
code, a line end for nothing at all, and any other character for itself.
It fails on a backslash with nothing after it, and only then.
-/
import PageScript.Fault

namespace PageScript.Literal

def isOctal (c : Char) : Bool := '0' ≤ c && c ≤ '7'

def octalValue (c : Char) : Nat := c.toNat - 48

/-- The character that an escaped letter or sign stands for; an escaped line
end stands for nothing. -/
def escapedChar (c : Char) : List Char :=
  if c = '\n' then []
  else if c = 'b' then [Char.ofNat 8]
  else if c = 'f' then [Char.ofNat 12]
  else if c = 't' then ['\t']
  else if c = 'n' then ['\n']
  else if c = 'r' then ['\r']
  else if c = 'v' then [Char.ofNat 11]
  else if c = 'a' then [Char.ofNat 7]
  else [c]

/-- The octal number at the start of a text, of `limit` digits at most, and
what follows it. -/
def octalRun : Nat → Nat → List Char → Nat × List Char
  | 0, n, cs => (n, cs)
  | _ + 1, n, [] => (n, [])
  | limit + 1, n, c :: cs =>
    if isOctal c then octalRun limit (8 * n + octalValue c) cs else (n, c :: cs)

theorem octalRun_length_le (limit n : Nat) (cs : List Char) :
    (octalRun limit n cs).2.length ≤ cs.length := by
  induction limit generalizing n cs with
  | zero => simp [octalRun]
  | succ limit ih =>
    cases cs with
    | nil => simp [octalRun]
    | cons c cs =>
      rw [octalRun]
      split
      · exact Nat.le_succ_of_le (ih _ cs)
      · simp

def unescape (cs : List Char) : Except Fault (List Char) :=
  match cs with
  | [] => .ok []
  | ['\x5c'] => .error (.complaint .danglingBackslash)
  | '\x5c' :: e :: rest =>
    if isOctal e then
      (unescape (octalRun 2 (octalValue e) rest).2).map
        (Char.ofNat (octalRun 2 (octalValue e) rest).1 :: ·)
    else (unescape rest).map (escapedChar e ++ ·)
  | c :: rest => (unescape rest).map (c :: ·)
termination_by cs.length
decreasing_by
  · have := octalRun_length_le 2 (octalValue e) rest
    simp only [List.length_cons]
    omega
  · simp only [List.length_cons]
    omega
  · simp only [List.length_cons]
    omega

end PageScript.Literal
