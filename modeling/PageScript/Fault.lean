/-
Why an operation of the library can fail.

`Fault` lists the causes, `Complaint` those which carry a sentence for the
person who wrote the page.  The wording of every sentence is in
`Complaint.text` and nowhere else; no cause is ever told apart by its text.
-/
namespace PageScript

/-- A mistake that is reported to the author of a script or to a client in
words. -/
inductive Complaint where
  /-- A named constant was read before `define` declared it. -/
  | undefinedConstant (name : String)
  /-- A variable was read before anything was stored in it. -/
  | unsetVariable (name : String)
  | undefinedFunction (name : String)
  | functionTaken (name : String)
  /-- An array was read at a key it does not have; both are shown. -/
  | missingKey (key array : String)
  /-- A by-reference parameter was given something other than a variable. -/
  | referenceExpected
  | breakOutsideLoop
  | continueOutsideLoop
  /-- The left side of an assignment is neither a variable nor an element. -/
  | notAssignable
  /-- `foreach` assigns to something other than variables. -/
  | foreachTarget
  /-- A string literal ends in a lone backslash. -/
  | danglingBackslash
  | emptyRequest
  | unknownMethod (method : String)
  deriving DecidableEq, Repr

/-- The sentence that reports a mistake. -/
def Complaint.text : Complaint → String
  | .undefinedConstant name => "Constant " ++ name ++ " is not defined"
  | .unsetVariable name => "Variable " ++ name ++ " is not set"
  | .undefinedFunction name => "Function " ++ name ++ " is not defined"
  | .functionTaken name => "Function " ++ name ++ " alredy declared"
  | .missingKey key array => "key " ++ key ++ " not in " ++ array
  | .referenceExpected => "Was expecting a reference"
  | .breakOutsideLoop => "Break outside loop"
  | .continueOutsideLoop => "Continue outside loop"
  | .notAssignable => "invalid lefthand expression"
  | .foreachTarget => "unsupported"
  | .danglingBackslash => "\\ at end of string"
  | .emptyRequest => "Empty request"
  | .unknownMethod method => "Unknown HTTP request method: " ++ method

/-- What can go wrong. -/
inductive Fault where
  /-- The operand has no such operation, field or content. -/
  | noOperation
  /-- A check that guards an operation did not hold. -/
  | checkFailed
  /-- A position lies outside a sequence, or nothing is left to take. -/
  | outOfRange
  /-- A table has no such entry. -/
  | missingEntry
  | divisionByZero
  /-- A text or a value is not a number of the wanted form. -/
  | malformedNumber
  /-- A number does not fit where it has to go. -/
  | tooLarge
  | wrongArguments
  /-- Bytes are not the encoding of a text. -/
  | malformedText
  /-- A path has a character that no path can have. -/
  | malformedPath
  /-- The parts of a value go on without end. -/
  | tooDeep
  /-- A mistake described in words. -/
  | complaint (what : Complaint)
  /-- A feature that is named but does not exist. -/
  | notImplemented (what : String)
  /-- A source text is not one that can be read. -/
  | unreadable
  /-- A server waits for a message, and there is none. -/
  | endOfRequests
  /-- A run did not end within the steps it was given. -/
  | interrupted
  deriving DecidableEq, Repr

/-- What is said of a source text that cannot be read. -/
def Fault.unreadableText : String := "stub parser cannot parse raw source"

/-- The words that go with a fault, for those that have words. -/
def Fault.text? : Fault → Option String
  | .complaint what => some what.text
  | .notImplemented what => some what
  | .unreadable => some Fault.unreadableText
  | _ => none

end PageScript
