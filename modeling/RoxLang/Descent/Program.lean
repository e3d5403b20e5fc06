/-
# `RoxLang.Descent.Program` — statements read by descent, with recovery

    program      →  declaration*
    declaration  →  "var" name ( "=" expression )? ";"  |  statement
    statement    →  "print" expression ";"  |  block  |  expression ";"
    block        →  "{" declaration* "}"

A declaration that fails is recorded, and reading resumes at the next likely boundary: behind a
semicolon, or in front of a word that starts a statement.  So one pass reports every independent
fault of a program, and inside a block the declarations before and after a faulty one are read
all the same.

The first token of what is skipped is always dropped, whatever it is; only from then on do
boundaries count.  This makes every attempt at a declaration leave less than it found.
-/
import RoxLang.Descent.Expression

namespace RoxLang

/-- Whether tokens of a kind start a statement, or would if the language had it. -/
def Kind.startsStatement : Kind → Bool
  | .word .class_ | .word .fun_ | .word .var | .word .for_ | .word .if_ | .word .while_
  | .word .print | .word .return_ => true
  | _ => false

namespace Descent

/-- Levels that the rules of one program may use.  A group in parentheses takes seven, an
operator before its operand or an assignment one, a block one. -/
def levelLimit : Nat := 1000

/-! ## Recovery -/

/-- Skip to a boundary, knowing the token before. -/
def skipFrom (previous : Token) : List Token → List Token
  | [] => []
  | t :: ts =>
      if previous.kind = .mark .semicolon || t.kind.startsStatement then t :: ts
      else skipFrom t ts

/-- Drop one token, then skip to a boundary. -/
def synchronize : List Token → List Token
  | [] => []
  | t :: ts => skipFrom t ts

/-! ## Statements without blocks -/

/-- Read an expression and the semicolon behind it. -/
def readTerminated (levels : Nat) (reason : Reason) (ts : List Token) :
    Except Failure (Tree × List Token) := do
  let (value, rest) ← readWithin levels .assignment ts
  let (_, rest) ← expect (.mark .semicolon) reason rest
  .ok (value, rest)

/-- What follows the word that starts a declaration. -/
def readDeclaration (levels : Nat) (ts : List Token) : Except Failure (Tree × List Token) := do
  let (name, rest) ← expect .identifier .variableName ts
  match rest with
  | t :: after =>
      if t.kind = .mark .equal then do
        let (value, rest) ← readTerminated levels .declarationEnd after
        .ok (.define name value, rest)
      else do
        let (_, rest) ← expect (.mark .semicolon) .declarationEnd rest
        .ok (.declare name, rest)
  | [] => .error (.here .declarationEnd [])

/-- What follows the word that starts a print statement. -/
def readPrint (levels : Nat) (ts : List Token) : Except Failure (Tree × List Token) := do
  let (value, rest) ← readTerminated levels .valueEnd ts
  .ok (.print value, rest)

/-- An expression as a statement. -/
def readDiscard (levels : Nat) (ts : List Token) : Except Failure (Tree × List Token) := do
  let (value, rest) ← readTerminated levels .expressionEnd ts
  .ok (.discard value, rest)

/-! ## Declarations and blocks -/

/-- What an attempt at a declaration leaves: the failures recorded, the tree if the declaration
itself did not fail, and the tokens where reading goes on. -/
structure Attempt where
  failures : List Failure
  tree? : Option Tree
  rest : List Token

/-- What several attempts leave together. -/
structure Attempts where
  failures : List Failure
  trees : List Tree
  rest : List Token

/-- Close an attempt: record the failure of a reading, if it failed, and recover. -/
def Attempt.close (recorded : List Failure) : Except Failure (Tree × List Token) → Attempt
  | .ok (t, rest) => ⟨recorded, some t, rest⟩
  | .error f => ⟨recorded ++ [f], none, synchronize f.resume⟩

/-- Attempt one declaration after another, at most so many, until the end or until a token at
which to stop. -/
def attemptAll (attempt : List Token → Attempt) (stop : Token → Bool) :
    Nat → List Token → Attempts
  | n + 1, t :: ts =>
      if stop t then ⟨[], [], t :: ts⟩
      else
        let one := attempt (t :: ts)
        let others := attemptAll attempt stop n one.rest
        ⟨one.failures ++ others.failures, one.tree?.toList ++ others.trees, others.rest⟩
  | _, ts => ⟨[], [], ts⟩

/-- The end of a block whose statements have been attempted. -/
def readBlockEnd (body : Attempts) : Except Failure (Tree × List Token) := do
  let (_, rest) ← expect (.mark .rightBrace) .blockEnd body.rest
  .ok (.block body.trees, rest)

/-- Whether a token closes a block. -/
def closesBlock (t : Token) : Bool := t.kind == .mark .rightBrace

/-- Attempt a declaration within so many levels. -/
def attemptWithin : (levels : Nat) → List Token → Attempt
  | 0, ts => .close [] (.error (.here .nestingTooDeep ts))
  | n + 1, ts => match ts with
    | [] => .close [] (readDiscard n [])
    | t :: rest => match t.kind with
      | .word .var => .close [] (readDeclaration n rest)
      | .word .print => .close [] (readPrint n rest)
      | .mark .leftBrace =>
          let body := attemptAll (attemptWithin n) closesBlock rest.length rest
          .close body.failures (readBlockEnd body)
      | _ => .close [] (readDiscard n ts)

/-- Attempt a whole program. -/
def attemptProgram (ts : List Token) : Attempts :=
  attemptAll (attemptWithin levelLimit) (fun _ => false) ts.length ts

/-! ## Programs -/

/-- A recorded failure as it is reported: its reason, the blamed token and where that token stands
in the list. -/
structure Blame where
  reason : Reason
  token : Token
  index : Nat
deriving DecidableEq, Inhabited

def Blame.fault (b : Blame) : ParseFault := ⟨b.reason, b.token⟩

/-- Why a list of tokens is no program. -/
inductive Rejection where
  /-- The list does not end with an end token. -/
  | unended
  /-- Reading came to this number token, whose lexeme is no number. -/
  | misread (token : Token)
  /-- These faults, in the order in which reading met them. -/
  | faults (blames : List Blame)
deriving DecidableEq, Inhabited

/-- The message for a list that does not end with an end token. -/
def unendedMessage : String := "token list must end with an EOF token"

/-- The message for a number that is misread. -/
def misreadMessage (t : Token) : String := Number.misreading (Text.quoted t.lexeme)

/-- The tokens before the first end token, and that token.  The list has to end with one. -/
def splitAtEof (ts : List Token) : Option (List Token × Token) :=
  match ts.getLast?, ts.find? Token.isEof with
  | some last, some eof => if last.isEof then some (ts.takeWhile (!·.isEof), eof) else none
  | _, _ => none

/-- A failure's place is told by how many of the tokens are left there. -/
def Failure.blame (body : List Token) (eof : Token) (f : Failure) : Blame :=
  ⟨f.reason, f.blamed.head?.getD eof, body.length - f.blamed.length⟩

/-- The number that a failure is about, if it is one that is misread. -/
def Failure.misread? (f : Failure) : Option Token :=
  if f.reason = .misreadNumber then f.blamed.head? else none

/-- What comes of a program: its trees, if nothing has been recorded. -/
def outcome (trees : List Tree) : (recorded : List Blame) → Except Rejection (List Tree)
  | [] => .ok trees
  | blame :: blames => .error (.faults (blame :: blames))

/-- What comes of the attempts at a program.  No declaration recovers from a number that is misread:
the first one ends the reading, whatever was recorded before, and what the attempts did behind it
has no part in the answer. -/
def Attempts.result (body : List Token) (eof : Token) (a : Attempts) :
    Except Rejection (List Tree) :=
  match a.failures.findSome? Failure.misread? with
  | some t => .error (.misread t)
  | none => outcome a.trees (a.failures.map (·.blame body eof))

/-- The program that a list of tokens spells.  An end token before the last one ends it too. -/
def parse (ts : List Token) : Except Rejection (List Tree) :=
  match splitAtEof ts with
  | none => .error .unended
  | some (body, eof) => (attemptProgram body).result body eof

end Descent

end RoxLang
