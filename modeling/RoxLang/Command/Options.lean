/-
# `RoxLang.Command.Options` — what the arguments of the command ask for

An argument is an option if it starts with a dash and is neither a lone dash, nor a number, nor
text with a blank in it; all else is positional, and so is everything behind the first `--`.
Options may stand before and behind the program.  A long option may be cut short where that leaves
only one, and short ones may be run together.  No option takes a value, so one that is given a
value is refused.

Options take effect from the left: help ends the matter at once, whatever follows it; an option
that might be one of several is noticed before any takes effect.
-/
import RoxLang.Text.Layout

namespace RoxLang.Command

/-- The options. -/
inductive Flag where
  | help | verbose | printTree | automaton
deriving DecidableEq, Inhabited

/-- How an option may be written in full. -/
def Flag.spellings : Flag → List String
  | .help => ["-h", "--help"]
  | .verbose => ["-v"]
  | .printTree => ["--print-ast"]
  | .automaton => ["--grammar"]

/-- The name of an option in diagnostics. -/
def Flag.name (f : Flag) : String := "/".intercalate f.spellings

/-- Every full spelling and its option. -/
def spellings : List (String × Flag) :=
  [Flag.help, .verbose, .printTree, .automaton].flatMap fun f => f.spellings.map (·, f)

/-- What the arguments ask for. -/
structure Options where
  verbosity : Nat
  printTree : Bool
  automaton : Bool
  program? : Option String
deriving DecidableEq, Inhabited

/-- Why arguments are refused. -/
inductive Misuse where
  | ambiguous (argument : String) (candidates : List String)
  | unusedValue (flag : Flag) (value : String)
  | unrecognized (arguments : List String)
  | programMissing
deriving DecidableEq, Inhabited

def Misuse.message : Misuse → String
  | .ambiguous argument candidates =>
      let candidates := ", ".intercalate candidates
      s!"ambiguous option: {argument} could match {candidates}"
  | .unusedValue flag value =>
      let value := Text.quoted value
      s!"argument {flag.name}: ignored explicit argument {value}"
  | .unrecognized arguments =>
      let arguments := " ".intercalate arguments
      s!"unrecognized arguments: {arguments}"
  | .programMissing => "--print-ast requires a program file"

/-! ## One argument -/

/-- What an argument before the first `--` is. -/
inductive Argument where
  | positional (text : String)
  /-- An option as written in full, and the text run together with it. -/
  | flag (flag : Flag) (isShort : Bool) (value? : Option (List Char))
  | unknown (text : String)
deriving DecidableEq, Inhabited

/-- A text without the line end behind it, if there is one. -/
def withoutLineEnd (cs : List Char) : List Char :=
  if cs.getLast? = some '\n' then cs.dropLast else cs

/-- Whether a text is a number with a dash in front: digits of any script, with or without a
fraction, whose point needs no digit before it but one behind it.  One line end behind the number
does no harm. -/
def isNegativeNumber (cs : List Char) : Bool :=
  match withoutLineEnd cs with
  | '-' :: number => match number.dropWhile Text.isDecimalDigit with
    | [] => !number.isEmpty
    | '.' :: fraction => !fraction.isEmpty && fraction.all Text.isDecimalDigit
    | _ => false
  | _ => false

/-- The part of a text before its first `=`, and the part behind it. -/
def cutAtEqual (cs : List Char) : List Char × Option (List Char) :=
  match cs.dropWhile (· != '=') with
  | _ :: value => (cs.takeWhile (· != '='), some value)
  | [] => (cs, none)

/-- The option with a full spelling. -/
def flag? (cs : List Char) : Option Flag :=
  (spellings.find? fun s => s.1.toList = cs).map (·.2)

/-- The options that a text with two dashes cuts short, each with its full spelling. -/
def completions (start : List Char) : List (String × Flag) :=
  spellings.filter fun s => start.isPrefixOf s.1.toList

/-- What an argument is when it is no option written in full. -/
def classifyRest (argument : String) (cs : List Char) : Except Misuse Argument :=
  let candidates : List (String × Argument) := match cs with
    | '-' :: '-' :: _ =>
        let (start, value?) := cutAtEqual cs
        (completions start).map fun (spelling, f) => (spelling, Argument.flag f false value?)
    | '-' :: c :: value => match flag? ['-', c] with
      | some f => [(String.ofList ['-', c], .flag f true (some value))]
      | none => []
    | _ => []
  match candidates with
  | [(_, a)] => .ok a
  | [] =>
      if isNegativeNumber cs || cs.contains ' ' then .ok (.positional argument)
      else .ok (.unknown argument)
  | several => .error (.ambiguous argument (several.map (·.1)))

/-- What an argument is. -/
def classify (argument : String) : Except Misuse Argument :=
  let cs := argument.toList
  let isShort := cs.tail.head? != some '-'
  match cs with
  | '-' :: _ :: _ => match flag? cs with
    | some f => .ok (.flag f isShort none)
    | none => match cutAtEqual cs with
      | (start, some value) => match flag? start with
        | some f => .ok (.flag f (start.tail.head? != some '-') (some value))
        | none => classifyRest argument cs
      | (_, none) => classifyRest argument cs
  | _ => .ok (.positional argument)

/-! ## All arguments -/

/-- Why reading the arguments ends early. -/
inductive Ending where
  | help
  | misuse (m : Misuse)
deriving DecidableEq, Inhabited

/-- The options that one argument asks for: a short option is followed by more short options, and
any other text run together with an option is a value that nothing uses. -/
def cluster (flag : Flag) (isShort : Bool) : List Char → Except Misuse (List Flag)
  | [] => .error (.unusedValue flag "")
  | c :: cs =>
      if isShort then match flag? ['-', c] with
        | some next => match cs with
          | [] => .ok [flag, next]
          | _ => (cluster next true cs).map (flag :: ·)
        | none => .error (.unusedValue flag (String.ofList (c :: cs)))
      else .error (.unusedValue flag (String.ofList (c :: cs)))

/-- Let an option take effect. -/
def Options.apply (o : Options) : Flag → Except Ending Options
  | .help => .error .help
  | .verbose => .ok { o with verbosity := o.verbosity + 1 }
  | .printTree => .ok { o with printTree := true }
  | .automaton => .ok { o with automaton := true }

/-- Arguments read so far: the options, what nothing takes, and whether the last argument was
taken as the program. -/
structure Progress where
  options : Options
  extras : List String
  justTaken : Bool

/-- Read one classified argument. -/
def Progress.read (p : Progress) : Argument → Except Ending Progress
  | .positional text =>
      if p.options.program?.isNone then
        .ok { p with options := { p.options with program? := some text }, justTaken := true }
      else .ok { p with extras := p.extras ++ [text], justTaken := false }
  | .unknown text => .ok { p with extras := p.extras ++ [text], justTaken := false }
  | .flag f isShort value? => do
      let flags ← match value? with
        | none => .ok [f]
        | some value => (cluster f isShort value).mapError .misuse
      let options ← flags.foldlM Options.apply p.options
      return { p with options := options, justTaken := false }

/-- Read what stands behind the first `--`.  Its first text is the program if there is none yet;
the `--` itself is left over where it ends nothing that was being read. -/
def Progress.readBehind (p : Progress) (behind : List String) : Progress :=
  match p.options.program? with
  | none => match behind with
    | [] => p
    | text :: texts =>
        { p with options := { p.options with program? := some text }, extras := p.extras ++ texts }
  | some _ =>
      let texts := if p.justTaken then behind else "--" :: behind
      { p with extras := p.extras ++ texts }

/-- What the arguments ask for. -/
def Options.read (arguments : List String) : Except Ending Options := do
  let before := arguments.takeWhile (· != "--")
  let classified ← (before.mapM classify).mapError .misuse
  let progress ← classified.foldlM Progress.read ⟨⟨0, false, false, none⟩, [], false⟩
  let progress := match arguments.dropWhile (· != "--") with
    | _ :: behind => progress.readBehind behind
    | [] => progress
  match progress.extras with
  | [] => return progress.options
  | extras => throw (.misuse (.unrecognized extras))

end RoxLang.Command
