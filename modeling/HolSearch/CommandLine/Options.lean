/-!
# Options of the command line

Arguments are read from left to right.  Options are `--max-depth N`, also written `--max-depth=N`,
and the flags `--list` and `--echo`; each may be given once.  All other arguments are names of
sessions, and so are all arguments after `--`.

The value of `--max-depth` is looked at only when reading goes on with a known option or the name of
a session, or ends.  So a fault in a later argument is reported first if that argument alone shows
it: an unknown option, or a flag with a value.
-/

namespace HolSearch

namespace CommandLine

/-- What the command line asks for. -/
structure Options where
  maxDepth : Option Nat := none
  list : Bool := false
  echo : Bool := false
  sessions : List String := []
deriving DecidableEq

/-- Why the arguments do not give options. -/
inductive Refusal where
  /-- help was asked for -/
  | help
  | unknownOption
  /-- an option is given twice -/
  | repeated
  | missingValue
  /-- a flag has a value -/
  | unexpectedValue
  | malformedNumber
deriving DecidableEq

def Refusal.message : Refusal → String
  | help => "help was asked for"
  | unknownOption => "unknown option"
  | repeated => "option given twice"
  | missingValue => "--max-depth needs a value"
  | unexpectedValue => "flag with a value"
  | malformedNumber => "--max-depth needs a number"

/-- The arguments in short. -/
def usage : String := "usage: [--max-depth N] [--list] [--echo] [--] [SESSION]...\n"

/-- The value of decimal digits. -/
def readDigits : (value : Nat) → List Char → Option Nat
  | value, [] => some value
  | value, c :: rest =>
      if c.isDigit then readDigits (10 * value + (c.toNat - '0'.toNat)) rest else none

/-- Read a number of 64 bits: decimal digits, of which there is at least one, perhaps after `+`. -/
def readNumber (s : String) : Option Nat :=
  let digits :=
    match s.toList with
    | '+' :: rest => rest
    | cs => cs
  if digits.isEmpty then none
  else (readDigits 0 digits).filter fun n => n < UInt64.size

/-- The form of an argument. -/
inductive Arg where
  /-- `--` alone -/
  | separator
  /-- two hyphens, a name, and perhaps `=` and a value -/
  | long (name : String) (value : Option String)
  /-- one hyphen and characters, of which the first counts -/
  | short (c : Char)
  | plain
deriving DecidableEq

/-- The form of an argument; a single hyphen is a plain one. -/
def Arg.ofString (s : String) : Arg :=
  match s.toList with
  | ['-', '-'] => .separator
  | '-' :: '-' :: cs =>
      .long (String.ofList (cs.takeWhile (· != '=')))
        (match cs.dropWhile (· != '=') with
        | [] => none
        | _ :: value => some (String.ofList value))
  | '-' :: c :: _ => .short c
  | _ => .plain

/-- Options read so far. -/
structure Reader where
  options : Options := {}
  /-- a `--max-depth` not settled yet, with its value if that has been read -/
  pending : Option (Option String) := none

namespace Reader

/-- Take the value of `--max-depth`. -/
def setDepth (r : Reader) (value : String) : Except Refusal Reader :=
  if r.options.maxDepth.isSome then .error .repeated
  else
    match readNumber value with
    | none => .error .malformedNumber
    | some n => .ok { options := { r.options with maxDepth := some n } }

/-- Settle a pending `--max-depth`. -/
def settle (r : Reader) : Except Refusal Reader :=
  match r.pending with
  | none => .ok r
  | some none => .error .missingValue
  | some (some value) => r.setDepth value

def addSession (r : Reader) (name : String) : Reader :=
  { r with options := { r.options with sessions := r.options.sessions ++ [name] } }

/-- Read an option with two hyphens. -/
def long (r : Reader) : (name : String) → (value : Option String) → Except Refusal Reader
  | "max-depth", none => do return { ← r.settle with pending := some none }
  | "max-depth", some value => do (← r.settle).setDepth value
  | "list", none => do
      let r ← r.settle
      if r.options.list then throw .repeated
      return { r with options := { r.options with list := true } }
  | "echo", none => do
      let r ← r.settle
      if r.options.echo then throw .repeated
      return { r with options := { r.options with echo := true } }
  | "help", none => do
      discard r.settle
      throw .help
  | "list", some _ => .error .unexpectedValue
  | "echo", some _ => .error .unexpectedValue
  | "help", some _ => .error .unexpectedValue
  | _, _ => .error .unknownOption

/-- Read an option with one hyphen. -/
def short (r : Reader) : Char → Except Refusal Reader
  | 'h' => do
      discard r.settle
      throw .help
  | _ => .error .unknownOption

/-- Read the value of a `--max-depth` or the name of a session. -/
def plain (r : Reader) (s : String) : Except Refusal Reader :=
  match r.pending with
  | some none => .ok { r with pending := some (some s) }
  | _ => do return (← r.settle).addSession s

/-- Read all arguments. -/
def arguments (r : Reader) : List String → Except Refusal Reader
  | [] => r.settle
  | s :: rest =>
      match Arg.ofString s with
      | .separator => do return rest.foldl addSession (← r.settle)
      | .long name value => do (← r.long name value).arguments rest
      | .short c => do (← r.short c).arguments rest
      | .plain => do (← r.plain s).arguments rest

end Reader

/-- The options that arguments give. -/
def Options.ofArgs (args : List String) : Except Refusal Options := do
  return (← Reader.arguments {} args).options

end CommandLine

end HolSearch
