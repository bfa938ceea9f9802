import Quadword.Compile

/-!
# The command line

What the words of a command line ask for, and what comes of it. Both are decided without touching a
file: a build is told what stands at the path of its source and whether its output can be written.

Asking for help or for the version counts as soon as it is met, and so does a word that cannot be
placed. All other mistakes, such as a bad or missing value or an option given twice, count only once
every word has been read.
-/

namespace Quadword.CommandLine

/-! ## Reading the words -/

inductive Setting where
  | dialect
  | addressing
  | output
deriving DecidableEq

/-- What single words of a command line give. -/
inductive Given where
  | value (s : Setting) (text : String)
  /-- An option without the value it takes. -/
  | bare (s : Setting)
  | annotate
  | source (path : String)
deriving DecidableEq

/-- What to compile, for what, and where to put the result. -/
structure Build where
  target : Target
  source : String
  output : String
deriving DecidableEq

inductive Request where
  | help
  | version
  | misuse
  | build (b : Build)
deriving DecidableEq

/-- An option that is still waiting for its value when no value can come any more. -/
def unserved : Option Setting → List Given
  | none => []
  | some s => [.bare s]

/-- The words after `--`, which can only name the source. -/
def readPaths (sourced : Bool) : List String → Except Request (List Given)
  | [] => .ok []
  | path :: paths =>
    if sourced then .error .misuse
    else do
      let more ← readPaths true paths
      return .source path :: more

/-- The option with the given long name that takes a value. -/
def longSetting? (name : String) : Option Setting :=
  if name = "syntax" then some .dialect
  else if name = "addressing" then some .addressing
  else none

/-- What a word gives that starts with two dashes, and the option that the next word may serve. -/
def readLong (name : List Char) : Except Request (List Given × Option Setting) :=
  let key := String.ofList (name.takeWhile (· ≠ '='))
  match name.dropWhile (· ≠ '=') with
  | _ :: text =>
    match longSetting? key with
    | some s => .ok ([.value s (String.ofList text)], none)
    | none => .error .misuse
  | [] =>
    match longSetting? key with
    | some s => .ok ([], some s)
    | none =>
      if key = "help" then .error .help
      else if key = "version" then .error .version
      else if key = "annotate" then .ok ([.annotate], none)
      else .error .misuse

/-- What a word gives that starts with one dash, and the option that the next word may serve. -/
def readShort : List Char → Except Request (List Given × Option Setting)
  | 'h' :: _ => .error .help
  | 'V' :: _ => .error .version
  | ['o'] => .ok ([], some .output)
  | 'o' :: '=' :: text => .ok ([.value .output (String.ofList text)], none)
  | 'o' :: text => .ok ([.value .output (String.ofList text)], none)
  | _ => .error .misuse

/-- What the words of a command line give, or the request that cuts their reading short. -/
def read (pending : Option Setting) (sourced : Bool) :
    List String → Except Request (List Given)
  | [] => .ok (unserved pending)
  | arg :: args =>
    match arg.toList with
    | ['-', '-'] => do
      let paths ← readPaths sourced args
      return unserved pending ++ paths
    | '-' :: '-' :: name => do
      let (given, next) ← readLong name
      let more ← read next sourced args
      return unserved pending ++ given ++ more
    -- a dash alone names a source
    | '-' :: c :: cs => do
      let (given, next) ← readShort (c :: cs)
      let more ← read next sourced args
      return unserved pending ++ given ++ more
    | _ =>
      match pending with
      | some s => do
        let more ← read none sourced args
        return .value s arg :: more
      | none =>
        if sourced then .error .misuse
        else do
          let more ← read none true args
          return .source arg :: more

/-! ## What is asked for -/

def valuesOf (s : Setting) (given : List Given) : List String :=
  given.filterMap fun g =>
    match g with
    | .value t text => if t = s then some text else none
    | _ => none

/-- The one value of an option, or its default. -/
def valueOr (default : String) : List String → Option String
  | [] => some default
  | [text] => some text
  | _ => none

def sourcesOf (given : List Given) : List String :=
  given.filterMap fun g =>
    match g with
    | .source path => some path
    | _ => none

/-- Whether a value is among those that an option takes, whatever the case of its letters. -/
def isPossible (values : List String) (text : String) : Bool := values.contains text.toLower

/--
The build that is asked for, if nothing about it is amiss. The command line takes fewer names than
there are for dialects and ways of addressing.
-/
def build? (given : List Given) : Option Build := do
  guard (given.all fun g =>
    match g with
    | .bare _ => false
    | _ => true)
  guard (given.count .annotate ≤ 1)
  let dialectName ← valueOr "nasm" (valuesOf .dialect given)
  guard (isPossible ["nasm", "gas"] dialectName)
  let addressingName ← valueOr "symbol" (valuesOf .addressing given)
  guard (isPossible ["symbol", "rip"] addressingName)
  let dialect ← Dialect.ofName? dialectName
  let addressing ← Addressing.ofName? addressingName
  let output ← valueOr "-" (valuesOf .output given)
  match sourcesOf given with
  | [source] => some ⟨⟨dialect, addressing, given.contains .annotate⟩, source, output⟩
  | _ => none

def Request.ofArguments (args : List String) : Request :=
  match read none false args with
  | .error r => r
  | .ok given =>
    match build? given with
    | some b => .build b
    | none => .misuse

/-! ## What comes of it -/

def versionText : String := "KAIR compiler 0.1.0\n"

def helpText : String :=
  versionText
    ++ "\n"
    ++ "USAGE:\n"
    ++ "    kairc [OPTIONS] <SOURCE>\n"
    ++ "\n"
    ++ "ARGS:\n"
    ++ "    <SOURCE>    Source file ('-' for stdin)\n"
    ++ "\n"
    ++ "OPTIONS:\n"
    ++ "        --addressing <MODE>    How static regions are addressed [default: symbol] "
    ++ "[possible values:\n"
    ++ "                               symbol, rip]\n"
    ++ "        --annotate             Quote each source statement in the output\n"
    ++ "    -h, --help                 Print help information\n"
    ++ "    -o <FILE>                  Output file ('-' for stdout) [default: -]\n"
    ++ "        --syntax <DIALECT>     Assembler syntax of the output [default: nasm] "
    ++ "[possible values:\n"
    ++ "                               nasm, gas]\n"
    ++ "    -V, --version              Print version information\n"

/-- What is printed when a command line cannot be understood. -/
def usageText : String := "error: USAGE: kairc [OPTIONS] <SOURCE>\n"

/-- What stands at a path. -/
inductive Entry where
  | file (bytes : List UInt8)
  /-- Something that is there but cannot be read, such as a directory. -/
  | unreadable
  | missing

/-- What comes of a command line: an exit code, what is printed, and the file that is written. -/
structure Outcome where
  code : Nat := 0
  stdout : String := ""
  stderr : String := ""
  written : Option (String × String) := none

def missingText (action path : String) : String :=
  "Error: Failed to " ++ action ++ ": " ++ path
    ++ "\n\nCaused by:\n    No such file or directory (os error 2)\n"

def unwritableText (path : String) : String := missingText "write" path

namespace Build

/-- What messages call the source. -/
def sourceName (b : Build) : String := if b.source = "-" then "<stdin>" else b.source

def compile (b : Build) (src : Source) : Except String String :=
  match src.compile b.target with
  | .ok text => .ok text
  | .error report => .error (report.render b.sourceName)

/-- The assembly text of what stands at the path of the source, or the message why there is none. -/
def text (b : Build) : Entry → Except String String
  | .missing => .error (missingText "open for reading" b.source)
  | .unreadable => b.compile .unreadable
  | .file bytes => b.compile (.ofBytes bytes)

/-- What comes of a build, given what stands at its source and whether its output can be written. -/
def outcome (b : Build) (source : Entry) (writable : Bool) : Outcome :=
  match b.text source with
  | .error message => { code := 1, stderr := message }
  | .ok text =>
    if b.output = "-" then { stdout := text }
    else if writable then { written := some (b.output, text) }
    else { code := 1, stderr := unwritableText b.output }

end Build

/-- What comes of a request, given what a build finds. -/
def Request.outcome (r : Request) (find : Build → Entry) (writable : Build → Bool) : Outcome :=
  match r with
  | .help => { stdout := helpText }
  | .version => { stdout := versionText }
  | .misuse => { code := 2, stderr := usageText }
  | .build b => b.outcome (find b) (writable b)

end Quadword.CommandLine
