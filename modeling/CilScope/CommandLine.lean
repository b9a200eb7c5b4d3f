import CilScope.Pipeline

/-!
# The command line

The options of the program, where it takes its source from, and what it answers: the listing on
the standard output, or a message on the standard error output with an exit code that tells
diagnostics from other failures.
-/

namespace CilScope.CommandLine

/-- The options. -/
structure Options where
  /-- The source file; a dash stands for the standard input. -/
  file : Option String := none
  language : String := Language.csharp.key
  compilerVersion : String := Framework.defaultCompilerVersion
  noOptimize : Bool := false
  noDebug : Bool := false
  headers : Bool := false
  flat : Bool := false
  /-- Where the scratch space of the compilers may be. -/
  tempDir : Option String := none
  /-- Only the starter program of the language is wanted. -/
  example_ : Bool := false
  deriving DecidableEq, Repr, Inhabited

/-- What is wrong with a list of arguments. -/
inductive UsageError
  | unexpected (argument : String)
  | missingValue (option : String)
  deriving DecidableEq, Repr, Inhabited

/-- The wording of a usage error. -/
def UsageError.message : UsageError → String
  | unexpected argument => "error: unexpected argument '" ++ argument ++ "' found"
  | missingValue option => "error: a value is required for '" ++ option ++ "' but none was supplied"

/-- The switches. -/
def setSwitch? (o : Options) : String → Option Options
  | "--no-optimize" => some { o with noOptimize := true }
  | "--no-debug" => some { o with noDebug := true }
  | "--headers" => some { o with headers := true }
  | "--flat" => some { o with flat := true }
  | "--example" => some { o with example_ := true }
  | _ => none

/-- The options that take a value. -/
def setValue? (name : String) : Option (String → Options → Options) :=
  match name with
  | "-l" | "--language" => some fun v o => { o with language := v }
  | "--compiler-version" => some fun v o => { o with compilerVersion := v }
  | "--temp-dir" => some fun v o => { o with tempDir := some v }
  | _ => none

/-- An option that carries its value in one argument: behind an equals sign, or directly behind
the short name. -/
def splitValue? (argument : String) : Option (String × String) :=
  match argument.toList with
  | '-' :: '-' :: rest =>
    match rest.span (· ≠ '=') with
    | (name, _ :: value) => some ("--" ++ String.ofList name, String.ofList value)
    | (_, []) => none
  | '-' :: 'l' :: '=' :: value => some ("-l", String.ofList value)
  | '-' :: 'l' :: c :: value => some ("-l", String.ofList (c :: value))
  | _ => none

/-- Takes a plain argument as the source file; there can be only one. -/
def setFile (o : Options) (path : String) : Except UsageError Options :=
  if o.file.isSome then .error (.unexpected path) else .ok { o with file := some path }

/-- Reads the arguments behind a double dash: none of them is an option. -/
def parsePlain (o : Options) : List String → Except UsageError Options
  | [] => .ok o
  | path :: rest => do parsePlain (← setFile o path) rest

/-- Reads arguments on top of the options read so far. -/
def parseFrom (o : Options) : List String → Except UsageError Options
  | [] => .ok o
  | "--" :: rest => parsePlain o rest
  | argument :: rest =>
    match setSwitch? o argument, setValue? argument, splitValue? argument with
    | some o, _, _ => parseFrom o rest
    | none, some set, _ =>
      match rest with
      | value :: rest => parseFrom (set value o) rest
      | [] => .error (.missingValue argument)
    | none, none, some (name, value) =>
      match setValue? name with
      | some set => parseFrom (set value o) rest
      | none => .error (.unexpected argument)
    | none, none, none =>
      if argument.startsWith "-" ∧ argument ≠ "-" then .error (.unexpected argument)
      else do parseFrom (← setFile o argument) rest

/-- Reads a list of arguments. -/
def parse (arguments : List String) : Except UsageError Options := parseFrom {} arguments

/-- Where the source comes from. -/
inductive Origin
  | standardInput
  | file (path : String)
  /-- The starter program of the language. -/
  | starter
  deriving DecidableEq, Repr, Inhabited

/-- Where the source comes from under these options. -/
def Options.origin (o : Options) : Origin :=
  match o.file with
  | some "-" => .standardInput
  | some path => .file path
  | none => .starter

/-- The starter program of a language key. -/
def starter? (key : String) : Option String := (Language.ofKey? key).map Language.starter

/-- The text of bytes that were read. -/
def decodeSource (bytes : List UInt8) : Except String String :=
  match Bytes.toString? bytes with
  | some text => .ok text
  | none => .error "stream did not contain valid UTF-8"

/-- What the program answers. -/
structure Response where
  exit : UInt8
  output : String := ""
  errors : String := ""
  deriving DecidableEq, Repr, Inhabited

/-- A message on the standard error output, with an exit code. -/
def complain (exit : UInt8) (message : String) : Response := { exit, errors := message ++ "\n" }

section

variable {σ : Type} (T : TempDirs σ)

/-- The answer for a source, with this scratch space. -/
def Options.compile (o : Options) (s : σ) (source : String) : Response :=
  let request : Request :=
    { source, language := o.language, compilerVersion := o.compilerVersion
      optimize := !o.noOptimize, debug := !o.noDebug }
  let (result, _) :=
    Workshop.standard.run T request { headers := o.headers, structured := !o.flat } s
  match result with
  | .il text => { exit := 0, output := text }
  | .diagnostics _ => complain 1 result.present
  | .failure _ => complain 2 result.present

/-- The answer under these options. `scratch` is the scratch space in a directory, or in that of the
system; `read` is what reading the file or the standard input gave, and is not looked at where neither
is asked for. -/
def Options.respond (o : Options) (scratch : Option String → σ) (read : Except String String) :
    Response :=
  if o.example_ then
    match starter? o.language with
    | some text => { exit := 0, output := text ++ "\n" }
    | none => complain 2 ("No example for language '" ++ o.language ++ "'")
  else
    match o.origin with
    | .starter =>
      match starter? o.language with
      | some text => o.compile T (scratch o.tempDir) text
      | none =>
        complain 2 ("No source given and no example for language '" ++ o.language ++ "'")
    | _ =>
      match read with
      | .ok text => o.compile T (scratch o.tempDir) text
      | .error reason => complain 2 ("Error reading source: " ++ reason)

end

end CilScope.CommandLine
