import CilScope.Diagnostic.Log
import CilScope.Text.Blank

/-!
# Compiler settings

The switches of an option string such as `/unsafe /o+ /debug`. A switch starts with a slash or a
dash; its value is a trailing plus or minus sign, a word behind a colon, or on by default.
-/

namespace CilScope

/-- The settings both compilers understand. -/
structure Settings where
  optimize : Bool := false
  debug : Bool := false
  deriving DecidableEq, Repr, Inhabited

namespace Settings

/-- A text in ASCII lower case. -/
def lower (cs : List Char) : List Char := cs.map Char.toLower

/-- The name of a switch and its value. -/
def splitSwitch (switch : List Char) : List Char × Bool :=
  match switch.span (· ≠ ':') with
  | (name, _ :: value) =>
    (name, [ "full", "pdbonly", "portable" ].any (·.toList == lower value))
  | (_, []) =>
    match switch.getLast? with
    | some '+' => (switch.dropLast, true)
    | some '-' => (switch.dropLast, false)
    | _ => (switch, true)

/-- Applies one word of an option string; a word that is no known switch is reported. The switch
for unsafe code means nothing in C# and is ignored with a warning in Visual Basic. -/
def apply (language : Language) (option : String) : Settings × Log → Settings × Log
  | (settings, log) =>
    let unknown (ignored : Bool) := (settings, log.reportGlobal (.unknownOption option ignored))
    match option.toList with
    | c :: switch =>
      if c = '/' ∨ c = '-' then
        let (name, on) := splitSwitch switch
        let name := String.ofList (lower name)
        if name = "o" ∨ name = "optimize" then ({ settings with optimize := on }, log)
        else if name = "debug" then ({ settings with debug := on }, log)
        else if name = "unsafe" then
          if language = .csharp then (settings, log) else unknown true
        else unknown false
      else unknown false
    | [] => unknown false

/-- The settings of an option string; what is unknown goes to the log. -/
def parse (language : Language) (options : String) (log : Log) : Settings × Log :=
  (Text.words options).foldl (fun acc option => apply language option acc) ({}, log)

end Settings

end CilScope
