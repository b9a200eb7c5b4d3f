import CilScope.Metadata.Basic

/-!
# The framework a snippet is compiled against

The compiler versions on offer with the core library each one targets, the assemblies every
compilation references, and the settings handed to a compiler as an option string.
-/

namespace CilScope.Framework

/-- The assemblies every compilation references. -/
def references : List String :=
  ["System.dll", "System.Core.dll", "System.Data.dll", "System.Data.DataSetExtensions.dll",
   "System.Xml.dll", "System.Xml.Linq.dll", "Microsoft.VisualBasic.dll", "System.Net.dll",
   "System.Web.dll", "System.ComponentModel.DataAnnotations.dll", "System.Drawing.dll"]

/-- The compiler versions and the version of the core library each one targets. -/
def compilerVersions : List (String × Version) :=
  [("v2.0", { major := 2 }), ("v3.5", { major := 2 }), ("v4.0", { major := 4 })]

/-- The compiler version taken when none is asked for. -/
def defaultCompilerVersion : String := "v4.0"

/-- The core library targeted by a compiler version. -/
def coreVersion? (compilerVersion : String) : Option Version :=
  compilerVersions.lookup compilerVersion

/-- The public key token of the core library. -/
def corePublicKeyToken : Vector UInt8 8 := #v[0xB7, 0x7A, 0x5C, 0x56, 0x19, 0x34, 0xE0, 0x89]

/-- The name of every compiled assembly. -/
def assemblyName : String := "snippet"

/-- The option string for a choice of settings. -/
def optionString (optimize debug : Bool) : String :=
  "/unsafe /o" ++ (if optimize then "+" else "-") ++ if debug then " /debug" else ""

end CilScope.Framework
