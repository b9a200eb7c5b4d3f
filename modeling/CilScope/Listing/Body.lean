import CilScope.Listing.Outline
import CilScope.Listing.Writer

/-!
# Method bodies in listings

The header lines of a body, then its instructions, either flat with a table of the exception
clauses behind them, or as an outline.
-/

namespace CilScope.Listing

open CilScope.Flow Writer

/-- What a handler is for, as text. -/
def handlerText (n : Names) : ClauseKind → Except ListingError String
  | .catch_ t => return "catch " ++ (← n.typeToken t)
  | .finally_ => return "finally"

/-- The line that names a region. -/
def headingText (n : Names) (o : Offsets) (s : Span) : Except ListingError String :=
  match s.kind with
  | .protected_ => return ".try"
  | .handler kind => handlerText n kind
  | .loop => return "while (true) // head: " ++ offsetLabel (o.offsetAt s.start)
  | .conditional test _ => return "if (" ++ offsetLabel (o.offsetAt test) ++ ")"

/-- The line that ends a region. -/
def closingText : Option RegionKind → String
  | none => "\x7d"
  | some .protected_ => "\x7d // end .try"
  | some (.handler _) => "\x7d // end handler"
  | some .loop => "\x7d // end while"
  | some (.conditional ..) => "\x7d // end if"

/-- Writes a line of an outline. -/
def writeItem (n : Names) (m : MethodDef) (o : Offsets) (code : Array Instruction) :
    Item → Writer Unit
  | .instruction index jump =>
    match code[index]? with
    | some i => do line (← name (instructionLine n m i (jump.map (·.text))))
    | none => return
  | .heading span => do line (← name (headingText n o span))
  | .otherwise => line "else"
  | .opening => do
    line "\x7b"
    indent
  | .closing kind => do
    unindent
    line (closingText kind)

/-- Writes the instructions with their control structures. -/
def writeStructured (n : Names) (m : MethodDef) (b : Body) (g : Graph) : Writer Unit :=
  (outline b.instructions m.clauses g).forM
    (writeItem n m g.offsets b.instructions.toArray)

/-- The line of a clause in the table behind a flat body. -/
def clauseLine (n : Names) (c : Clause) : Except ListingError String := do
  let handler ← handlerText n c.kind
  return ".try " ++ offsetLabel c.tryOffset ++ " to " ++ offsetLabel c.tryEnd ++ " " ++ handler ++
    " handler " ++ offsetLabel c.handlerOffset ++ " to " ++ offsetLabel c.handlerEnd

/-- Writes the instructions one after the other, and the clauses behind them. -/
def writeFlat (n : Names) (m : MethodDef) (b : Body) : Writer Unit := do
  b.instructions.forM fun i => do line (← name (instructionLine n m i none))
  unless m.clauses.isEmpty do
    blank
    m.clauses.forM fun c => do line (← name (clauseLine n c))

/-- Texts with a comma behind all but the last. -/
def commaSeparated : List String → List String
  | [] => []
  | [s] => [s]
  | s :: rest => (s ++ ",") :: commaSeparated rest

/-- Writes lines made from the entries of a list, with commas between them. An entry that cannot
be named ends the listing. -/
def writeList {α : Type} (entries : List α) (text : α → Except ListingError String) :
    Writer Unit := do
  let lines ← entries.mapM fun e => name (text e)
  (commaSeparated lines).forM line

/-- Writes the declaration of the local variables. -/
def writeLocals (n : Names) (m : MethodDef) : Writer Unit := do
  unless m.locals.isEmpty do
    line ".locals init ("
    indented (writeList m.locals.zipIdx fun (v, i) => do
      let sig ← n.sig v.sig
      let named := match v.name with
        | some name => " " ++ Text.Quoted.name name
        | none => ""
      return s!"[{i}] " ++ sig ++ named)
    line ")"

/-- Writes a body. -/
def writeBody (structured : Bool) (n : Names) (m : MethodDef) (b : Body) : Writer Unit := do
  line ("// Method begins at RVA 0x" ++ Text.Hex.padded 1 b.rva.toNat)
  line (s!"// Code size {b.codeSize.toNat} (0x" ++ Text.Hex.padded 1 b.codeSize.toNat ++ ")")
  line s!".maxstack {m.maxStack.toNat}"
  writeLocals n m
  blank
  match Graph.build b.instructions m.clauses with
  | .error e => throw (.body n.site e)
  | .ok g => if structured then writeStructured n m b g else writeFlat n m b

end CilScope.Listing
