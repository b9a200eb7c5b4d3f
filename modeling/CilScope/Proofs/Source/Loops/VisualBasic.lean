import CilScope.Proofs.Source.Loops.Basic
import CilScope.Proofs.Source.VisualBasic

/-!
# The loops of the parsers of Visual Basic

The end of a statement may be the end of the file, which is not read, and the line ends between two
statements may be none. So it is the statement, the member or the directive of a turn that gets ahead.
-/

namespace CilScope.Source.VisualBasic

open CilScope.Source.Parser

variable {N : Lexeme → Prop} {r depth : Nat}

/-! ### Line ends and modifiers -/

/-- A turn of line ends. -/
def newlineTurn (again : Unit → Parser Unit) (_ : Unit) : Parser Unit := do
  if (← lexeme) = .newline then
    let _ ← advance
    again ()

theorem counts_skipNewlinesFrom :
    Counts (fun n (_ : Unit) => skipNewlinesFrom n) newlineTurn := by
  refine .of_turn (fun _ _ => rfl) fun {r _} => .lexeme fun t => ?_
  refine .ite (fun ht => ?_) fun _ => .leave (.pure ())
  exact .read (by rw [ht]; nofun) fun _ _ => .next ()

/-- A turn of modifiers. -/
def modifierTurn (again : Option Access × Bool → Parser (Option Access × Bool))
    (s : Option Access × Bool) : Parser (Option Access × Bool) := do
  if ← eatWord "shared" then again (s.1, true)
  else
    match ← lexeme with
    | .word w =>
      match accessOf.find? fun (keyword, _) => Language.visualBasic.sameName w keyword with
      | some (_, a) =>
        let _ ← advance
        again (some a, s.2)
      | none => return s
    | _ => return s

theorem counts_modifiersFrom : Counts (fun n s => modifiersFrom n s.1 s.2) modifierTurn := by
  refine .of_turn (fun _ _ => rfl) fun {r s} => ?_
  refine .eats (eats_eatWord "shared") (fun _ => .next _) (.lexeme fun t => ?_)
  cases t with
  | word w =>
    dsimp only
    split
    · exact .read nofun fun _ _ => .next _
    · exact .leave (.pure s)
  | _ => exact .leave (.pure s)

/-! ### Statements -/

/-- A declarator of a local variable. -/
def localDeclarator : Parser Stmt := do
  let pos ← position
  let d ← declarator
  return .local_ pos d.name d.type d.init

theorem counts_locals : Counts (fun n (_ : Unit) => locals n) (listTurn localDeclarator) := by
  refine .of_turn (fun n _ => ?_) (turn_list ?_)
  · simp only [locals, listTurn, localDeclarator, bind_assoc, pure_bind]
  · exact .looks looks_position fun _ => progress_declarator.bind fun _ _ => .pure _

/-- A turn of statements. -/
def statementTurn (depth : Nat) (again : Unit → Parser (List Stmt)) (_ : Unit) :
    Parser (List Stmt) := do
  skipNewlines
  if ← atBlockEnd then return []
  let first ← statement depth
  endOfStatement
  return first ++ (← again ())

theorem loops_statements :
    Loops (16 * · + 2) (fun depth (_ : Unit) => statements depth) statementTurn where
  unroll depth _ := by
    rw [statements]
    rfl
  turn := by
    intro r depth _ hdepth
    refine .bind progress_skipNewlines fun _ _ => .looks looks_atBlockEnd fun _ => ?_
    refine .ite (fun _ => .leave (.pure [])) fun _ => ?_
    refine .bind ((statementDepth depth).statement (by omega)) fun _ first => ?_
    exact .bind progress_endOfStatement fun _ _ => .again () (first ++ ·)

/-! ### Declarations -/

/-- A parameter. -/
def parameter : Parser Param := do
  let _ ← eatWord "byval"
  let pos ← position
  let d ← declarator
  return ⟨d.name, d.type.getD ⟨.object, pos⟩, pos⟩

theorem counts_parameters : Counts (fun n (_ : Unit) => parameters n) (listTurn parameter) := by
  refine .of_turn (fun n _ => ?_) (turn_list ?_)
  · simp only [parameters, listTurn, parameter, bind_assoc, pure_bind]
  · refine (Progress.of_eats (eats_eatWord "byval")).bind fun _ _ => .looks looks_position fun _ => ?_
    exact progress_declarator.bind fun _ _ => .pure _

/-- A field. -/
def field (access : Option Access) (isStatic : Bool) : Parser FieldDecl := do
  let pos ← position
  let d ← declarator
  return { name := d.name, type := d.type.getD ⟨.object, pos⟩, access, isStatic, init := d.init, pos }

theorem counts_fields (access : Option Access) (isStatic : Bool) :
    Counts (fun n (_ : Unit) => fields access isStatic n) (listTurn (field access isStatic)) := by
  refine .of_turn (fun n _ => ?_) (turn_list ?_)
  · simp only [fields, listTurn, field, bind_assoc, pure_bind]
  · exact .looks looks_position fun _ => progress_declarator.bind fun _ _ => .pure _

/-- A turn of the members of a type. -/
def memberTurn (isModule : Bool) (depth : Nat) (again : Members → Parser Members) (ms : Members) :
    Parser Members := do
  skipNewlines
  if (← atEof) || (← isWord "end") then return ms
  let pos ← position
  let (access, shared) ← modifiers
  let isStatic := shared || isModule
  if ← isWord "class" then
    let inner ← typeDeclaration "" access pos depth
    again { ms with nested := ms.nested ++ [inner] }
  else if (← isWord "sub") || (← isWord "function") then
    let declared ← method access isStatic pos
    again { ms with methods := ms.methods ++ [declared] }
  else
    let _ ← eatWord "dim"
    let declared ← fields access isStatic (← remaining)
    endOfStatement
    again { ms with fields := ms.fields ++ declared }

theorem loops_members (isModule : Bool) :
    Loops (16 * · + 2) (members isModule) (memberTurn isModule) where
  unroll depth ms := by
    rw [members]
    rfl
  turn := by
    intro r depth ms hdepth
    refine .bind progress_skipNewlines fun _ _ => ?_
    refine .looks looks_atEof fun _ => .looks (looks_isWordAt 0 "end") fun _ => ?_
    refine .ite (fun _ => .leave (.pure _)) fun _ => .looks looks_position fun pos => ?_
    refine .bind progress_modifiers fun _ _ => .looks (looks_isWordAt 0 "class") fun _ => ?_
    refine .ite (fun _ => ?_) fun _ => ?_
    · exact .bind ((typeDepth depth).typeDeclaration (by omega)) fun _ _ => .next _
    refine .looks (looks_isWordAt 0 "sub") fun _ => .looks (looks_isWordAt 0 "function") fun _ => ?_
    refine .ite (fun _ => .bind progress_method fun _ _ => .next _) fun _ => ?_
    refine .bind (.of_eats (eats_eatWord "dim")) fun _ _ => .remaining fun m _ => ?_
    refine .bind (progress_fields (Nat.le_refl m)) fun _ _ => ?_
    exact .bind progress_endOfStatement fun _ _ => .next _

/-- A turn of the imports at the top. -/
def importTurn (again : Unit → Parser (List Import)) (_ : Unit) : Parser (List Import) := do
  let pos ← position
  if ← eatWord "imports" then
    let namespace_ ← qualifiedName
    endOfStatement
    skipNewlines
    return ⟨namespace_, pos⟩ :: (← again ())
  return []

theorem counts_importStatements :
    Counts (fun n (_ : Unit) => importStatements n) importTurn := by
  refine .of_turn (fun _ _ => rfl) fun {r _} => .looks looks_position fun pos => ?_
  refine .eats (eats_eatWord "imports") (fun _ => ?_) (.leave (.pure []))
  refine .bind progress_qualifiedName fun _ namespace_ => .bind progress_endOfStatement fun _ _ => ?_
  exact .bind progress_skipNewlines fun _ _ => .again () _

/-- A turn of declarations behind what ends them. A namespace has declarations of its own, with less
depth. -/
def declaredTurn (namespace_ : String) (depth : Nat) (again : List TypeDecl → Parser (List TypeDecl))
    (types : List TypeDecl) : Parser (List TypeDecl) := do
  let pos ← position
  if ← eatWord "namespace" then
    let name ← qualifiedName
    endOfStatement
    let full := if namespace_.isEmpty then name else namespace_ ++ "." ++ name
    let types ← declarations depth full (some pos) types
    again types
  else
    let (access, _) ← modifiers
    unless (← isWord "module") || (← isWord "class") do fail pos .topLevelExpected
    let declared ← typeDeclaration namespace_ access pos (← depthBound)
    again (types ++ [declared])

theorem turn_declared {namespace_ : String} {types : List TypeDecl}
    (hdepth : 16 * r + 1 ≤ depth + 1) :
    Turn N r 1 fun again => declaredTurn namespace_ depth again types := by
  refine .looks looks_position fun pos => .eats (eats_eatWord "namespace") (fun _ => ?_) ?_
  · refine .bind progress_qualifiedName fun _ name => .bind progress_endOfStatement fun _ _ => ?_
    exact .bind (progress_declarations (by omega)) fun _ types => .next types
  · refine .bind progress_modifiers fun _ _ => .looks (looks_isWordAt 0 "module") fun _ => ?_
    refine .looks (looks_isWordAt 0 "class") fun _ => ?_
    refine .ite (fun _ => ?_) fun _ => .fail_bind fun _ => rfl
    refine .depthBound fun n _ => ?_
    exact .bind ((typeDepth _).typeDeclaration (by omega)) fun _ _ => .next _

/-- A turn of declarations. -/
def declarationTurn (namespace_ : String) (opened : Option Position) (depth : Nat)
    (again : List TypeDecl → Parser (List TypeDecl)) (types : List TypeDecl) :
    Parser (List TypeDecl) := do
  skipNewlines
  if ← atEof then
    match opened with
    | some pos => fail pos (.missingEnd "Namespace")
    | none => return types
  if let some pos := opened then
    if ← isWord "end" then
      expectEnd "Namespace" pos
      endOfStatement
      return types
  declaredTurn namespace_ depth again types

theorem loops_declarations (namespace_ : String) (opened : Option Position) :
    Loops (16 * · + 1) (declarations · namespace_ opened) (declarationTurn namespace_ opened) where
  unroll depth types := by
    rw [declarations]
    rfl
  turn := by
    intro r depth types hdepth
    refine .bind progress_skipNewlines fun _ _ => .looks looks_atEof fun _ => ?_
    cases opened with
    | none => exact .ite (fun _ => .leave (.pure types)) fun _ => turn_declared hdepth
    | some pos =>
      refine .ite (fun _ => .fail fun _ => rfl) fun _ => ?_
      refine .looks (looks_isWordAt 0 "end") fun _ => .ite (fun _ => ?_) fun _ => ?_
      · refine .leave ((progress_expectEnd "Namespace" pos).bind fun _ _ => ?_)
        exact progress_endOfStatement.bind fun _ _ => .pure types
      · exact turn_declared hdepth

end CilScope.Source.VisualBasic
