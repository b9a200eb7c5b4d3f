import CilScope.Proofs.Source.Lockstep.CSharp
import CilScope.Proofs.Source.Loops.Basic

/-!
# The loops of the parsers of C#

A missing semicolon is no obstacle here: it is reported and nothing is read in its place, but the
statement, field or directive in front of it has been read.
-/

namespace CilScope.Source.CSharp

open CilScope.Source.Parser

variable {N : Lexeme → Prop} {r depth : Nat}

/-! ### Statements -/

/-- A turn of modifiers. -/
def modifierTurn (again : Option Access × Bool → Parser (Option Access × Bool))
    (s : Option Access × Bool) : Parser (Option Access × Bool) := do
  match ← lexeme with
  | .word w =>
    if w = "static" then
      let _ ← advance
      again (s.1, true)
    else
      match accessOf.lookup w with
      | some a =>
        let _ ← advance
        again (some a, s.2)
      | none => return s
  | _ => return s

theorem counts_modifiersFrom : Counts (fun n s => modifiersFrom n s.1 s.2) modifierTurn := by
  refine .of_turn (fun _ _ => rfl) fun {r s} => .lexeme fun t => ?_
  cases t with
  | word w =>
    refine .ite (fun _ => .read nofun fun _ _ => .next _) fun _ => ?_
    split
    · exact .read nofun fun _ _ => .next _
    · exact .leave (.pure s)
  | _ => exact .leave (.pure s)

/-- A declarator behind its type. -/
def declarator (type : Option TypeUse) : Parser Stmt := do
  let pos ← position
  let name ← identifier
  let init ← initializer
  return .local_ pos name type init

theorem progress_declarator (type : Option TypeUse) : Progress N r 1 (declarator type) :=
  .looks looks_position fun _ => progress_identifier.bind fun _ _ =>
    progress_initializer.bind fun _ _ => .pure _

theorem counts_declarators (type : Option TypeUse) :
    Counts (fun n (_ : Unit) => declarators type n) (listTurn (declarator type)) := by
  refine .of_turn (fun n _ => ?_) (turn_list (progress_declarator type))
  simp only [declarators, listTurn, declarator, bind_assoc, pure_bind]

/-- A turn of the statements of a block. -/
def statementTurn (depth : Nat) (again : Unit → Parser (List Stmt × Position)) (_ : Unit) :
    Parser (List Stmt × Position) := do
  let pos ← position
  if ← eatPunct "\x7d" then return ([], pos)
  if ← atEof then fail pos .expectedCloseBrace
  let first ← statement depth
  let (rest, stop) ← again ()
  return (first ++ rest, stop)

theorem loops_statements :
    Loops (16 * · + 3) (fun depth (_ : Unit) => statements depth) statementTurn where
  unroll depth _ := by
    rw [statements]
    rfl
  turn := by
    intro r depth _ hdepth
    refine .looks looks_position fun pos => .eats (eats_eatPunct _) (fun _ => .leave (.pure _)) ?_
    refine .looks looks_atEof fun _ => .ite (fun _ => .fail_bind fun _ => rfl) fun _ => ?_
    refine .bind ((statementDepth depth).statement (by omega)) fun _ first => ?_
    exact .again () fun x => (first ++ x.1, x.2)

/-- Looking for the end of a type name reads nothing, but it goes on only behind a lexeme that is there,
so it does not matter by how much the bound of its steps exceeds the lexemes ahead. -/
theorem steady_typeNameEnd {c : Cursor} {steps m n : Nat} (hsteps : c.rest.length ≤ n + steps)
    (hm : c.rest.length ≤ n + m) :
    (typeNameEnd steps n).run.run c = (typeNameEnd m n).run.run c := by
  induction steps generalizing m n with
  | zero => exact (run_typeNameEnd_of_not (goesOn_of_length_le hsteps) m).symm
  | succ steps ih =>
    cases hgoes : goesOn c n with
    | false => rw [run_typeNameEnd_of_not hgoes, run_typeNameEnd_of_not hgoes]
    | true =>
      cases m with
      | zero =>
        rw [goesOn_of_length_le (n := n) hm] at hgoes
        cases hgoes
      | succ m =>
        rw [run_typeNameEnd_succ, run_typeNameEnd_succ, hgoes, if_pos rfl, if_pos rfl]
        exact ih (by omega) (by omega)

/-! ### Declarations -/

/-- A parameter. -/
def parameter : Parser Param := do
  let type ← typeUse
  let pos ← position
  let name ← identifier
  return ⟨name, type, pos⟩

theorem progress_parameter : Progress N r 1 parameter :=
  progress_typeUse.bind fun _ _ => .looks looks_position fun _ =>
    (progress_identifier.bind fun _ _ => .pure _).weaken (Nat.zero_le 1)

theorem counts_parameters : Counts (fun n (_ : Unit) => parameters n) (listTurn parameter) := by
  refine .of_turn (fun n _ => ?_) (turn_list progress_parameter)
  simp only [parameters, listTurn, parameter, bind_assoc, pure_bind]

/-- A turn of fields. -/
def fieldTurn (type : TypeUse) (access : Option Access) (isStatic : Bool)
    (again : String × Position → Parser (List FieldDecl)) (s : String × Position) :
    Parser (List FieldDecl) := do
  let init ← initializer
  let declared : FieldDecl := { name := s.1, type, access, isStatic, init, pos := s.2 }
  if ← eatPunct "," then
    let pos ← position
    let name ← identifier
    return declared :: (← again (name, pos))
  return [declared]

theorem counts_fields (type : TypeUse) (access : Option Access) (isStatic : Bool) :
    Counts (fun n s => fields type access isStatic n s.1 s.2) (fieldTurn type access isStatic) := by
  refine .of_turn (fun _ _ => rfl) fun {r s} => .bind progress_initializer fun _ init => ?_
  refine .eats (eats_eatPunct ",") (fun _ => .looks looks_position fun pos => ?_) (.leave (.pure _))
  exact .bind progress_identifier fun _ name => .again (name, pos) _

/-- A turn of the members of a type. -/
def memberTurn (depth : Nat) (again : Members → Parser Members) (ms : Members) : Parser Members := do
  if ← eatPunct "\x7d" then return ms
  let pos ← position
  if ← atEof then fail pos .expectedCloseBrace
  let (access, isStatic) ← modifiers
  if ← isWord "class" then
    let inner ← typeDeclaration "" access isStatic pos depth
    again { ms with nested := ms.nested ++ [inner] }
  else
    again (← member access isStatic pos ms)

theorem loops_members : Loops (16 * · + 2) members memberTurn where
  unroll depth ms := by
    rw [members]
    rfl
  turn := by
    intro r depth ms hdepth
    refine .eats (eats_eatPunct _) (fun _ => .leave (.pure _)) (.looks looks_position fun pos => ?_)
    refine .looks looks_atEof fun _ => .ite (fun _ => .fail_bind fun _ => rfl) fun _ => ?_
    refine .bind progress_modifiers fun _ _ => .looks (looks_isWordAt 0 "class") fun _ => ?_
    refine .ite (fun _ => ?_) fun _ => .bind progress_member fun _ ms => .next ms
    exact .bind ((classDepth depth).typeDeclaration (by omega)) fun _ inner => .next _

/-- A turn of the directives at the top. -/
def directiveTurn (again : Unit → Parser (List Import)) (_ : Unit) : Parser (List Import) := do
  let pos ← position
  if ← eatWord "using" then
    let first ← usingDirective pos
    return first :: (← again ())
  return []

theorem counts_usingDirectives :
    Counts (fun n (_ : Unit) => usingDirectives n) directiveTurn := by
  refine .of_turn (fun _ _ => rfl) fun {r s} => .looks looks_position fun pos => ?_
  refine .eats (eats_eatWord "using") (fun _ => ?_) (.leave (.pure []))
  exact .bind (progress_usingDirective pos) fun _ first => .again () (first :: ·)

/-- A turn of declarations behind the directives. A namespace has declarations of its own, with less
depth. -/
def declaredTurn (namespace_ : String) (depth : Nat) (pos : Position)
    (again : CompilationUnit → Parser CompilationUnit) (unit : CompilationUnit) :
    Parser CompilationUnit := do
  if ← eatWord "namespace" then
    let name ← qualifiedName
    let full := if namespace_.isEmpty then name else namespace_ ++ "." ++ name
    expectPunct "\x7b"
    let unit ← declarations depth full true unit
    expectPunct "\x7d"
    again unit
  else
    let (access, isStatic) ← modifiers
    unless ← isWord "class" do fail pos .topLevelExpected
    let declared ← typeDeclaration namespace_ access isStatic pos (← depthBound)
    again { unit with types := unit.types ++ [declared] }

theorem turn_declared {namespace_ : String} {unit : CompilationUnit} (pos : Position)
    (hdepth : 16 * r + 1 ≤ depth + 1) :
    Turn N r 1 fun again => declaredTurn namespace_ depth pos again unit := by
  refine .eats (eats_eatWord "namespace") (fun _ => .bind progress_qualifiedName fun _ name => ?_) ?_
  · refine .bind (progress_expectPunct _) fun _ _ => ?_
    refine .bind (progress_declarations (by omega)) fun _ unit => ?_
    exact .bind (progress_expectPunct _) fun _ _ => .next unit
  · refine .bind progress_modifiers fun _ _ => .looks (looks_isWordAt 0 "class") fun _ => ?_
    refine .ite (fun _ => ?_) fun _ => .fail_bind fun _ => rfl
    refine .depthBound fun n _ => ?_
    exact .bind ((classDepth _).typeDeclaration (by omega)) fun _ _ => .next _

/-- A turn of declarations. -/
def declarationTurn (namespace_ : String) (nested : Bool) (depth : Nat)
    (again : CompilationUnit → Parser CompilationUnit) (unit : CompilationUnit) :
    Parser CompilationUnit := do
  if nested then
    if ← isPunct "\x7d" then return unit
  let pos ← position
  if ← atEof then
    if nested then fail pos .expectedCloseBrace
    return unit
  if nested then
    if ← eatWord "using" then
      let directive ← usingDirective pos
      return ← again { unit with imports := unit.imports ++ [directive] }
  declaredTurn namespace_ depth pos again unit

theorem loops_declarations (namespace_ : String) (nested : Bool) :
    Loops (16 * · + 1) (declarations · namespace_ nested) (declarationTurn namespace_ nested) where
  unroll depth unit := by
    rw [declarations]
    rfl
  turn := by
    intro r depth unit hdepth
    unfold declarationTurn
    cases nested with
    | false =>
      simp only [Bool.false_eq_true, if_false]
      refine .looks looks_position fun pos => .looks looks_atEof fun _ => ?_
      exact .ite (fun _ => .leave (.pure unit)) fun _ => turn_declared pos hdepth
    | true =>
      simp only [if_true]
      refine .looks (looks_isPunctAt 0 _) fun _ => .ite (fun _ => .leave (.pure unit)) fun _ => ?_
      refine .looks looks_position fun pos => .looks looks_atEof fun _ => ?_
      refine .ite (fun _ => .fail_bind fun _ => rfl) fun _ => ?_
      refine .eats (eats_eatWord "using") (fun _ => ?_) (turn_declared pos hdepth)
      exact .bind (progress_usingDirective pos) fun _ _ => .next _

end CilScope.Source.CSharp
