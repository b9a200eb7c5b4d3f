import CilScope.Diagnostic.Log
import CilScope.Source.Lexeme
import CilScope.Source.Tree
import Mathlib

/-!
# Changes of spelling

A `Respelling` of a language changes how names are written, and no two names that the language takes for
the same become different by it. For Visual Basic writing everything in lower case is one. Every syntax
tree has its respelled form; diagnostics keep their codes and places under a respelling, and their messages
up to the respelling.
-/

namespace CilScope

/-- Two names are the same in either order. -/
theorem Language.sameName_comm (language : Language) (a b : String) :
    language.sameName a b = language.sameName b a := by
  cases language <;> exact BEq.comm

/-- A change of spelling that a language does not see. It leaves the names of initializers alone. -/
structure Respelling (language : Language) (f : String → String) : Prop where
  same : ∀ a b, language.sameName (f a) b = language.sameName a b
  idem : ∀ a, f (f a) = f a
  append : ∀ a b, f (a ++ b) = f a ++ f b
  contains : ∀ a, (f a).contains '.' = a.contains '.'
  isEmpty : ∀ a, (f a).isEmpty = a.isEmpty
  fixed : ∀ a ∈ [".", ".ctor", ".cctor"], f a = a

namespace Respelling

/-- To change nothing is a change that no language sees. -/
theorem refl (language : Language) : Respelling language id :=
  ⟨fun _ _ => rfl, fun _ => rfl, fun _ _ => rfl, fun _ => rfl, fun _ => rfl, fun _ _ => rfl⟩

theorem map_append (f : Char → Char) (a b : String) : (a ++ b).map f = a.map f ++ b.map f := by
  rw [← String.toList_inj]
  simp only [String.toList_map, String.toList_append, List.map_append]

theorem toLower_eq_dot_iff (c : Char) : c.toLower = '.' ↔ c = '.' := by
  refine ⟨fun h => ?_, fun h => h.symm ▸ rfl⟩
  by_cases hupper : c.isUpper = true
  · -- the lower case of a letter is a letter
    have hletter := Char.isLower_toLower_eq_isAlpha c
    rw [h, Char.isAlpha, hupper] at hletter
    cases hletter
  · rwa [Char.toLower_eq_of_not_isUpper hupper] at h

/-- Visual Basic does not tell upper case from lower case. -/
theorem lowerCase : Respelling .visualBasic (String.map Char.toLower) := by
  have hidem (a : String) : (a.map Char.toLower).map Char.toLower = a.map Char.toLower := by
    rw [← String.toList_inj, String.toList_map, String.toList_map, List.map_map]
    exact List.map_congr_left fun c _ => Char.toLower_toLower_eq_toLower c
  refine ⟨fun a b => ?_, hidem, map_append _, fun a => ?_, fun a => ?_, ?_⟩
  · rw [Language.sameName, Language.sameName, hidem]
  · rw [String.contains_char_eq, String.contains_char_eq, String.toList_map]
    simp [toLower_eq_dot_iff]
  · rw [Bool.eq_iff_iff, String.isEmpty_iff, String.isEmpty_iff, String.map_eq_empty]
  · intro a ha
    simp only [List.mem_cons, List.not_mem_nil, or_false] at ha
    rcases ha with rfl | rfl | rfl <;>
      rw [← String.toList_inj, String.toList_map] <;> rfl

variable {language : Language} {f : String → String} (h : Respelling language f)

include h

/-- Names that are respelled alike are the same names. -/
theorem sameName_congr {a a' b b' : String} (ha : f a' = f a) (hb : f b' = f b) :
    language.sameName a' b' = language.sameName a b := by
  rw [← h.same a', ha, h.same, language.sameName_comm, ← h.same b', hb, h.same,
    language.sameName_comm]

theorem contains_congr {a a' : String} (ha : f a' = f a) : a'.contains '.' = a.contains '.' := by
  rw [← h.contains a', ha, h.contains]

theorem isEmpty_congr {a a' : String} (ha : f a' = f a) : a'.isEmpty = a.isEmpty := by
  rw [← h.isEmpty a', ha, h.isEmpty]

theorem empty : f "" = "" := by
  rw [← String.isEmpty_iff, h.isEmpty]
  rfl

theorem append_congr {a a' b b' : String} (ha : f a' = f a) (hb : f b' = f b) :
    f (a' ++ b') = f (a ++ b) := by
  rw [h.append, h.append, ha, hb]

end Respelling

/-! ## Syntax trees -/

namespace Source

/-- The type name with its class respelled. -/
def TypeName.respell (f : String → String) : TypeName → TypeName
  | named name => named (f name)
  | array element => array (element.respell f)
  | void => void
  | int => int
  | bool => bool
  | string => string
  | object => object

/-- The type name with its class respelled. -/
def TypeUse.respell (f : String → String) (t : TypeUse) : TypeUse := { t with name := t.name.respell f }

mutual

/-- The expression with its names respelled. Texts stay as they are. -/
def Expr.respell (f : String → String) : Expr → Expr
  | .int pos v => .int pos v
  | .str pos text => .str pos text
  | .bool pos v => .bool pos v
  | .null pos => .null pos
  | .this pos => .this pos
  | .name pos n => .name pos (f n)
  | .typeKeyword pos t => .typeKeyword pos (t.respell f)
  | .member pos target n => .member pos (target.respell f) (f n)
  | .call pos callee args => .call pos (callee.respell f) (Expr.respellAll f args)
  | .new pos type args => .new pos (type.respell f) (Expr.respellAll f args)
  | .index pos target i => .index pos (target.respell f) (i.respell f)
  | .unary pos op operand => .unary pos op (operand.respell f)
  | .binary pos op lhs rhs => .binary pos op (lhs.respell f) (rhs.respell f)

/-- Expressions with their names respelled. -/
def Expr.respellAll (f : String → String) : List Expr → List Expr
  | [] => []
  | e :: rest => e.respell f :: Expr.respellAll f rest

end

/-- The head of a handler with its names respelled. -/
def CatchHead.respell (f : String → String) (head : CatchHead) : CatchHead :=
  { head with type := head.type.map (·.respell f), var := head.var.map f }

mutual

/-- The statement with its names respelled. -/
def Stmt.respell (f : String → String) : Stmt → Stmt
  | .local_ pos name type init =>
    .local_ pos (f name) (type.map (·.respell f)) (init.map (·.respell f))
  | .assign pos target op value => .assign pos (target.respell f) op (value.respell f)
  | .increment pos target delta => .increment pos (target.respell f) delta
  | .expr pos e => .expr pos (e.respell f)
  | .if_ pos cond then_ none => .if_ pos (cond.respell f) (Stmt.respellAll f then_) none
  | .if_ pos cond then_ (some else_) =>
    .if_ pos (cond.respell f) (Stmt.respellAll f then_) (some (Stmt.respellAll f else_))
  | .while_ pos kind cond body none =>
    .while_ pos kind (cond.map (·.respell f)) (Stmt.respellAll f body) none
  | .while_ pos kind cond body (some step) =>
    .while_ pos kind (cond.map (·.respell f)) (Stmt.respellAll f body) (some (step.respell f))
  | .doWhile pos body cond until_ => .doWhile pos (Stmt.respellAll f body) (cond.respell f) until_
  | .break_ pos kind => .break_ pos kind
  | .continue_ pos kind => .continue_ pos kind
  | .return_ pos value => .return_ pos (value.map (·.respell f))
  | .throw_ pos value => .throw_ pos (value.map (·.respell f))
  | .try_ pos body handler finally_ =>
    .try_ pos (Stmt.respellAll f body)
      (match handler with
        | some (head, body) => some (head.respell f, Stmt.respellAll f body)
        | none => none)
      (match finally_ with
        | some body => some (Stmt.respellAll f body)
        | none => none)
  | .block pos body => .block pos (Stmt.respellAll f body)

/-- Statements with their names respelled. -/
def Stmt.respellAll (f : String → String) : List Stmt → List Stmt
  | [] => []
  | s :: rest => s.respell f :: Stmt.respellAll f rest

end

/-- The import with its name respelled. -/
def Import.respell (f : String → String) (i : Import) : Import := { i with namespace_ := f i.namespace_ }

/-- The parameter with its names respelled. -/
def Param.respell (f : String → String) (p : Param) : Param :=
  { p with name := f p.name, type := p.type.respell f }

/-- The field with its names respelled. -/
def FieldDecl.respell (f : String → String) (d : FieldDecl) : FieldDecl :=
  { d with name := f d.name, type := d.type.respell f, init := d.init.map (·.respell f) }

/-- The method with its names respelled. -/
def MethodDecl.respell (f : String → String) (d : MethodDecl) : MethodDecl :=
  { d with
    name := f d.name, ret := d.ret.respell f, params := d.params.map (·.respell f)
    body := Stmt.respellAll f d.body }

mutual

/-- The type with its names respelled. -/
def TypeDecl.respell (f : String → String) : TypeDecl → TypeDecl
  | ⟨namespace_, name, kind, access, fields, methods, nested, pos⟩ =>
    ⟨f namespace_, f name, kind, access, fields.map (·.respell f), methods.map (·.respell f),
      TypeDecl.respellAll f nested, pos⟩

/-- Types with their names respelled. -/
def TypeDecl.respellAll (f : String → String) : List TypeDecl → List TypeDecl
  | [] => []
  | d :: rest => d.respell f :: TypeDecl.respellAll f rest

end

/-- The unit with its names respelled. -/
def CompilationUnit.respell (f : String → String) (u : CompilationUnit) : CompilationUnit :=
  { imports := u.imports.map (·.respell f), types := TypeDecl.respellAll f u.types }

/-- The lexeme with its word respelled. -/
def Lexeme.respell (f : String → String) : Lexeme → Lexeme
  | word text => word (f text)
  | int value => int value
  | str text => str text
  | punct text => punct text
  | newline => newline
  | eof => eof

/-- The lexeme with its word respelled. -/
def Located.respell (f : String → String) (t : Located) : Located :=
  { t with lexeme := t.lexeme.respell f }

/-! ### What a respelling does not touch -/

@[simp] theorem Expr.pos_respell (f : String → String) (e : Expr) : (e.respell f).pos = e.pos := by
  cases e <;> rfl

theorem Expr.respellAll_eq_map (f : String → String) (es : List Expr) :
    Expr.respellAll f es = es.map (·.respell f) := by
  induction es with
  | nil => rfl
  | cons e es ih => rw [Expr.respellAll, ih, List.map_cons]

theorem Stmt.respellAll_eq_map (f : String → String) (ss : List Stmt) :
    Stmt.respellAll f ss = ss.map (·.respell f) := by
  induction ss with
  | nil => rfl
  | cons s ss ih => rw [Stmt.respellAll, ih, List.map_cons]

theorem TypeDecl.respellAll_eq_map (f : String → String) (ds : List TypeDecl) :
    TypeDecl.respellAll f ds = ds.map (·.respell f) := by
  induction ds with
  | nil => rfl
  | cons d ds ih => rw [TypeDecl.respellAll, ih, List.map_cons]

/-! ### To change nothing -/

@[simp] theorem TypeName.respell_id (t : TypeName) : t.respell id = t := by
  induction t with
  | array element ih => rw [TypeName.respell, ih]
  | named | void | int | bool | string | object => rfl

@[simp] theorem TypeUse.respell_id (t : TypeUse) : t.respell id = t := by
  rw [TypeUse.respell, TypeName.respell_id]

/-- Respelling what is optional by `id` changes nothing if nothing changes by `id`. -/
theorem map_respell_id {α : Type} {respell : α → α} (h : ∀ x, respell x = x) (x : Option α) :
    x.map respell = x := by
  rw [funext h]
  exact Option.map_id'

mutual

theorem Expr.respell_id : ∀ e : Expr, e.respell id = e
  | .int .. | .str .. | .bool .. | .null _ | .this _ | .name .. => rfl
  | .typeKeyword pos t => by rw [Expr.respell, TypeName.respell_id]
  | .member pos target n => by rw [Expr.respell, Expr.respell_id target, id]
  | .call pos callee args => by
    rw [Expr.respell, Expr.respell_id callee, Expr.respellAll_id args]
  | .new pos type args => by rw [Expr.respell, TypeUse.respell_id, Expr.respellAll_id args]
  | .index pos target i => by rw [Expr.respell, Expr.respell_id target, Expr.respell_id i]
  | .unary pos op operand => by rw [Expr.respell, Expr.respell_id operand]
  | .binary pos op lhs rhs => by rw [Expr.respell, Expr.respell_id lhs, Expr.respell_id rhs]

theorem Expr.respellAll_id : ∀ es : List Expr, Expr.respellAll id es = es
  | [] => rfl
  | e :: rest => by rw [Expr.respellAll, Expr.respell_id e, Expr.respellAll_id rest]

end

theorem CatchHead.respell_id (head : CatchHead) : head.respell id = head := by
  rw [CatchHead.respell, map_respell_id TypeUse.respell_id, Option.map_id_fun, id]

mutual

theorem Stmt.respell_id : ∀ s : Stmt, s.respell id = s
  | .local_ pos name type init => by
    rw [Stmt.respell, map_respell_id TypeUse.respell_id, map_respell_id Expr.respell_id, id]
  | .assign pos target op value => by rw [Stmt.respell, Expr.respell_id, Expr.respell_id]
  | .increment pos target delta => by rw [Stmt.respell, Expr.respell_id]
  | .expr pos e => by rw [Stmt.respell, Expr.respell_id]
  | .if_ pos cond then_ none => by rw [Stmt.respell, Expr.respell_id, Stmt.respellAll_id then_]
  | .if_ pos cond then_ (some else_) => by
    rw [Stmt.respell, Expr.respell_id, Stmt.respellAll_id then_, Stmt.respellAll_id else_]
  | .while_ pos kind cond body none => by
    rw [Stmt.respell, map_respell_id Expr.respell_id, Stmt.respellAll_id body]
  | .while_ pos kind cond body (some step) => by
    rw [Stmt.respell, map_respell_id Expr.respell_id, Stmt.respellAll_id body, Stmt.respell_id step]
  | .doWhile pos body cond until_ => by
    rw [Stmt.respell, Expr.respell_id, Stmt.respellAll_id body]
  | .break_ .. | .continue_ .. => rfl
  | .return_ pos value => by rw [Stmt.respell, map_respell_id Expr.respell_id]
  | .throw_ pos value => by rw [Stmt.respell, map_respell_id Expr.respell_id]
  | .try_ pos body none none => by rw [Stmt.respell, Stmt.respellAll_id body]
  | .try_ pos body none (some last) => by
    rw [Stmt.respell, Stmt.respellAll_id body]
    simp only [Stmt.respellAll_id last]
  | .try_ pos body (some (head, handler)) none => by
    rw [Stmt.respell, Stmt.respellAll_id body]
    simp only [Stmt.respellAll_id handler, CatchHead.respell_id]
  | .try_ pos body (some (head, handler)) (some last) => by
    rw [Stmt.respell, Stmt.respellAll_id body]
    simp only [Stmt.respellAll_id handler, CatchHead.respell_id, Stmt.respellAll_id last]
  | .block pos body => by rw [Stmt.respell, Stmt.respellAll_id body]

theorem Stmt.respellAll_id : ∀ ss : List Stmt, Stmt.respellAll id ss = ss
  | [] => rfl
  | s :: rest => by rw [Stmt.respellAll, Stmt.respell_id s, Stmt.respellAll_id rest]

end

theorem FieldDecl.respell_id (d : FieldDecl) : d.respell id = d := by
  rw [FieldDecl.respell, TypeUse.respell_id, map_respell_id Expr.respell_id, id]

theorem MethodDecl.respell_id (d : MethodDecl) : d.respell id = d := by
  have hparam (p : Param) : p.respell id = p := by rw [Param.respell, TypeUse.respell_id, id]
  rw [MethodDecl.respell, TypeUse.respell_id, Stmt.respellAll_id, id, List.map_congr_left fun p _ =>
    hparam p, List.map_id']

mutual

theorem TypeDecl.respell_id : ∀ d : TypeDecl, d.respell id = d
  | ⟨namespace_, name, kind, access, fields, methods, nested, pos⟩ => by
    rw [TypeDecl.respell, TypeDecl.respellAll_id nested, id, id,
      List.map_congr_left fun d _ => FieldDecl.respell_id d,
      List.map_congr_left fun d _ => MethodDecl.respell_id d, List.map_id', List.map_id']

theorem TypeDecl.respellAll_id : ∀ ds : List TypeDecl, TypeDecl.respellAll id ds = ds
  | [] => rfl
  | d :: rest => by rw [TypeDecl.respellAll, TypeDecl.respell_id d, TypeDecl.respellAll_id rest]

end

theorem CompilationUnit.respell_id (u : CompilationUnit) : u.respell id = u := by
  have himport (i : Import) : i.respell id = i := rfl
  rw [CompilationUnit.respell, TypeDecl.respellAll_id, List.map_congr_left fun i _ => himport i,
    List.map_id']

end Source

/-! ## Diagnostics -/

/-- The cause with the names in it respelled. -/
def Cause.respell (f : String → String) : Cause → Cause
  | .syntaxError found => .syntaxError (f found)
  | .invalidExpressionTerm term => .invalidExpressionTerm (f term)
  | .nameNotFound name => .nameNotFound (f name)
  | .typeNotFound name => .typeNotFound (f name)
  | .noMember type name => .noMember (f type) (f name)
  | .cannotConvert source target => .cannotConvert (f source) (f target)
  | .badBinaryOperands op lhs rhs => .badBinaryOperands op (f lhs) (f rhs)
  | .badUnaryOperand op type => .badUnaryOperand op (f type)
  | .wrongArgCount method count => .wrongArgCount (f method) count
  | .badArgument index source target => .badArgument index (f source) (f target)
  | .notInvocable name => .notInvocable (f name)
  | .notIndexable type => .notIndexable (f type)
  | .duplicateLocal name => .duplicateLocal (f name)
  | .duplicateMember type name => .duplicateMember (f type) (f name)
  | .instanceRequired member => .instanceRequired (f member)
  | .notAllPathsReturn method => .notAllPathsReturn (f method)
  | .returnValueRequired type => .returnValueRequired (f type)
  | .returnValueInVoid method => .returnValueInVoid (f method)
  | .staticClassInstance type => .staticClassInstance (f type)
  | .instanceMemberInStaticClass name => .instanceMemberInStaticClass (f name)
  | .unusedVariable name => .unusedVariable (f name)
  | .assignedNeverUsed name => .assignedNeverUsed (f name)
  | cause => cause

/-- To respell a cause once more changes nothing. -/
theorem Respelling.respell_cause {language : Language} {f : String → String}
    (h : Respelling language f) (cause : Cause) : (cause.respell f).respell f = cause.respell f := by
  cases cause <;> simp only [Cause.respell, h.idem]

/-- The diagnostic with its message respelled. -/
def Diagnostic.respell (f : String → String) (d : Diagnostic) : Diagnostic :=
  { d with message := f d.message }

/-- The log with its messages respelled. -/
def Log.respell (f : String → String) (log : Log) : Log :=
  { log with diagnostics := log.diagnostics.map (·.respell f) }

/-- Logs with the same diagnostics up to the spelling of the messages. -/
structure Log.Alike (f : String → String) (log log' : Log) : Prop where
  spelling : Respelling log.language f
  respell_eq : log'.respell f = log.respell f

section

variable {f : String → String}

/-- The code and the severity of a cause do not depend on the spelling, and the message only up to it. -/
theorem Cause.diagnostic_respell {language : Language} (h : Respelling language f) (cause : Cause)
    (place : Option Place) :
    ((cause.respell f).diagnostic language place).respell f =
      (cause.diagnostic language place).respell f := by
  have hquoted (a : String) : f (quoted (f a)) = f (quoted a) :=
    h.append_congr (h.append_congr rfl (h.idem a)) rfl
  -- a text is put together from words of its own and the quoted names
  have hcsharp : f (cause.respell f).csharpText = f cause.csharpText := by
    cases cause <;> dsimp only [Cause.respell, csharpText] <;>
      repeat' first | with_reducible rfl | exact hquoted _ | apply h.append_congr
  have hbasic : f (cause.respell f).visualBasicText = f cause.visualBasicText := by
    cases cause <;> dsimp only [Cause.respell, visualBasicText] <;>
      repeat' first | with_reducible rfl | exact hquoted _ | apply h.append_congr
  have hcode : (cause.respell f).code language = cause.code language := by
    cases language <;> cases cause <;> rfl
  have hseverity : (cause.respell f).severity language = cause.severity language := by
    cases cause <;> rfl
  rw [diagnostic, diagnostic, Diagnostic.respell, Diagnostic.respell, hcode, hseverity]
  cases language with
  | csharp => simp only [text, hcsharp]
  | visualBasic => simp only [text, hbasic]

namespace Log.Alike

variable {log log' : Log}

theorem language_eq (h : log.Alike f log') : log'.language = log.language := by
  have h' : (log'.respell f).language = (log.respell f).language := congrArg Log.language h.respell_eq
  exact h'

theorem file_eq (h : log.Alike f log') : log'.file = log.file := by
  have h' : (log'.respell f).file = (log.respell f).file := congrArg Log.file h.respell_eq
  exact h'

theorem hasErrors_eq (h : log.Alike f log') : log'.hasErrors = log.hasErrors := by
  have hspell (l : Log) : (l.respell f).hasErrors = l.hasErrors := by
    rw [Log.hasErrors, Log.respell, Array.any_map]
    rfl
  rw [← hspell log', h.respell_eq, hspell]

/-- Reporting causes that are respelled alike. -/
theorem report (h : log.Alike f log') (pos : Source.Position) {cause cause' : Cause}
    (hcause : cause'.respell f = cause.respell f) :
    (log.report pos cause).Alike f (log'.report pos cause') := by
  have hspell (l : Log) (c : Cause) (hl : Respelling l.language f) :
      (l.report pos c).respell f = ⟨l.language, l.file, (l.respell f).diagnostics.push
        (((c.respell f).diagnostic l.language (some ⟨l.file, pos⟩)).respell f)⟩ := by
    rw [Cause.diagnostic_respell hl, Log.report, Log.respell, Array.map_push]
    rfl
  refine ⟨h.spelling, ?_⟩
  rw [hspell log' cause' (h.language_eq ▸ h.spelling), hspell log cause h.spelling, h.respell_eq,
    hcause, h.language_eq, h.file_eq]

end Log.Alike

end

end CilScope
