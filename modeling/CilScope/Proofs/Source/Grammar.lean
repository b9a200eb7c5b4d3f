import CilScope.Proofs.Spelling.Tree
import CilScope.Source.Expression
import Mathlib

/-!
# The grammar of expressions

An expression is a chain of operands with binary operators between them. `Groups` says which tree a
chain stands for: its root is the last operator of the loosest level in it, and what stands on
either side is grouped by the same rule. The rest of the grammar says which lexemes make an operand:
literals, names, types, objects and parentheses with members, calls and elements behind them, and
signs in front.
-/

namespace CilScope

namespace Language

/-- Names that are the same are the same as the same names. -/
theorem sameName_congr {language : Language} {a b : String} (h : language.sameName a b)
    (c : String) : language.sameName a c = language.sameName b c := by
  cases language <;> simp only [sameName, beq_iff_eq] at h <;> simp only [sameName, h]

/-- Names of Visual Basic are compared letter by letter. This form is one that the kernel evaluates at
once. -/
theorem sameName_visualBasic (a b : String) : visualBasic.sameName a b =
    (a.toList.map Char.toLower == b.toList.map Char.toLower) := by
  rw [sameName, Bool.eq_iff_iff, beq_iff_eq, beq_iff_eq, ← String.toList_map, ← String.toList_map,
    String.toList_inj]

end Language

namespace Source

/-- The lexeme in front, or the end of the file. -/
def front (input : List Located) : Lexeme := (input[0]?.map (·.lexeme)).getD .eof

@[simp] theorem front_cons (t : Located) (ts : List Located) : front (t :: ts) = t.lexeme := rfl

/-! ### Chains of operators -/

/-- The binary operators of a language with their spellings, from the loosest level to the
tightest. -/
def precedence : Language → List (List (Spelling × BinaryOp))
  | .csharp => [
      [(.punct "||", .orElse)],
      [(.punct "&&", .andAlso)],
      [(.punct "==", .eq), (.punct "!=", .ne)],
      [(.punct "<", .lt), (.punct ">", .gt), (.punct "<=", .le), (.punct ">=", .ge)],
      [(.punct "+", .add), (.punct "-", .sub)],
      [(.punct "*", .mul), (.punct "/", .div), (.punct "%", .rem)]]
  | .visualBasic => [
      [(.word "or", .or), (.word "orelse", .orElse)],
      [(.word "and", .and), (.word "andalso", .andAlso)],
      [(.punct "=", .eq), (.punct "<>", .ne), (.punct "<", .lt), (.punct ">", .gt),
        (.punct "<=", .le), (.punct ">=", .ge)],
      [(.punct "&", .concat)],
      [(.punct "+", .add), (.punct "-", .sub)],
      [(.word "mod", .rem)],
      [(.punct "\\", .intDiv)],
      [(.punct "*", .mul), (.punct "/", .div)]]

/-- The level of an operator. Operators that a language lacks stand behind its own. -/
def rank (language : Language) (op : BinaryOp) : Nat :=
  (precedence language).findIdx (·.any (·.2 = op))

/-- The level of the comparisons of Visual Basic, in front of which `Not` may stand. -/
def comparisons : Nat := 2

/-- An operator of a chain with its position and the operand behind it. -/
structure Link where
  position : Position
  op : BinaryOp
  operand : Expr

/-- The tree of the chain of `first` and `links`. Its root is an operator with none looser in front
of it and only tighter ones behind it: the last one of the loosest level. -/
inductive Groups (language : Language) : (first : Expr) → (links : List Link) → Expr → Prop
  | operand (e : Expr) : Groups language e [] e
  | root {first lhs rhs : Expr} {before behind : List Link} {link : Link}
      (hbefore : ∀ l ∈ before, rank language link.op ≤ rank language l.op)
      (hbehind : ∀ l ∈ behind, rank language link.op < rank language l.op)
      (hlhs : Groups language first before lhs) (hrhs : Groups language link.operand behind rhs) :
      Groups language first (before ++ link :: behind) (.binary link.position link.op lhs rhs)

/-- A list has at most one last link of the loosest level. -/
theorem eq_of_root {language : Language} {before before' behind behind' : List Link}
    {link link' : Link} (h : before ++ link :: behind = before' ++ link' :: behind')
    (hbefore : ∀ l ∈ before, rank language link.op ≤ rank language l.op)
    (hbehind : ∀ l ∈ behind, rank language link.op < rank language l.op)
    (hbefore' : ∀ l ∈ before', rank language link'.op ≤ rank language l.op)
    (hbehind' : ∀ l ∈ behind', rank language link'.op < rank language l.op) :
    before = before' ∧ link = link' ∧ behind = behind' := by
  rcases List.append_eq_append_iff.mp h with ⟨between, rfl, hrest⟩ | ⟨between, rfl, hrest⟩
  · cases between with
    | nil => exact ⟨(List.append_nil _).symm, List.cons.inj hrest⟩
    | cons l between =>
      obtain ⟨rfl, rfl⟩ := List.cons.inj hrest
      have hlt := hbehind link' (by simp)
      have hle := hbefore' link (by simp)
      omega
  · cases between with
    | nil =>
      obtain ⟨rfl, rfl⟩ := List.cons.inj hrest
      exact ⟨List.append_nil _, rfl, rfl⟩
    | cons l between =>
      obtain ⟨rfl, rfl⟩ := List.cons.inj hrest
      have hlt := hbehind' link (by simp)
      have hle := hbefore link' (by simp)
      omega

/-- A chain stands for one tree. -/
theorem Groups.unique {language : Language} {first e e' : Expr} {links : List Link}
    (h : Groups language first links e) (h' : Groups language first links e') : e = e' := by
  induction h generalizing e' with
  | operand e =>
    generalize hlinks : ([] : List Link) = links at h'
    cases h' with
    | operand _ => rfl
    | root _ _ _ _ => simp at hlinks
  | @root first lhs rhs before behind link hbefore hbehind _ _ ihlhs ihrhs =>
    generalize hlinks : before ++ link :: behind = links at h'
    cases h' with
    | operand _ => simp at hlinks
    | root hbefore' hbehind' hlhs' hrhs' =>
      obtain ⟨rfl, rfl, rfl⟩ := eq_of_root hlinks hbefore hbehind hbefore' hbehind'
      rw [ihlhs hlhs', ihrhs hrhs']

/-! ### The spelling of operators -/

/-- The binary operators of a language as they are spelled. -/
def spellings (language : Language) : List (Spelling × BinaryOp) := (precedence language).flatten

/-- A lexeme spells a binary operator. -/
def Spells (language : Language) (l : Lexeme) (op : BinaryOp) : Prop :=
  ∃ s, (s, op) ∈ spellings language ∧ Parser.spells language l s

/-- The operator of a level that a lexeme spells. -/
def Level.read? (level : Level) (language : Language) (l : Lexeme) : Option BinaryOp :=
  (level.operators.find? fun (s, _) => Parser.spells language l s).map (·.2)

/-- A lexeme spelled the normal way. -/
def Spelling.lexeme : Spelling → Lexeme
  | .punct p => .punct p
  | .word w => .word w

/-- How an operator is spelled does not matter to what it is read as. -/
theorem spells_congr {language : Language} {l : Lexeme} {s : Spelling}
    (h : Parser.spells language l s) : Parser.spells language l = Parser.spells language s.lexeme := by
  funext v
  cases l <;> cases s <;> simp only [Parser.spells, Bool.false_eq_true, beq_iff_eq] at h
  · cases v with
    | punct _ => rfl
    | word v => exact Language.sameName_congr h v
  · cases v with
    | punct p => rw [h]; rfl
    | word _ => rfl

/-- The parsers read the operators of a level on the level of the same number. -/
theorem read?_lexeme (language : Language) :
    ∀ x ∈ spellings language, ∀ y ∈ (levels language).zipIdx,
      y.1.read? language x.1.lexeme = if rank language x.2 = y.2 then some x.2 else none := by
  cases language <;> decide +kernel

/-- A lexeme that spells an operator is read as it on the level of the operator only. -/
theorem Spells.read? {language : Language} {l : Lexeme} {op : BinaryOp} (h : Spells language l op)
    {level : Level} {k : Nat} (hlevel : (levels language)[k]? = some level) :
    level.read? language l = if rank language op = k then some op else none := by
  obtain ⟨s, hs, hl⟩ := h
  have := read?_lexeme language _ hs (level, k) (List.mk_mem_zipIdx_iff_getElem?.mpr hlevel)
  simpa only [Level.read?, spells_congr hl] using this

/-- What is read on a level is an operator of the level. -/
theorem Level.spells_of_read? {language : Language} {l : Lexeme} {op : BinaryOp} {level : Level}
    {k : Nat} (hlevel : (levels language)[k]? = some level)
    (h : level.read? language l = some op) : Spells language l op ∧ rank language op = k := by
  obtain ⟨⟨s, op'⟩, hfind, hop⟩ := Option.map_eq_some_iff.mp h
  obtain rfl : op' = op := hop
  have hall : ∀ level ∈ levels language, ∀ x ∈ level.operators, x ∈ spellings language := by
    cases language <;> decide
  have hspells : Spells language l op' :=
    ⟨s, hall level (List.mem_of_getElem? hlevel) _ (List.mem_of_find?_eq_some hfind),
      by simpa using List.find?_some hfind⟩
  refine ⟨hspells, ?_⟩
  rw [hspells.read? hlevel] at h
  by_contra hne
  rw [if_neg hne] at h
  cases h

theorem Spells.rank_lt {language : Language} {l : Lexeme} {op : BinaryOp}
    (h : Spells language l op) : rank language op < (levels language).length := by
  obtain ⟨s, hs, -⟩ := h
  revert hs
  have hall : ∀ x ∈ spellings language, rank language x.2 < (levels language).length := by
    cases language <;> decide
  exact fun hs => hall _ hs

/-- A lexeme spells at most one operator. -/
theorem Spells.unique {language : Language} {l : Lexeme} {op op' : BinaryOp}
    (h : Spells language l op) (h' : Spells language l op') : op = op' := by
  obtain ⟨level, hlevel⟩ : ∃ level, (levels language)[rank language op]? = some level :=
    ⟨_, List.getElem?_eq_getElem h.rank_lt⟩
  have hread := h.read? hlevel
  rw [if_pos rfl, h'.read? hlevel] at hread
  split at hread
  · exact (Option.some.inj hread).symm
  · cases hread

theorem Spells.ne_eof {language : Language} {l : Lexeme} {op : BinaryOp}
    (h : Spells language l op) : l ≠ .eof := by
  rintro rfl
  obtain ⟨_, _, hl⟩ := h
  cases hl

/-! ### What cannot go on an expression -/

/-- The lexeme in front is none that goes on an operand. -/
def Ends (rest : List Located) : Prop := ∀ s ∈ [".", "(", "["], front rest ≠ .punct s

/-- The lexeme in front is none that goes on an operand, and no operator of level `k` or a tighter
one. -/
structure Stops (language : Language) (k : Nat) (rest : List Located) : Prop where
  ends : Ends rest
  operator : ∀ op, Spells language (front rest) op → rank language op < k

theorem Stops.mono {language : Language} {j k : Nat} {rest : List Located}
    (h : Stops language j rest) (hle : j ≤ k) : Stops language k rest :=
  ⟨h.ends, fun op hop => (h.operator op hop).trans_le hle⟩

/-- No operator of level `k` is read where the chain stops. -/
theorem Stops.read? {language : Language} {k : Nat} {rest : List Located} {level : Level}
    (h : Stops language k rest) (hlevel : (levels language)[k]? = some level) :
    level.read? language (front rest) = none := by
  refine Option.eq_none_iff_forall_ne_some.mpr fun op hop => ?_
  obtain ⟨hspells, hrank⟩ := Level.spells_of_read? hlevel hop
  have := h.operator op hspells
  omega

/-- A chain of tighter operators stops at an operator. -/
theorem Spells.stops {language : Language} {t : Located} {op : BinaryOp} {k : Nat}
    (h : Spells language t.lexeme op) (hk : rank language op < k) (rest : List Located) :
    Stops language k (t :: rest) := by
  refine ⟨fun s hs ht => ?_, fun op' h' => ?_⟩
  · have hall : ∀ s ∈ [".", "(", "["], ∀ x ∈ spellings language,
        Parser.spells language (.punct s) x.1 = false := by
      cases language <;> decide
    obtain ⟨v, hv, hl⟩ := h
    rw [front_cons] at ht
    rw [ht, hall s hs (v, op) hv] at hl
    cases hl
  · rwa [h'.unique h]

/-- An expression ends at a closing bracket, a comma and a semicolon. -/
theorem stops_of_punct {language : Language} {t : Located} {s : String}
    (ht : t.lexeme = .punct s) (hs : s ∈ [")", "]", ",", ";"]) (k : Nat) (rest : List Located) :
    Stops language k (t :: rest) := by
  have hoperator : ∀ s ∈ [")", "]", ",", ";"], ∀ x ∈ spellings language,
      Parser.spells language (.punct s) x.1 = false := by
    cases language <;> decide
  have hends : ∀ s ∈ [")", "]", ",", ";"], ∀ v ∈ [".", "(", "["], s ≠ v := by decide
  refine ⟨fun v hv h => ?_, fun op h => ?_⟩
  · rw [front_cons, ht] at h
    exact hends s hs v hv (Lexeme.punct.inj h)
  · obtain ⟨x, hx, hl⟩ := h
    rw [front_cons, ht, hoperator s hs (x, op) hx] at hl
    cases hl

/-! ### Words -/

/-- Whether a lexeme is a keyword. -/
def matchesWord (language : Language) (k : String) : Lexeme → Bool
  | .word w => language.sameName w k
  | _ => false

/-- What a word stands for by a table of words. -/
def meaning {α : Type} (language : Language) (table : List (String × α)) (w : String) : Option α :=
  (table.find? (language.sameName w ·.1)).map (·.2)

section

variable {α : Type} {language : Language} {table : List (String × α)} {w v : String} {a : α}

theorem exists_of_meaning (h : meaning language table w = some a) :
    ∃ x ∈ table, language.sameName w x.1 := by
  obtain ⟨x, hx, -⟩ := Option.map_eq_some_iff.mp h
  exact ⟨x, List.mem_of_find?_eq_some hx, by simpa using List.find?_some hx⟩

/-- A word stands for nothing if it is the same as one that is not in the table. -/
theorem meaning_eq_none (hv : language.sameName w v)
    (h : ∀ x ∈ table, language.sameName v x.1 = false) : meaning language table w = none := by
  refine Option.map_eq_none_iff.mpr (List.find?_eq_none.mpr fun x hx => ?_)
  rw [Language.sameName_congr hv, h x hx]
  exact Bool.false_ne_true

theorem not_isReserved_iff :
    isReserved language w = false ↔ ∀ v ∈ reserved language, language.sameName v w = false := by
  simp [isReserved]

/-- A name stands for nothing in a table of reserved words. -/
theorem meaning_eq_none_of_not_isReserved (hw : isReserved language w = false)
    (h : ∀ x ∈ table, x.1 ∈ reserved language) : meaning language table w = none := by
  refine Option.map_eq_none_iff.mpr (List.find?_eq_none.mpr fun x hx => ?_)
  rw [Language.sameName_comm, not_isReserved_iff.mp hw x.1 (h x hx)]
  exact Bool.false_ne_true

end

/-- No predefined type is a constant. -/
theorem meaning_constants_of_typeKeywords {language : Language} {w : String} {type : TypeName}
    (h : meaning language (typeKeywords language) w = some type) :
    meaning language (Parser.constants language) w = none := by
  obtain ⟨x, hx, hw⟩ := exists_of_meaning h
  have hall : ∀ x ∈ typeKeywords language, ∀ c ∈ Parser.constants language,
      language.sameName x.1 c.1 = false := by
    cases language <;> decide +kernel
  exact meaning_eq_none hw (hall x hx)

/-! ### Types -/

/-- Parts of a dotted name behind `name`, and the whole name. -/
inductive Dotted (language : Language) : (name : String) → List Located → String → Prop
  | nil (name : String) : Dotted language name [] name
  | cons {name whole w : String} {dot t : Located} {ts : List Located}
      (hdot : dot.lexeme = .punct ".") (ht : t.lexeme = .word w)
      (hw : isReserved language w = false) (hts : Dotted language (name ++ "." ++ w) ts whole) :
      Dotted language name (dot :: t :: ts) whole

/-- Pairs of brackets behind an element type, and the array type. -/
inductive Brackets (language : Language) : (element : TypeName) → List Located → TypeName → Prop
  | nil (element : TypeName) : Brackets language element [] element
  | cons {element whole : TypeName} {opening closing : Located} {ts : List Located}
      (hopening : opening.lexeme = .punct (Parser.arrayBrackets language).1)
      (hclosing : closing.lexeme = .punct (Parser.arrayBrackets language).2)
      (hts : Brackets language (.array element) ts whole) :
      Brackets language element (opening :: closing :: ts) whole

/-- A pair of brackets is in front. -/
def PairAhead (language : Language) (input : List Located) : Prop :=
  front input = .punct (Parser.arrayBrackets language).1 ∧ front input.tail = .punct (Parser.arrayBrackets language).2

/-- A type as it is written; `isOpen` says that a dot behind it would belong to its name. -/
inductive Written (language : Language) : List Located → TypeUse → (isOpen : Bool) → Prop
  | keyword {t : Located} {w : String} {element whole : TypeName} {brackets : List Located}
      (ht : t.lexeme = .word w) (hw : meaning language (typeKeywords language) w = some element)
      (hbrackets : Brackets language element brackets whole) :
      Written language (t :: brackets) ⟨whole, t.start⟩ false
  | named {t : Located} {w name : String} {whole : TypeName} {ts brackets : List Located}
      (ht : t.lexeme = .word w) (hw : isReserved language w = false)
      (hts : Dotted language w ts name) (hbrackets : Brackets language (.named name) brackets whole) :
      Written language (t :: (ts ++ brackets)) ⟨whole, t.start⟩ brackets.isEmpty

/-- A type in front of a member, or an object of Visual Basic without arguments, with what is
`behind`. Brackets behind the type and names behind dots would belong to it. -/
inductive Bare (language : Language) (behind : List Located) : List Located → Expr → Prop
  | type {t : Located} {w : String} {element type : TypeName} {brackets : List Located}
      (ht : t.lexeme = .word w) (hw : meaning language (typeKeywords language) w = some element)
      (helement : element ≠ .void) (hbrackets : Brackets language element brackets type)
      (hbehind : ¬PairAhead language behind) :
      Bare language behind (t :: brackets) (.typeKeyword t.start type)
  | new {t : Located} {w : String} {ts : List Located} {type : TypeUse} {isOpen : Bool}
      (hlanguage : language = .visualBasic) (ht : t.lexeme = .word w)
      (hw : language.sameName w "new") (htype : Written language ts type isOpen)
      (hbehind : front behind ≠ .punct "(") (hdot : isOpen → front behind ≠ .punct ".") :
      Bare language behind (t :: ts) (.new t.start type [])

/-! ### Operands -/

/-- Operators with operands behind an operand; `isNegated` says whether `Not` stands in front of it.
What `Not` belongs to reaches from a looser operator to a looser operator. -/
inductive Links (language : Language) (Operand : (isNegated : Bool) → List Located → Expr → Prop) :
    (isNegated : Bool) → List Located → List Link → Prop
  | nil (b : Bool) : Links language Operand b [] []
  | cons {b b' : Bool} {t : Located} {op : BinaryOp} {us vs : List Located} {e : Expr}
      {links : List Link} (ht : Spells language t.lexeme op)
      (hop : b ∨ b' → rank language op < comparisons) (he : Operand b' us e)
      (hlinks : Links language Operand b' vs links) :
      Links language Operand b (t :: (us ++ vs)) (⟨t.start, op, e⟩ :: links)

/-- A chain is cut in front of its first operator of level `k` or a looser one. -/
theorem Links.split {language : Language} {Operand : Bool → List Located → Expr → Prop} {b : Bool}
    {ts : List Located} {links : List Link} (h : Links language Operand b ts links) (k : Nat) :
    ∃ b' us vs near far, ts = us ++ vs ∧ links = near ++ far ∧ Links language Operand b us near ∧
      (∀ l ∈ near, k < rank language l.op) ∧ Links language Operand b' vs far ∧
      ∀ l ∈ far.head?, rank language l.op ≤ k := by
  induction h with
  | nil b => exact ⟨b, [], [], [], [], rfl, rfl, .nil b, by simp, .nil b, by simp⟩
  | @cons b b' t op us vs e links ht hop he hlinks ih =>
    by_cases hk : k < rank language op
    · obtain ⟨c, vs, ws, near, far, rfl, rfl, hnear, hranks, hfar, hhead⟩ := ih
      refine ⟨c, t :: (us ++ vs), ws, ⟨t.start, op, e⟩ :: near, far, ?_, rfl, ?_, ?_, hfar, hhead⟩
      · rw [List.cons_append, List.append_assoc]
      · exact .cons ht hop he hnear
      · exact List.forall_mem_cons.mpr ⟨hk, hranks⟩
    · refine ⟨b, [], _, [], _, rfl, rfl, .nil b, by simp, .cons ht hop he hlinks, ?_⟩
      intro l hl
      obtain rfl : _ = l := by simpa using hl
      exact not_lt.mp hk

/-- Every link of a chain is spelled. -/
theorem Links.rank_lt {language : Language} {Operand : Bool → List Located → Expr → Prop} {b : Bool}
    {ts : List Located} {links : List Link} (h : Links language Operand b ts links) :
    ∀ l ∈ links, rank language l.op < (levels language).length := by
  induction h with
  | nil => simp
  | cons ht _ _ _ ih => exact List.forall_mem_cons.mpr ⟨ht.rank_lt, ih⟩

/-- A chain whose operators are all looser than any is empty. -/
theorem Links.eq_nil {language : Language} {Operand : Bool → List Located → Expr → Prop} {b : Bool}
    {ts : List Located} {links : List Link} (h : Links language Operand b ts links)
    (hlinks : links = []) : ts = [] := by
  cases h with
  | nil => rfl
  | cons => cases hlinks

mutual

/-- A literal, a name, a constant, an expression in parentheses or an object with arguments. -/
inductive Primary (language : Language) : List Located → Expr → Prop
  | int {t : Located} {v : Nat} (ht : t.lexeme = .int v) :
      Primary language [t] (.int t.start (Int32.ofNat v))
  | str {t : Located} {s : String} (ht : t.lexeme = .str s) : Primary language [t] (.str t.start s)
  | constant {t : Located} {w : String} {c : Position → Expr} (ht : t.lexeme = .word w)
      (hw : meaning language (Parser.constants language) w = some c) : Primary language [t] (c t.start)
  | name {t : Located} {w : String} (ht : t.lexeme = .word w)
      (hw : isReserved language w = false) : Primary language [t] (.name t.start w)
  | parentheses {opening closing : Located} {ts : List Located} {e : Expr}
      (hopening : opening.lexeme = .punct "(") (he : Whole language ts e)
      (hclosing : closing.lexeme = .punct ")") :
      Primary language (opening :: (ts ++ [closing])) e
  | new {t : Located} {w : String} {ts us : List Located} {type : TypeUse} {isOpen : Bool}
      {args : List Expr} (ht : t.lexeme = .word w) (hw : language.sameName w "new")
      (htype : Written language ts type isOpen) (hargs : Arguments language us args)
      (hus : ¬PairAhead language us) :
      Primary language (t :: (ts ++ us)) (.new t.start type args)

/-- Members, calls and elements behind an expression. In Visual Basic a member may be named like a
keyword, and elements are written as calls. -/
inductive Suffixes (language : Language) : Expr → List Located → Expr → Prop
  | nil (e : Expr) : Suffixes language e [] e
  | member {e whole : Expr} {dot t : Located} {w : String} {ts : List Located}
      (hdot : dot.lexeme = .punct ".") (ht : t.lexeme = .word w)
      (hw : language = .csharp → isReserved language w = false)
      (hts : Suffixes language (.member dot.start e w) ts whole) :
      Suffixes language e (dot :: t :: ts) whole
  | call {e whole : Expr} {us ts : List Located} {args : List Expr}
      (hargs : Arguments language us args) (hts : Suffixes language (.call e.pos e args) ts whole) :
      Suffixes language e (us ++ ts) whole
  | element {e index whole : Expr} {opening closing : Located} {us ts : List Located}
      (hlanguage : language = .csharp) (hopening : opening.lexeme = .punct "[") (hindex : Whole language us index)
      (hclosing : closing.lexeme = .punct "]")
      (hts : Suffixes language (.index opening.start e index) ts whole) :
      Suffixes language e (opening :: (us ++ closing :: ts)) whole

/-- Arguments in parentheses. -/
inductive Arguments (language : Language) : List Located → List Expr → Prop
  | none {opening closing : Located} (hopening : opening.lexeme = .punct "(")
      (hclosing : closing.lexeme = .punct ")") : Arguments language [opening, closing] []
  | some {opening closing : Located} {ts : List Located} {args : List Expr}
      (hopening : opening.lexeme = .punct "(") (hargs : ArgumentList language ts args)
      (hclosing : closing.lexeme = .punct ")") :
      Arguments language (opening :: (ts ++ [closing])) args

/-- Arguments with commas between them. -/
inductive ArgumentList (language : Language) : List Located → List Expr → Prop
  | last {ts : List Located} {e : Expr} (he : Whole language ts e) : ArgumentList language ts [e]
  | cons {ts us : List Located} {comma : Located} {e : Expr} {args : List Expr}
      (he : Whole language ts e) (hcomma : comma.lexeme = .punct ",")
      (hargs : ArgumentList language us args) :
      ArgumentList language (ts ++ comma :: us) (e :: args)

/-- A primary expression with what is applied to it. -/
inductive Applied (language : Language) : List Located → Expr → Prop
  | primary {ts us : List Located} {e whole : Expr} (he : Primary language ts e)
      (hus : Suffixes language e us whole) : Applied language (ts ++ us) whole
  | bare {ts us : List Located} {e whole : Expr} (he : Bare language us ts e)
      (hus : Suffixes language e us whole) : Applied language (ts ++ us) whole

/-- An operand with the signs in front of it. A minus sign belongs to the literal behind it. -/
inductive Signed (language : Language) : List Located → Expr → Prop
  | applied {ts : List Located} {e : Expr} (he : Applied language ts e) : Signed language ts e
  | literal {t i : Located} {v : Nat} {ts : List Located} {whole : Expr}
      (ht : t.lexeme = .punct "-") (hi : i.lexeme = .int v)
      (hts : Suffixes language (.int t.start (Int32.ofInt (-v))) ts whole) :
      Signed language (t :: i :: ts) whole
  | neg {t : Located} {ts : List Located} {e : Expr} (ht : t.lexeme = .punct "-")
      (hts : ∀ v, front ts ≠ .int v) (he : Signed language ts e) :
      Signed language (t :: ts) (.unary t.start .neg e)
  | not {t : Located} {ts : List Located} {e : Expr} (hlanguage : language = .csharp)
      (ht : t.lexeme = .punct "!") (he : Signed language ts e) :
      Signed language (t :: ts) (.unary t.start .not e)

/-- An operand of a chain, which in Visual Basic may start with `Not`: all that is not looser than a
comparison belongs to it. -/
inductive Item (language : Language) : (isNegated : Bool) → List Located → Expr → Prop
  | signed {ts : List Located} {e : Expr} (he : Signed language ts e) : Item language false ts e
  | not {t : Located} {w : String} {b : Bool} {us vs : List Located} {first e : Expr}
      {links : List Link} (hlanguage : language = .visualBasic) (ht : t.lexeme = .word w)
      (hw : language.sameName w "not") (hfirst : Item language b us first)
      (hlinks : Links language (Item language) b vs links)
      (htight : ∀ l ∈ links, comparisons ≤ rank language l.op)
      (he : Groups language first links e) :
      Item language true (t :: (us ++ vs)) (.unary t.start .not e)

/-- An expression: a chain with the tree it stands for. -/
inductive Whole (language : Language) : List Located → Expr → Prop
  | chain {b : Bool} {us vs : List Located} {first e : Expr} {links : List Link}
      (hfirst : Item language b us first) (hlinks : Links language (Item language) b vs links)
      (he : Groups language first links e) : Whole language (us ++ vs) e

end

/-! ### How operands start -/

/-- The lexemes a primary expression starts with: `Not` is no name. -/
def StartsPrimary (language : Language) : Lexeme → Prop
  | .int _ | .str _ => True
  | .word w => language = .visualBasic → language.sameName w "not" = false
  | .punct p => p = "("
  | .newline | .eof => False

/-- A word is not `Not` if it is the same as one that is not. -/
theorem sameName_not {language : Language} {w v : String} (hw : language.sameName w v)
    (hv : Language.visualBasic.sameName v "not" = false) (hlanguage : language = .visualBasic) :
    language.sameName w "not" = false := by
  rw [Language.sameName_congr hw, hlanguage, hv]

theorem sameName_not_of_meaning {α : Type} {language : Language} {table : List (String × α)}
    {w : String} {a : α} (h : meaning language table w = some a)
    (htable : ∀ x ∈ table, Language.visualBasic.sameName x.1 "not" = false)
    (hlanguage : language = .visualBasic) : language.sameName w "not" = false := by
  obtain ⟨x, hx, hw⟩ := exists_of_meaning h
  exact sameName_not hw (htable x hx) hlanguage

theorem sameName_not_of_not_isReserved {language : Language} {w : String}
    (h : isReserved language w = false) (hlanguage : language = .visualBasic) :
    language.sameName w "not" = false := by
  rw [Language.sameName_comm]
  exact not_isReserved_iff.mp h "not" (by rw [hlanguage]; decide)

theorem constants_not (language : Language) :
    ∀ x ∈ Parser.constants language, Language.visualBasic.sameName x.1 "not" = false := by
  cases language <;> decide +kernel

theorem typeKeywords_not (language : Language) :
    ∀ x ∈ typeKeywords language, Language.visualBasic.sameName x.1 "not" = false := by
  cases language <;> decide +kernel

theorem new_not : Language.visualBasic.sameName "new" "not" = false := by decide +kernel

theorem Primary.start {language : Language} {ts : List Located} {e : Expr}
    (h : Primary language ts e) : ∃ t us, ts = t :: us ∧ StartsPrimary language t.lexeme := by
  cases h with
  | int ht => exact ⟨_, _, rfl, by rw [ht]; trivial⟩
  | str ht => exact ⟨_, _, rfl, by rw [ht]; trivial⟩
  | constant ht hw => exact ⟨_, _, rfl, by rw [ht]; exact sameName_not_of_meaning hw (constants_not _)⟩
  | name ht hw => exact ⟨_, _, rfl, by rw [ht]; exact sameName_not_of_not_isReserved hw⟩
  | parentheses ht => exact ⟨_, _, rfl, by rw [ht]; rfl⟩
  | new ht hw => exact ⟨_, _, rfl, by rw [ht]; exact sameName_not hw new_not⟩

theorem Bare.start {language : Language} {behind ts : List Located} {e : Expr}
    (h : Bare language behind ts e) : ∃ t us, ts = t :: us ∧ StartsPrimary language t.lexeme := by
  cases h with
  | type ht hw => exact ⟨_, _, rfl, by rw [ht]; exact sameName_not_of_meaning hw (typeKeywords_not _)⟩
  | new _ ht hw => exact ⟨_, _, rfl, by rw [ht]; exact sameName_not hw new_not⟩

theorem Applied.start {language : Language} {ts : List Located} {e : Expr}
    (h : Applied language ts e) : ∃ t us, ts = t :: us ∧ StartsPrimary language t.lexeme := by
  cases h with
  | primary he =>
    obtain ⟨t, us, rfl, ht⟩ := he.start
    exact ⟨t, _, rfl, ht⟩
  | bare he =>
    obtain ⟨t, us, rfl, ht⟩ := he.start
    exact ⟨t, _, rfl, ht⟩

theorem Signed.start {language : Language} {ts : List Located} {e : Expr}
    (h : Signed language ts e) : ∃ t us, ts = t :: us ∧
      (StartsPrimary language t.lexeme ∨ t.lexeme = .punct "-" ∨ t.lexeme = .punct "!") := by
  cases h with
  | applied he =>
    obtain ⟨t, us, rfl, ht⟩ := he.start
    exact ⟨t, us, rfl, .inl ht⟩
  | literal ht => exact ⟨_, _, rfl, .inr (.inl ht)⟩
  | neg ht => exact ⟨_, _, rfl, .inr (.inl ht)⟩
  | not _ ht => exact ⟨_, _, rfl, .inr (.inr ht)⟩

/-- A sign is no start of an operand without signs. -/
theorem Applied.front_ne {language : Language} {ts : List Located} {e : Expr}
    (h : Applied language ts e) {s : String} (hs : s ≠ "(") (rest : List Located) :
    front (ts ++ rest) ≠ .punct s := by
  obtain ⟨t, us, rfl, ht⟩ := h.start
  intro hfront
  rw [List.cons_append, front_cons] at hfront
  rw [hfront] at ht
  exact hs ht

/-- An operand without `Not` does not start with it. -/
theorem Signed.matchesWord_not {ts : List Located} {e : Expr} (h : Signed .visualBasic ts e)
    (rest : List Located) : matchesWord .visualBasic "not" (front (ts ++ rest)) = false := by
  obtain ⟨t, us, rfl, ht⟩ := h.start
  rw [List.cons_append, front_cons]
  generalize t.lexeme = l at ht
  cases l with
  | word w =>
    rcases ht with ht | ht | ht
    · exact ht rfl
    · cases ht
    · cases ht
  | _ => rfl

/-- A closing parenthesis is no start of an expression. -/
theorem Whole.start {language : Language} {ts : List Located} {e : Expr}
    (h : Whole language ts e) : ∃ t us, ts = t :: us ∧ t.lexeme ≠ .punct ")" := by
  obtain ⟨hfirst, _, _⟩ := h
  cases hfirst with
  | signed he =>
    obtain ⟨t, us, rfl, ht⟩ := he.start
    refine ⟨t, _, rfl, fun hclosing => ?_⟩
    rw [hclosing] at ht
    revert ht
    simp [StartsPrimary]
  | not _ ht => exact ⟨_, _, rfl, by rw [ht]; nofun⟩

theorem ArgumentList.start {language : Language} {ts : List Located} {args : List Expr}
    (h : ArgumentList language ts args) : ∃ t us, ts = t :: us ∧ t.lexeme ≠ .punct ")" := by
  cases h with
  | last he => exact he.start
  | cons he =>
    obtain ⟨t, us, rfl, ht⟩ := he.start
    exact ⟨t, _, rfl, ht⟩

theorem Arguments.start {language : Language} {ts : List Located} {args : List Expr}
    (h : Arguments language ts args) : ∃ t u us, ts = t :: u :: us ∧ t.lexeme = .punct "(" := by
  cases h with
  | none ht _ => exact ⟨_, _, _, rfl, ht⟩
  | some ht hargs _ =>
    obtain ⟨u, us, rfl, -⟩ := hargs.start
    exact ⟨_, _, _, rfl, ht⟩

/-- Whether brackets or a dot are behind an operand is decided by its suffixes, if it has any. -/
theorem Suffixes.eq_nil_or {language : Language} {e whole : Expr} {ts : List Located}
    (h : Suffixes language e ts whole) : ts = [] ∨ ∃ t u us, ts = t :: u :: us := by
  cases h with
  | nil => exact .inl rfl
  | member => exact .inr ⟨_, _, _, rfl⟩
  | call hargs =>
    obtain ⟨t, u, us, rfl, -⟩ := hargs.start
    exact .inr ⟨_, _, _, rfl⟩
  | element _ _ hindex =>
    obtain ⟨t, us, rfl, -⟩ := hindex.start
    exact .inr ⟨_, _, _, rfl⟩

/-- What ends an operand does not belong to a type or an object in it. -/
theorem Bare.append {language : Language} {ts us rest : List Located} {e whole : Expr}
    (h : Bare language us ts e) (hus : Suffixes language e us whole) (hrest : Ends rest) :
    Bare language (us ++ rest) ts e := by
  rcases hus.eq_nil_or with rfl | ⟨t, u, us, rfl⟩
  · have hpair : ¬PairAhead language rest := fun ⟨hopening, _⟩ => by
      cases language <;> exact hrest _ (by decide) hopening
    cases h with
    | type ht hw helement hbrackets _ => exact .type ht hw helement hbrackets hpair
    | new hlanguage ht hw htype _ _ =>
      exact .new hlanguage ht hw htype (hrest _ (by decide)) fun _ => hrest _ (by decide)
  · cases h with
    | type ht hw helement hbrackets hbehind => exact .type ht hw helement hbrackets hbehind
    | new hlanguage ht hw htype hbehind hdot => exact .new hlanguage ht hw htype hbehind hdot

end Source

end CilScope
