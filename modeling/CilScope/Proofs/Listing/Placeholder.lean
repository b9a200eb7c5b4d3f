import CilScope.Listing.Module
import CilScope.Proofs.Listing.Visits
import CilScope.Proofs.Listing.Writer
import CilScope.Proofs.Text.Sink

/-!
# The placeholder at the start of a listing

A listing without headers leaves out one empty placeholder at its start, which is found by comparing texts.
Names may hold any characters, but no other type is mistaken for the placeholder: what is left starts with
the placeholder's text exactly if the first two types that are shown are both empty placeholders
(`placeholder_prefix_iff`).

The text of a type is compared from its start. Its line is that of the placeholder only if it has its name
(`bare_of_begins`), and whatever stands between the braces starts with a tab (`Tabbed`), where the text of
the placeholder has its closing brace. All else is added behind (`Adds`) and changes nothing about that.
-/

namespace CilScope.Listing

open Writer Metadata Text

variable {α β : Type}

/-! ## Parts that add to the text -/

/-- A part of a listing that keeps the text that is there. -/
def Adds (part : Writer α) : Prop :=
  ∀ s a s', part s = .ok (a, s') → s.text.toList <+: s'.text.toList

namespace Adds

instance : IsPreorder Sink fun s s' => s.text.toList <+: s'.text.toList where
  refl _ := List.prefix_rfl
  trans _ _ _ := List.IsPrefix.trans

theorem bind {part : Writer α} {next : α → Writer β} (h : Adds part) (h' : ∀ a, Adds (next a)) :
    Adds (part >>= next) := Leads.bind h h'

theorem pure (a : α) : Adds (Pure.pure a : Writer α) := Leads.pure a

theorem throw (e : ListingError) : Adds (throw e : Writer α) := fun _ _ _ heq => by cases heq

theorem line (text : String) : Adds (Writer.line text) := by
  intro s a s' heq
  cases heq
  exact Sink.prefix_writeLine s text

theorem blank : Adds Writer.blank := by
  intro s a s' heq
  cases heq
  exact Sink.prefix_line s

theorem indent : Adds Writer.indent := by
  intro s a s' heq
  cases heq
  exact List.prefix_rfl

theorem unindent : Adds Writer.unindent := by
  intro s a s' heq
  cases heq
  exact List.prefix_rfl

theorem name (text : Except ListingError String) : Adds (Writer.name text) := Leads.name text

theorem namedLine (text : Except ListingError String) (f : String → String) :
    Adds (do Writer.line (f (← Writer.name text))) := (name text).bind fun _ => line _

theorem ite {c : Prop} [Decidable c] {part other : Writer α} (h : Adds part) (h' : Adds other) :
    Adds (if c then part else other) := by
  split
  · exact h
  · exact h'

theorem forM {xs : List α} {f : α → Writer Unit} (h : ∀ x, Adds (f x)) : Adds (xs.forM f) := Leads.forM h

theorem mapM {xs : List α} {f : α → Writer β} (h : ∀ x, Adds (f x)) : Adds (xs.mapM f) := Leads.mapM h

theorem indented {part : Writer Unit} (h : Adds part) : Adds (Writer.indented part) :=
  indent.bind fun _ => h.bind fun _ => unindent

theorem writeList (xs : List α) (text : α → Except ListingError String) : Adds (writeList xs text) :=
  (mapM fun _ => name _).bind fun _ => forM fun _ => line _

theorem hex (bs : List UInt8) : Adds (Writer.hex bs) := forM fun _ => line _

theorem attributes (n : Names) (as : List Attribute) : Adds (Writer.attributes n as) :=
  forM fun _ => (name _).bind fun _ => (line _).bind fun _ => (indented (hex _)).bind fun _ => line _

theorem writeItem (n : Names) (m : MethodDef) (o : Flow.Offsets) (code : Array Instruction) (item : Item) :
    Adds (writeItem n m o code item) := by
  cases item with
  | «instruction» index jump =>
    rw [Listing.writeItem]
    split
    · exact namedLine _ id
    · exact .pure ()
  | heading span => exact namedLine _ id
  | otherwise => exact line _
  | opening => exact (line _).bind fun _ => indent
  | closing kind => exact unindent.bind fun _ => line _

theorem writeBody (structured : Bool) (n : Names) (m : MethodDef) (b : Body) :
    Adds (writeBody structured n m b) := by
  refine (line _).bind fun _ => (line _).bind fun _ => (line _).bind fun _ => bind ?_ fun _ =>
    blank.bind fun _ => ?_
  · exact ite (.pure ()) ((line _).bind fun _ => (indented (writeList _ _)).bind fun _ => line _)
  · split
    · exact throw _
    · refine ite (forM fun _ => writeItem _ _ _ _ _) ((forM fun _ => namedLine _ id).bind fun _ => ?_)
      exact ite (.pure ()) (blank.bind fun _ => forM fun _ => namedLine _ id)

theorem writeMethod (structured : Bool) (m : Module) (type : Nat) (method : MethodDef) (row : Nat) :
    Adds (writeMethod structured m type method row) := by
  refine (line _).bind fun _ => (indented ?_).bind fun _ => (line _).bind fun _ =>
    (indented ((attributes _ _).bind fun _ => ?_)).bind fun _ => line _
  · refine (name _).bind fun _ => ?_
    exact ite (line _) ((line _).bind fun _ => (indented (writeList _ _)).bind fun _ => line _)
  · split
    · exact writeBody _ _ _ _
    · exact .pure ()

end Adds

/-! ## The parts of a type -/

/-- The line of a type. -/
def declaration (type : TypeDef) : String :=
  ".class " ++ typeVisibility type ++ " auto ansi" ++ flagWords
    [(type.isAbstract, "abstract"), (type.isSealed, "sealed"),
     (type.beforeFieldInit, "beforefieldinit")] ++ " " ++ Names.declared type

/-- Writes the base of a type. -/
def writeBase (n : Names) (base : Option Token) : Writer Unit :=
  base.forM fun base => indented do line ("extends " ++ (← name (n.typeToken base)))

/-- Writes what is nested in a type, at most `depth` types deep. -/
def writeNested (structured : Bool) (m : Module) (depth index : Nat) : Writer Unit :=
  unless (nestedTypes m.metadata index).isEmpty do
    line "// Nested Types"
    (nestedTypes m.metadata index).forM fun inner => do
      writeType structured m depth inner
      blank

/-- Writes the methods of a type. -/
def writeMethods (structured : Bool) (m : Module) (index : Nat) (methods : List MethodDef) : Writer Unit :=
  unless methods.isEmpty do
    line "// Methods"
    methods.zipIdx.forM fun (method, i) => do
      writeMethod structured m index method (m.metadata.methodRows.getD index 0 + i)
      blank

/-- Writes what stands between the braces of a type. -/
def writeInside (structured : Bool) (m : Module) (depth index : Nat) (type : TypeDef) : Writer Unit := do
  attributes ⟨m.metadata, m.metadata.typeFullName index⟩ type.attributes
  writeNested structured m depth index
  writeFields ⟨m.metadata, m.metadata.typeFullName index⟩ type.fields
  writeMethods structured m index type.methods

/-- What follows a part that may be left out can be written behind both. -/
theorem unless_bind (c : Bool) (part : Writer Unit) (k : Writer α) :
    ((if c = true then pure () else part) >>= fun _ => k) =
      if c = true then k else part >>= fun _ => k := by
  cases c <;> rfl

theorem writeType_braces (structured : Bool) (m : Module) (depth index : Nat) {type : TypeDef}
    (htype : m.metadata.types[index]? = some type) :
    writeType structured m (depth + 1) index = (do
      line (declaration type)
      writeBase ⟨m.metadata, m.metadata.typeFullName index⟩ type.base
      line "\x7b"
      indented (writeInside structured m depth index type)
      line ("\x7d // end of class " ++
        if type.enclosing.isSome then type.name else m.metadata.typeFullName index)) := by
  rw [writeType, htype]
  unfold writeInside writeNested writeMethods writeBase indented
  simp only [unless_bind, bind_assoc]
  cases type.base <;> simp only [Option.forM, bind_assoc] <;> rfl

/-! ## Parts that start with a tab -/

/-- A part of a listing that, further in, writes nothing, and then `P` holds, or starts with a tab. -/
structure Tabbed (P : Prop) (part : Writer Unit) : Prop where
  adds : Adds part
  tab : ∀ s s', s.depth ≠ 0 → s.midLine = false → part s = .ok ((), s') →
    (P ∧ s' = s) ∨ s.text.toList ++ ['\t'] <+: s'.text.toList

namespace Tabbed

variable {P Q : Prop} {part next : Writer Unit}

theorem line {text : String} {c : Char} (hhead : text.toList.head? = some c) (hc : c ≠ '\n') :
    Tabbed False (Writer.line text) where
  adds := .line text
  tab s s' hdepth hstart heq := by
    cases heq
    obtain ⟨cs, hcs⟩ := List.head?_eq_some_iff.1 hhead
    exact .inr (Sink.tab_prefix_writeLine hdepth hstart hc hcs)

theorem named {text : Except ListingError String} {next : String → Writer Unit} (h : ∀ t, Tabbed P (next t)) :
    Tabbed P (do next (← name text)) where
  adds := (Adds.name text).bind fun t => (h t).adds
  tab s s' hdepth hstart heq := by
    cases text with
    | error e => cases heq
    | ok t => exact (h t).tab s s' hdepth hstart heq

theorem bind (h : Tabbed P part) (h' : Tabbed Q next) : Tabbed (P ∧ Q) (part >>= fun _ => next) where
  adds := h.adds.bind fun _ => h'.adds
  tab s s' hdepth hstart heq := by
    obtain ⟨_, s₁, hpart, hnext⟩ := exists_of_bind heq
    rcases h.tab s s₁ hdepth hstart hpart with ⟨hp, rfl⟩ | htab
    · exact (h'.tab s₁ s' hdepth hstart hnext).imp (fun ⟨hq, hs⟩ => ⟨⟨hp, hq⟩, hs⟩) id
    · exact .inr (htab.trans (h'.adds _ _ _ hnext))

/-- What a part starts with, it starts with whatever follows. -/
theorem start (h : Tabbed False part) (hnext : Adds next) : Tabbed False (part >>= fun _ => next) where
  adds := h.adds.bind fun _ => hnext
  tab s s' hdepth hstart heq := by
    obtain ⟨_, s₁, hpart, heq⟩ := exists_of_bind heq
    have htab := (h.tab s s₁ hdepth hstart hpart).resolve_left And.left
    exact .inr (htab.trans (hnext _ _ _ heq))

theorem forM {xs : List α} {f : α → Writer Unit} (h : ∀ x, Tabbed False (f x)) :
    Tabbed (xs = []) (xs.forM f) where
  adds := .forM fun x => (h x).adds
  tab s s' hdepth hstart heq := by
    cases xs with
    | nil =>
      cases heq
      exact .inl ⟨rfl, rfl⟩
    | cons x xs =>
      have hrest : Adds (xs.forM f) := .forM fun x => (h x).adds
      have hall := (h x).start hrest
      exact .inr ((hall.tab s s' hdepth hstart heq).resolve_left And.left)

theorem unlessEmpty {xs : List α} (h : Tabbed False part) :
    Tabbed (xs = []) (if xs.isEmpty = true then pure () else part) where
  adds := .ite (.pure ()) h.adds
  tab s s' hdepth hstart heq := by
    cases xs with
    | nil =>
      cases heq
      exact .inl ⟨rfl, rfl⟩
    | cons x xs => exact .inr ((h.tab s s' hdepth hstart heq).resolve_left And.left)

/-- One step further in from the start of a line, a part can be compared so. -/
theorem indented (h : Tabbed P part) {s s' : Sink} (hstart : s.midLine = false)
    (heq : Writer.indented part s = .ok ((), s')) :
    (P ∧ s' = s) ∨ s.text.toList ++ ['\t'] <+: s'.text.toList := by
  obtain ⟨⟨_, s₁⟩, hpart, heq⟩ : ∃ p, part s.indent = .ok p ∧ Writer.unindent p.2 = .ok ((), s') :=
    bind_eq_ok heq
  cases heq
  exact (h.tab s.indent s₁ (Nat.succ_ne_zero _) hstart hpart).imp (fun ⟨hp, hs⟩ => ⟨hp, by rw [hs]; rfl⟩) id

end Tabbed

section

variable (structured : Bool) (m : Module) (depth index : Nat) (type : TypeDef)

theorem adds_writeBase (n : Names) (base : Option Token) : Adds (writeBase n base) := by
  cases base with
  | none => exact .pure ()
  | some base => exact .indented (.namedLine _ _)

/-- The base of a type is not shown, or what is shown starts with a tab. -/
theorem writeBase_eq_ok {n : Names} {base : Option Token} {s s' : Sink} (hstart : s.midLine = false)
    (h : writeBase n base s = .ok ((), s')) :
    (base = none ∧ s' = s) ∨ s.text.toList ++ ['\t'] <+: s'.text.toList := by
  cases base with
  | none =>
    cases h
    exact .inl ⟨rfl, rfl⟩
  | some base =>
    have htabbed : Tabbed False (do line ("extends " ++ (← name (n.typeToken base)))) :=
      .named fun _ => .line (c := 'e') (by simp) (by decide)
    exact .inr ((htabbed.indented hstart h).resolve_left And.left)

/-- What stands between the braces of a type is nothing, or starts with a tab. -/
theorem tabbed_writeInside (h : ∀ inner, Adds (writeType structured m depth inner)) :
    Tabbed (type.attributes = [] ∧ nestedTypes m.metadata index = [] ∧ type.fields = [] ∧ type.methods = [])
      (writeInside structured m depth index type) := by
  have hheading (word : String) (hword : word.toList.head? = some '/') {rest : Writer Unit} (hrest : Adds rest) :
      Tabbed False (do line word; rest) := (Tabbed.line hword (by decide)).start hrest
  have hattributes : Tabbed (type.attributes = [])
      (attributes ⟨m.metadata, m.metadata.typeFullName index⟩ type.attributes) :=
    .forM fun a => .named fun t => .start (.line (c := '.') (by simp) (by decide))
      ((Adds.indented (.hex _)).bind fun _ => .line _)
  have hnested : Tabbed (nestedTypes m.metadata index = []) (writeNested structured m depth index) :=
    .unlessEmpty (hheading _ (by simp) (.forM fun inner => (h inner).bind fun _ => .blank))
  have hfields : Tabbed (type.fields = [])
      (writeFields ⟨m.metadata, m.metadata.typeFullName index⟩ type.fields) :=
    .unlessEmpty (hheading _ (by simp)
      ((Adds.forM fun _ => (Adds.name _).bind fun _ => .line _).bind fun _ => .blank))
  have hmethods : Tabbed (type.methods = []) (writeMethods structured m index type.methods) :=
    .unlessEmpty (hheading _ (by simp)
      (.forM fun _ => (Adds.writeMethod _ _ _ _ _).bind fun _ => .blank))
  exact hattributes.bind (hnested.bind (hfields.bind hmethods))

theorem adds_writeType : Adds (writeType structured m depth index) := by
  induction depth generalizing index with
  | zero => exact .pure ()
  | succ depth ih =>
    cases htype : m.metadata.types[index]? with
    | none =>
      rw [writeType, htype]
      exact .pure ()
    | some type =>
      rw [writeType_braces structured m depth index htype]
      exact (Adds.line _).bind fun _ => (adds_writeBase _ _).bind fun _ => (Adds.line _).bind fun _ =>
        (Adds.indented (tabbed_writeInside structured m depth index type ih).adds).bind fun _ => .line _

end

/-! ## The line of a type -/

/-- A name without quotes and backslashes stands in quotes only where it is the name. -/
theorem eq_of_quoted_begins {w u x y : List Char} (hquote : '\'' ∉ u) (hescape : '\\' ∉ u)
    (h : w.flatMap Quoted.escapeQuote ++ '\'' :: x <+: u ++ '\'' :: y) : w = u := by
  induction w generalizing u with
  | nil =>
    cases u with
    | nil => rfl
    | cons d u => exact (hquote ((List.cons_prefix_cons.1 h).1 ▸ List.mem_cons_self ..)).elim
  | cons c w ih =>
    rw [List.flatMap_cons, Quoted.escapeQuote] at h
    split at h
    · cases u with
      | nil => exact absurd (List.cons_prefix_cons.1 h).1 (by decide)
      | cons d u => exact (hescape ((List.cons_prefix_cons.1 h).1 ▸ List.mem_cons_self ..)).elim
    · rename_i hc
      cases u with
      | nil => exact (hc (List.cons_prefix_cons.1 h).1).elim
      | cons d u =>
        rw [List.singleton_append, List.cons_append, List.cons_append, List.cons_prefix_cons] at h
        obtain ⟨rfl, h⟩ := h
        rw [ih (fun hm => hquote (List.mem_cons_of_mem _ hm)) (fun hm => hescape (List.mem_cons_of_mem _ hm)) h]

/-- The characters of the placeholder's name. -/
def placeholderName : List Char := ['<', 'M', 'o', 'd', 'u', 'l', 'e', '>']

theorem eq_of_name_begins {s : String} {y : List Char}
    (h : (Quoted.name s).toList ++ ['\n'] <+: '\'' :: (placeholderName ++ '\'' :: y)) :
    s.toList = placeholderName := by
  rw [Quoted.name] at h
  split at h
  · rename_i hplain
    cases hs : s.toList with
    | nil => rw [hs] at hplain; cases hplain
    | cons c cs =>
      rw [hs, Quoted.isPlain, Bool.and_eq_true, List.all_cons, Bool.and_eq_true] at hplain
      rw [hs] at h
      have hc : c = '\'' := (List.cons_prefix_cons.1 h).1
      rw [hc] at hplain
      exact absurd hplain.2.1 (by decide)
  · rw [String.toList_ofList, List.cons_append, List.append_assoc] at h
    exact eq_of_quoted_begins (by decide) (by decide) (List.cons_prefix_cons.1 h).2

/-- A name without a full stop has no namespace. -/
theorem eq_of_qualified {namespace_ name : String} (h : qualified namespace_ name = "<Module>") :
    namespace_ = "" ∧ name = "<Module>" := by
  rw [qualified] at h
  split at h
  · exact ⟨String.isEmpty_iff.1 ‹_›, h⟩
  · have hstop : '.' ∈ (namespace_ ++ "." ++ name).toList := by simp
    rw [h] at hstop
    simp at hstop

/-- A type has the line of the placeholder. -/
structure Bare (type : TypeDef) : Prop where
  hidden : type.visibility ≠ .public_
  notAbstract : type.isAbstract = false
  notSealed : type.isSealed = false
  notBeforeFieldInit : type.beforeFieldInit = false
  namespace_ : type.namespace_ = ""
  name : type.name = "<Module>"

theorem Bare.declaration_eq {type : TypeDef} (h : Bare type) (hroot : type.enclosing = none) :
    declaration type = ".class private auto ansi '<Module>'" := by
  rw [declaration, typeVisibility, Names.declared, hroot, h.notAbstract, h.notSealed,
    h.notBeforeFieldInit, h.namespace_, h.name]
  simp only [h.hidden, Option.isSome_none, Bool.false_eq_true, if_false]
  decide

theorem bare_of_begins {type : TypeDef} (hroot : type.enclosing = none) {y : List Char}
    (h : (declaration type).toList ++ ['\n'] <+: placeholderText.toList ++ y) : Bare type := by
  have htext : placeholderText.toList = ".class ".toList ++ ("private".toList ++ (" auto ansi".toList ++
      (' ' :: '\'' :: (placeholderName ++ '\'' :: '\n' :: "\x7b\n\x7d // end of class <Module>\n\n".toList)))) := by
    simp [placeholderText, placeholderName]
  rw [htext, declaration, typeVisibility, Names.declared, hroot] at h
  simp only [Option.isSome_none, Bool.false_eq_true, if_false, String.toList_append, List.append_assoc,
    List.prefix_append_right_inj] at h
  have hhidden : type.visibility ≠ .public_ := by
    intro hv
    rw [if_pos hv] at h
    simp at h
  rw [if_neg hhidden, List.prefix_append_right_inj, List.prefix_append_right_inj] at h
  have hflags : type.isAbstract = false ∧ type.isSealed = false ∧ type.beforeFieldInit = false := by
    cases ha : type.isAbstract <;> cases hs : type.isSealed <;> cases hb : type.beforeFieldInit <;>
      simp [ha, hs, hb, flagWords] at h ⊢
  obtain ⟨habstract, hsealed, hbefore⟩ := hflags
  have hname : qualified type.namespace_ type.name = "<Module>" := by
    rw [habstract, hsealed, hbefore] at h
    exact String.toList_inj.1 ((eq_of_name_begins (List.cons_prefix_cons.1 h).2).trans (by simp [placeholderName]))
  obtain ⟨hnamespace, hname⟩ := eq_of_qualified hname
  exact ⟨hhidden, habstract, hsealed, hbefore, hnamespace, hname⟩

/-! ## The text of a type -/

/-- The type at `i` is an empty placeholder: but for a visibility that is not shown it is the type every
module starts with, and nothing is nested in it. -/
def IsPlaceholder (m : Metadata) (i : Nat) : Prop :=
  ∃ v, v ≠ .public_ ∧ m.types[i]? = some { TypeDef.placeholder with visibility := v } ∧ nestedTypes m i = []

section

variable {structured : Bool} {m : Module} {depth i : Nat} {type : TypeDef} {x : String} {s' : Sink}

/-- A type that is not nested is an empty placeholder if it has its line, and nothing else. -/
theorem isPlaceholder_iff (htype : m.metadata.types[i]? = some type) (hroot : type.enclosing = none) :
    IsPlaceholder m.metadata i ↔ Bare type ∧ type.base = none ∧
      type.attributes = [] ∧ nestedTypes m.metadata i = [] ∧ type.fields = [] ∧ type.methods = [] := by
  rw [IsPlaceholder, htype]
  constructor
  · rintro ⟨v, hv, htype, hnested⟩
    cases htype
    exact ⟨⟨hv, rfl, rfl, rfl, rfl, rfl⟩, rfl, rfl, hnested, rfl, rfl⟩
  · rintro ⟨hbare, hbase, hattributes, hnested, hfields, hmethods⟩
    refine ⟨type.visibility, hbare.hidden, congrArg some ?_, hnested⟩
    cases type
    cases hbare
    simp_all [TypeDef.placeholder]

theorem typeFullName_root (htype : m.metadata.types[i]? = some type) (hroot : type.enclosing = none) :
    m.metadata.typeFullName i = qualified type.namespace_ type.name := by
  unfold typeFullName fullNameWithin
  simp only [htype, hroot]

theorem writeBase_none (n : Names) : writeBase n none = pure () := rfl

theorem line_bind (text : String) (next : Unit → Writer α) (s : Sink) :
    (line text >>= next) s = next () (s.writeLine text) := rfl

/-- The text of an empty placeholder. -/
theorem writeType_placeholder (htype : m.metadata.types[i]? = some type) (hroot : type.enclosing = none)
    (h : IsPlaceholder m.metadata i) :
    (do writeType structured m (depth + 1) i; blank) ⟨x, 0, false⟩ =
      .ok ((), ⟨x ++ placeholderText, 0, false⟩) := by
  obtain ⟨hbare, hbase, hattributes, hnested, hfields, hmethods⟩ := (isPlaceholder_iff htype hroot).1 h
  have hinside : indented (writeInside structured m depth i type) = pure () := by
    unfold writeInside writeNested
    rw [hattributes, hnested, hfields, hmethods]
    rfl
  have hname : m.metadata.typeFullName i = "<Module>" := by
    rw [typeFullName_root htype hroot, hbare.namespace_, hbare.name]
    rfl
  rw [writeType_braces structured m depth i htype, hbare.declaration_eq hroot, hbase, hinside, hroot, hname]
  rw [writeBase_none]
  simp only [bind_assoc, pure_bind]
  rw [line_bind, line_bind, line_bind, Sink.writeLine_margin, Sink.writeLine_margin, Sink.writeLine_margin]
  refine congrArg Except.ok (congrArg (Prod.mk ()) (congrArg (Sink.mk · 0 false) (String.toList_inj.1 ?_)))
  simp [placeholderText]

/-- Where a type that is not nested starts with the text of an empty placeholder, it is one. -/
theorem isPlaceholder_of_begins (htype : m.metadata.types[i]? = some type) (hroot : type.enclosing = none)
    (h : writeType structured m (depth + 1) i ⟨x, 0, false⟩ = .ok ((), s')) {y : List Char}
    (hbegins : s'.text.toList <+: x.toList ++ (placeholderText.toList ++ y)) :
    IsPlaceholder m.metadata i := by
  rw [writeType_braces structured m depth i htype, line_bind, Sink.writeLine_margin] at h
  obtain ⟨_, s₂, hbase, h⟩ := exists_of_bind h
  rw [line_bind] at h
  obtain ⟨_, s₃, hinside, h⟩ := exists_of_bind h
  have htabbed := tabbed_writeInside structured m depth i type (adds_writeType structured m depth)
  -- each part keeps what is there, so what it leaves is compared with the placeholder's text
  have hclosed := (Adds.line _ _ _ _ h).trans hbegins
  have hopened := (htabbed.adds.indented _ _ _ hinside).trans hclosed
  have hdeclared := (adds_writeBase _ _ _ _ _ hbase).trans ((Sink.prefix_writeLine _ _).trans hopened)
  rw [String.toList_append, String.toList_append, List.append_assoc, List.prefix_append_right_inj] at hdeclared
  have hbare := bare_of_begins hroot hdeclared
  rw [hbare.declaration_eq hroot] at hbase
  rcases writeBase_eq_ok rfl hbase with ⟨hnone, rfl⟩ | htab
  · rw [Sink.writeLine_margin] at hinside
    rcases htabbed.indented rfl hinside with ⟨hempty, -⟩ | htab
    · exact (isPlaceholder_iff htype hroot).2 ⟨hbare, hnone, hempty⟩
    · have hlong := htab.trans hclosed
      simp [placeholderText] at hlong
  · have hlong := htab.trans ((Sink.prefix_writeLine _ _).trans hopened)
    simp [placeholderText] at hlong

end

/-! ## The text of all types -/

/-- The indices of the types that are not nested, in the order in which they are shown. -/
def outermost (m : Metadata) : List Nat := (m.types.zipIdx.filter (·.1.enclosing.isNone)).map (·.2)

theorem exists_of_mem_outermost {m : Metadata} {i : Nat} (h : i ∈ outermost m) :
    ∃ type, m.types[i]? = some type ∧ type.enclosing = none := by
  obtain ⟨⟨type, _⟩, hmem, rfl⟩ := List.mem_map.1 h
  obtain ⟨hmem, hroot⟩ := List.mem_filter.1 hmem
  exact ⟨type, List.mem_zipIdx_iff_getElem?.1 hmem, Option.isNone_iff_eq_none.1 hroot⟩

/-- Writes a type that is not nested. -/
def writeOutermost (structured : Bool) (m : Module) (i : Nat) : Writer Unit := do
  writeType structured m m.metadata.types.length i
  blank

/-- The types that are not nested are written one behind the other. -/
theorem writeTypes_eq_outermost (structured : Bool) (m : Module) :
    writeTypes structured m = (outermost m.metadata).forM (writeOutermost structured m) := by
  rw [writeTypes, outermost]
  induction m.metadata.types.zipIdx with
  | nil => rfl
  | cons entry entries ih =>
    obtain ⟨type, index⟩ := entry
    rw [forM_cons, ih, List.filter_cons]
    cases hroot : type.enclosing.isNone <;> simp only [hroot] <;> rfl

section

variable {structured : Bool} {m : Module} {i : Nat} {is : List Nat} {x : String} {s' : Sink}

theorem adds_writeOutermost (structured : Bool) (m : Module) (i : Nat) : Adds (writeOutermost structured m i) :=
  (adds_writeType _ _ _ _).bind fun _ => .blank

/-- There is always a type to go down to. -/
theorem writeOutermost_eq {type : TypeDef} (htype : m.metadata.types[i]? = some type) :
    writeOutermost structured m i =
      (do writeType structured m (m.metadata.types.length - 1 + 1) i; blank) := by
  have hi := (List.getElem?_eq_some_iff.1 htype).1
  rw [writeOutermost, Nat.sub_add_cancel (Nat.zero_lt_of_lt hi)]

theorem writeOutermost_placeholder (h : IsPlaceholder m.metadata i) :
    writeOutermost structured m i ⟨x, 0, false⟩ = .ok ((), ⟨x ++ placeholderText, 0, false⟩) := by
  obtain ⟨v, -, htype, -⟩ := id h
  rw [writeOutermost_eq htype]
  exact writeType_placeholder htype rfl h

/-- What is written starts with the text of an empty placeholder exactly if the first type is one. -/
theorem forM_writeOutermost_begins
    (his : ∀ i ∈ is, ∃ type, m.metadata.types[i]? = some type ∧ type.enclosing = none)
    (h : is.forM (writeOutermost structured m) ⟨x, 0, false⟩ = .ok ((), s')) :
    (x ++ placeholderText).toList <+: s'.text.toList ↔ ∃ i ∈ is.head?, IsPlaceholder m.metadata i := by
  cases is with
  | nil =>
    cases h
    refine ⟨fun hbegins => ?_, fun ⟨i, hi, _⟩ => by cases hi⟩
    have hlength := hbegins.length_le
    simp [placeholderText] at hlength
  | cons i rest =>
    obtain ⟨type, htype, hroot⟩ := his i (List.mem_cons_self ..)
    obtain ⟨_, s₁, hwrite, hrest⟩ := exists_of_bind h
    have hkeeps : Adds (rest.forM (writeOutermost structured m)) := .forM (adds_writeOutermost structured m)
    have hadds := hkeeps _ _ _ hrest
    simp only [List.head?_cons, Option.mem_def, Option.some.injEq, exists_eq_left']
    constructor
    · rintro ⟨y, hy⟩
      rw [writeOutermost_eq htype] at hwrite
      obtain ⟨_, s₂, htext, hblank⟩ := exists_of_bind hwrite
      refine isPlaceholder_of_begins htype hroot htext (y := y) ?_
      rw [← List.append_assoc, ← String.toList_append, hy]
      exact (Adds.blank _ _ _ hblank).trans hadds
    · intro hplaceholder
      rw [writeOutermost_placeholder hplaceholder] at hwrite
      cases hwrite
      exact hadds

/-- A listing without headers is the text of its types, but for a placeholder at the start. -/
theorem ofModule_eq_ok {text : String} (h : ofModule m { headers := false, structured } = .ok text) :
    ∃ sink, (outermost m.metadata).forM (writeOutermost structured m) ⟨"", 0, false⟩ = .ok ((), sink) ∧
      text.toList = dropBeginning placeholderText.toList sink.text.toList := by
  obtain ⟨⟨_, sink⟩, hwrite, h⟩ := bind_eq_ok h
  cases h
  rw [← writeTypes_eq_outermost, String.toList_ofList]
  exact ⟨sink, hwrite, rfl⟩

/-- Behind an empty placeholder the text of another one follows exactly if the next type is one. -/
theorem behind_placeholder {rest : List Nat} (houtermost : outermost m.metadata = i :: rest)
    (hi : IsPlaceholder m.metadata i)
    (h : (outermost m.metadata).forM (writeOutermost structured m) ⟨"", 0, false⟩ = .ok ((), s')) :
    ∃ y, s'.text.toList = placeholderText.toList ++ y ∧
      (placeholderText.toList <+: y ↔ ∃ j ∈ rest.head?, IsPlaceholder m.metadata j) := by
  have hfirst := forM_writeOutermost_begins (fun i => exists_of_mem_outermost) h
  rw [houtermost] at h hfirst
  obtain ⟨y, hy⟩ := hfirst.2 ⟨i, rfl, hi⟩
  obtain ⟨_, s₁, hplaceholder, h⟩ := exists_of_bind h
  rw [writeOutermost_placeholder hi] at hplaceholder
  cases hplaceholder
  have hsecond := forM_writeOutermost_begins
    (fun j hj => exists_of_mem_outermost (houtermost ▸ List.mem_cons_of_mem i hj)) h
  rw [String.empty_append] at hy hsecond
  rw [← hy, String.toList_append, List.prefix_append_right_inj] at hsecond
  exact ⟨y, hy.symm, hsecond⟩

theorem dropBeginning_append (b y : List Char) : dropBeginning b (b ++ y) = y := by
  rw [dropBeginning, if_pos (List.isPrefixOf_iff_prefix.2 (List.prefix_append b y)), List.drop_left]

theorem begins_of_placeholders {j : Nat} {rest : List Nat} {text : String}
    (h : ofModule m { headers := false, structured } = .ok text)
    (houtermost : outermost m.metadata = i :: j :: rest) (hi : IsPlaceholder m.metadata i)
    (hj : IsPlaceholder m.metadata j) : placeholderText.toList <+: text.toList := by
  obtain ⟨sink, htypes, htext⟩ := ofModule_eq_ok h
  obtain ⟨y, hy, hnext⟩ := behind_placeholder houtermost hi htypes
  rw [htext, hy, dropBeginning_append]
  exact hnext.2 ⟨j, rfl, hj⟩

/-- **Only one placeholder is left out.** A listing without headers starts with the text of an empty placeholder
exactly if the first two types that are shown are empty placeholders. -/
theorem placeholder_prefix_iff {text : String} (h : ofModule m { headers := false, structured } = .ok text) :
    placeholderText.toList <+: text.toList ↔
      ∃ i j rest, outermost m.metadata = i :: j :: rest ∧ IsPlaceholder m.metadata i ∧ IsPlaceholder m.metadata j := by
  constructor
  · intro hbegins
    obtain ⟨sink, htypes, htext⟩ := ofModule_eq_ok h
    have hfirst := forM_writeOutermost_begins (fun i => exists_of_mem_outermost) htypes
    rw [String.empty_append] at hfirst
    -- a text that starts with that of a placeholder is what a placeholder was left out of
    have hsink : placeholderText.toList <+: sink.text.toList := by
      by_contra hnot
      rw [htext, dropBeginning, if_neg (mt List.isPrefixOf_iff_prefix.1 hnot)] at hbegins
      exact hnot hbegins
    obtain ⟨i, hhead, hi⟩ := hfirst.1 hsink
    obtain ⟨rest, houtermost⟩ := List.head?_eq_some_iff.1 hhead
    obtain ⟨y, hy, hnext⟩ := behind_placeholder houtermost hi htypes
    rw [htext, hy, dropBeginning_append] at hbegins
    obtain ⟨j, hj, hplaceholder⟩ := hnext.1 hbegins
    obtain ⟨rest, rfl⟩ := List.head?_eq_some_iff.1 hj
    exact ⟨i, j, rest, houtermost, hi, hplaceholder⟩
  · rintro ⟨i, j, rest, houtermost, hi, hj⟩
    exact begins_of_placeholders h houtermost hi hj

end

/-- A module with an empty placeholder, and a type that differs from it in a field only. -/
def counting : Module where
  metadata := { types := [.placeholder, { TypeDef.placeholder with fields := [{ name := "counter" }] }] }
  bodies := []

theorem placeholder_prefix_counting :
    ∃ text, ofModule counting { headers := false, structured := true } = .ok text ∧
      ¬ placeholderText.toList <+: text.toList := by
  have hok : (ofModule counting { headers := false, structured := true }).isOk = true := by decide +kernel
  cases htext : ofModule counting { headers := false, structured := true } with
  | error e =>
    rw [htext] at hok
    cases hok
  | ok text =>
    refine ⟨text, rfl, fun hbegins => ?_⟩
    obtain ⟨i, j, rest, houtermost, -, v, -, htype, -⟩ := (placeholder_prefix_iff htext).1 hbegins
    cases houtermost
    cases htype

/-- A module with two empty placeholders. -/
def doubled : Module where
  metadata := { types := [.placeholder, .placeholder] }
  bodies := []

/-- Behind the empty placeholder that is left out another one is shown. -/
theorem placeholder_twice :
    ¬ ∀ (m : Module) (structured : Bool) (text : String),
      ofModule m { headers := false, structured } = .ok text → ¬ placeholderText.toList <+: text.toList := by
  intro h
  have hok : (ofModule doubled { headers := false, structured := true }).isOk = true := by decide +kernel
  have hfirst : IsPlaceholder doubled.metadata 0 := ⟨.private_, by decide, rfl, by decide⟩
  have hsecond : IsPlaceholder doubled.metadata 1 := ⟨.private_, by decide, rfl, by decide⟩
  cases htext : ofModule doubled { headers := false, structured := true } with
  | error e =>
    rw [htext] at hok
    cases hok
  | ok text => exact h doubled true text htext (begins_of_placeholders htext rfl hfirst hsecond)

end CilScope.Listing
