import CilScope.Listing.Module
import CilScope.Proofs.Listing.Nesting
import CilScope.Proofs.Listing.Visits
import CilScope.Proofs.References

/-!
# Listings without unknown tokens

A listing looks tokens up in many places: operands, handlers, signatures, base types, attributes and the
rows of the tables themselves. `Module.Uses` says which tokens stand where, and
`ofModule_ne_unknownToken` that a module whose tokens can all be looked up is never refused for one.
-/

namespace CilScope

/-- The class that a signature names, if any. -/
def TypeSig.token? : TypeSig → Option Token
  | class_ t => some t
  | array element => element.token?
  | _ => none

/-- The types of a method's signature. -/
def MethodSig.types (s : MethodSig) : List TypeSig := s.ret :: s.params

/-- A token stands in a place of a module. -/
inductive Module.Uses (m : Module) : Use → Token → Prop
  | operand {row : Nat} {body : Body} {i : Instruction} {t : Token} (hbody : m.body? row = some body)
      (hi : i ∈ body.instructions) (ht : i.operand = .token t) : m.Uses (.operand i.opcode) t
  | caught {def_ : Nat × MethodDef} {c : Clause} {t : Token} (hdef : def_ ∈ m.metadata.methods)
      (hc : c ∈ def_.2.clauses) (ht : c.kind = .catch_ t) : m.Uses .caught t
  | local_ {def_ : Nat × MethodDef} {v : LocalVar} {t : Token} (hdef : def_ ∈ m.metadata.methods)
      (hv : v ∈ def_.2.locals) (ht : v.sig.token? = some t) : m.Uses .signature t
  | method {def_ : Nat × MethodDef} {sig : TypeSig} {t : Token} (hdef : def_ ∈ m.metadata.methods)
      (hsig : sig ∈ def_.2.sig.types) (ht : sig.token? = some t) : m.Uses .signature t
  | field {def_ : Nat × FieldDef} {t : Token} (hdef : def_ ∈ m.metadata.fields)
      (ht : def_.2.sig.token? = some t) : m.Uses .signature t
  | member {row : MemberRef} {sig : TypeSig} {t : Token} (hrow : row ∈ m.metadata.memberRefs)
      (hsig : sig ∈ row.sig.types) (ht : sig.token? = some t) : m.Uses .signature t
  | parent {row : MemberRef} (hrow : row ∈ m.metadata.memberRefs) : m.Uses .parent row.parent
  | scope {row : TypeRef} (hrow : row ∈ m.metadata.typeRefs) : m.Uses .scope row.scope
  | base {type : TypeDef} {t : Token} (htype : type ∈ m.metadata.types) (ht : type.base = some t) :
      m.Uses .base t
  | assemblyAttribute {a : Attribute} (ha : a ∈ m.metadata.assembly.attributes) :
      m.Uses .attr a.ctor
  | typeAttribute {type : TypeDef} {a : Attribute} (htype : type ∈ m.metadata.types)
      (ha : a ∈ type.attributes) : m.Uses .attr a.ctor
  | methodAttribute {def_ : Nat × MethodDef} {a : Attribute} (hdef : def_ ∈ m.metadata.methods)
      (ha : a ∈ def_.2.attributes) : m.Uses .attr a.ctor

namespace Listing

/-- A token leads to a name in the place that it stands in. -/
def Names.Resolves (n : Names) : Use → Token → Prop
  | .operand _, t => ∃ text, n.token t = .ok text
  | .attr, t => ∃ text, n.methodToken t = .ok text
  | .scope, t => ∃ row, n.row .assemblyRef n.metadata.assemblyRefs t = .ok row
  | .caught, t | .signature, t | .base, t | .parent, t => ∃ text, n.typeToken t = .ok text

/-- All tokens of a module lead to names. -/
def Resolved (m : Module) : Prop :=
  ∀ site use t, m.Uses use t → Names.Resolves ⟨m.metadata, site⟩ use t

/-! ## Texts -/

theorem exists_sig {n : Names} :
    ∀ {sig : TypeSig}, (∀ t, sig.token? = some t → n.Resolves .signature t) →
      ∃ text, n.sig sig = .ok text
  | .class_ t, h => by
    obtain ⟨text, htext⟩ : ∃ text, n.typeToken t = .ok text := h t rfl
    exact ⟨"class " ++ text, by rw [Names.sig, htext]; rfl⟩
  | .array element, h => by
    obtain ⟨text, htext⟩ : ∃ text, n.sig element = .ok text := exists_sig h
    exact ⟨text ++ "[]", by rw [Names.sig, htext]; rfl⟩
  | .void, _ | .bool, _ | .int32, _ | .string, _ | .object, _ => ⟨_, rfl⟩

theorem exists_handlerText {n : Names} {kind : ClauseKind}
    (h : ∀ t, kind = .catch_ t → n.Resolves .caught t) : ∃ text, handlerText n kind = .ok text := by
  cases kind with
  | catch_ t =>
    obtain ⟨text, htext⟩ : ∃ text, n.typeToken t = .ok text := h t rfl
    exact ⟨"catch " ++ text, by rw [handlerText, htext]; rfl⟩
  | finally_ => exact ⟨_, rfl⟩

theorem exists_instructionLine {n : Names} (m : MethodDef) {i : Instruction} (jump : Option String)
    (h : ∀ t, i.operand = .token t → n.Resolves (.operand i.opcode) t) :
    ∃ text, instructionLine n m i jump = .ok text := by
  obtain ⟨text, htext⟩ : ∃ text, operandText n m i jump = .ok text := by
    unfold operandText
    cases hoperand : i.operand with
    | token t =>
      obtain ⟨text, htext⟩ : ∃ text, n.token t = .ok text := h t hoperand
      exact ⟨some text, by simp only [htext]; rfl⟩
    | var => dsimp only; split <;> exact ⟨_, rfl⟩
    | none | int | target => exact ⟨_, rfl⟩
  rw [instructionLine, htext]
  cases text <;> exact ⟨_, rfl⟩

/-! ## Parts of a listing -/

/-- A part of a listing that is refused for errors with `R` only. -/
def Safe {α : Type} (R : ListingError → Prop) (part : Writer α) : Prop :=
  ∀ s e, part s = .error e → R e

namespace Safe

variable {α β : Type} {R : ListingError → Prop}

theorem bind {part : Writer α} {next : α → Writer β} (h : Safe R part) (h' : ∀ a, Safe R (next a)) :
    Safe R (part >>= next) := by
  intro s e heq
  have hbind : (part >>= next) s = (part s >>= fun result => next result.1 result.2) := rfl
  rw [hbind] at heq
  cases hpart : part s with
  | error e' =>
    rw [hpart] at heq
    cases heq
    exact h s e hpart
  | ok result =>
    rw [hpart] at heq
    exact h' result.1 result.2 e heq

theorem of_ok {part : Writer α} (h : ∀ s, ∃ result, part s = .ok result) : Safe R part := by
  intro s e heq
  obtain ⟨result, hresult⟩ := h s
  rw [hresult] at heq
  cases heq

theorem pure (a : α) : Safe R (Pure.pure a : Writer α) := of_ok fun _ => ⟨_, rfl⟩

theorem line (text : String) : Safe R (Writer.line text) := of_ok fun _ => ⟨_, rfl⟩

theorem blank : Safe R Writer.blank := of_ok fun _ => ⟨_, rfl⟩

theorem indent : Safe R Writer.indent := of_ok fun _ => ⟨_, rfl⟩

theorem unindent : Safe R Writer.unindent := of_ok fun _ => ⟨_, rfl⟩

theorem name {text : Except ListingError String} (h : ∃ t, text = .ok t) : Safe R (Writer.name text) := by
  obtain ⟨t, rfl⟩ := h
  exact of_ok fun _ => ⟨_, rfl⟩

theorem ite {c : Prop} [Decidable c] {part other : Writer α} (h : Safe R part) (h' : Safe R other) :
    Safe R (if c then part else other) := by
  split
  · exact h
  · exact h'

theorem namedLine {text : Except ListingError String} (h : ∃ t, text = .ok t) :
    Safe R (do Writer.line (← Writer.name text)) := (name h).bind line

theorem forM {xs : List α} {f : α → Writer Unit} (h : ∀ x ∈ xs, Safe R (f x)) : Safe R (xs.forM f) := by
  induction xs with
  | nil => exact .pure ()
  | cons x xs ih =>
    obtain ⟨hx, hxs⟩ := List.forall_mem_cons.1 h
    exact hx.bind fun _ => ih hxs

theorem mapM {xs : List α} {f : α → Writer β} (h : ∀ x ∈ xs, Safe R (f x)) : Safe R (xs.mapM f) := by
  induction xs with
  | nil => exact .pure []
  | cons x xs ih =>
    obtain ⟨hx, hxs⟩ := List.forall_mem_cons.1 h
    rw [List.mapM_cons]
    exact hx.bind fun y => (ih hxs).bind fun ys => .pure (y :: ys)

theorem indented {part : Writer Unit} (h : Safe R part) : Safe R (Writer.indented part) :=
  indent.bind fun _ => h.bind fun _ => unindent

theorem writeList {xs : List α} {text : α → Except ListingError String}
    (h : ∀ x ∈ xs, ∃ t, text x = .ok t) : Safe R (writeList xs text) :=
  (mapM fun x hx => name (h x hx)).bind fun _ => forM fun _ _ => line _

theorem hex (bs : List UInt8) : Safe R (Writer.hex bs) := forM fun _ _ => line _

theorem attributes {n : Names} {as : List Attribute}
    (h : ∀ a ∈ as, n.Resolves .attr a.ctor) : Safe R (Writer.attributes n as) :=
  forM fun a ha => (name (h a ha)).bind fun _ => (line _).bind fun _ =>
    (indented (hex _)).bind fun _ => line _

end Safe

/-! ## Regions come from clauses -/

/-- All spans of a list of regions have `P`. -/
inductive Region.All (P : Span → Prop) : List Region → Prop
  | nil : All P []
  | cons {s : Span} {body alternative rest : List Region} (hs : P s) (hbody : All P body)
      (halternative : All P alternative) (hrest : All P rest) :
      All P (.mk s body alternative :: rest)

namespace Region.All

variable {P : Span → Prop} {s : Span} {tree tree' : List Region}

theorem insert (hs : P s) (h : All P tree) (heq : Region.insert s tree = some tree') :
    All P tree' := by
  induction h generalizing tree' with
  | nil =>
    rw [Region.insert] at heq
    cases heq
    exact .cons hs .nil .nil .nil
  | cons hspan hbody halternative hrest ihbody ihalternative ihrest =>
    rw [Region.insert] at heq
    split at heq
    · split at heq
      · cases heq
      · split at heq
        · obtain ⟨t, ht, rfl⟩ := Option.map_eq_some_iff.1 heq
          exact .cons hspan hbody (ihalternative ht) hrest
        · obtain ⟨t, ht, rfl⟩ := Option.map_eq_some_iff.1 heq
          exact .cons hspan (ihbody ht) halternative hrest
    · split at heq
      · cases heq
      · obtain ⟨t, ht, rfl⟩ := Option.map_eq_some_iff.1 heq
        exact .cons hspan hbody halternative (ihrest ht)

theorem add (hs : P s) (helse : ∀ t, s.withoutElse? = some t → P t) (h : All P tree) :
    All P (Region.add tree s) := by
  unfold Region.add
  cases heq : (Region.insert s tree).or (s.withoutElse?.bind (Region.insert · tree)) with
  | none => exact h
  | some tree' =>
    rcases Option.or_eq_some_iff.1 heq with heq | ⟨-, heq⟩
    · exact h.insert hs heq
    · obtain ⟨t, ht, heq⟩ := Option.bind_eq_some_iff.1 heq
      exact h.insert (helse t ht) heq

theorem foldl_add {spans : List Span} (hspans : ∀ s ∈ spans, P s)
    (helse : ∀ s t, Span.withoutElse? s = some t → P t) (h : All P tree) :
    All P (spans.foldl Region.add tree) := by
  induction spans generalizing tree with
  | nil => exact h
  | cons s spans ih =>
    obtain ⟨hs, hspans⟩ := List.forall_mem_cons.1 hspans
    exact ih hspans (h.add hs (helse s))

end Region.All

/-- The handlers among the regions of a body are those of its clauses, in whatever order its
instructions are. -/
theorem all_regions (instructions : List Instruction) (clauses : List Clause) (g : Flow.Graph) :
    Region.All (Span.HandlerIn clauses) (regions instructions clauses g) := by
  refine .foldl_add (fun s hs => ?_) (fun s t ht kind hkind => ?_) .nil
  · rw [List.mem_mergeSort, List.mem_append, List.mem_append] at hs
    intro kind hkind
    rcases hs with (hs | hs) | hs
    · obtain ⟨c, hc, hs⟩ := mem_protectedSpans hs
      obtain ⟨entry, hentry, hs⟩ := List.mem_filterMap.1 hs
      simp only [List.mem_cons, List.not_mem_nil, or_false] at hentry
      rcases hentry with rfl | rfl <;> dsimp only at hs <;> split at hs <;> cases hs
      · cases hkind
      · exact ⟨c, hc, RegionKind.handler.inj hkind⟩
    · obtain ⟨l, -, hs⟩ := List.mem_filterMap.1 hs
      simp only [loopSpan?] at hs
      split at hs
      · cases hs
      · split at hs <;> cases hs
        cases hkind
    · obtain ⟨⟨i, test⟩, -, hs⟩ := List.mem_filterMap.1 hs
      simp only [conditionalSpan?, Option.bind_eq_bind, Option.bind_eq_some_iff] at hs
      obtain ⟨-, -, target, -, -, -, last, -, -, -, hs⟩ := hs
      cases hs
      cases hkind
  · unfold Span.withoutElse? at ht
    split at ht <;> cases ht
    cases hkind

section

variable {R : ListingError → Prop} {n : Names} {m : MethodDef}

/-- The headings of an outline are those of its regions. -/
theorem safe_items {o : Flow.Offsets} {code : Array Instruction} {P : Span → Prop}
    (hcode : ∀ i ∈ code, ∀ jump, ∃ text, instructionLine n m i jump = .ok text)
    (hnamed : ∀ s, P s → ∃ heading, headingText n o s = .ok heading) {tree : List Region}
    (h : Region.All P tree) (around : List Span) (start stop : Nat) :
    ∀ item ∈ Outline.items o code around start stop tree, Safe R (writeItem n m o code item) := by
  have hflat (around : List Span) (next : Option Span) (start stop : Nat) :
      ∀ item ∈ Outline.flat o code around next start stop, Safe R (writeItem n m o code item) := by
    intro item hitem
    obtain ⟨index, -, rfl⟩ := List.mem_map.1 hitem
    rw [writeItem]
    split
    · exact .namedLine (hcode _ (Array.mem_of_getElem? ‹_›) _)
    · exact .pure ()
  have hopen : Safe R (writeItem n m o code .opening) := (Safe.line _).bind fun _ => .indent
  have hclose (kind : Option RegionKind) : Safe R (writeItem n m o code (.closing kind)) :=
    Safe.unindent.bind fun _ => .line _
  induction h generalizing around start stop with
  | nil =>
    rw [Outline.items]
    exact hflat around none start stop
  | @cons s body alternative rest hs hbody halternative hrest ihbody ihalternative ihrest =>
    rw [Outline.items]
    split
    · have hother : ∀ item ∈ (if s.kind.split?.isSome then
          [.closing none, .otherwise, .opening] ++ Outline.items o code (s :: around)
            (s.kind.split?.getD s.stop) s.stop alternative else []),
          Safe R (writeItem n m o code item) := by
        split
        · simp only [List.forall_mem_append, List.forall_mem_cons]
          exact ⟨⟨hclose none, Safe.line _, hopen, fun _ h => (List.not_mem_nil h).elim⟩,
            ihalternative _ _ _⟩
        · exact fun _ h => (List.not_mem_nil h).elim
      simp only [List.forall_mem_append, List.forall_mem_cons]
      exact ⟨⟨⟨⟨⟨hflat _ _ _ _, .namedLine (hnamed s hs), hopen, fun _ h => (List.not_mem_nil h).elim⟩,
        ihbody _ _ _⟩, hother⟩, hclose _, fun _ h => (List.not_mem_nil h).elim⟩, ihrest _ _ _⟩
    · exact hflat _ _ _ _

/-- A body whose tokens lead to names is listed, or refused for its graph. -/
theorem safe_writeBody (structured : Bool) {b : Body}
    (hgraph : ∀ e, Flow.Graph.build b.instructions m.clauses = .error e → R (.body n.site e))
    (hcode : ∀ i ∈ b.instructions, ∀ t, i.operand = .token t → n.Resolves (.operand i.opcode) t)
    (hclauses : ∀ c ∈ m.clauses, ∀ t, c.kind = .catch_ t → n.Resolves .caught t)
    (hlocals : ∀ v ∈ m.locals, ∀ t, v.sig.token? = some t → n.Resolves .signature t) :
    Safe R (writeBody structured n m b) := by
  have hline : ∀ i ∈ b.instructions, ∀ jump, ∃ text, instructionLine n m i jump = .ok text :=
    fun i hi jump => exists_instructionLine m jump (hcode i hi)
  have hvars : Safe R (writeLocals n m) := by
    unfold writeLocals
    split
    · exact .pure ()
    · refine (Safe.line _).bind fun _ => (Safe.indented (.writeList fun (v, i) hv => ?_)).bind
        fun _ => .line _
      obtain ⟨text, htext⟩ := exists_sig (hlocals v (List.fst_mem_of_mem_zipIdx hv))
      exact ⟨_, by simp only [htext]; rfl⟩
  refine (Safe.line _).bind fun _ => (Safe.line _).bind fun _ => (Safe.line _).bind fun _ =>
    hvars.bind fun _ => Safe.blank.bind fun _ => ?_
  split
  · exact fun _ _ heq => by
      cases heq
      exact hgraph _ ‹_›
  · split
    · refine .forM (safe_items (P := Span.HandlerIn m.clauses)
        (fun i hi => hline i (by simpa using hi)) (fun s hs => ?_) (all_regions _ _ _) _ _ _)
      unfold headingText
      split
      · exact ⟨_, rfl⟩
      · obtain ⟨c, hc, rfl⟩ := hs _ ‹_›
        exact exists_handlerText (hclauses c hc)
      · exact ⟨_, rfl⟩
      · exact ⟨_, rfl⟩
    · refine (Safe.forM fun i hi => .namedLine (hline i hi none)).bind fun _ => ?_
      split
      · exact .pure ()
      · refine Safe.blank.bind fun _ => .forM fun c hc => .namedLine ?_
        obtain ⟨text, htext⟩ := exists_handlerText (hclauses c hc)
        exact ⟨_, by rw [clauseLine, htext]; rfl⟩

end

section

variable {m : Module}

/-- The error tells of a method whose body has no control-flow graph. -/
inductive Ungraphed (m : Module) : ListingError → Prop
  | body {row type : Nat} {method : MethodDef} {b : Body} {e : Flow.GraphError}
      (hrow : m.metadata.methods[row]? = some (type, method)) (hbody : m.body? row = some b)
      (hgraph : Flow.Graph.build b.instructions method.clauses = .error e) :
      Ungraphed m (.body (m.metadata.bodySymbol type method) e)

theorem safe_writeMethod (h : Resolved m) (structured : Bool) {type row : Nat} {method : MethodDef}
    (hrow : m.metadata.methods[row]? = some (type, method)) :
    Safe (Ungraphed m) (writeMethod structured m type method row) := by
  have hmethod := List.mem_of_getElem? hrow
  have hsig : ∀ sig ∈ method.sig.types, ∃ text, Names.sig ⟨m.metadata,
      m.metadata.bodySymbol type method⟩ sig = .ok text :=
    fun sig hsig => exists_sig fun t ht => h _ _ t (.method hmethod hsig ht)
  obtain ⟨hret, hparams⟩ := List.forall_mem_cons.1 hsig
  have hdeclaration : Safe (Ungraphed m) (writeDeclaration ⟨m.metadata, m.metadata.bodySymbol type method⟩ method) := by
    refine (Safe.name hret).bind fun ret => ?_
    dsimp only
    split
    · exact .line _
    · refine (Safe.line _).bind fun _ => (Safe.indented (.writeList fun (p, i) hp => ?_)).bind
        fun _ => .line _
      obtain ⟨text, htext⟩ := hparams p (List.fst_mem_of_mem_zipIdx hp)
      dsimp only
      rw [htext]
      cases method.paramNames[i]? <;> exact ⟨_, rfl⟩
  refine (Safe.line _).bind fun _ => (Safe.indented hdeclaration).bind fun _ =>
    (Safe.line _).bind fun _ => (Safe.indented ?_).bind fun _ => .line _
  refine (Safe.attributes fun a ha => h _ _ _ (.methodAttribute hmethod ha)).bind fun _ => ?_
  cases hbody : m.body? row with
  | none => exact .pure ()
  | some body =>
    exact safe_writeBody structured (fun e he => .body hrow hbody he)
      (fun i hi t ht => h _ _ t (.operand hbody hi ht))
      (fun c hc t ht => h _ _ t (.caught hmethod hc ht))
      fun v hv t ht => h _ _ t (.local_ hmethod hv ht)

theorem safe_writeType (h : Resolved m) (structured : Bool) (depth index : Nat) :
    Safe (Ungraphed m) (writeType structured m depth index) := by
  induction depth generalizing index with
  | zero => exact .pure ()
  | succ depth ih =>
    rw [writeType]
    cases htype : m.metadata.types[index]? with
    | none => exact .pure ()
    | some type =>
      have hmem := List.mem_of_getElem? htype
      have hindex : (type, index) ∈ m.metadata.types.zipIdx := List.mem_zipIdx_iff_getElem?.2 htype
      have hfields : Safe (Ungraphed m) (writeFields ⟨m.metadata, m.metadata.typeFullName index⟩ type.fields) := by
        refine .ite (.pure ()) ((Safe.line _).bind fun _ => (Safe.forM fun f hf => ?_).bind fun _ => .blank)
        have hfield : (index, f) ∈ m.metadata.fields :=
          List.mem_flatMap.2 ⟨(type, index), hindex, List.mem_map_of_mem hf⟩
        exact (Safe.name (exists_sig fun t ht => h _ _ t (.field hfield ht))).bind fun _ => .line _
      have hmethod : ∀ x ∈ type.methods.zipIdx, Safe (Ungraphed m) (do
          writeMethod structured m index x.1 (m.metadata.methodRows.getD index 0 + x.2)
          Writer.blank) := fun x hx =>
        (safe_writeMethod h structured (getElem?_methods htype hx)).bind fun _ => .blank
      have hnested : ∀ inner ∈ nestedTypes m.metadata index,
          Safe (Ungraphed m) (do writeType structured m depth inner; Writer.blank) :=
        fun inner _ => (ih inner).bind fun _ => .blank
      -- the parts from the end on, since each is what the one before it goes on with
      have hmembers := hfields.bind fun _ => Safe.ite (c := type.methods.isEmpty = true) (.pure ())
        ((Safe.line "// Methods").bind fun _ =>
          Safe.forM hmethod)
      have hinside := (Safe.attributes fun a ha => h (m.metadata.typeFullName index) .attr _
        (.typeAttribute hmem ha)).bind fun _ =>
          Safe.ite (c := (nestedTypes m.metadata index).isEmpty = true) hmembers
            ((Safe.line "// Nested Types").bind fun _ =>
              (Safe.forM hnested).bind fun _ => hmembers)
      have hblock (last : String) := (Safe.line "\x7b").bind fun _ =>
        (Safe.indented hinside).bind fun _ => Safe.line last
      refine (Safe.line _).bind fun _ => ?_
      dsimp only
      cases hbase : type.base with
      | none => exact hblock _
      | some base =>
        have hname : ∃ text, Names.typeToken ⟨m.metadata, m.metadata.typeFullName index⟩ base = .ok text :=
          h _ .base base (.base hmem hbase)
        exact (Safe.indented ((Safe.name hname).bind fun _ => .line _)).bind fun _ => hblock _

theorem safe_writeModule (h : Resolved m) (options : ListingOptions) :
    Safe (Ungraphed m) (writeModule m options) := by
  have htypes : Safe (Ungraphed m) (writeTypes options.structured m) := by
    refine .forM fun (type, index) _ => .ite ?_ (.pure ())
    exact (safe_writeType h _ _ index).bind fun _ => .blank
  have hreferences (row : AssemblyRef) : Safe (Ungraphed m) (writeAssemblyRef row) := by
    refine (Safe.line _).bind fun _ => (Safe.line _).bind fun _ => (Safe.indented ?_).bind
      fun _ => .line _
    cases row.publicKeyToken with
    | none => exact .line _
    | some key =>
      exact (Safe.line _).bind fun _ => (Safe.indented (.hex _)).bind fun _ => (Safe.line _).bind
        fun _ => .line _
  have hassembly : Safe (Ungraphed m) (writeAssembly m.metadata) := by
    refine (Safe.line _).bind fun _ => (Safe.line _).bind fun _ => (Safe.indented ?_).bind
      fun _ => .line _
    exact (Safe.attributes fun a ha => h _ _ _ (.assemblyAttribute ha)).bind fun _ =>
      (Safe.line _).bind fun _ => .line _
  have hmodule : Safe (Ungraphed m) (writeModuleHeader m.metadata) :=
    (Safe.line _).bind fun _ => (Safe.line _).bind fun _ => .line _
  refine .ite ?_ htypes
  exact (Safe.forM fun row _ => hreferences row).bind fun _ => hassembly.bind fun _ =>
    Safe.blank.bind fun _ => hmodule.bind fun _ => Safe.blank.bind fun _ => Safe.blank.bind
      fun _ => htypes

/-- A module whose tokens lead to names is refused only for a body without control-flow graph. -/
theorem ungraphed_of_ofModule (h : Resolved m) {options : ListingOptions} {e : ListingError}
    (heq : ofModule m options = .error e) : Ungraphed m e := by
  unfold ofModule at heq
  cases hwrite : writeModule m options {} with
  | error e' =>
    rw [StateT.run, hwrite] at heq
    cases heq
    exact safe_writeModule h options {} _ hwrite
  | ok result =>
    rw [StateT.run, hwrite] at heq
    obtain ⟨_, sink⟩ := result
    dsimp only [bind, Except.bind] at heq
    split at heq <;> cases heq

/-- **A module whose tokens lead to names is never refused for an unknown token.** -/
theorem ofModule_ne_unknownToken (h : Resolved m) (options : ListingOptions) (site : String)
    (token : Token) : ofModule m options ≠ .error (.unknownToken site token) :=
  fun heq => nomatch ungraphed_of_ofModule h heq

end

end Listing

end CilScope
