import CilScope.Proofs.Lowering.Twin.Basic

/-!
# Expressions in two runs

The code of an expression and that of the expression in another spelling go together: names mean the same
places, methods and types, the same overloads are chosen, and the same instructions are appended
(`twin_compile`).
-/

namespace CilScope.Lowering

open Source (Expr)

variable {v : Variation} {b : Bool} {ρ : Pairing} {α : Type}

/-! ## Names and places -/

/-- The codes of an expression in the two runs. -/
structure ExprCode.Twin (v : Variation) (code code' : ExprCode) : Prop where
  source : code'.source = code.source.respell v.spell
  value : ∀ {b ρ}, Same v b ρ code.value code'.value
  jump : ∀ {b ρ l l'} (w : Bool), ρ l l' → Same v b ρ (code.jump l w) (code'.jump l' w)

theorem ExprCode.Twin.pos_eq {code code' : ExprCode} (h : code.Twin v code') : code'.pos = code.pos := by
  rw [ExprCode.pos, ExprCode.pos, h.source, Expr.pos_respell]

/-- The objects a member is used on in the two runs. -/
inductive Receiver.Twin (v : Variation) : Receiver → Receiver → Prop
  | none : Twin v .none .none
  | this : Twin v .this .this
  | expr {code code' : ExprCode} (h : code.Twin v code') : Twin v (.expr code) (.expr code')

/-- The places of the two runs. -/
inductive Place.Twin (v : Variation) : Place → Place → Prop
  | local_ (slot : UInt16) (type : StaticType) : Twin v (.local_ slot type) (.local_ slot type)
  | arg (index : UInt16) (type : StaticType) : Twin v (.arg index type) (.arg index type)
  | field (f : Field) {r r' : Receiver} (h : r.Twin v r') :
      Twin v (.field f r) (.field (f.respell v.spell) r')

/-- The meanings of a name in the two runs. -/
inductive Meaning.Twin (v : Variation) : Meaning → Meaning → Prop
  | place {p p' : Place} (h : p.Twin v p') : Twin v (.place p) (.place p')
  | methods (owner : Nat) : Twin v (.methods owner) (.methods owner)
  | type (t : StaticType) : Twin v (.type t) (.type t)
  | nothing : Twin v .nothing .nothing

theorem Context.Twin.findParam?_eq {c c' : Context} (h : c.Twin v b ρ c') (name : String) :
    c'.findParam? (v.spell name) = c.findParam? name := by
  have hindex : c'.method.paramNames.findIdx? (c'.program.sameName · (v.spell name)) =
      c.method.paramNames.findIdx? (c.program.sameName · name) := by
    rw [h.method, Method.respell, List.findIdx?_map]
    exact congrArg (List.findIdx? · _) (funext fun param =>
      h.program.sameName_congr (v.spelling.idem param) (v.spelling.idem name))
  rw [Context.findParam?, Context.findParam?, hindex, h.method]
  rfl

theorem Context.Twin.resolve {c c' : Context} (h : c.Twin v b ρ c') (scopes : List (List Local))
    (name : String) : (c.resolve scopes name).Twin v
      (c'.resolve (scopes.map (·.map (·.respell v.spell))) (v.spell name)) := by
  have hname := v.spelling.idem name
  unfold Context.resolve
  rw [h.program.language, findLocal?_respell h.program.spelling, h.findParam?_eq, h.owner,
    h.program.findField?_eq hname, h.program.methodOwner?_eq hname, h.program.lookup?_eq hname]
  cases findLocal? c.program.language scopes name with
  | some l => exact .place (.local_ l.slot l.type)
  | none =>
    cases hparam : c.findParam? name with
    | some place =>
      unfold Context.findParam? at hparam
      obtain ⟨i, -, hparam⟩ := Option.bind_eq_some_iff.1 hparam
      obtain ⟨t, -, hparam⟩ := Option.bind_eq_some_iff.1 hparam
      cases hparam
      exact .place (.arg _ t)
    | none =>
      cases c.program.findField? c.owner name with
      | some found =>
        obtain ⟨i, f⟩ := found
        refine .place (.field f ?_)
        show Receiver.Twin v (if f.isStatic then _ else _) (if f.isStatic then _ else _)
        split
        · exact .none
        · exact .this
      | none =>
        cases c.program.methodOwner? c.owner name with
        | some owner => exact .methods owner
        | none =>
          cases c.program.lookup? c.owner name with
          | some t => exact .type t
          | none => exact .nothing

theorem paired_resolveName (name : String) :
    Paired v b ρ (resolveName name) (resolveName (v.spell name)) fun _ => Meaning.Twin v :=
  Paired.look fun _ _ _ s s' _ hc hs => by
    rw [hs.scopes]
    exact hc.resolve s.scopes name

theorem keywordType?_respell (f : String → String) (t : Source.TypeName) :
    Context.keywordType? (t.respell f) = Context.keywordType? t := by
  cases t <;> rfl

theorem rootName?_respell (f : String → String) : ∀ e : Expr,
    Context.rootName? (e.respell f) = (Context.rootName? e).map f
  | .member _ target _ => rootName?_respell f target
  | .name .. | .int .. | .str .. | .bool .. | .null _ | .this _ | .typeKeyword .. | .call .. | .new ..
  | .index .. | .unary .. | .binary .. => rfl

theorem dottedName?_respell {language : Language} {f : String → String} (h : Respelling language f) :
    ∀ e : Expr, (e.respell f).dottedName? = e.dottedName?.map f
  | .member _ target n => by
    have hdot : f "." = "." := h.fixed "." (List.mem_cons_self ..)
    rw [Expr.respell, Expr.dottedName?, dottedName?_respell h target, Expr.dottedName?, Option.map_map,
      Option.map_map]
    refine congrArg (Option.map · _) (funext fun text => ?_)
    rw [Function.comp, Function.comp, h.append, h.append, hdot]
  | .name .. | .int .. | .str .. | .bool .. | .null _ | .this _ | .typeKeyword .. | .call .. | .new ..
  | .index .. | .unary .. | .binary .. => rfl

theorem Context.Twin.asType?_eq {c c' : Context} (h : c.Twin v b ρ c') (scopes : List (List Local))
    (e : Expr) : c'.asType? (scopes.map (·.map (·.respell v.spell))) (e.respell v.spell) =
      c.asType? scopes e := by
  cases e with
  | typeKeyword pos t => exact keywordType?_respell v.spell t
  | name pos n =>
    have hmeaning := h.resolve scopes n
    rw [Expr.respell, Context.asType?, Context.asType?]
    generalize c.resolve scopes n = m at hmeaning
    generalize c'.resolve _ (v.spell n) = m' at hmeaning
    cases hmeaning <;> rfl
  | member pos target n =>
    have hdotted : ((Expr.member pos target n).respell v.spell).dottedName?.bind
        (c'.program.lookup? c'.owner) =
          (Expr.member pos target n).dottedName?.bind (c.program.lookup? c.owner) := by
      rw [dottedName?_respell v.spelling, Option.bind_map, h.owner]
      exact congrArg (Option.bind _) (funext fun name =>
        h.program.lookup?_eq (v.spelling.idem name) c.owner)
    rw [Expr.respell] at hdotted ⊢
    rw [Context.asType?, Context.asType?, rootName?_respell, Option.map_map]
    cases Context.rootName? target with
    | none => exact hdotted
    | some root =>
      have hmeaning := h.resolve scopes root
      simp only [Option.map_some, Function.comp]
      generalize c.resolve scopes root = m at hmeaning
      generalize c'.resolve _ (v.spell root) = m' at hmeaning
      cases hmeaning with
      | place => rfl
      | methods | type | nothing => exact hdotted
  | int | str | bool | null | this | call | new | index | unary | binary => rfl

theorem same_asType? (e : Expr) : Same v b ρ (asType? e) (asType? (e.respell v.spell)) :=
  Paired.look fun _ _ _ s s' _ hc hs => by
    rw [hs.scopes]
    exact (hc.asType?_eq s.scopes e).symm

theorem same_isUnknownName (e : Expr) :
    Same v b ρ (isUnknownName e) (isUnknownName (e.respell v.spell)) := by
  cases e with
  | name pos n =>
    refine (paired_resolveName n).bind fun _ m m' _ hm => ?_
    cases hm <;> exact .done
  | int | str | bool | null | this | typeKeyword | member | call | new | index | unary | binary =>
    exact .done

namespace Place

variable {p p' : Place}

theorem Twin.type_eq (h : p.Twin v p') : p'.type = p.type := by
  cases h <;> rfl

theorem Twin.hasReceiver_eq (h : p.Twin v p') : p'.hasReceiver = p.hasReceiver := by
  cases h with
  | local_ | arg => rfl
  | field f h => cases h <;> rfl

theorem Twin.checkInstance (h : p.Twin v p') (name : String) (pos : Source.Position) :
    Same v b ρ (p.checkInstance name pos) (p'.checkInstance (v.spell name) pos) := by
  have hthis (f f' : Field) : Same v b ρ ((Place.field f .this).checkInstance name pos)
      ((Place.field f' .this).checkInstance (v.spell name) pos) := by
    refine Paired.read_bind fun ρ' c c' _ hc => ?_
    refine .ite (by rw [hc.method]; rfl) (fun _ => ?_) fun _ => .done
    exact same_report_respell pos (.instanceRequired name)
  cases h with
  | local_ | arg => exact .done
  | field f h =>
    cases h with
    | this => exact hthis _ _
    | none | expr => exact .done

theorem Twin.loadReceiver (h : p.Twin v p') : Same v b ρ p.loadReceiver p'.loadReceiver := by
  cases h with
  | local_ | arg => exact .done
  | field f h =>
    cases h with
    | none => exact .done
    | this => exact same_loadArg 0
    | expr h => exact h.value.discard

theorem Twin.load (h : p.Twin v p') : Same v b ρ p.load p'.load := by
  cases h with
  | local_ slot => exact (same_markRead slot).seq (same_loadLocal slot)
  | arg index => exact same_loadArg index
  | field f => exact same_emitToken _ _

theorem Twin.store (h : p.Twin v p') : Same v b ρ p.store p'.store := by
  cases h with
  | local_ slot => exact same_storeLocal slot
  | arg index => exact same_storeArg index
  | field f => exact same_emitToken _ _

theorem Twin.noteAssigned (h : p.Twin v p') (literal : Bool) :
    Same v b ρ (p.noteAssigned literal) (p'.noteAssigned literal) := by
  cases h with
  | local_ slot => exact same_markAssigned slot literal
  | arg | field => exact .done

end Place

/-! ## Conversions and calls -/

theorem same_box (t : StaticType) : Same v b ρ (box t) (box t) := by
  have hbox (k : Library.Class) : Same v b ρ (do
      let token ← classToken k
      edit (·.emitToken .box token)) (do
      let token ← classToken k
      edit (·.emitToken .box token)) :=
    (same_classToken k).same_bind fun _ token _ => same_emitToken .box token
  exact .ite Iff.rfl (fun _ => hbox .int32) fun _ => .ite Iff.rfl (fun _ => hbox .boolean) fun _ => .done

theorem same_coerce (source target : StaticType) (pos : Source.Position) :
    Same v b ρ (coerce source target pos) (coerce source target pos) := by
  refine .ite Iff.rfl (fun _ => ?_) fun _ => .ite Iff.rfl (fun _ => same_box source) fun _ => .done
  refine (paired_typeName source).bind fun _ _ _ _ hsource => ?_
  refine (paired_typeName target).bind fun _ _ _ _ htarget => same_report pos ?_
  rw [Cause.respell, Cause.respell, hsource, htarget]

theorem same_noMember (t : StaticType) (name : String) (pos : Source.Position) :
    Same v b ρ (noMember t name pos) (noMember t (v.spell name) pos) := by
  unfold noMember
  split
  · exact .done
  · refine (paired_typeName t).bind fun _ _ _ _ ht => (same_report pos ?_).seq .done
    rw [Cause.respell, Cause.respell, ht, v.spelling.idem]

theorem bestOverload?_map {α β : Type} {r : α → β} {params : α → List StaticType}
    {params' : β → List StaticType} (hparams : ∀ c, params' (r c) = params c) (candidates : List α)
    (args : List StaticType) : bestOverload? params' (candidates.map r) args =
      (bestOverload? params candidates args).map r := by
  have hfind (q : List StaticType → Bool) :
      (candidates.map r).find? (fun c => q (params' c)) =
        (candidates.find? fun c => q (params c)).map r := by
    rw [List.find?_map]
    refine congrArg (fun q => (candidates.find? q).map r) (funext fun c => ?_)
    rw [Function.comp, hparams]
  rw [bestOverload?, bestOverload?, hfind fun ps => (List.zipWith matchesExactly ps args).all id,
    hfind fun ps => (List.zipWith StaticType.convertsTo args ps).all id, Option.map_or]

/-- The arguments of a call in the two runs. -/
abbrev Twins (v : Variation) : List ExprCode → List ExprCode → Prop := List.Forall₂ (ExprCode.Twin v)

section

variable {args args' : List ExprCode}

theorem Twins.getElem? (h : Twins v args args') (i : Nat) :
    args[i]? = none ∧ args'[i]? = none ∨
      ∃ a a', args[i]? = some a ∧ args'[i]? = some a' ∧ a.Twin v a' := by
  induction h generalizing i with
  | nil => exact .inl ⟨rfl, rfl⟩
  | @cons a a' _ _ ha _ ih =>
    cases i with
    | zero => exact .inr ⟨a, a', rfl, rfl, ha⟩
    | succ i => exact ih i

/-- Both runs choose the same overload. -/
theorem paired_choose {α β : Type} (r : α → β) (params : α → List StaticType)
    {params' : β → List StaticType} (hparams : ∀ c, params' (r c) = params c) (candidates : List α)
    {name name' : String} (hname : v.spell name' = v.spell name) (hargs : Twins v args args')
    (pos : Source.Position) :
    Paired v b ρ (choose params candidates name args pos)
      (choose params' (candidates.map r) name' args' pos) fun _ c c' => c' = c.map r := by
  unfold choose
  refine (Paired.mapM hargs fun a a' ha => paired_probe ha.value).same_bind fun ρ' types _ => ?_
  refine .ite Iff.rfl (fun _ => ?_) fun _ => ?_
  · refine (Paired.forIn hargs fun a a' ha => ?_).seq (.pure fun _ _ => rfl)
    exact ha.value.discard.seq .done
  · have hfilter : (candidates.map r).filter (fun c => (params' c).length = args'.length) =
        (candidates.filter fun c => (params c).length = args.length).map r := by
      rw [List.filter_map, hargs.length_eq]
      refine congrArg (fun q => (candidates.filter q).map r) (funext fun c => ?_)
      rw [Function.comp, hparams]
    dsimp only
    rw [hfilter, bestOverload?_map hparams]
    generalize candidates.filter (fun c => (params c).length = args.length) = fitting
    cases bestOverload? params fitting types with
    | some c => exact .pure fun _ _ => rfl
    | none =>
      cases fitting with
      | nil =>
        refine (same_report pos ?_).seq (.pure fun _ _ => rfl)
        rw [Cause.respell, Cause.respell, hname, hargs.length_eq]
      | cons c rest =>
        simp only [List.map_cons, hparams, Option.map_none]
        split
        · rename_i i _
          rcases Twins.getElem? hargs i with ⟨ha, ha'⟩ | ⟨a, a', ha, ha', htwin⟩
          · rw [ha, ha']
            cases (types.zip (params c))[i]? <;> exact .pure fun _ _ => rfl
          · rw [ha, ha']
            cases (types.zip (params c))[i]? with
            | none => exact .pure fun _ _ => rfl
            | some pair =>
              refine (paired_typeName pair.1).bind fun _ _ _ _ hsource => ?_
              refine (paired_typeName pair.2).bind fun _ _ _ _ htarget => ?_
              rw [htwin.pos_eq]
              refine (same_report a.pos ?_).seq (.pure fun _ _ => rfl)
              rw [Cause.respell, Cause.respell, hsource, htarget]
        · exact .pure fun _ _ => rfl

theorem same_arguments (params : List StaticType) (hargs : Twins v args args') :
    Same v b ρ (arguments params args) (arguments params args') := by
  have hzip : List.Forall₂ (fun x x' => ExprCode.Twin v x.1 x'.1 ∧ x'.2 = x.2) (args.zip params)
      (args'.zip params) := by
    induction hargs generalizing params with
    | nil => exact .nil
    | cons ha _ ih =>
      cases params with
      | nil => exact .nil
      | cons t params => exact .cons ⟨ha, rfl⟩ (ih params)
  refine Paired.forM hzip fun x x' hx => ?_
  obtain ⟨a, t⟩ := x
  obtain ⟨a', t'⟩ := x'
  obtain ⟨ha, rfl⟩ := hx
  refine ha.value.same_bind fun _ s _ => ?_
  rw [ha.pos_eq]
  exact same_coerce s t' a.pos

theorem same_emitLibraryCall (m : Library.Method) :
    Same v b ρ (emitLibraryCall m) (emitLibraryCall m) := by
  refine (same_methodToken m).same_bind fun _ token _ => ?_
  exact .ite Iff.rfl (fun _ => (same_emitCallToken _ token _ _).seq .done)
    fun _ => (same_emitCallToken _ token _ _).seq .done

theorem same_libraryCall (candidates : List Library.Method) (owner : StaticType) (name : String)
    (hargs : Twins v args args') (pos : Source.Position) :
    Same v b ρ (libraryCall candidates owner name args pos)
      (libraryCall candidates owner (v.spell name) args' pos) := by
  refine .ite Iff.rfl (fun _ => same_noMember owner name pos) fun _ => ?_
  have hchoose : Paired v b ρ _ _ _ :=
    paired_choose id Library.Method.params (fun _ => rfl) candidates
      (v.spelling.idem name) hargs pos
  rw [List.map_id] at hchoose
  refine hchoose.bind fun _ m m' _ hm => ?_
  rw [Option.map_id_fun, id] at hm
  subst hm
  cases m' with
  | none => exact .done
  | some m => exact (same_arguments m.params hargs).seq (same_emitLibraryCall m)

theorem same_emitCall (m : Method) (virtual_ : Bool) :
    Same v b ρ (emitCall m virtual_) (emitCall (m.respell v.spell) virtual_) :=
  (same_emitCallToken _ _ _ _).seq .done

theorem same_programCall (owner : Nat) (name : String) {receiver receiver' : Receiver}
    (hreceiver : receiver.Twin v receiver') (hargs : Twins v args args') (pos : Source.Position) :
    Same v b ρ (programCall owner name receiver args pos)
      (programCall owner (v.spell name) receiver' args' pos) := by
  refine Paired.read_bind fun ρ c c' _ hc => ?_
  have hname := v.spelling.idem name
  rw [hc.program.methodsOf_eq hname]
  refine .ite (by rw [List.isEmpty_map]) (fun _ => same_noMember (.class_ owner) name pos) fun _ => ?_
  refine (paired_choose (Method.respell v.spell) Method.params (fun _ => rfl)
    (c.program.methodsOf owner name) hname hargs pos).bind fun ρ m m' _ hm => ?_
  subst hm
  cases m with
  | none => exact .done
  | some m =>
    have hcall {ρ : Pairing} (virtual_ : Bool) : Same v b ρ (do
        arguments m.params args
        emitCall m virtual_) (do
        arguments m.params args'
        emitCall (m.respell v.spell) virtual_) :=
      (same_arguments m.params hargs).seq (same_emitCall m virtual_)
    rw [Option.map_some]
    dsimp only
    rw [show (m.respell v.spell).isStatic = m.isStatic from rfl]
    cases m.isStatic with
    | true =>
      cases hreceiver with
      | none | this => exact hcall false
      | expr hcode =>
        refine same_language.same_bind fun _ language _ => .ite Iff.rfl (fun _ => ?_) fun _ => hcall false
        rw [hcode.pos_eq]
        exact same_refuse_respell _ (.instanceRequired name)
    | false =>
      have hown : Same v b ρ (do
          if (← read).method.isStatic then refuse pos (.instanceRequired name)
          else
            edit (·.loadArg 0)
            arguments m.params args
            emitCall m false) (do
          if (← read).method.isStatic then refuse pos (.instanceRequired (v.spell name))
          else
            edit (·.loadArg 0)
            arguments m.params args'
            emitCall (m.respell v.spell) false) := by
        refine Paired.read_bind fun _ c c' _ hc => .ite (by rw [hc.method]; rfl) (fun _ => ?_) fun _ => ?_
        · exact same_refuse_respell pos (.instanceRequired name)
        · exact (same_loadArg 0).seq (hcall false)
      cases hreceiver with
      | none | this => exact hown
      | @expr code code' hcode =>
        refine hcode.value.discard.seq ?_
        rw [hcode.source]
        cases code.source <;> exact hcall _

theorem same_newLibraryObject (class_ : Library.Class) (type : StaticType)
    (hargs : Twins v args args') (pos : Source.Position) :
    Same v b ρ (newLibraryObject class_ type args pos) (newLibraryObject class_ type args' pos) := by
  refine same_language.same_bind fun ρ language _ => ?_
  have hchoose : Paired v b ρ _ _ _ :=
    paired_choose id Library.Method.params (fun _ => rfl)
      (Library.Method.overloads language class_ .ctor ".ctor")
      (rfl : v.spell class_.name = v.spell class_.name) hargs pos
  rw [List.map_id] at hchoose
  refine hchoose.bind fun _ m m' _ hm => ?_
  rw [Option.map_id_fun, id] at hm
  subst hm
  cases m' with
  | none => exact .done
  | some m =>
    refine (same_arguments m.params hargs).seq ((same_methodToken m).same_bind fun _ token _ => ?_)
    exact (same_emitCallToken _ token _ _).seq .done

theorem same_newObject (type : Source.TypeUse) (hargs : Twins v args args') (pos : Source.Position) :
    Same v b ρ (newObject type args pos) (newObject (type.respell v.spell) args' pos) := by
  refine Paired.read_bind fun ρ c c' _ hc => (same_resolveType type).same_bind fun ρ t _ => ?_
  have hother (t : StaticType) : Same v b ρ
      (do refuse pos (.staticClassInstance (← typeName t)))
      (do refuse pos (.staticClassInstance (← typeName t))) := by
    refine (paired_typeName t).bind fun _ _ _ _ ht => same_refuse pos ?_
    rw [Cause.respell, Cause.respell, ht]
  cases t with
  | unknown => exact .done
  | object => exact same_newLibraryObject .object .object hargs pos
  | lib k =>
    cases k with
    | exception => exact same_newLibraryObject .exception (.lib .exception) hargs pos
    | object | string | int32 | boolean | console | math | compilationRelaxations
    | runtimeCompatibility | standardModule => exact hother _
  | void | bool | int | string | null | array => exact hother _
  | class_ index =>
    have hstatic : (c'.program.types[index]?).map (·.isStatic) =
        (c.program.types[index]?).map (·.isStatic) :=
      hc.program.map_getElem? (fun t t' ht => by rw [TypeHead.isStatic, TypeHead.isStatic, ht.kind]) index
    dsimp only
    refine .ite (by rw [hstatic]) (fun _ => hother _) fun _ => ?_
    rw [hc.program.ctorOf?_eq]
    cases c.program.ctorOf? index with
    | none => exact .done
    | some ctor =>
      have hempty : args'.isEmpty = args.isEmpty := by cases hargs <;> rfl
      refine .ite (by rw [hempty]) (fun _ => ?_) fun _ => same_refuse pos ?_
      · exact (same_emitCallToken _ _ _ _).seq .done
      · rw [Cause.respell, Cause.respell, hargs.length_eq, hc.program.name_getD]

end

/-! ## Operators -/

section

variable {lhs lhs' rhs rhs' : ExprCode}

theorem same_badOperands (op : Source.BinaryOp) (lt rt : StaticType) (pos : Source.Position) :
    Same v b ρ (badOperands op lt rt pos) (badOperands op lt rt pos) := by
  refine same_language.same_bind fun _ language _ => ?_
  refine (paired_typeName lt).bind fun _ _ _ _ hlt => (paired_typeName rt).bind fun _ _ _ _ hrt => ?_
  exact same_refuse pos (by rw [Cause.respell, Cause.respell, hlt, hrt])

theorem same_emits (ops : List Opcode) : Same v b ρ (ops.forM emit) (ops.forM emit) :=
  Paired.forM (List.forall₂_same.2 fun _ _ => rfl) fun op _ hop => hop ▸ same_emit op

theorem same_unary (op : Source.UnaryOp) (hr : rhs.Twin v rhs') (pos : Source.Position) :
    Same v b ρ (unary op rhs pos) (unary op rhs' pos) := by
  refine hr.value.same_bind fun _ t _ => .ite Iff.rfl (fun _ => .done) fun _ => ?_
  refine same_language.same_bind fun ρ language _ => ?_
  cases unaryCode? language op t with
  | some ops => exact (same_emits ops).seq .done
  | none =>
    refine same_language.same_bind fun _ language _ => (paired_typeName t).bind fun _ _ _ _ ht => ?_
    exact same_refuse pos (by rw [Cause.respell, Cause.respell, ht])

theorem same_concat (op : Source.BinaryOp) (lt : StaticType) (hr : rhs.Twin v rhs')
    (pos : Source.Position) : Same v b ρ (concat op lt rhs pos) (concat op lt rhs' pos) := by
  refine (paired_probe hr.value).same_bind fun _ rt _ => ?_
  refine .ite Iff.rfl (fun _ => hr.value.discard.seq .done) fun _ => ?_
  refine .ite Iff.rfl (fun _ => hr.value.discard.seq (same_badOperands op lt rt pos)) fun _ => ?_
  refine .ite Iff.rfl (fun _ => hr.value.discard.seq (same_emitLibraryCall _)) fun _ => ?_
  refine (same_box lt).seq (hr.value.same_bind fun _ t _ => ?_)
  exact (same_box t).seq (same_emitLibraryCall _)

theorem same_concatenates (op : Source.BinaryOp) (lt : StaticType) (hr : rhs.Twin v rhs') :
    Same v b ρ (concatenates op lt rhs) (concatenates op lt rhs') := by
  unfold concatenates
  split
  · exact .done
  · refine .ite Iff.rfl (fun _ => .done) fun _ => .ite Iff.rfl (fun _ => .done) fun _ => ?_
    exact (paired_probe hr.value).same_bind fun _ _ _ => .done
  · exact .done

theorem same_applyTo (op : Source.BinaryOp) (lt : StaticType) (hr : rhs.Twin v rhs')
    (pos : Source.Position) : Same v b ρ (applyTo op lt rhs pos) (applyTo op lt rhs' pos) := by
  refine (same_concatenates op lt hr).same_bind fun _ isConcat _ => ?_
  refine .ite Iff.rfl (fun _ => same_concat op lt hr pos) fun _ => hr.value.same_bind fun _ rt _ => ?_
  refine .ite Iff.rfl (fun _ => .done) fun _ => ?_
  cases operatorCode? op lt rt with
  | none => exact same_badOperands op lt rt pos
  | some code =>
    cases code with
    | opcodes ops result => exact (same_emits ops).seq .done
    | call m => exact same_emitLibraryCall m

/-! ### Jumps -/

variable {l l' : Label}

theorem same_branchOnTruth (w : Bool) (hl : ρ l l') :
    Same v b ρ (branchOnTruth w l) (branchOnTruth w l') :=
  same_branch _ hl

theorem same_jumpOnValue {value value' : Gen StaticType} (hvalue : Same v b ρ value value')
    {pos pos' : Source.Position} (hpos : pos' = pos) (hl : ρ l l') (w : Bool) :
    Same v b ρ (jumpOnValue value pos l w) (jumpOnValue value' pos' l' w) := by
  subst hpos
  exact hvalue.same_bind fun _ t hρ =>
    (same_coerce t .bool pos').seq (same_branchOnTruth w (hρ _ _ hl))

theorem same_jumpOnComparison (op : Source.BinaryOp) (hlhs : lhs.Twin v lhs') (hr : rhs.Twin v rhs')
    (pos : Source.Position) (hl : ρ l l') (w : Bool) :
    Same v b ρ (jumpOnComparison op lhs rhs pos l w) (jumpOnComparison op lhs' rhs' pos l' w) := by
  refine hlhs.value.same_bind fun _ lt hρ => (paired_probe hr.value).same_bind fun _ rt hρ' => ?_
  have hl := hρ' _ _ (hρ _ _ hl)
  refine .ite Iff.rfl (fun _ => hr.value.discard.seq (same_branch _ hl)) fun _ => ?_
  refine (same_applyTo op lt hr pos).same_bind fun _ t hρ => ?_
  exact (same_coerce t .bool pos).seq (same_branchOnTruth w (hρ _ _ hl))

theorem same_jumpOnBoth (isOr : Bool) (hlhs : lhs.Twin v lhs') (hr : rhs.Twin v rhs') (hl : ρ l l')
    (w : Bool) : Same v b ρ (jumpOnBoth isOr lhs rhs l w) (jumpOnBoth isOr lhs' rhs' l' w) := by
  refine .ite Iff.rfl (fun _ => (hlhs.jump w hl).seq (hr.jump w hl)) fun _ => ?_
  refine paired_newLabel.bind fun _ skip skip' hρ hskip => ?_
  exact (hlhs.jump (!w) hskip).seq ((hr.jump w (hρ _ _ hl)).seq (same_mark hskip))

theorem same_shortCircuit (isOr : Bool) (hlhs : lhs.Twin v lhs') (hr : rhs.Twin v rhs') :
    Same v b ρ (shortCircuit isOr lhs rhs) (shortCircuit isOr lhs' rhs') := by
  refine paired_newLabel.bind fun _ shortcut shortcut' _ hshortcut => ?_
  refine paired_newLabel.bind fun _ stop stop' hρ hstop => ?_
  refine (hlhs.jump isOr (hρ _ _ hshortcut)).seq (hr.value.same_bind fun _ t hρ' => ?_)
  rw [hr.pos_eq]
  refine (same_coerce t .bool rhs.pos).seq ((same_branch .br (hρ' _ _ hstop)).seq ?_)
  refine (same_mark (hρ' _ _ (hρ _ _ hshortcut))).seq ((same_loadInt _).seq ?_)
  exact (same_mark (hρ' _ _ hstop)).seq .done

end

/-! ## Names, members and elements -/

section

variable {args args' : List ExprCode} {target target' index index' : ExprCode}

theorem same_nameValue (name : String) (pos : Source.Position) :
    Same v b ρ (nameValue name pos) (nameValue (v.spell name) pos) := by
  refine (paired_resolveName name).bind fun _ m m' _ hm => ?_
  cases hm with
  | place hp =>
    refine (hp.checkInstance name pos).seq (hp.loadReceiver.seq (hp.load.seq ?_))
    rw [hp.type_eq]
    exact .done
  | methods owner =>
    refine same_language.same_bind fun _ language _ => .ite Iff.rfl (fun _ => ?_) fun _ => ?_
    · exact same_programCall owner name .none .nil pos
    · exact same_refuse_respell pos (.notInvocable name)
  | type | nothing => exact same_refuse_respell pos (.nameNotFound name)

theorem libraryMember?_respell {language : Language} {f : String → String} (h : Respelling language f)
    (class_ : Library.Class) (name : String) :
    libraryMember? language class_ (f name) = libraryMember? language class_ name := by
  have hgetter : f ("get_" ++ f name) = f ("get_" ++ name) := h.append_congr rfl (h.idem name)
  rw [libraryMember?, libraryMember?, h.overloads_congr hgetter, h.overloads_congr (h.idem name)]

theorem same_staticMember (t : StaticType) (name : String) (pos : Source.Position) :
    Same v b ρ (staticMember t name pos) (staticMember t (v.spell name) pos) := by
  refine Paired.read_bind fun ρ c c' _ hc => ?_
  cases t with
  | class_ index =>
    have hname := v.spelling.idem name
    dsimp only
    rw [hc.program.fieldOf?_eq hname]
    cases c.program.fieldOf? index name with
    | some f =>
      refine .ite Iff.rfl (fun _ => (same_emitToken _ _).seq .done) fun _ => ?_
      exact same_refuse_respell pos (.instanceRequired name)
    | none =>
      refine .ite (by rw [hc.program.hasMethod_eq hname, hc.program.language]) (fun _ => ?_) fun _ => ?_
      · exact same_programCall index name .none .nil pos
      · exact same_noMember _ name pos
  | void | bool | int | string | object | null | lib | array | unknown =>
    exact same_noMember _ name pos

theorem same_instanceMember (htarget : target.Twin v target') (t : StaticType) (name : String)
    (pos : Source.Position) :
    Same v b ρ (instanceMember target t name pos) (instanceMember target' t (v.spell name) pos) := by
  refine Paired.read_bind fun ρ c c' _ hc => ?_
  have hname := v.spelling.idem name
  have hlibrary : (libraryMember? c'.program.language · (v.spell name)) =
      (libraryMember? c.program.language · name) := by
    rw [hc.program.language]
    exact funext fun class_ => libraryMember?_respell hc.program.spelling class_ name
  dsimp only
  rw [hlibrary]
  generalize t.class?.bind (libraryMember? c.program.language · name) = found
  cases t with
  | unknown => exact .done
  | array e =>
    refine .ite (by rw [hc.program.sameName_congr hname rfl]) (fun _ => ?_) fun _ => ?_
    · exact (same_emit .ldlen).seq ((same_emit .convI4).seq .done)
    · cases found with
      | some m => exact same_emitLibraryCall m
      | none => exact same_noMember _ name pos
  | class_ index =>
    dsimp only
    rw [hc.program.fieldOf?_eq hname]
    cases c.program.fieldOf? index name with
    | some f =>
      refine .ite Iff.rfl (fun _ => ?_) fun _ => (same_emitToken _ _).seq .done
      exact same_refuse_respell pos (.instanceRequired name)
    | none =>
      refine .ite (by rw [hc.program.hasMethod_eq hname, hc.program.language]) (fun _ => ?_) fun _ => ?_
      · exact same_programCall index name (.expr htarget) .nil pos
      · exact same_noMember _ name pos
  | void | bool | int | string | object | null | lib =>
    cases found with
    | some m => exact same_emitLibraryCall m
    | none => exact same_noMember _ name pos

theorem same_refuseUnknownName (e : Expr) :
    Same v b ρ (refuseUnknownName e) (refuseUnknownName (e.respell v.spell)) := by
  cases e with
  | name pos n => exact same_refuse_respell pos (.nameNotFound n)
  | int | str | bool | null | this | typeKeyword | member | call | new | index | unary | binary =>
    exact .done

theorem same_memberValue (htarget : target.Twin v target') (name : String) (pos : Source.Position) :
    Same v b ρ (memberValue target name pos) (memberValue target' (v.spell name) pos) := by
  unfold memberValue
  rw [htarget.source]
  refine (same_asType? target.source).same_bind fun _ t _ => ?_
  cases t with
  | some t => exact same_staticMember t name pos
  | none =>
    refine (same_isUnknownName target.source).same_bind fun _ isUnknown _ => ?_
    refine .ite Iff.rfl (fun _ => same_refuseUnknownName target.source) fun _ => ?_
    exact htarget.value.same_bind fun _ t _ => same_instanceMember htarget t name pos

theorem same_element (t : StaticType) (hindex : index.Twin v index') (pos : Source.Position) :
    Same v b ρ (element t index pos) (element t index' pos) := by
  have hrefuse (t : StaticType) : Same v b ρ (do refuse pos (.notIndexable (← typeName t)))
      (do refuse pos (.notIndexable (← typeName t))) := by
    refine (paired_typeName t).bind fun _ _ _ _ ht => same_refuse pos ?_
    rw [Cause.respell, Cause.respell, ht]
  cases t with
  | unknown => exact hindex.value.discard.seq .done
  | array e =>
    refine .ite Iff.rfl (fun _ => ?_) fun _ => hrefuse _
    refine hindex.value.same_bind fun _ t _ => ?_
    rw [hindex.pos_eq]
    exact (same_coerce t .int index.pos).seq ((same_emit .ldelemRef).seq .done)
  | void | bool | int | string | object | null | lib | class_ => exact hrefuse _

/-! ### Calls -/

theorem same_nameCall (name : String) (namePos : Source.Position) (hargs : Twins v args args')
    (pos : Source.Position) :
    Same v b ρ (nameCall name namePos args pos) (nameCall (v.spell name) namePos args' pos) := by
  refine (paired_resolveName name).bind fun _ m m' _ hm => ?_
  cases hm with
  | methods owner => exact same_programCall owner name .none hargs pos
  | place hp =>
    refine same_language.same_bind fun _ language _ => ?_
    have hrefuse {ρ : Pairing} : Same v b ρ (refuse namePos (.notInvocable name))
        (refuse namePos (.notInvocable (v.spell name))) :=
      same_refuse_respell namePos (.notInvocable name)
    cases language with
    | csharp => exact hrefuse
    | visualBasic =>
      cases hargs with
      | nil => exact hrefuse
      | cons hindex hrest =>
        cases hrest with
        | cons => exact hrefuse
        | nil =>
          exact (same_nameValue name namePos).same_bind fun _ t _ => same_element t hindex pos
  | type | nothing => exact same_refuse_respell namePos (.nameNotFound name)

theorem same_memberCall (htarget : target.Twin v target') (name : String)
    (hargs : Twins v args args') (pos : Source.Position) :
    Same v b ρ (memberCall target name args pos) (memberCall target' (v.spell name) args' pos) := by
  have hname := v.spelling.idem name
  refine paired_language.bind fun ρ language language' _ ⟨hlanguage, hspelling⟩ => ?_
  subst hlanguage
  have hlibrary {ρ : Pairing} (class_ : Library.Class) (kind : Library.CallKind) (t : StaticType) :
      Same v b ρ (libraryCall (Library.Method.overloads language' class_ kind name) t name args pos)
        (libraryCall (Library.Method.overloads language' class_ kind (v.spell name)) t (v.spell name)
          args' pos) := by
    rw [hspelling.overloads_congr hname]
    exact same_libraryCall _ t name hargs pos
  rw [htarget.source]
  refine (same_asType? target.source).same_bind fun ρ t _ => ?_
  cases t with
  | some t =>
    cases t with
    | class_ index => exact same_programCall index name .none hargs pos
    | string | object | int | bool | lib => exact hlibrary _ .static _
    | void | null | array | unknown => exact same_noMember _ name pos
  | none =>
    refine (same_isUnknownName target.source).same_bind fun ρ isUnknown _ => ?_
    refine .ite Iff.rfl (fun _ => same_refuseUnknownName target.source) fun _ => ?_
    refine (paired_probe htarget.value).same_bind fun ρ t _ => ?_
    cases t with
    | class_ index => exact same_programCall index name (.expr htarget) hargs pos
    | unknown => exact htarget.value
    | string | object | int | bool | lib => exact htarget.value.discard.seq (hlibrary _ .instance_ _)
    | void | null | array => exact same_noMember _ name pos

theorem same_valueCall (htarget : target.Twin v target') (hargs : Twins v args args')
    (pos : Source.Position) : Same v b ρ (valueCall target args pos) (valueCall target' args' pos) := by
  refine same_language.same_bind fun _ language _ => ?_
  have hrefuse {ρ : Pairing} : Same v b ρ (refuse target.pos (.notInvocable ""))
      (refuse target'.pos (.notInvocable "")) := by
    rw [htarget.pos_eq]
    exact same_refuse _ rfl
  cases language with
  | csharp => exact hrefuse
  | visualBasic =>
    cases hargs with
    | nil => exact hrefuse
    | cons hindex hrest =>
      cases hrest with
      | cons => exact hrefuse
      | nil => exact htarget.value.same_bind fun _ t _ => same_element t hindex pos

end

/-! ## Compilation -/

theorem twin_plain {source : Expr} {value value' : Gen StaticType}
    (h : ∀ {b ρ}, Same v b ρ value value') :
    (plain source value).Twin v (plain (source.respell v.spell) value') where
  source := rfl
  value := h
  jump := fun w hl => same_jumpOnValue h (Expr.pos_respell v.spell source) hl w

theorem twin_truthCode (pos : Source.Position) (value : Bool) :
    (truthCode pos value).Twin v (truthCode pos value) := by
  have hvalue {b : Bool} {ρ : Pairing} : Same v b ρ (truthCode pos value).value (truthCode pos value).value :=
    (same_loadInt _).seq .done
  refine ⟨rfl, hvalue, fun w hl => Paired.read_bind fun ρ c c' hρ hc => ?_⟩
  refine .ite (by rw [hc.options]; rfl) (fun _ => ?_) fun _ => ?_
  · exact .ite Iff.rfl (fun _ => same_branch .br (hρ _ _ hl)) fun _ => .done
  · exact same_jumpOnValue hvalue rfl (hρ _ _ hl) w

theorem same_thisValue (pos : Source.Position) : Same v b ρ (thisValue pos) (thisValue pos) := by
  refine Paired.read_bind fun ρ c c' _ hc => ?_
  refine .ite (by rw [hc.method]; rfl) (fun _ => same_refuse pos rfl) fun _ => (same_loadArg 0).seq ?_
  rw [hc.owner]
  exact .done

theorem twin_unaryCode (source : Expr) (op : Source.UnaryOp) {operand operand' : ExprCode}
    (h : operand.Twin v operand') :
    (unaryCode source op operand).Twin v (unaryCode (source.respell v.spell) op operand') := by
  have hvalue {b : Bool} {ρ : Pairing} : Same v b ρ (unary op operand source.pos)
      (unary op operand' (source.respell v.spell).pos) := by
    rw [Expr.pos_respell]
    exact same_unary op h source.pos
  have hjump {b : Bool} {ρ : Pairing} {l l' : Label} (w : Bool) (hl : ρ l l') :
      Same v b ρ (jumpOnValue (unary op operand source.pos) source.pos l w)
        (jumpOnValue (unary op operand' (source.respell v.spell).pos) (source.respell v.spell).pos l' w) :=
    same_jumpOnValue hvalue (Expr.pos_respell v.spell source) hl w
  refine ⟨rfl, hvalue, fun w hl => .ite Iff.rfl (fun _ => ?_) fun _ => hjump w hl⟩
  refine (paired_probe h.value).same_bind fun _ t hρ => ?_
  exact .ite Iff.rfl (fun _ => h.jump _ (hρ _ _ hl)) fun _ => hjump w (hρ _ _ hl)

theorem twin_binaryCode (source : Expr) (op : Source.BinaryOp) {lhs lhs' rhs rhs' : ExprCode}
    (hlhs : lhs.Twin v lhs') (hr : rhs.Twin v rhs') :
    (binaryCode source op lhs rhs).Twin v (binaryCode (source.respell v.spell) op lhs' rhs') := by
  have hvalue {b : Bool} {ρ : Pairing} : Same v b ρ (do
      let lt ← lhs.value
      applyTo op lt rhs source.pos) (do
      let lt ← lhs'.value
      applyTo op lt rhs' (source.respell v.spell).pos) := by
    rw [Expr.pos_respell]
    exact hlhs.value.same_bind fun _ lt _ => same_applyTo op lt hr source.pos
  cases op with
  | andAlso =>
    exact ⟨rfl, same_shortCircuit false hlhs hr, fun w hl => same_jumpOnBoth false hlhs hr hl w⟩
  | orElse =>
    exact ⟨rfl, same_shortCircuit true hlhs hr, fun w hl => same_jumpOnBoth true hlhs hr hl w⟩
  | add | sub | mul | div | intDiv | rem | concat | lt | gt | le | ge | eq | ne | and | or =>
    refine ⟨rfl, hvalue, fun w hl => Paired.read_bind fun ρ c c' hρ hc => ?_⟩
    refine .ite (by rw [hc.options]; rfl) (fun _ => ?_) fun _ => ?_
    · rw [Expr.pos_respell]
      exact same_jumpOnComparison _ hlhs hr source.pos (hρ _ _ hl) w
    · exact same_jumpOnValue hvalue (Expr.pos_respell v.spell source) (hρ _ _ hl) w

mutual

/-- **The code of an expression goes together with that of the expression in another spelling.** -/
theorem twin_compile (v : Variation) : ∀ e : Expr, (compile e).Twin v (compile (e.respell v.spell))
  | .int pos n => by
    rw [Expr.respell, compile]
    exact twin_plain ((same_loadInt n).seq .done)
  | .str pos text => by
    rw [Expr.respell, compile]
    exact twin_plain ((same_stringToken text).same_bind fun _ token _ => (same_emitToken _ token).seq .done)
  | .bool pos value => by
    rw [Expr.respell, compile]
    exact twin_truthCode pos value
  | .null pos => by
    rw [Expr.respell, compile]
    exact twin_plain ((same_emit _).seq .done)
  | .this pos => by
    rw [Expr.respell, compile]
    exact twin_plain (same_thisValue pos)
  | .name pos n => by
    rw [Expr.respell, compile, compile]
    exact twin_plain (same_nameValue n pos)
  | .typeKeyword pos t => by
    rw [Expr.respell, compile, compile, keywordType?_respell]
    refine twin_plain ?_
    cases Context.keywordType? t with
    | some t =>
      refine (paired_typeName t).bind fun _ _ _ _ ht => same_refuse pos ?_
      rw [Cause.respell, Cause.respell, ht]
    | none => exact same_refuse pos rfl
  | .member pos target n => by
    rw [Expr.respell, compile, compile]
    exact twin_plain (same_memberValue (twin_compile v target) n pos)
  | .call pos callee args => by
    have hargs := twins_compileAll v args
    match callee with
    | .name namePos n => exact twin_plain (same_nameCall n namePos hargs pos)
    | .member memberPos target n => exact twin_plain (same_memberCall (twin_compile v target) n hargs pos)
    | .int .. | .str .. | .bool .. | .null .. | .this .. | .typeKeyword .. | .call .. | .new ..
    | .index .. | .unary .. | .binary .. => exact twin_plain (same_valueCall (twin_compile v _) hargs pos)
  | .new pos type args => by
    rw [Expr.respell, compile, compile]
    exact twin_plain (same_newObject type (twins_compileAll v args) pos)
  | .index pos target i => by
    rw [Expr.respell, compile, compile]
    exact twin_plain ((twin_compile v target).value.same_bind fun _ t _ =>
      same_element t (twin_compile v i) pos)
  | .unary pos op operand => by
    rw [Expr.respell, compile, compile]
    exact twin_unaryCode (.unary pos op operand) op (twin_compile v operand)
  | .binary pos op lhs rhs => by
    rw [Expr.respell, compile, compile]
    exact twin_binaryCode (.binary pos op lhs rhs) op (twin_compile v lhs) (twin_compile v rhs)

theorem twins_compileAll (v : Variation) : ∀ es : List Expr,
    Twins v (compileAll es) (compileAll (Expr.respellAll v.spell es))
  | [] => .nil
  | e :: rest => .cons (twin_compile v e) (twins_compileAll v rest)

end

end CilScope.Lowering
