import CilScope.Source.Parse
import Mathlib

/-!
# What parsers do to the cursor

A parser that returns has read some lexemes and has left the end of the file; one that stops has
left it too and has reported an error. `Progress` says so with a bound on the lexemes ahead, which
carries the depths of the recursive parsers, and with what is known of the next lexeme, which says
when reading a lexeme gets ahead. It is closed under the steps that parsers are made of.
-/

namespace CilScope

namespace Cause

/-- Whether a cause is an error in both languages. -/
def Grave (cause : Cause) : Prop := ∀ language, cause.severity language = .error

end Cause

theorem Log.hasErrors_report {log : Log} {pos : Source.Position} {cause : Cause} (h : cause.Grave) :
    (log.report pos cause).hasErrors := by
  rw [Log.hasErrors, Log.report, Array.any_push, Bool.or_eq_true]
  exact .inr (decide_eq_true (h log.language))

namespace Source

/-- The last of some lexemes is the end of the file. -/
inductive EndsFile : List Located → Prop
  | last {t : Located} (h : t.lexeme = .eof) : EndsFile [t]
  | cons (t : Located) {ts : List Located} (h : EndsFile ts) : EndsFile (t :: ts)

namespace EndsFile

theorem length_pos {ts : List Located} (h : EndsFile ts) : 0 < ts.length := by
  cases h <;> exact Nat.succ_pos _

/-- Behind a lexeme that is not the end of the file there is another one. -/
theorem tail {t : Located} {ts : List Located} (h : EndsFile (t :: ts)) (ht : t.lexeme ≠ .eof) :
    EndsFile ts := by
  cases h with
  | last h => exact absurd h ht
  | cons _ h => exact h

end EndsFile

/-- From one cursor to the other some lexemes have been read, and no end of a file among them. -/
def Cursor.Reads (c c' : Cursor) : Prop :=
  ∃ read, c.rest = read ++ c'.rest ∧ ∀ t ∈ read, t.lexeme ≠ .eof

namespace Cursor.Reads

variable {c c' c'' : Cursor}

theorem of_rest_eq (h : c'.rest = c.rest) : c.Reads c' := ⟨[], h.symm, nofun⟩

theorem refl (c : Cursor) : c.Reads c := of_rest_eq rfl

theorem trans (h : c.Reads c') (h' : c'.Reads c'') : c.Reads c'' := by
  obtain ⟨xs, hc, hxs⟩ := h
  obtain ⟨ys, hc', hys⟩ := h'
  refine ⟨xs ++ ys, by rw [hc, hc', List.append_assoc], fun t ht => ?_⟩
  exact (List.mem_append.1 ht).elim (hxs t) (hys t)

theorem length_le (h : c.Reads c') : c'.rest.length ≤ c.rest.length := by
  obtain ⟨xs, hc, -⟩ := h
  rw [hc, List.length_append]
  exact Nat.le_add_left _ _

/-- The end of the file has not been passed. -/
theorem ends (h : c.Reads c') (hc : EndsFile c.rest) : EndsFile c'.rest := by
  obtain ⟨xs, hrest, hxs⟩ := h
  rw [hrest] at hc
  clear hrest
  induction xs with
  | nil => exact hc
  | cons t xs ih =>
    obtain ⟨ht, hxs⟩ := List.forall_mem_cons.1 hxs
    exact ih (hc.tail ht) hxs

end Cursor.Reads

/-- The next lexeme. -/
def Cursor.next (c : Cursor) : Lexeme := (c.rest[0]?.map (·.lexeme)).getD .eof

/-- The position of the next lexeme. -/
def Cursor.start (c : Cursor) : Position := (c.rest.headD ⟨.eof, {}, {}⟩).start

namespace Parser

variable {α β : Type} {N : Lexeme → Prop} {r j k : Nat} {p : Parser α} {f : α → Parser β}

theorem run_bind (p : Parser α) (f : α → Parser β) (c : Cursor) :
    (p >>= f).run.run c = match p.run.run c with
      | (.ok a, c') => (f a).run.run c'
      | (.error e, c') => (.error e, c') := by
  rw [ExceptT.run_bind, StateT.run_bind]
  rcases p.run.run c with ⟨_ | _, c'⟩ <;> rfl

theorem run_bind_of_ok {a : α} {c c' : Cursor} (h : p.run.run c = (.ok a, c')) :
    (p >>= f).run.run c = (f a).run.run c' := by
  rw [run_bind, h]

/-- A first step that was successful. -/
theorem exists_of_run_bind {c c' : Cursor} {b : β} (h : (p >>= f).run.run c = (.ok b, c')) :
    ∃ a c₁, p.run.run c = (.ok a, c₁) ∧ (f a).run.run c₁ = (.ok b, c') := by
  rw [run_bind] at h
  cases hp : p.run.run c with
  | mk r c₁ =>
    rw [hp] at h
    cases r with
    | error e => cases h
    | ok a => exact ⟨a, c₁, rfl, h⟩

theorem run_lexeme (c : Cursor) : (lexemeAt 0).run.run c = (.ok c.next, c) := rfl

/-! ### Parsers that only look -/

/-- A parser that returns and leaves the cursor where it is. -/
def Looks (p : Parser α) : Prop := ∀ c, ∃ a, p.run.run c = (.ok a, c)

namespace Looks

theorem pure (a : α) : Looks (Pure.pure a : Parser α) := fun _ => ⟨a, rfl⟩

theorem bind (hp : Looks p) (hf : ∀ a, Looks (f a)) : Looks (p >>= f) := by
  intro c
  obtain ⟨a, ha⟩ := hp c
  obtain ⟨b, hb⟩ := hf a c
  exact ⟨b, (run_bind_of_ok ha).trans hb⟩

theorem ite {b : Prop} [Decidable b] {q : Parser α} (hp : Looks p) (hq : Looks q) :
    Looks (if b then p else q) := by
  split
  · exact hp
  · exact hq

end Looks

theorem looks_language : Looks language := fun _ => ⟨_, rfl⟩

theorem looks_remaining : Looks remaining := fun _ => ⟨_, rfl⟩

theorem looks_previousStop : Looks previousStop := fun _ => ⟨_, rfl⟩

theorem looks_position : Looks position := fun _ => ⟨_, rfl⟩

theorem looks_lexemeAt (n : Nat) : Looks (lexemeAt n) := fun _ => ⟨_, rfl⟩

theorem looks_atEof : Looks atEof := fun _ => ⟨_, rfl⟩

theorem looks_isPunctAt (n : Nat) (s : String) : Looks (isPunctAt n s) := fun _ => ⟨_, rfl⟩

/-- A question about a lexeme ahead, answered by its kind. -/
theorem Looks.lexemeAt {n : Nat} {f : Lexeme → Parser α} (h : ∀ t, Looks (f t)) :
    Looks (Parser.lexemeAt n >>= f) :=
  (looks_lexemeAt n).bind h

theorem looks_isWordAt (n : Nat) (s : String) : Looks (isWordAt n s) := by
  refine Looks.lexemeAt fun t => ?_
  cases t with
  | word w => exact looks_language.bind fun _ => Looks.pure _
  | _ => exact Looks.pure _

theorem looks_isIdentifierAt (n : Nat) : Looks (isIdentifierAt n) := by
  refine Looks.lexemeAt fun t => ?_
  cases t with
  | word w => exact looks_language.bind fun _ => Looks.pure _
  | _ => exact Looks.pure _

theorem looks_isAnyWordAt (n : Nat) : Looks (isAnyWordAt n) := by
  refine Looks.lexemeAt fun t => ?_
  cases t <;> exact Looks.pure _

theorem looks_describe : Looks describe := by
  refine Looks.lexemeAt fun t => ?_
  cases t <;> exact Looks.pure _

theorem looks_typeKeyword? : Looks typeKeyword? := by
  refine looks_language.bind fun _ => Looks.lexemeAt fun t => ?_
  cases t <;> exact Looks.pure _

/-! ### Progress -/

/-- Nothing is known of a lexeme. -/
def Any : Lexeme → Prop := fun _ => True

/-- A good end of a parser that started at `c`: `k` lexemes or more have been read, or an error has
been reported; the end of the file is still ahead. -/
def Good (c : Cursor) (k : Nat) : Except Abort α × Cursor → Prop
  | (.ok _, c') => c.Reads c' ∧ c'.rest.length + k ≤ c.rest.length
  | (.error e, c') => c.Reads c' ∧ e = .abort ∧ (EndsFile c.rest → c'.log.hasErrors)

theorem Good.mono {c d : Cursor} {x : Except Abort α × Cursor} (h : Good d j x) (hd : c.Reads d)
    (hle : d.rest.length + k ≤ c.rest.length + j) : Good c k x := by
  obtain ⟨_ | a, c'⟩ := x
  · obtain ⟨hc', he, herrors⟩ := h
    exact ⟨hd.trans hc', he, fun hc => herrors (hd.ends hc)⟩
  · obtain ⟨hc', hlength⟩ := h
    exact ⟨hd.trans hc', by omega⟩

/-- A parser comes to a good end in front of a lexeme of which `N` holds and with at most `r`
lexemes ahead. -/
def Progress (N : Lexeme → Prop) (r k : Nat) (p : Parser α) : Prop :=
  ∀ c : Cursor, c.rest.length ≤ r → N c.next → Good c k (p.run.run c)

namespace Progress

/-- Where parsing stops, an error has been reported. -/
theorem eq_abort (h : ∀ {r}, Progress Any r k p) {c : Cursor} {e : Abort}
    (hrun : (p.run.run c).1 = .error e) : e = .abort := by
  have hgood := h c (Nat.le_refl _) trivial
  generalize p.run.run c = x at hgood hrun
  obtain ⟨_ | a, c'⟩ := x <;> cases hrun
  exact hgood.2.1

theorem weaken (h : Progress N r k p) (hj : j ≤ k) : Progress N r j p :=
  fun c hr hN => (h c hr hN).mono (.refl c) (by omega)

theorem pure (a : α) : Progress N r 0 (Pure.pure a : Parser α) :=
  fun c _ _ => ⟨.refl c, Nat.le_refl _⟩

/-- What the first parser reads counts for both. -/
theorem bind (hp : Progress N r j p)
    (hf : j ≤ r → ∀ a, Progress Any (r - j) (k - j) (f a)) : Progress N r k (p >>= f) := by
  intro c hr hN
  have hp := hp c hr hN
  rw [run_bind]
  generalize p.run.run c = x at hp ⊢
  obtain ⟨_ | a, c'⟩ := x
  · exact hp
  · obtain ⟨hc', hle⟩ := hp
    exact (hf (by omega) a c' (by omega) trivial).mono hc' (by omega)

theorem looks (h : Looks p) (hf : ∀ a, Progress N r k (f a)) : Progress N r k (p >>= f) := by
  intro c hr hN
  obtain ⟨a, ha⟩ := h c
  rw [run_bind_of_ok ha]
  exact hf a c hr hN

theorem map {g : α → β} (h : Progress N r k p) : Progress N r k (g <$> p) := by
  rw [map_eq_pure_bind]
  exact h.bind fun _ a => (pure _).weaken (Nat.sub_self k).le

theorem ite {b : Prop} [Decidable b] {q : Parser α} (hp : b → Progress N r k p)
    (hq : ¬b → Progress N r k q) : Progress N r k (if b then p else q) := by
  split
  · exact hp ‹_›
  · exact hq ‹_›

/-- Two ways to the same continuation. -/
theorem ite_bind {b : Prop} [Decidable b] {q : Parser α} (hp : Progress N r j p)
    (hq : Progress N r j q) (hf : j ≤ r → ∀ a, Progress Any (r - j) (k - j) (f a)) :
    Progress N r k (if b then p >>= f else q >>= f) :=
  ite (fun _ => hp.bind hf) fun _ => hq.bind hf

/-- The next lexeme is known where it has been looked at. -/
theorem lexeme {f : Lexeme → Parser β} (hf : ∀ t, N t → Progress (· = t) r k (f t)) :
    Progress N r k (Parser.lexeme >>= f) :=
  fun c hr hN => hf c.next hN c hr rfl

/-- The number of lexemes ahead bounds what can be read. -/
theorem remaining {f : Nat → Parser β} (hf : ∀ n ≤ r, Progress N n k (f n)) :
    Progress N r k (Parser.remaining >>= f) :=
  fun c hr hN => hf c.rest.length hr c (Nat.le_refl _) hN

theorem fail {pos : Position} {cause : Cause} (h : cause.Grave) :
    Progress N r k (Parser.fail pos cause : Parser α) :=
  fun _ _ _ => ⟨.of_rest_eq rfl, rfl, fun _ => Log.hasErrors_report h⟩

/-- What would follow a stop does not run. -/
theorem fail_bind {pos : Position} {cause : Cause} {f : α → Parser β} (h : cause.Grave) :
    Progress N r k (Parser.fail pos cause >>= f) :=
  fun _ _ _ => ⟨.of_rest_eq rfl, rfl, fun _ => Log.hasErrors_report h⟩

theorem report (pos : Position) (cause : Cause) : Progress N r 0 (Parser.report pos cause) :=
  fun _ _ _ => ⟨.of_rest_eq rfl, Nat.le_refl _⟩

/-- Where not even the end of a file is ahead, a list stops. -/
theorem nothing (h : r ≤ 0) : Progress N r k (throw .abort : Parser α) := by
  intro c hr _
  refine ⟨.refl c, rfl, fun hc => ?_⟩
  have := hc.length_pos
  omega

end Progress

/-! ### Reading a lexeme -/

theorem run_advance_cons {t : Located} {rest : List Located} (ht : t.lexeme ≠ .eof)
    (stop : Position) (log : Log) :
    advance.run.run ⟨t :: rest, stop, log⟩ = (.ok t, ⟨rest, t.stop, log⟩) := by
  change (ite (t.lexeme ≠ .eof) _ _ : Parser Located).run.run _ = _
  rw [if_pos ht]
  rfl

theorem run_advance_last {t : Located} {rest : List Located} (ht : t.lexeme = .eof)
    (stop : Position) (log : Log) :
    advance.run.run ⟨t :: rest, stop, log⟩ = (.ok t, ⟨t :: rest, stop, log⟩) := by
  change (ite (t.lexeme ≠ .eof) _ _ : Parser Located).run.run _ = _
  rw [if_neg (not_not_intro ht)]
  rfl

theorem run_advance {c : Cursor} (hnext : c.next ≠ .eof) :
    ∃ t c', advance.run.run c = (.ok t, c') ∧ c.Reads c' ∧ c'.rest.length + 1 = c.rest.length := by
  obtain ⟨rest, stop, log⟩ := c
  cases rest with
  | nil => exact absurd rfl hnext
  | cons t rest =>
    have ht : t.lexeme ≠ .eof := hnext
    refine ⟨t, ⟨rest, t.stop, log⟩, run_advance_cons ht stop log, ⟨[t], rfl, ?_⟩, rfl⟩
    exact List.forall_mem_singleton.2 ht

theorem run_advance_eof {c : Cursor} (hnext : c.next = .eof) :
    ∃ t, advance.run.run c = (.ok t, c) := by
  obtain ⟨rest, stop, log⟩ := c
  cases rest with
  | nil => exact ⟨_, rfl⟩
  | cons t rest => exact ⟨t, run_advance_last hnext stop log⟩

/-- Reading a lexeme that is not the end of the file gets ahead. -/
theorem progress_advance (hN : ∀ t, N t → t ≠ .eof) : Progress N r 1 advance := by
  intro c _ hnext
  obtain ⟨t, c', hrun, hc', hlength⟩ := run_advance (hN _ hnext)
  rw [hrun]
  exact ⟨hc', hlength.le⟩

/-- A lexeme that has been looked at is read. -/
theorem Progress.read {t : Lexeme} {f : Located → Parser β} (ht : t ≠ .eof)
    (hf : 1 ≤ r → ∀ a, Progress Any (r - 1) (k - 1) (f a)) :
    Progress (· = t) r k (advance >>= f) := by
  have h : Progress (· = t) r 1 advance := progress_advance fun _ h => h ▸ ht
  exact h.bind hf

/-- Reading a lexeme never goes back. -/
theorem progress_advance_any : Progress N r 0 advance := by
  intro c hr hN
  by_cases hnext : c.next = .eof
  · obtain ⟨t, ht⟩ := run_advance_eof hnext
    rw [ht]
    exact ⟨.refl c, Nat.le_refl _⟩
  · have h : Progress (· = c.next) r 1 advance := progress_advance fun t ht => ht ▸ hnext
    exact h.weaken (Nat.zero_le 1) c hr rfl

/-- A parser that reads a lexeme and says so, or leaves the cursor where it is. -/
def Eats (p : Parser Bool) : Prop :=
  ∀ c : Cursor, p.run.run c = (.ok false, c) ∨
    ∃ c', p.run.run c = (.ok true, c') ∧ c.Reads c' ∧ c'.rest.length + 1 = c.rest.length

/-- A lexeme is read if a question about it is answered with yes; the end of the file gives no such
answer. -/
theorem eats_of_looks {p : Parser Bool} (hp : Looks p)
    (heof : ∀ c : Cursor, c.next = .eof → p.run.run c = (.ok false, c)) :
    Eats (p >>= fun yes => if yes then advance >>= fun _ => pure true else pure false) := by
  intro c
  obtain ⟨a, ha⟩ := hp c
  rw [run_bind_of_ok ha]
  cases a with
  | false => exact .inl rfl
  | true =>
    refine .inr ?_
    have hnext : c.next ≠ .eof := by
      intro hnext
      rw [heof c hnext] at ha
      cases ha
    obtain ⟨t, c', hrun, hc', hlength⟩ := run_advance hnext
    refine ⟨c', ?_, hc', hlength⟩
    change (advance >>= fun _ => (pure true : Parser Bool)).run.run c = _
    rw [run_bind_of_ok hrun]
    rfl

theorem eats_eatPunct (s : String) : Eats (eatPunct s) := by
  refine eats_of_looks (looks_isPunctAt 0 s) fun c hnext => ?_
  change (Except.ok (decide (c.next = .punct s)), c) = _
  rw [hnext]
  rfl

theorem eats_eatCSharpPunct (s : String) : Eats (eatCSharpPunct s) := by
  intro c
  obtain ⟨language, hlanguage⟩ := looks_language c
  rw [eatCSharpPunct, run_bind_of_ok hlanguage]
  cases language with
  | csharp => exact eats_eatPunct s c
  | visualBasic => exact .inl rfl

theorem eats_eatWord (s : String) : Eats (eatWord s) := by
  refine eats_of_looks (looks_isWordAt 0 s) fun c hnext => ?_
  change (isWordAt 0 s).run.run c = _
  rewrite [isWordAt, run_bind_of_ok (run_lexeme c), hnext]
  rfl

namespace Progress

theorem eats {p : Parser Bool} {x y : Parser β} (hp : Eats p)
    (hx : 1 ≤ r → Progress Any (r - 1) (k - 1) x) (hy : Progress N r k y) :
    Progress N r k (p >>= fun yes => if yes = true then x else y) := by
  intro c hr hN
  rw [run_bind]
  rcases hp c with hp | ⟨c', hp, hc', hlength⟩ <;> rw [hp]
  · exact hy c hr hN
  · exact (hx (by omega) c' (by omega) trivial).mono hc' (by omega)

theorem of_eats {p : Parser Bool} (hp : Eats p) : Progress N r 0 p := by
  intro c _ _
  rcases hp c with hp | ⟨c', hp, hc', hlength⟩ <;> rw [hp]
  · exact ⟨.refl c, Nat.le_refl _⟩
  · exact ⟨hc', by omega⟩

/-- A part that may be left out, behind the lexeme that announces it. -/
theorem optional {p : Parser Bool} {q : Parser α} {f : Option α → Parser β} (hp : Eats p)
    (hq : 1 ≤ r → Progress Any (r - 1) j q) (hf : ∀ {M n} x, n ≤ r → Progress M n k (f x)) :
    Progress N r k
      (p >>= fun yes => if yes = true then some <$> q >>= f else Pure.pure none >>= f) :=
  eats hp (fun hr => (hq hr).map.bind fun _ x => (hf x (by omega)).weaken (by omega))
    (looks (Looks.pure none) fun x => hf x (Nat.le_refl r))

end Progress

/-! ### Punctuation, names and types -/

theorem grave_expectation (language : Language) (s found : String) :
    (expectation language s found).Grave := by
  intro _
  unfold expectation
  split <;> rfl

theorem progress_expectPunct (s : String) : Progress N r 1 (expectPunct s) := by
  refine .eats (eats_eatPunct s) (fun _ => .pure ()) ?_
  refine .looks looks_language fun _ => .looks looks_describe fun _ => ?_
  exact .ite (fun _ => .looks looks_position fun _ => .fail (grave_expectation _ _ _))
    fun _ => .looks looks_previousStop fun _ => .fail (grave_expectation _ _ _)

theorem progress_unexpected : Progress N r k (unexpected : Parser α) :=
  .looks looks_position fun _ => .looks looks_describe fun _ => .fail fun _ => rfl

theorem Progress.unexpected_bind : Progress N r k (unexpected >>= f) := by
  rw [unexpected, bind_assoc]
  refine .looks looks_position fun _ => ?_
  rw [bind_assoc]
  exact .looks looks_describe fun _ => .fail_bind fun _ => rfl

theorem progress_identifier : Progress N r 1 identifier := by
  refine .lexeme fun t _ => ?_
  cases t with
  | word w =>
    refine .looks looks_language fun _ => .ite (fun _ => ?_) fun _ => ?_
    · exact .looks looks_position fun _ => .fail_bind fun _ => rfl
    · exact .read nofun fun _ _ => .pure w
  | _ => exact .looks looks_position fun _ => .fail fun _ => rfl

theorem progress_dottedRest (n : Nat) (name : String) : Progress N r 0 (dottedRest n name) := by
  induction n generalizing N r name with
  | zero => exact .pure name
  | succ n ih =>
    refine .looks (looks_isPunctAt 0 ".") fun _ => .looks (looks_isAnyWordAt 1) fun _ => ?_
    refine .ite (fun _ => ?_) fun _ => .pure name
    refine progress_advance_any.bind fun _ _ => ?_
    exact progress_identifier.bind fun _ part => ih _

theorem progress_qualifiedName : Progress N r 1 qualifiedName :=
  .looks looks_remaining fun n => progress_identifier.bind fun _ name => progress_dottedRest n name

theorem progress_arrayRest (n : Nat) (name : TypeName) : Progress N r 0 (arrayRest n name) := by
  induction n generalizing N r name with
  | zero => exact .pure name
  | succ n ih =>
    refine .looks looks_language fun _ => ?_
    refine .looks (looks_isPunctAt 0 _) fun _ => .looks (looks_isPunctAt 1 _) fun _ => ?_
    refine .ite (fun _ => ?_) fun _ => .pure name
    exact progress_advance_any.bind fun _ _ => progress_advance_any.bind fun _ _ => ih _

/-- A predefined type is a word. -/
theorem Progress.typeKeyword? {f : Option TypeName → Parser β}
    (hsome : ∀ type, Progress (· ≠ .eof) r k (f (some type))) (hnone : Progress N r k (f none)) :
    Progress N r k (Parser.typeKeyword? >>= f) := by
  intro c hr hN
  obtain ⟨a, ha⟩ := looks_typeKeyword? c
  rw [run_bind_of_ok ha]
  cases a with
  | none => exact hnone c hr hN
  | some type =>
    refine hsome type c hr fun hnext => ?_
    have hlanguage : language.run.run c = (.ok c.log.language, c) := rfl
    rw [Parser.typeKeyword?, run_bind_of_ok hlanguage, Parser.lexeme, run_bind_of_ok (run_lexeme c),
      hnext] at ha
    cases ha

theorem progress_typeUse : Progress N r 1 typeUse := by
  refine .looks looks_position fun pos => .typeKeyword? (fun type => ?_) ?_
  · refine (progress_advance fun _ h => h).bind fun _ _ => .looks (Looks.pure _) fun element => ?_
    exact .looks looks_remaining fun _ => (progress_arrayRest _ element).bind fun _ _ => .pure _
  · refine progress_qualifiedName.map.bind fun _ element => .looks looks_remaining fun _ => ?_
    exact (progress_arrayRest _ element).bind fun _ _ => .pure _

end Parser

end Source

end CilScope
