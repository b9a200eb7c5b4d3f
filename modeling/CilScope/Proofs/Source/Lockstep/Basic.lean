import CilScope.Proofs.Source.Progress

/-!
# Runs in step

Two lists of lexemes may differ by a semicolon in front of a closing brace. A `Gap` is such a place;
one where nothing is missing stands for lists that are the same up to their end. As long as neither run
of a parser passes the gap, both see the same lexemes ahead, but for the two in front of the gap, and
take the same decisions. `Lockstep` says so of two parsers, which differ in the depth they are given,
and is closed under the steps that parsers are made of. Only runs that report nothing are compared, so
where a parser reports there is nothing to show.
-/

namespace CilScope

namespace Log

/-- The second log has what the first one has, and maybe more behind it. -/
def Within (log log' : Log) : Prop :=
  ∃ ds, log' = { log with diagnostics := log.diagnostics ++ ds }

variable {log log' log'' : Log}

theorem Within.refl (log : Log) : log.Within log := ⟨#[], by simp⟩

theorem Within.trans (h : log.Within log') (h' : log'.Within log'') : log.Within log'' := by
  obtain ⟨ds, rfl⟩ := h
  obtain ⟨es, rfl⟩ := h'
  exact ⟨ds ++ es, by simp⟩

theorem Within.antisymm (h : log.Within log') (h' : log'.Within log) : log' = log := by
  obtain ⟨ds, rfl⟩ := h
  obtain ⟨es, hes⟩ := h'
  have hsize := congrArg (fun log => log.diagnostics.size) hes
  simp only [Array.size_append] at hsize
  have hds : ds = #[] := Array.eq_empty_of_size_eq_zero (by omega)
  rw [hds, Array.append_empty]

theorem Within.language (h : log.Within log') : log'.language = log.language := by
  obtain ⟨ds, rfl⟩ := h
  rfl

theorem within_report (log : Log) (pos : Source.Position) (cause : Cause) :
    log.Within (log.report pos cause) :=
  ⟨#[cause.diagnostic log.language (some ⟨log.file, pos⟩)], by rw [report, Array.push_eq_append]⟩

theorem report_ne (log : Log) (pos : Source.Position) (cause : Cause) :
    log.report pos cause ≠ log := by
  intro h
  have hsize := congrArg (fun log => log.diagnostics.size) h
  simp [report] at hsize

end Log

namespace Source

namespace Cursor

/-- The lexeme `n` places ahead. -/
def ahead (c : Cursor) (n : Nat) : Lexeme := (c.rest[n]?.map (·.lexeme)).getD .eof

/-- The cursor behind the next lexeme. -/
def skip (c : Cursor) : Cursor :=
  match c.rest with
  | [] => c
  | t :: rest => { c with rest, previousStop := t.stop }

/-- A run from `c` to `c'` reads `k` lexemes or more and leaves the end of the file and what is
logged. -/
structure Onward (k : Nat) (c c' : Cursor) : Prop where
  ends : EndsFile c'.rest
  length : c'.rest.length + k ≤ c.rest.length
  log : c.log.Within c'.log

theorem log_skip (c : Cursor) : c.skip.log = c.log := by
  unfold skip
  split <;> rfl

variable {j k : Nat} {c c' c'' : Cursor}

theorem Onward.refl (h : EndsFile c.rest) : Onward 0 c c :=
  ⟨h, Nat.le_refl _, Log.Within.refl _⟩

theorem Onward.trans (h : Onward j c c') (h' : Onward (k - j) c' c'') : Onward k c c'' :=
  ⟨h'.ends, by have := h.length; have := h'.length; omega, h.log.trans h'.log⟩

theorem Onward.weaken (h : Onward k c c') (hj : j ≤ k) : Onward j c c' :=
  ⟨h.ends, by have := h.length; omega, h.log⟩

theorem onward_skip (hc : EndsFile c.rest) (hnext : c.next ≠ .eof) : Onward 1 c c.skip := by
  obtain ⟨rest, stop, log⟩ := c
  cases rest with
  | nil => exact absurd rfl hnext
  | cons t rest => exact ⟨hc.tail hnext, Nat.le_refl _, Log.Within.refl _⟩

end Cursor

/-! ### Gaps -/

/-- A place in a list of lexemes where a semicolon in front of a closing brace is removed, or the end
of a list that stays as it is. -/
structure Gap where
  before : List Located
  removed : List Located
  behind : List Located
  shape : (removed = [] ∧ behind = []) ∨
    ∃ semi brace rest, removed = [semi] ∧ behind = brace :: rest ∧ semi.lexeme = .punct ";" ∧
      brace.lexeme = .punct "\x7d"

namespace Gap

variable {g : Gap} {c d : Cursor}

/-- The lexemes that are ahead in front of the gap. -/
def reach (g : Gap) : List Located := g.removed ++ g.behind

/-- The gap of a list that stays as it is. -/
def none (tokens : List Located) : Gap := ⟨tokens, [], [], .inl ⟨rfl, rfl⟩⟩

theorem length_removed_le (g : Gap) : g.removed.length ≤ 1 := by
  rcases g.shape with ⟨h, -⟩ | ⟨_, _, _, h, -⟩ <;> simp [h]

/-- Two cursors at the same place in front of the gap or at it. The stop of the second one is that of
the lexeme read last, if one has been read. -/
structure Related (g : Gap) (c d : Cursor) : Prop where
  split : ∃ used ahead, used ++ ahead = g.before ∧ c.rest = ahead ++ g.reach ∧
    d.rest = ahead ++ g.behind ∧ ∀ t ∈ used.getLast?, d.previousStop = t.stop
  ends : EndsFile c.rest
  left : c.log.language = .csharp
  right : d.log.language = .csharp

namespace Related

theorem length_eq (h : g.Related c d) : c.rest.length = d.rest.length + g.removed.length := by
  obtain ⟨used, ahead, -, hc, hd, -⟩ := h.split
  rw [hc, hd, reach]
  simp only [List.length_append]
  omega

theorem length_lt (h : g.Related c d) : g.removed.length < c.rest.length := by
  rcases g.shape with ⟨hr, -⟩ | ⟨_, _, _, hr, hb, -⟩
  · rw [hr]
    exact h.ends.length_pos
  · obtain ⟨used, ahead, -, hc, -, -⟩ := h.split
    rw [hc, reach, hr, hb]
    simp only [List.length_append, List.length_cons, List.length_nil]
    omega

/-- Where all lexemes up to one are the same in both runs, so is this one, unless both runs are at the
gap there. -/
theorem ahead (h : g.Related c d) {n : Nat} (hn : ∀ i < n, c.ahead i = d.ahead i) :
    c.ahead n = d.ahead n ∨ c.ahead n = .punct ";" ∧ d.ahead n = .punct "\x7d" := by
  obtain ⟨used, ts, -, hc, hd, -⟩ := h.split
  rcases g.shape with ⟨hr, hb⟩ | ⟨semi, brace, rest, hr, hb, hsemi, hbrace⟩
  · left
    rw [Cursor.ahead, Cursor.ahead, hc, hd, reach, hr, List.nil_append]
  have hcl : c.ahead ts.length = .punct ";" := by
    rw [Cursor.ahead, hc, reach, hr]
    simp [hsemi]
  have hdl : d.ahead ts.length = .punct "\x7d" := by
    rw [Cursor.ahead, hd, hb]
    simp [hbrace]
  rcases Nat.lt_trichotomy n ts.length with hlt | rfl | hgt
  · left
    rw [Cursor.ahead, Cursor.ahead, hc, hd, List.getElem?_append_left hlt,
      List.getElem?_append_left hlt]
  · exact .inr ⟨hcl, hdl⟩
  · have hne := hn _ hgt
    rw [hcl, hdl] at hne
    exact absurd hne (by decide)

theorem next (h : g.Related c d) :
    c.next = d.next ∨ c.next = .punct ";" ∧ d.next = .punct "\x7d" :=
  h.ahead (n := 0) fun _ hi => absurd hi (Nat.not_lt_zero _)

/-- Where the next lexemes differ, both runs are at the gap. -/
theorem length_of_ne (h : g.Related c d) (hne : c.next ≠ d.next) :
    c.rest.length = g.reach.length := by
  obtain ⟨used, ts, -, hc, hd, -⟩ := h.split
  cases ts with
  | nil => rw [hc, List.nil_append]
  | cons t ts =>
    refine absurd ?_ hne
    rw [Cursor.next, Cursor.next, hc, hd]
    rfl

theorem head? (h : g.Related c d) (hnext : c.next = d.next) : c.rest.head? = d.rest.head? := by
  obtain ⟨used, ts, -, hc, hd, -⟩ := h.split
  cases ts with
  | cons t ts => rw [hc, hd]; rfl
  | nil =>
    rcases g.shape with ⟨hr, hb⟩ | ⟨semi, brace, rest, hr, hb, hsemi, hbrace⟩
    · rw [hc, hd, reach, hr, List.nil_append]
    · rw [Cursor.next, Cursor.next, hc, hd, reach, hr, hb] at hnext
      simp [hsemi, hbrace] at hnext

/-- Both runs read the same lexeme. -/
theorem skip (h : g.Related c d) (hnext : c.next = d.next) (heof : c.next ≠ .eof) :
    ∃ t, Parser.advance.run.run c = (.ok t, c.skip) ∧
      Parser.advance.run.run d = (.ok t, d.skip) ∧ g.Related c.skip d.skip := by
  obtain ⟨⟨used, ts, hts, hc, hd, hstop⟩, hends, hl, hl'⟩ := h
  obtain ⟨crest, cstop, clog⟩ := c
  obtain ⟨drest, dstop, dlog⟩ := d
  dsimp only at hc hd hl hl' hends
  subst hc hd
  cases ts with
  | nil =>
    rcases g.shape with ⟨hr, hb⟩ | ⟨semi, brace, rest, hr, hb, hsemi, hbrace⟩
    · rw [Cursor.next, reach, hr, hb] at heof
      exact absurd rfl heof
    · rw [Cursor.next, Cursor.next, reach, hr, hb] at hnext
      simp [hsemi, hbrace] at hnext
  | cons t ts =>
    have ht : t.lexeme ≠ .eof := heof
    refine ⟨t, Parser.run_advance_cons ht _ _, Parser.run_advance_cons ht _ _, ?_, ?_, hl, hl'⟩
    · refine ⟨used ++ [t], ts, by simpa using hts, rfl, rfl, fun u hu => ?_⟩
      rw [List.getLast?_concat] at hu
      cases hu
      rfl
    · exact hends.tail ht

end Related

end Gap

namespace Parser

variable {α β : Type} {g : Gap} {N M : Lexeme → Lexeme → Prop} {r j k : Nat} {p q : Parser α}
  {f f' : α → Parser β} {a b : Lexeme}

/-! ### Looking at the next lexeme -/

/-- Nothing is known of the next lexemes. -/
def Free : Lexeme → Lexeme → Prop := fun _ _ => True

/-- The next lexemes are the same. -/
def Same : Lexeme → Lexeme → Prop := (· = ·)

/-- The next lexemes are these two. -/
def Next (a b : Lexeme) : Lexeme → Lexeme → Prop := fun x y => x = a ∧ y = b

/-- The next lexemes are those on either side of a gap. -/
def Torn : Lexeme → Lexeme → Prop := Next (.punct ";") (.punct "\x7d")

/-- A parser that tells something of the next lexeme. -/
def Tells (p : Parser α) (h : Lexeme → α) : Prop :=
  ∀ c : Cursor, c.log.language = .csharp → p.run.run c = (.ok (h c.next), c)

/-- Two parsers that look ahead and see the same. -/
structure Asks (g : Gap) (N : Lexeme → Lexeme → Prop) (p q : Parser α) : Prop where
  looks : Looks p
  agrees : ∀ {c d}, g.Related c d → N c.next d.next →
    ∃ x, p.run.run c = (.ok x, c) ∧ q.run.run d = (.ok x, d)

theorem not_same_torn : ¬Same (.punct ";") (.punct "\x7d") := by
  rw [Same]
  decide

theorem same_of_next {t : Lexeme} (a b : Lexeme) (h : Next t t a b) : Same a b :=
  h.1.trans h.2.symm

theorem Asks.imp (h : Asks g M p q) (hN : ∀ a b, N a b → M a b) : Asks g N p q :=
  ⟨h.looks, fun hcd hn => h.agrees hcd (hN _ _ hn)⟩

/-- A question about the next lexemes that has the same answer on either side of a gap. -/
theorem Asks.of_tells {p : Parser α} {h : Lexeme → α} (hp : Tells p h) (hlooks : Looks p)
    (hN : N (.punct ";") (.punct "\x7d") → h (.punct ";") = h (.punct "\x7d")) : Asks g N p p where
  looks := hlooks
  agrees {c d} hcd hn := by
    refine ⟨_, hp c hcd.left, ?_⟩
    rw [hp d hcd.right]
    rcases hcd.next with hnext | ⟨hc, hd⟩
    · rw [hnext]
    · rw [hc, hd] at hn ⊢
      rw [hN hn]

/-- A parser that reads the next lexeme if it is as asked for, and says so. -/
structure Takes (p : Parser Bool) (h : Lexeme → Bool) : Prop where
  eof : h .eof = false
  yes : ∀ c : Cursor, c.log.language = .csharp → h c.next = true → p.run.run c = (.ok true, c.skip)
  no : ∀ c : Cursor, c.log.language = .csharp → h c.next = false → p.run.run c = (.ok false, c)

theorem Takes.ne_eof {p : Parser Bool} {h : Lexeme → Bool} (hp : Takes p h) {a : Lexeme}
    (ha : h a = true) : a ≠ .eof := by
  rintro rfl
  rw [hp.eof] at ha
  cases ha

theorem run_advance_skip {c : Cursor} (hnext : c.next ≠ .eof) :
    ∃ t, advance.run.run c = (.ok t, c.skip) := by
  obtain ⟨rest, stop, log⟩ := c
  cases rest with
  | nil => exact absurd rfl hnext
  | cons t rest => exact ⟨t, run_advance_cons hnext _ _⟩

/-! ### Runs in step -/

/-- Two parsers in front of a gap. The first one reads `k` lexemes or more. Where it returns in front of
the gap or at it, and has reported nothing, the second one returns the same at the same place and has
reported nothing either. `N` is known of the next lexemes, and at most `r` lexemes stand before the end
of the file. -/
structure Lockstep (g : Gap) (N : Lexeme → Lexeme → Prop) (r k : Nat) (p q : Parser α) : Prop where
  onward : ∀ {c l x c'}, EndsFile c.rest → c.rest.length ≤ r + 1 → c.log.language = .csharp →
    N c.next l → p.run.run c = (.ok x, c') → Cursor.Onward k c c'
  follows : ∀ {c d x c'}, g.Related c d → c.rest.length ≤ r + 1 → N c.next d.next →
    p.run.run c = (.ok x, c') → g.reach.length ≤ c'.rest.length → c'.log = c.log →
    ∃ d', q.run.run d = (.ok x, d') ∧ g.Related c' d' ∧ d'.log = d.log

namespace Lockstep

theorem weaken (h : Lockstep g N r k p q) (hj : j ≤ k) : Lockstep g N r j p q :=
  ⟨fun hc hr hl hN hrun => (h.onward hc hr hl hN hrun).weaken hj, h.follows⟩

theorem imp (h : Lockstep g M r k p q) (hN : ∀ a b, N a b → M a b) : Lockstep g N r k p q :=
  ⟨fun hc hr hl hn hrun => h.onward hc hr hl (hN _ _ hn) hrun,
    fun hcd hr hn => h.follows hcd hr (hN _ _ hn)⟩

theorem pure (x : α) : Lockstep g N r 0 (Pure.pure x) (Pure.pure x) where
  onward hc _ _ _ hrun := by
    cases hrun
    exact .refl hc
  follows hcd _ _ hrun _ _ := by
    cases hrun
    exact ⟨_, rfl, hcd, rfl⟩

theorem throw {e : Abort} (q : Parser α) : Lockstep g N r k (MonadExcept.throw e) q :=
  ⟨fun _ _ _ _ hrun => (nomatch hrun), fun _ _ _ hrun => (nomatch hrun)⟩

/-- What the first parsers read counts for both steps. A run that ends in front of the gap, and reports
nothing, has not passed it in between, nor has it reported anything. -/
theorem bind (hp : Lockstep g N r j p q)
    (hf : j ≤ r → ∀ x, Lockstep g Free (r - j) (k - j) (f x) (f' x)) :
    Lockstep g N r k (p >>= f) (q >>= f') where
  onward hc hr hl hN hrun := by
    obtain ⟨x, c₁, hx, hrun⟩ := exists_of_run_bind hrun
    have h₁ := hp.onward hc hr hl hN hx
    have hpos := h₁.ends.length_pos
    have hlength := h₁.length
    refine h₁.trans ?_
    exact (hf (by omega) x).onward h₁.ends (by omega) (h₁.log.language.trans hl) (l := .eof) trivial
      hrun
  follows {c d y c'} hcd hr hN hrun hreach hlog := by
    obtain ⟨x, c₁, hx, hrun⟩ := exists_of_run_bind hrun
    have h₁ := hp.onward hcd.ends hr hcd.left hN hx
    have hpos := h₁.ends.length_pos
    have hlength := h₁.length
    have hf := hf (by omega) x
    have h₂ := hf.onward h₁.ends (by omega) (h₁.log.language.trans hcd.left) (l := .eof) trivial hrun
    have hlog₁ : c₁.log = c.log := h₁.log.antisymm (hlog ▸ h₂.log)
    obtain ⟨d₁, hd₁, hcd₁, hdlog₁⟩ :=
      hp.follows hcd hr hN hx (by have := h₂.length; omega) hlog₁
    obtain ⟨d', hd', hcd', hdlog⟩ :=
      hf.follows hcd₁ (by omega) trivial hrun hreach (hlog.trans hlog₁.symm)
    exact ⟨d', (run_bind_of_ok hd₁).trans hd', hcd', hdlog.trans hdlog₁⟩

theorem pure_bind {x y : α} (hf : Lockstep g N r k (f x) (f' y)) :
    Lockstep g N r k (Pure.pure x >>= f) (Pure.pure y >>= f') := by
  rwa [LawfulMonad.pure_bind, LawfulMonad.pure_bind]

theorem map {h : α → β} (hp : Lockstep g N r k p q) : Lockstep g N r k (h <$> p) (h <$> q) := by
  rw [map_eq_pure_bind, map_eq_pure_bind]
  exact hp.bind fun _ x => (pure _).weaken (Nat.sub_self k).le

theorem ite {b : Prop} [Decidable b] {p' q' : Parser α} (hp : b → Lockstep g N r k p q)
    (hp' : ¬b → Lockstep g N r k p' q') :
    Lockstep g N r k (if b then p else p') (if b then q else q') := by
  split
  · exact hp ‹_›
  · exact hp' ‹_›

/-- Two ways to the same continuation. -/
theorem ite_bind {b : Prop} [Decidable b] {p' q' : Parser α} (hp : Lockstep g N r j p q)
    (hp' : Lockstep g N r j p' q')
    (hf : j ≤ r → ∀ x, Lockstep g Free (r - j) (k - j) (f x) (f' x)) :
    Lockstep g N r k (if b then p >>= f else p' >>= f) (if b then q >>= f' else q' >>= f') :=
  ite (fun _ => hp.bind hf) fun _ => hp'.bind hf

/-! ### What is next -/

/-- A parser that reads a lexeme does not start at the gap. -/
theorem of_same (hk : 1 ≤ k) (h : Lockstep g Same r k p q) : Lockstep g N r k p q where
  onward hc hr hl _ hrun := h.onward hc hr hl rfl hrun
  follows {c d x c'} hcd hr _ hrun hreach hlog := by
    by_cases hnext : c.next = d.next
    · exact h.follows hcd hr hnext hrun hreach hlog
    · have hlength := (h.onward hcd.ends hr hcd.left rfl hrun).length
      have hgap := hcd.length_of_ne hnext
      omega

/-- The next lexemes are the same or those on either side of the gap. -/
theorem cases_next (hsame : ∀ t, Lockstep g (Next t t) r k p q) (htorn : Lockstep g Torn r k p q) :
    Lockstep g N r k p q where
  onward hc hr hl _ hrun := (hsame _).onward hc hr hl ⟨rfl, rfl⟩ hrun
  follows {c d x c'} hcd hr _ hrun hreach hlog := by
    rcases hcd.next with hnext | hnext
    · exact (hsame _).follows hcd hr ⟨rfl, hnext.symm⟩ hrun hreach hlog
    · exact htorn.follows hcd hr hnext hrun hreach hlog

theorem cases_same (h : ∀ t, Lockstep g (Next t t) r k p q) : Lockstep g Same r k p q where
  onward hc hr hl _ hrun := (h _).onward hc hr hl ⟨rfl, rfl⟩ hrun
  follows hcd hr hN hrun hreach hlog :=
    (h _).follows hcd hr ⟨rfl, hN.symm⟩ hrun hreach hlog

/-- Where the first parser fails there is nothing to show. -/
theorem of_fails (h : ∀ c, c.log.language = .csharp → c.next = a → ∀ x c',
    p.run.run c ≠ (.ok x, c')) : Lockstep g (Next a b) r k p q where
  onward _ _ hl hN hrun := absurd hrun (h _ hl hN.1 _ _)
  follows hcd _ hN hrun _ _ := absurd hrun (h _ hcd.left hN.1 _ _)

/-- Where the first parser reads the semicolon, it passes the gap. -/
theorem passes (h : ∀ c, EndsFile c.rest → c.log.language = .csharp → c.next = .punct ";" →
    ∀ x c', p.run.run c = (.ok x, c') → Cursor.Onward 1 c c') : Lockstep g Torn r 0 p q where
  onward hc _ hl hN hrun := (h _ hc hl hN.1 _ _ hrun).weaken (Nat.zero_le 1)
  follows {c d x c'} hcd _ hN hrun hreach _ := by
    have hlength := (h _ hcd.ends hcd.left hN.1 _ _ hrun).length
    have hgap := hcd.length_of_ne (by rw [hN.1, hN.2]; decide)
    omega

/-! ### Looking ahead -/

theorem asks (h : Asks g N p q) (hf : ∀ x, Lockstep g N r k (f x) (f' x)) :
    Lockstep g N r k (p >>= f) (q >>= f') where
  onward {c l y c'} hc hr hl hN hrun := by
    obtain ⟨x, hx⟩ := h.looks c
    rw [run_bind_of_ok hx] at hrun
    exact (hf x).onward hc hr hl hN hrun
  follows {c d y c'} hcd hr hN hrun hreach hlog := by
    obtain ⟨x, hx, hx'⟩ := h.agrees hcd hN
    rw [run_bind_of_ok hx] at hrun
    rw [run_bind_of_ok hx']
    exact (hf x).follows hcd hr hN hrun hreach hlog

/-- What is known of the next lexemes answers a question about them. -/
theorem told {h : Lexeme → α} (hp : Tells p h)
    (hf : Lockstep g (Next a b) r k (f (h a)) (f' (h b))) :
    Lockstep g (Next a b) r k (p >>= f) (p >>= f') where
  onward {c l y c'} hc hr hl hN hrun := by
    rw [run_bind_of_ok (hp c hl), hN.1] at hrun
    exact hf.onward hc hr hl hN hrun
  follows {c d y c'} hcd hr hN hrun hreach hlog := by
    rw [run_bind_of_ok (hp c hcd.left), hN.1] at hrun
    rw [run_bind_of_ok (hp d hcd.right), hN.2]
    exact hf.follows hcd hr hN hrun hreach hlog

/-- The answers of two parsers that look ahead do not matter. -/
theorem looks (hp : Looks p) (hq : Looks q) (hf : ∀ x y, Lockstep g N r k (f x) (f' y)) :
    Lockstep g N r k (p >>= f) (q >>= f') where
  onward {c l y c'} hc hr hl hN hrun := by
    obtain ⟨x, hx⟩ := hp c
    obtain ⟨y, -⟩ := hq c
    rw [run_bind_of_ok hx] at hrun
    exact (hf x y).onward hc hr hl hN hrun
  follows {c d z c'} hcd hr hN hrun hreach hlog := by
    obtain ⟨x, hx⟩ := hp c
    obtain ⟨y, hy⟩ := hq d
    rw [run_bind_of_ok hx] at hrun
    rw [run_bind_of_ok hy]
    exact (hf x y).follows hcd hr hN hrun hreach hlog

theorem language {f f' : Language → Parser β} (h : Lockstep g N r k (f .csharp) (f' .csharp)) :
    Lockstep g N r k (Parser.language >>= f) (Parser.language >>= f') where
  onward {c l y c'} hc hr hl hN hrun := by
    have htells : Parser.language.run.run c = (.ok .csharp, c) := congrArg (fun l => (Except.ok l, c)) hl
    rw [run_bind_of_ok htells] at hrun
    exact h.onward hc hr hl hN hrun
  follows {c d z c'} hcd hr hN hrun hreach hlog := by
    have hleft : Parser.language.run.run c = (.ok .csharp, c) :=
      congrArg (fun l => (Except.ok l, c)) hcd.left
    have hright : Parser.language.run.run d = (.ok .csharp, d) :=
      congrArg (fun l => (Except.ok l, d)) hcd.right
    rw [run_bind_of_ok hleft] at hrun
    rw [run_bind_of_ok hright]
    exact h.follows hcd hr hN hrun hreach hlog

theorem position {f f' : Position → Parser β} (hf : ∀ pos, Lockstep g Same r k (f pos) (f' pos)) :
    Lockstep g Same r k (Parser.position >>= f) (Parser.position >>= f') := by
  refine asks ⟨looks_position, fun {c d} hcd hnext => ⟨_, rfl, ?_⟩⟩ hf
  have hhead := hcd.head? hnext
  have hposition : Parser.position.run.run d = (.ok (d.rest.headD ⟨.eof, {}, {}⟩).start, d) := rfl
  rw [hposition, List.headD_eq_head?_getD, ← hhead, ← List.headD_eq_head?_getD]

/-- The numbers of lexemes ahead. -/
theorem remaining {f f' : Nat → Parser β}
    (hf : ∀ n m, n ≤ r → n ≤ m → n < m + g.removed.length → Lockstep g N n k (f (n + 1)) (f' m)) :
    Lockstep g N r k (Parser.remaining >>= f) (Parser.remaining >>= f') where
  onward {c l y c'} hc hr hl hN hrun := by
    have hlength : c.rest.length - 1 + 1 = c.rest.length := Nat.sub_add_cancel hc.length_pos
    have h := hf (c.rest.length - 1) c.rest.length (by omega) (by omega) (by omega)
    rw [hlength] at h
    exact h.onward hc (by omega) hl hN hrun
  follows {c d z c'} hcd hr hN hrun hreach hlog := by
    have hlength : c.rest.length - 1 + 1 = c.rest.length := Nat.sub_add_cancel hcd.ends.length_pos
    have hle := g.length_removed_le
    have hlt := hcd.length_lt
    have heq := hcd.length_eq
    have h := hf (c.rest.length - 1) d.rest.length (by omega) (by omega) (by omega)
    rw [hlength] at h
    exact h.follows hcd (by omega) hN hrun hreach hlog

/-- A depth in proportion to the lexemes ahead. -/
theorem depthBound {f f' : Nat → Parser β}
    (hf : ∀ n m, n ≤ r → 16 * n + 16 ≤ m → Lockstep g N n k (f (16 * n + 32)) (f' m)) :
    Lockstep g N r k (Parser.depthBound >>= f) (Parser.depthBound >>= f') := by
  rw [Parser.depthBound, bind_assoc, bind_assoc]
  exact remaining fun n m hn hm _ => .pure_bind (hf n _ hn (by omega))

/-- No second run is that short. -/
theorem stuck {q' : Parser α} (h : Lockstep g N r k p q) (hr : r < g.removed.length) :
    Lockstep g N r k p q' :=
  ⟨h.onward, fun hcd hrest => absurd hcd.length_lt (by omega)⟩

/-- A loop of at most as many rounds as there are lexemes ahead. -/
theorem loop {ι : Type} {F : Nat → ι → Parser α}
    (hstep : ∀ {N n m r i}, r ≤ n → r ≤ m + g.removed.length →
      (∀ {N s i}, s < n → s < m + g.removed.length → Lockstep g N s k (F n i) (F m i)) →
      Lockstep g N r k (F (n + 1) i) (F (m + 1) i))
    {n m : Nat} {i : ι} (hn : r < n) (hm : r < m + g.removed.length) :
    Lockstep g N r k (F n i) (F m i) := by
  induction n generalizing m r N i with
  | zero => omega
  | succ n ih =>
    have h : ∀ m, r ≤ m + g.removed.length → Lockstep g N r k (F (n + 1) i) (F (m + 1) i) :=
      fun m hm => hstep (by omega) hm fun hn hm => ih hn hm
    cases m with
    | zero => exact (h r (by omega)).stuck (by omega)
    | succ m => exact h m (by omega)

/-! ### Reports -/

theorem fail (pos : Position) (cause : Cause) (q : Parser α) :
    Lockstep g N r k (Parser.fail pos cause) q :=
  ⟨fun _ _ _ _ hrun => (nomatch hrun), fun _ _ _ hrun => (nomatch hrun)⟩

theorem fail_bind {f : α → Parser β} {pos : Position} {cause : Cause} (q : Parser β) :
    Lockstep g N r k (Parser.fail pos cause >>= f) q :=
  ⟨fun _ _ _ _ hrun => (nomatch hrun), fun _ _ _ hrun => (nomatch hrun)⟩

theorem unexpected_bind : Lockstep g N r k (unexpected >>= f) (unexpected >>= f') := by
  rw [unexpected, bind_assoc, bind_assoc]
  refine .looks looks_position looks_position fun _ _ => ?_
  rw [bind_assoc, bind_assoc]
  exact .looks looks_describe looks_describe fun _ _ => .fail_bind _

theorem report (pos : Position) (cause : Cause) (q : Parser Unit) :
    Lockstep g N r 0 (Parser.report pos cause) q where
  onward hc _ _ _ hrun := by
    cases hrun
    exact ⟨hc, Nat.le_refl _, Log.within_report _ _ _⟩
  follows {c d x c'} _ _ _ hrun _ hlog := by
    cases hrun
    exact absurd hlog (Log.report_ne _ _ _)

/-! ### Reading a lexeme -/

/-- A lexeme that has been looked at is read. -/
theorem read {t : Lexeme} {f f' : Located → Parser β} (ht : t ≠ .eof)
    (hf : 1 ≤ r → ∀ x, Lockstep g Free (r - 1) (k - 1) (f x) (f' x)) :
    Lockstep g (Next t t) r k (advance >>= f) (advance >>= f') := by
  refine bind (j := 1) ⟨?_, ?_⟩ hf
  · intro c l x c' hc _ _ hN hrun
    obtain ⟨rest, stop, log⟩ := c
    have hnext : Cursor.next ⟨rest, stop, log⟩ ≠ .eof := hN.1 ▸ ht
    cases rest with
    | nil => exact absurd rfl hnext
    | cons u rest =>
      rw [run_advance_cons hnext] at hrun
      cases hrun
      exact Cursor.onward_skip hc hnext
  · intro c d x c' hcd _ hN hrun _ _
    obtain ⟨u, hu, hu', hskip⟩ := hcd.skip (hN.1.trans hN.2.symm) (hN.1 ▸ ht)
    rw [hu] at hrun
    cases hrun
    exact ⟨_, hu', hskip, d.log_skip⟩

/-- At the end of the file nothing is read. -/
theorem advance_eof : Lockstep g (Next .eof .eof) r 0 advance advance where
  onward {c l x c'} hc _ _ hN hrun := by
    obtain ⟨t, ht⟩ := run_advance_eof hN.1
    rw [ht] at hrun
    cases hrun
    exact .refl hc
  follows {c d x c'} hcd _ hN hrun _ _ := by
    have hhead := hcd.head? (hN.1.trans hN.2.symm)
    obtain ⟨rest, stop, log⟩ := c
    obtain ⟨rest', stop', log'⟩ := d
    cases rest with
    | nil => exact absurd hcd.ends.length_pos (Nat.lt_irrefl 0)
    | cons t rest =>
      cases rest' with
      | nil => cases hhead
      | cons t' rest' =>
        obtain rfl : t = t' := Option.some.inj hhead
        have ht : t.lexeme = .eof := hN.1
        rw [run_advance_last ht] at hrun
        cases hrun
        exact ⟨_, run_advance_last ht stop' log', hcd, rfl⟩

theorem advance : Lockstep g N r 0 Parser.advance Parser.advance := by
  refine .cases_next (fun t => ?_) (passes fun c hc _ hnext x c' hrun => ?_)
  · by_cases ht : t = .eof
    · exact ht ▸ advance_eof
    · have h : Lockstep g (Next t t) r 0 (Parser.advance >>= Pure.pure) (Parser.advance >>= Pure.pure) :=
        read ht fun _ x => pure x
      rwa [bind_pure] at h
  · have hne : c.next ≠ .eof := hnext ▸ by simp
    obtain ⟨t, ht⟩ := run_advance_skip hne
    rw [ht] at hrun
    cases hrun
    exact Cursor.onward_skip hc hne

section

variable {p : Parser Bool} {h : Lexeme → Bool} {x x' y y' : Parser β}

/-- What is known of the next lexeme says that it is taken. -/
theorem taken {t : Lexeme} (hp : Takes p h) (ht : h t = true)
    (hx : 1 ≤ r → Lockstep g Free (r - 1) (k - 1) x x') :
    Lockstep g (Next t t) r k (p >>= fun yes => if yes = true then x else y)
      (p >>= fun yes => if yes = true then x' else y') where
  onward {c l z c'} hc hr hl hn hrun := by
    have hyes : h c.next = true := hn.1 ▸ ht
    rw [run_bind_of_ok (hp.yes c hl hyes)] at hrun
    have hskip := Cursor.onward_skip hc (hp.ne_eof hyes)
    have hpos := hskip.ends.length_pos
    have hlength := hskip.length
    exact hskip.trans ((hx (by omega)).onward hskip.ends (by omega)
      (hskip.log.language.trans hl) (l := .eof) trivial hrun)
  follows {c d z c'} hcd hr hn hrun hreach hlog := by
    have hyes : h c.next = true := hn.1 ▸ ht
    obtain ⟨t, -, -, hskip⟩ := hcd.skip (hn.1.trans hn.2.symm) (hp.ne_eof hyes)
    have honward := Cursor.onward_skip hcd.ends (hp.ne_eof hyes)
    have hpos := honward.ends.length_pos
    have hlength := honward.length
    rw [run_bind_of_ok (hp.yes c hcd.left hyes)] at hrun
    rw [run_bind_of_ok (hp.yes d hcd.right (hn.2 ▸ ht))]
    rw [← d.log_skip]
    rw [← c.log_skip] at hlog
    exact (hx (by omega)).follows hskip (by omega) trivial hrun hreach hlog

/-- What is known of the next lexemes says that they are not taken. -/
theorem untaken (hp : Takes p h) (ha : h a = false) (hb : h b = false)
    (hy : Lockstep g (Next a b) r k y y') :
    Lockstep g (Next a b) r k (p >>= fun yes => if yes = true then x else y)
      (p >>= fun yes => if yes = true then x' else y') where
  onward {c l z c'} hc hr hl hn hrun := by
    rw [run_bind_of_ok (hp.no c hl (hn.1 ▸ ha))] at hrun
    exact hy.onward hc hr hl hn hrun
  follows {c d z c'} hcd hr hn hrun hreach hlog := by
    rw [run_bind_of_ok (hp.no c hcd.left (hn.1 ▸ ha))] at hrun
    rw [run_bind_of_ok (hp.no d hcd.right (hn.2 ▸ hb))]
    exact hy.follows hcd hr hn hrun hreach hlog

theorem takes (hp : Takes p h)
    (hN : N (.punct ";") (.punct "\x7d") → h (.punct ";") = false ∧ h (.punct "\x7d") = false)
    (hx : 1 ≤ r → Lockstep g Free (r - 1) (k - 1) x x') (hy : Lockstep g N r k y y') :
    Lockstep g N r k (p >>= fun yes => if yes = true then x else y)
      (p >>= fun yes => if yes = true then x' else y') where
  onward {c l z c'} hc hr hl hn hrun := by
    cases hnext : h c.next with
    | false =>
      rw [run_bind_of_ok (hp.no c hl hnext)] at hrun
      exact hy.onward hc hr hl hn hrun
    | true =>
      have htaken : Lockstep g (Next c.next c.next) r k (p >>= fun yes => if yes = true then x else y)
          (p >>= fun yes => if yes = true then x' else y') := taken hp hnext hx
      exact htaken.onward hc hr hl ⟨rfl, rfl⟩ hrun
  follows {c d z c'} hcd hr hn hrun hreach hlog := by
    rcases hcd.next with hsame | ⟨hc, hd⟩
    · cases hnext : h c.next with
      | false =>
        rw [run_bind_of_ok (hp.no c hcd.left hnext)] at hrun
        rw [run_bind_of_ok (hp.no d hcd.right (hsame ▸ hnext))]
        exact hy.follows hcd hr hn hrun hreach hlog
      | true => exact (taken hp hnext hx).follows hcd hr ⟨rfl, hsame.symm⟩ hrun hreach hlog
    · rw [hc, hd] at hn
      obtain ⟨hsemi, hbrace⟩ := hN hn
      rw [run_bind_of_ok (hp.no c hcd.left (hc ▸ hsemi))] at hrun
      rw [run_bind_of_ok (hp.no d hcd.right (hd ▸ hbrace))]
      exact hy.follows hcd hr (hc ▸ hd ▸ hn) hrun hreach hlog

/-- A part that may be left out, behind the lexeme that announces it. -/
theorem optional {p : Parser Bool} {q q' : Parser α} {f f' : Option α → Parser β} (hp : Takes p h)
    (hN : N (.punct ";") (.punct "\x7d") → h (.punct ";") = false ∧ h (.punct "\x7d") = false)
    (hq : 1 ≤ r → Lockstep g Free (r - 1) j q q')
    (hf : ∀ {M n} x, n ≤ r → Lockstep g M n k (f x) (f' x)) :
    Lockstep g N r k (p >>= fun yes => if yes = true then some <$> q >>= f else Pure.pure none >>= f)
      (p >>= fun yes => if yes = true then some <$> q' >>= f' else Pure.pure none >>= f') := by
  refine takes hp hN (fun hr => (hq hr).map.bind fun _ x => (hf x (by omega)).weaken (by omega)) ?_
  exact .pure_bind (hf none (Nat.le_refl r))

end

end Lockstep

end Parser

end Source

end CilScope
