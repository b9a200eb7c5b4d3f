import CilScope.Proofs.Source.Lockstep.CSharp

/-!
# Runs across a gap

`Lockstep` compares two runs up to a gap. Here they go on behind it: where the first run reads the
semicolon as the end of a statement, the second one misses it, reports that and goes on behind the gap
as if the semicolon had been there. `Mends` says so of two parsers at a cursor in front of the gap. What
is read before the gap is passed is compared by `Lockstep` at this gap (`bind`), what is read behind it
by `Lockstep` where nothing is missing (`andThen`).
-/

namespace CilScope.Source

namespace Cursor

/-- A cursor in a C# text with at most `r` lexemes before the end of the file. -/
structure Ready (r : Nat) (c : Cursor) : Prop where
  ends : EndsFile c.rest
  length : c.rest.length ≤ r + 1
  language : c.log.language = .csharp

variable {j r : Nat} {c c' : Cursor}

theorem Ready.onward (hc : c.Ready r) (h : Onward j c c') : c'.Ready (r - j) :=
  ⟨h.ends, by have := hc.length; have := h.length; omega, h.log.language.trans hc.language⟩

theorem Ready.skip (hc : c.Ready r) (hnext : c.next ≠ .eof) : c.skip.Ready (r - 1) :=
  hc.onward (onward_skip hc.ends hnext)

theorem Ready.pos (hc : c.Ready r) (hnext : c.next ≠ .eof) : 1 ≤ r := by
  have hskip := onward_skip hc.ends hnext
  have := hskip.length
  have := hskip.ends.length_pos
  have := hc.length
  omega

theorem Ready.exact (hc : c.Ready r) : c.Ready (c.rest.length - 1) :=
  ⟨hc.ends, Nat.le_add_of_sub_le (Nat.le_refl _), hc.language⟩

end Cursor

namespace Gap

variable {g : Gap} {c d : Cursor}

/-- The end of the lexeme in front of the gap. -/
def stop (g : Gap) : Position := (g.before.getLast?.map (·.stop)).getD {}

/-- From here both runs see the same lexeme next. -/
def Alike (g : Gap) (c : Cursor) : Prop := ∀ {d}, g.Related c d → d.next = c.next

theorem alike_of_ne (h : c.next ≠ .punct ";") : g.Alike c := fun hcd => by
  rcases hcd.next with hsame | ⟨hsemi, -⟩
  · exact hsame.symm
  · exact absurd hsemi h

/-- The gap is further ahead. -/
theorem alike_of_lt (h : g.reach.length < c.rest.length) : g.Alike c := fun hcd => by
  by_contra hne
  exact absurd (hcd.length_of_ne (Ne.symm hne)) h.ne'

theorem Related.renew {ts : List Located} (h : (Gap.none ts).Related c d) :
    (Gap.none c.rest).Related c d := by
  obtain ⟨used, ahead, -, hc, hd, -⟩ := h.split
  have hsame : d.rest = c.rest := hd.trans hc.symm
  exact ⟨⟨[], c.rest, rfl, (List.append_nil _).symm, hsame.trans (List.append_nil _).symm, by simp⟩,
    h.ends, h.left, h.right⟩

end Gap

namespace Parser

variable {α β : Type} {g : Gap} {r j : Nat} {p q : Parser α} {f f' : α → Parser β} {c c₁ : Cursor}

/-- Two parsers at a cursor in front of a gap. The first one passes the gap. Where it returns and has
reported nothing, the second one returns the same at the same place, and has reported that a semicolon is
missing behind the lexeme in front of the gap. -/
structure Mends (g : Gap) (p q : Parser α) (c : Cursor) : Prop where
  front : g.reach.length ≤ c.rest.length
  passes : ∀ {x c'}, p.run.run c = (.ok x, c') →
    EndsFile c'.rest ∧ c'.rest.length < g.reach.length ∧ c.log.Within c'.log
  mends : ∀ {d x c'}, g.Related c d → p.run.run c = (.ok x, c') → c'.log = c.log →
    ∃ d', q.run.run d = (.ok x, d') ∧ (Gap.none c'.rest).Related c' d' ∧
      d'.log = d.log.report g.stop .missingSemicolon

theorem Lockstep.reads {x : α} (h : Lockstep g Free r j p q) (hc : c.Ready r)
    (hrun : p.run.run c = (.ok x, c₁)) : Cursor.Onward j c c₁ :=
  h.onward hc.ends hc.length hc.language (l := .eof) trivial hrun

namespace Mends

/-- What is read before the gap is passed. -/
theorem bind {x : α} (hc : c.Ready r) (hp : Lockstep g Free r j p q)
    (hrun : p.run.run c = (.ok x, c₁)) (hf : c₁.Ready (r - j) → Mends g (f x) (f' x) c₁) :
    Mends g (p >>= f) (q >>= f') c := by
  have h₁ := hp.reads hc hrun
  have hf := hf (hc.onward h₁)
  refine ⟨hf.front.trans ((Nat.le_add_right _ _).trans h₁.length), fun hbind => ?_,
    fun {d y c'} hcd hbind hlog => ?_⟩
  · rw [run_bind_of_ok hrun] at hbind
    obtain ⟨hends, hlength, hwithin⟩ := hf.passes hbind
    exact ⟨hends, hlength, h₁.log.trans hwithin⟩
  · rw [run_bind_of_ok hrun] at hbind
    obtain ⟨-, -, hwithin⟩ := hf.passes hbind
    have hlog₁ : c₁.log = c.log := h₁.log.antisymm (hlog ▸ hwithin)
    obtain ⟨d₁, hd₁, hcd₁, hdlog₁⟩ := hp.follows hcd hc.length trivial hrun hf.front hlog₁
    obtain ⟨d', hd', hcd', hdlog⟩ := hf.mends hcd₁ hbind (hlog.trans hlog₁.symm)
    exact ⟨d', (run_bind_of_ok hd₁).trans hd', hcd', hdlog₁ ▸ hdlog⟩

/-- What is read behind the gap. -/
theorem andThen (h : Mends g p q c) (hc : c.Ready r)
    (hf : 1 ≤ r → ∀ x ts, Lockstep (Gap.none ts) Free (r - 1) 0 (f x) (f' x)) :
    Mends g (p >>= f) (q >>= f') c := by
  have hbound : ∀ {x c₁}, p.run.run c = (.ok x, c₁) → 1 ≤ r ∧ c₁.Ready (r - 1) := fun hrun => by
    obtain ⟨hends, hlength, hwithin⟩ := h.passes hrun
    have := h.front
    have := hc.length
    have := hends.length_pos
    exact ⟨by omega, hends, by omega, hwithin.language.trans hc.language⟩
  refine ⟨h.front, fun hbind => ?_, fun {d y c'} hcd hbind hlog => ?_⟩
  · obtain ⟨x, c₁, hrun, hx⟩ := exists_of_run_bind hbind
    obtain ⟨hr, hc₁⟩ := hbound hrun
    obtain ⟨-, hlength, hwithin⟩ := h.passes hrun
    have h₂ := (hf hr x []).reads hc₁ hx
    exact ⟨h₂.ends, Nat.lt_of_le_of_lt h₂.length hlength, hwithin.trans h₂.log⟩
  · obtain ⟨x, c₁, hrun, hx⟩ := exists_of_run_bind hbind
    obtain ⟨hr, hc₁⟩ := hbound hrun
    obtain ⟨-, -, hwithin⟩ := h.passes hrun
    have hf := hf hr x c₁.rest
    have h₂ := hf.reads hc₁ hx
    have hlog₁ : c₁.log = c.log := hwithin.antisymm (hlog ▸ h₂.log)
    obtain ⟨d₁, hd₁, hcd₁, hdlog₁⟩ := h.mends hcd hrun hlog₁
    obtain ⟨d', hd', hcd', hdlog⟩ :=
      hf.follows hcd₁ hc₁.length trivial hx (Nat.zero_le _) (hlog.trans hlog₁.symm)
    exact ⟨d', (run_bind_of_ok hd₁).trans hd', hcd'.renew, hdlog.trans hdlog₁⟩

theorem map {h : α → β} (hp : Mends g p q c) (hc : c.Ready r) : Mends g (h <$> p) (h <$> q) c := by
  rw [map_eq_pure_bind, map_eq_pure_bind]
  exact hp.andThen hc fun _ _ _ => .pure _

/-! ### What is next -/

/-- Two parsers that do as others do where they are. -/
theorem congr {p' q' : Parser α} (hp : p.run.run c = p'.run.run c)
    (hq : ∀ d, g.Related c d → q.run.run d = q'.run.run d) (h : Mends g p' q' c) : Mends g p q c where
  front := h.front
  passes hrun := h.passes (hp ▸ hrun)
  mends hcd hrun hlog := hq _ hcd ▸ h.mends hcd (hp ▸ hrun) hlog

theorem asks {x : α} (hp : Asks g Free p q) (hrun : p.run.run c = (.ok x, c))
    (hf : Mends g (f x) (f' x) c) : Mends g (p >>= f) (q >>= f') c := by
  refine congr (run_bind_of_ok hrun) (fun d hcd => ?_) hf
  obtain ⟨y, hy, hy'⟩ := hp.agrees hcd trivial
  rw [hrun] at hy
  cases hy
  exact run_bind_of_ok hy'

theorem told {h : Lexeme → α} (hc : c.Ready r) (hg : g.Alike c) (hp : Tells p h)
    (hf : Mends g (f (h c.next)) (f' (h c.next)) c) : Mends g (p >>= f) (p >>= f') c := by
  refine congr (run_bind_of_ok (hp c hc.language)) (fun d hcd => ?_) hf
  rw [run_bind_of_ok (hp d hcd.right), hg hcd]

theorem position {f f' : Position → Parser β} (hg : g.Alike c)
    (hf : Mends g (f c.start) (f' c.start) c) :
    Mends g (Parser.position >>= f) (Parser.position >>= f') c := by
  refine congr (run_bind_of_ok rfl) (fun d hcd => ?_) hf
  have hposition : Parser.position.run.run d = (.ok d.start, d) := rfl
  have hhead := hcd.head? (hg hcd).symm
  rw [run_bind_of_ok hposition, Cursor.start, Cursor.start, List.headD_eq_head?_getD, ← hhead,
    ← List.headD_eq_head?_getD]

theorem remaining {f f' : Nat → Parser β}
    (hf : ∀ m, c.rest.length ≤ m + 1 → Mends g (f c.rest.length) (f' m) c) :
    Mends g (Parser.remaining >>= f) (Parser.remaining >>= f') c := by
  have hremaining : ∀ e : Cursor, Parser.remaining.run.run e = (.ok e.rest.length, e) := fun _ => rfl
  refine ⟨(hf c.rest.length (Nat.le_succ _)).front, fun hrun => ?_, fun {d x c'} hcd hrun hlog => ?_⟩
  · rw [run_bind_of_ok (hremaining c)] at hrun
    exact (hf c.rest.length (Nat.le_succ _)).passes hrun
  · have hlength := hcd.length_eq
    have hle := g.length_removed_le
    rw [run_bind_of_ok (hremaining c)] at hrun
    rw [run_bind_of_ok (hremaining d)]
    exact (hf d.rest.length (by omega)).mends hcd hrun hlog

theorem depthBound {f f' : Nat → Parser β}
    (hf : ∀ m, 16 * c.rest.length ≤ m → Mends g (f (16 * c.rest.length + 16)) (f' m) c) :
    Mends g (Parser.depthBound >>= f) (Parser.depthBound >>= f') c := by
  rw [Parser.depthBound, bind_assoc, bind_assoc]
  refine remaining fun m hm => ?_
  rw [pure_bind, pure_bind]
  exact hf _ (by omega)

/-! ### Reading a lexeme -/

/-- Both runs read the next lexeme. -/
theorem read {f f' : Located → Parser β} (hc : c.Ready r) (hg : g.Alike c) (heof : c.next ≠ .eof)
    (hf : c.skip.Ready (r - 1) → ∀ u, Mends g (f u) (f' u) c.skip) :
    Mends g (advance >>= f) (advance >>= f') c := by
  have hskip := Cursor.onward_skip hc.ends heof
  have hf := hf (hc.skip heof)
  obtain ⟨u, hu⟩ := run_advance_skip heof
  refine ⟨(hf u).front.trans (Nat.le_of_succ_le hskip.length), fun hrun => ?_,
    fun {d x c'} hcd hrun hlog => ?_⟩
  · rw [run_bind_of_ok hu] at hrun
    obtain ⟨hends, hlength, hwithin⟩ := (hf u).passes hrun
    exact ⟨hends, hlength, hskip.log.trans hwithin⟩
  · obtain ⟨v, hv, hv', hcd'⟩ := hcd.skip (hg hcd).symm heof
    rw [run_bind_of_ok hv] at hrun
    rw [run_bind_of_ok hv', ← d.log_skip]
    exact (hf v).mends hcd' hrun (hlog.trans c.log_skip.symm)

section

variable {p : Parser Bool} {h : Lexeme → Bool} {x x' y y' : Parser β}

theorem untaken (hc : c.Ready r) (hg : g.Alike c) (hp : Takes p h) (hno : h c.next = false)
    (hy : Mends g y y' c) :
    Mends g (p >>= fun yes => if yes = true then x else y)
      (p >>= fun yes => if yes = true then x' else y') c := by
  refine congr ?_ (fun d hcd => ?_) hy
  · rw [run_bind_of_ok (hp.no c hc.language hno)]
    rfl
  · rw [run_bind_of_ok (hp.no d hcd.right (hg hcd ▸ hno))]
    rfl

theorem taken (hc : c.Ready r) (hg : g.Alike c) (hp : Takes p h) (hyes : h c.next = true)
    (hx : c.skip.Ready (r - 1) → Mends g x x' c.skip) :
    Mends g (p >>= fun yes => if yes = true then x else y)
      (p >>= fun yes => if yes = true then x' else y') c := by
  have heof : c.next ≠ .eof := hp.ne_eof hyes
  have hskip := Cursor.onward_skip hc.ends heof
  have hx := hx (hc.skip heof)
  have hrun := hp.yes c hc.language hyes
  refine ⟨hx.front.trans (Nat.le_of_succ_le hskip.length), fun hbind => ?_,
    fun {d z c'} hcd hbind hlog => ?_⟩
  · rw [run_bind_of_ok hrun] at hbind
    obtain ⟨hends, hlength, hwithin⟩ := hx.passes hbind
    exact ⟨hends, hlength, hskip.log.trans hwithin⟩
  · obtain ⟨-, -, -, hcd'⟩ := hcd.skip (hg hcd).symm heof
    rw [run_bind_of_ok hrun] at hbind
    rw [run_bind_of_ok (hp.yes d hcd.right (hg hcd ▸ hyes)), ← d.log_skip]
    exact hx.mends hcd' hbind (hlog.trans c.log_skip.symm)

end

end Mends

end Parser

end CilScope.Source
