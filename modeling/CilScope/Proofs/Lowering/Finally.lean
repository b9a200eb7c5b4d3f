import CilScope.Proofs.Draft.Escape
import CilScope.Proofs.Lowering.Nesting

/-!
# Handlers that always run

Every `finally` of a method becomes one clause, in the order in which the blocks end. Its handler ends
with an `endfinally`, and the branches in it stay in it unless the block returns or jumps to a loop
around it. `Tracked` says of a step which blocks its new clauses belong to and which labels its branches
may go to, and `tracks_statement` shows it of all statements.
-/

namespace CilScope.Source

/-! ## Blocks that always run -/

mutual

/-- Whether a statement neither returns nor jumps to a loop around it, other than the loops `inner`. -/
def Stmt.stays (inner : List LoopKind) : Stmt → Bool
  | .return_ .. => false
  | .break_ _ kind | .continue_ _ kind => inner.any fun k => kind.all (· = k)
  | .if_ _ _ then_ none => staysAll inner then_
  | .if_ _ _ then_ (some else_) => staysAll inner then_ && staysAll inner else_
  | .while_ _ kind _ body none => staysAll (kind :: inner) body
  | .while_ _ kind _ body (some step) => staysAll (kind :: inner) body && step.stays inner
  | .doWhile _ body _ _ => staysAll (.do_ :: inner) body
  | .try_ _ body handler finally_ =>
    staysAll inner body &&
      (match handler with
        | some (_, body) => staysAll inner body
        | none => true) &&
      (match finally_ with
        | some body => staysAll inner body
        | none => true)
  | .block _ body => staysAll inner body
  | _ => true

/-- Whether all statements stay. -/
def staysAll (inner : List LoopKind) : List Stmt → Bool
  | [] => true
  | s :: rest => s.stays inner && staysAll inner rest

end

mutual

/-- The `finally` blocks of a statement, in the order in which they end. -/
def Stmt.finallies : Stmt → List (List Stmt)
  | .if_ _ _ then_ none => finalliesAll then_
  | .if_ _ _ then_ (some else_) => finalliesAll then_ ++ finalliesAll else_
  | .while_ _ _ _ body none => finalliesAll body
  | .while_ _ _ _ body (some step) => finalliesAll body ++ step.finallies
  | .doWhile _ body _ _ => finalliesAll body
  | .try_ _ body handler finally_ =>
    finalliesAll body ++
      (match handler with
        | some (_, body) => finalliesAll body
        | none => []) ++
      (match finally_ with
        | some body => finalliesAll body ++ [body]
        | none => [])
  | .block _ body => finalliesAll body
  | _ => []

/-- The `finally` blocks of some statements. -/
def finalliesAll : List Stmt → List (List Stmt)
  | [] => []
  | s :: rest => s.finallies ++ finalliesAll rest

end

end CilScope.Source

namespace CilScope

/-- The branches from `d` to `d'` go to labels from index `n` on. -/
def Draft.Aims (n : Nat) (d d' : Draft) : Prop :=
  ∀ k i l, d.code.size ≤ k → d'.code[k]? = some i → i.operand = .label l → n ≤ l.index

namespace Draft.Aims

variable {n : Nat} {d d₁ d' : Draft} {i : DraftInstruction}

theorem rest (h : d'.code = d.code) : Aims n d d' := fun k i _ hk hi _ => by
  rw [h, Array.getElem?_eq_none hk] at hi
  cases hi

theorem push (h : d'.code = d.code.push i) (hi : ∀ l, i.operand = .label l → n ≤ l.index) :
    Aims n d d' := fun k j l hk hj hl => by
  have hlt := (Array.getElem?_eq_some_iff.1 hj).1
  rw [h, Array.size_push] at hlt
  obtain rfl : k = d.code.size := by omega
  rw [h, Array.getElem?_push_size] at hj
  cases hj
  exact hi l hl

theorem seq (h : Aims n d d₁) (h' : Aims n d₁ d') (hcode : d₁.code.toList <+: d'.code.toList) :
    Aims n d d' := fun k i l hk hi hl => by
  rcases Nat.lt_or_ge k d₁.code.size with hlt | hge
  · exact h k i l hk ((getElem?_extended hcode hlt).symm.trans hi) hl
  · exact h' k i l hge hi hl

end Draft.Aims

namespace Lowering

open Draft (Exits Aims)
open Source (Stmt LoopKind staysAll)

/-! ## Steps without clauses -/

/-- The steps from `s` to `s'` add no clause, and branch to labels from index `n` on. -/
structure Bare (n : Nat) (s s' : State) : Prop where
  code : s.draft.code.toList <+: s'.draft.code.toList
  labels : s.draft.labels.size ≤ s'.draft.labels.size
  clauses : s'.draft.clauses = s.draft.clauses
  aims : Aims n s.draft s'.draft

variable {p : Program} {n : Nat} {c : Context} {s s' s'' : State}

theorem Bare.of_eq (h : s'.draft = s.draft) : Bare n s s' :=
  ⟨h ▸ List.prefix_refl _, h ▸ Nat.le_refl _, by rw [h], .rest (by rw [h])⟩

theorem Bare.trans (h : Bare n s s') (h' : Bare n s' s'') : Bare n s s'' :=
  ⟨h.code.trans h'.code, Nat.le_trans h.labels h'.labels, h'.clauses.trans h.clauses,
    h.aims.seq h'.aims h'.code⟩

theorem Bare.append {i : DraftInstruction} (h : Draft.Appends i s.draft s'.draft)
    (hi : ∀ l, i.operand = .label l → n ≤ l.index) : Bare n s s' :=
  ⟨(h.grows 0).code, (h.grows 0).labels, h.clauses, .push h.code hi⟩

theorem Bare.branch {op : Opcode} {l : Label} (hop : op.operandKind = .branch) (hl : n ≤ l.index) :
    Bare n s (branch op l c s).2 where
  code := (Draft.grows_branch s.draft hop 0).code
  labels := (Draft.grows_branch s.draft hop 0).labels
  clauses := by rw [Lowering.branch, edit]; exact Draft.clauses_push ..
  aims := .push (Draft.code_branch s.draft) (by rintro _ ⟨⟩; exact hl)

/-- A step that adds no clause, and whose result has `Q`. -/
def Bares (p : Program) (n : Nat) {α : Type} (g : Gen α) (Q : α → Prop) : Prop :=
  ∀ c s, c.program = p → n ≤ s.draft.labels.size → Bare n s (g c s).2 ∧ Q (g c s).1

namespace Bares

variable {α β : Type} {Q : α → Prop} {R : β → Prop}

theorem bind {g : Gen α} {k : α → Gen β} (hg : Bares p n g Q) (hk : ∀ a, Q a → Bares p n (k a) R) :
    Bares p n (g >>= k) R := by
  intro c s hc hn
  obtain ⟨hbare, hQ⟩ := hg c s hc hn
  obtain ⟨hbare', hR⟩ := hk _ hQ c _ hc (Nat.le_trans hn hbare.labels)
  exact ⟨hbare.trans hbare', hR⟩

theorem seq {g : Gen Unit} {k : Gen β} (hg : Bares p n g fun _ => True) (hk : Bares p n k R) :
    Bares p n (g >>= fun _ => k) R :=
  hg.bind fun _ _ => hk

theorem aside {g : Gen α} (h : Aside g) : Bares p n g fun _ => True :=
  fun c s _ _ => ⟨.of_eq (h c s).1, trivial⟩

theorem newLabel : Bares p n newLabel fun l => n ≤ l.index := fun _ s _ hn =>
  ⟨⟨List.prefix_refl _, (Draft.grows_newLabel s.draft 0).labels, rfl, .rest rfl⟩, hn⟩

theorem mark (l : Label) : Bares p n (mark l) fun _ => True := fun _ s _ _ =>
  ⟨⟨Draft.prefix_of_eq (Draft.code_mark s.draft), (Draft.size_labels_mark s.draft).ge,
    Draft.clauses_mark s.draft, .rest (Draft.code_mark s.draft)⟩, trivial⟩

theorem branch {op : Opcode} {l : Label} (hop : op.operandKind = .branch) (hl : n ≤ l.index) :
    Bares p n (branch op l) fun _ => True :=
  fun _ _ _ _ => ⟨.branch hop hl, trivial⟩

theorem plain {f : Draft → Draft} (h : ∀ d, ∃ i, Draft.Appends i d (f d) ∧ i.Plain) :
    Bares p n (edit f) fun _ => True := fun _ s _ _ => by
  obtain ⟨i, hi, hplain⟩ := h s.draft
  exact ⟨.append hi fun l hl => absurd hl (hplain.operand l), trivial⟩

theorem mention {g : Gen Unit} (h : Mention g) : Bares p n g fun _ => True := by
  intro c s _ _
  refine ⟨?_, trivial⟩
  have hbare {op : Opcode} {t : Token} {r : References} {d : Draft}
      (hi : Draft.Appends ⟨op, .token t⟩ s.draft d) : Bare n s { s with references := r, draft := d } :=
    .append hi fun _ => nofun
  cases h with
  | box k => exact hbare (Draft.appends_emitToken s.draft rfl _)
  | string text => exact hbare (Draft.appends_emitToken s.draft rfl _)
  | method pops pushes hm hop =>
    exact hbare (Draft.appends_emitCall s.draft (token_of_mem_call hop) _ _ _)

theorem coerce (source target : StaticType) (pos : Source.Position) :
    Bares p n (coerce source target pos) fun _ => True := by
  have hname (t : StaticType) : Bares p n (typeName t) fun _ => True :=
    .aside (.look fun c _ => c.program.typeName t)
  unfold Lowering.coerce box
  split
  · exact (hname _).bind fun _ _ => (hname _).bind fun _ _ => .aside (.report _ _)
  · split
    · split
      · exact .mention (.box .int32)
      · split
        · exact .mention (.box .boolean)
        · exact .aside (.pure _)
    · exact .aside (.pure _)

end Bares

/-- **Walks that may not declare locals add no clause, and branch to their own labels and exits.** -/
theorem Walk.bares {L : Exit → Prop} {b : Freedom} {α : Type} {g : Gen α} {Q : α → Prop}
    (h : Walk p (fun _ => True) L b g Q) (hb : b ≠ .declares) :
    ∀ n, (∀ l, L (.label l) → n ≤ l.index) → Bares p n g Q := by
  have hplain {n : Nat} {f : Draft → Draft} (h : ∀ d, ∃ i, Draft.Appends i d (f d) ∧ i.Plain) :
      Bares p n (edit f) fun _ => True := .plain h
  induction h with
  | look f h => exact fun n _ c s hc _ => ⟨.of_eq rfl, h c s (hc ▸ sees_any c s)⟩
  | bind _ _ ihg ihk => exact fun n hL => (ihg hb n hL).bind fun a ha => ihk a ha hb n hL
  | weaken _ h ih => exact fun n hL c s hc hn => ⟨(ih hb n hL c s hc hn).1, h _ (ih hb n hL c s hc hn).2⟩
  | report pos cause => exact fun n _ => .aside (.report pos cause)
  | resolveType t => exact fun n _ => .aside (.resolveType t)
  | point pos =>
    refine fun n _ _ s _ _ => ⟨⟨List.prefix_refl _, ?_, rfl, .rest rfl⟩, trivial⟩
    exact (Draft.grows_point s.draft pos 0).labels
  | emission h => exact fun n _ => hplain h.plain
  | mention h => exact fun n _ => .mention h
  | ret h => exact fun n _ _ s _ _ => ⟨.append (Draft.appends_ret s.draft) nofun, trivial⟩
  | branch hop hl => exact fun n hL => .branch hop (hL _ hl)
  | probe hg _ =>
    intro n _ c s hc _
    have hsees : Sees p (fun _ => True) { c with muted := true } { s with draft := {} } :=
      hc ▸ sees_any { c with muted := true } _
    exact ⟨.of_eq rfl, (hg.quiet (typing_any p) nofun _ _ hsees).2⟩
  | updateLocal slot f h => exact fun n _ _ _ _ _ => ⟨.of_eq rfl, trivial⟩
  | @shortCircuit L _ isOr lhs rhs _ _ ihl ihr =>
    refine fun n _ => Bares.newLabel.bind fun shortcut hshortcut => Bares.newLabel.bind fun stop hstop => ?_
    refine (ihl (· = .label shortcut) shortcut isOr rfl hb n (by rintro _ ⟨⟩; exact hshortcut)).seq ?_
    refine (ihr (fun _ => False) hb n fun _ => False.elim).bind fun t _ => ?_
    refine (Bares.coerce _ _ _).seq ((Bares.branch rfl hstop).seq ((Bares.mark shortcut).seq ?_))
    refine (hplain fun d => Draft.plain_loadInt d (if isOr then 1 else 0)).seq ((Bares.mark stop).seq ?_)
    exact fun _ _ _ _ => ⟨.of_eq rfl, trivial⟩
  | jumpOnBoth isOr w _ _ h ihl ihr =>
    intro n hL
    unfold Lowering.jumpOnBoth
    split
    · exact (ihl _ _ w h hb n hL).seq (ihr _ _ w h hb n hL)
    · refine Bares.newLabel.bind fun skip hskip => ?_
      refine (ihl (· = .label skip) skip _ rfl hb n (by rintro _ ⟨⟩; exact hskip)).seq ?_
      exact (ihr _ _ w h hb n hL).seq (.mark skip)
  | declareLocal | inScope | loopJump | leaveMethod | ifStatement | whileLoop | doLoop
  | tryStatement => exact absurd rfl hb

/-! ## What the clauses belong to -/

/-- The clause has the handler of the block: it ends with an `endfinally`, and if the block neither returns
nor jumps out of itself, its branches stay in it. Their labels are those from index `m` on. -/
structure Seals (m : Nat) (d : Draft) (clause : DraftClause) (block : List Stmt) : Prop where
  finishes : Draft.Finishes d clause
  shut : staysAll [] block → Draft.Shut m d clause

/-- The innermost loops are of the kinds `inner`, and their labels have an index from `n` on. -/
def Looping (n : Nat) (inner : List LoopKind) (c : Context) : Prop :=
  ∃ frames outer, c.loops = frames ++ outer ∧ frames.map (·.kind) = inner ∧
    ∀ f ∈ frames, n ≤ f.exit.index ∧ n ≤ f.next.index

/-- Where all labels may be gone to. -/
def everywhere (d : Draft) : Exits := ⟨d.Has, d.Has, True⟩

/-- What the steps from `s` to `s'` do, if the labels `M` are bound by the steps around them. The new
clauses of blocks that always run are those of `blocks`. If the steps stay inside the loops of some kinds,
as `closed` tells, and those loops and `M` have labels from index `n` on, then so do the branches. -/
structure Tracked (M : Label → Prop) (closed : List LoopKind → Prop) (blocks : List (List Stmt))
    (c : Context) (s s' : State) : Prop where
  code : s.draft.code.toList <+: s'.draft.code.toList
  labels : s.draft.labels.size ≤ s'.draft.labels.size
  target : ∀ l, ¬M l → s.draft.Has l → s'.draft.target? l = s.draft.target? l
  clauses : ∃ new, s'.draft.clauses.toList = s.draft.clauses.toList ++ new ∧
    List.Forall₂ (Seals s.draft.labels.size s'.draft) (new.filter (·.kind = .finally_)) blocks
  sound : s'.draft.Sound
  shared : ∀ l slot, s'.exit = some (l, slot) → s'.draft.Has l
  closed : ∀ n inner, closed inner → Looping n inner c → (∀ l, M l → n ≤ l.index) →
    n ≤ s.draft.labels.size → s'.exit = s.exit ∧ Aims n s.draft s'.draft

variable {M M' : Label → Prop} {k k' m : Nat} {closed closed' closed₁ : List LoopKind → Prop}
  {blocks blocks' : List (List Stmt)} {d d' : Draft} {clause : DraftClause} {block : List Stmt}

theorem Seals.mono (h : Seals n d clause block) (hm : m ≤ n) : Seals m d clause block :=
  ⟨h.finishes, fun hb => (h.shut hb).mono hm⟩

/-- What is closed stays closed if its labels stay where they are. -/
theorem Seals.grow (h : Seals m d clause block) (hcode : d.code.toList <+: d'.code.toList)
    (hbinds : ∀ l t, m ≤ l.index → d.target? l = some t → d'.target? l = some t) :
    Seals m d' clause block :=
  ⟨h.finishes.grow hcode, fun hb => (h.shut hb).grow h.finishes.stop_le hcode hbinds⟩

/-- A permission to go everywhere stays one. -/
theorem permits_everywhere (h : Permits p (everywhere s.draft) c s)
    (hlabels : s.draft.labels.size ≤ s'.draft.labels.size)
    (hshared : ∀ l slot, s'.exit = some (l, slot) → s'.draft.Has l) (hsound : s'.draft.Sound) :
    Permits p (everywhere s'.draft) c s' := by
  refine (h.of_labels hlabels (fun l slot hl => .inr (hshared l slot hl)) hsound).within ?_
  exact ⟨fun l hl => Nat.lt_of_lt_of_le hl hlabels, fun l hl => .inr (Nat.lt_of_lt_of_le hl hlabels), id⟩

/-- At the start of a handler too. -/
theorem permits_handling (hp : Permits p (everywhere s.draft) c s) (outer : Nat) (kind : ClauseKind) :
    Permits p (everywhere (s.handling outer kind).draft) c (s.handling outer kind) :=
  permits_everywhere hp (Draft.grows_beginHandler s.draft outer kind 0).labels
    (fun l slot hl => Nat.lt_of_lt_of_le (hp.shared l slot hl)
      (Draft.grows_beginHandler s.draft outer kind 0).labels) (hp.sound.beginHandler outer kind)

namespace Tracked

theorem permits (h : Tracked M closed blocks c s s') (hp : Permits p (everywhere s.draft) c s) :
    Permits p (everywhere s'.draft) c s' :=
  permits_everywhere hp h.labels h.shared h.sound

theorem size_le (h : Tracked M closed blocks c s s') : s.draft.code.size ≤ s'.draft.code.size := by
  simpa only [Array.length_toList] using h.code.length_le

theorem weaken (h : Tracked M closed blocks c s s') (hM : ∀ l, M l → M' l)
    (hclosed : ∀ inner, closed' inner → closed inner) : Tracked M' closed' blocks c s s' :=
  { h with
    target := fun l hl => h.target l fun hl' => hl (hM l hl')
    closed := fun n inner hc hloop hn => h.closed n inner (hclosed inner hc) hloop fun l hl =>
      hn l (hM l hl) }

/-- What is closed before a step is closed behind it. -/
theorem grow (h : Tracked M closed blocks c s s') (hM : ∀ l, M l → l.index < m)
    (hs : Seals m s.draft clause block) : Seals m s'.draft clause block :=
  hs.grow h.code fun l _ hl ht =>
    (h.target l (fun hM' => Nat.not_lt.2 hl (hM l hM')) (Draft.has_of_target? s.draft ht)).trans ht

/-- Two steps one behind the other. -/
theorem trans (h : Tracked M closed blocks c s s') (h' : Tracked M closed' blocks' c s' s'')
    (hM : ∀ l, M l → s.draft.Has l) :
    Tracked M (fun inner => closed inner ∧ closed' inner) (blocks ++ blocks') c s s'' where
  code := h.code.trans h'.code
  labels := Nat.le_trans h.labels h'.labels
  target := fun l hl hhas =>
    (h'.target l hl (Nat.lt_of_lt_of_le hhas h.labels)).trans (h.target l hl hhas)
  clauses := by
    obtain ⟨new, hnew, hblocks⟩ := h.clauses
    obtain ⟨new', hnew', hblocks'⟩ := h'.clauses
    refine ⟨new ++ new', by rw [hnew', hnew, List.append_assoc], ?_⟩
    rw [List.filter_append]
    exact List.rel_append (hblocks.imp fun _ _ => h'.grow hM)
      (hblocks'.imp fun _ _ hs => hs.mono h.labels)
  sound := h'.sound
  shared := h'.shared
  closed := fun n inner hc hloop hM' hn =>
    have ⟨hexit, haims⟩ := h.closed n inner hc.1 hloop hM' hn
    have ⟨hexit', haims'⟩ := h'.closed n inner hc.2 hloop hM' (Nat.le_trans hn h.labels)
    ⟨hexit'.trans hexit, haims.seq haims' h'.code⟩

/-- A step that lays out a block without clauses. -/
theorem of_lays {x : Exits} (h : Lays x s.draft.labels.size s s') (hp : Permits p (everywhere s.draft) c s)
    (hclauses : s'.draft.clauses = s.draft.clauses)
    (hclosed : ∀ n inner, closed inner → Looping n inner c → (∀ l, M l → n ≤ l.index) →
      n ≤ s.draft.labels.size → s'.exit = s.exit ∧ Aims n s.draft s'.draft) :
    Tracked M closed [] c s s' where
  code := h.grows.code
  labels := h.labels
  target := fun l _ hl => h.grows.target l hl hl
  clauses := ⟨[], by rw [hclauses, List.append_nil], .nil⟩
  sound := h.block.sound hp.sound
  shared := fun l slot hl =>
    (h.shared l slot hl).elim (fun hl => Nat.lt_of_lt_of_le (hp.shared l slot hl.1) h.labels) (·.2.1)
  closed := hclosed

/-- A step that appends nothing. -/
theorem of_rests (h : Draft.Rests s.draft s'.draft) (hexit : s'.exit = s.exit)
    (hp : Permits p (everywhere s.draft) c s) : Tracked M (fun _ => True) [] c s s' :=
  .of_lays (x := everywhere s.draft) (.of_rests h hexit) hp h.clauses fun _ _ _ _ _ _ =>
    ⟨hexit, .rest h.code⟩

/-- A handler between its start and its end. Its clause comes behind those in it. -/
theorem handler {kind : ClauseKind} {outer : Nat} (houter : outer ≤ s.draft.code.size)
    (h : Tracked M closed blocks c (s.handling outer kind) s')
    (hlast : List.Forall₂ (Seals s.draft.labels.size s'.draft)
      ([(⟨kind, outer, s.draft.code.size, s'.draft.code.size⟩ : DraftClause)].filter
        (·.kind = .finally_)) blocks') :
    Tracked M closed (blocks ++ blocks') c s
      { s' with draft := s'.draft.endHandler ⟨kind, outer, s.draft.code.size⟩ } := by
  have hbegin := Draft.grows_beginHandler s.draft outer kind s.draft.labels.size
  have hend := Draft.grows_endHandler s'.draft ⟨kind, outer, s.draft.code.size⟩ s'.draft.labels.size
  have hgrow {m : Nat} {clause : DraftClause} {block : List Stmt} (hs : Seals m s'.draft clause block) :
      Seals m (s'.draft.endHandler ⟨kind, outer, s.draft.code.size⟩) clause block :=
    hs.grow hend.code fun l _ _ ht => hend.binds l _ ht
  refine ⟨h.code, ?_, fun l hl hhas => ?_, ?_, h.sound.endHandler houter h.size_le, fun l slot hl => ?_,
    fun n inner hc hloop hM' hn => ?_⟩
  · exact Nat.le_trans hbegin.labels (Nat.le_trans h.labels hend.labels)
  · have hhas' : (s.handling outer kind).draft.Has l := Nat.lt_of_lt_of_le hhas hbegin.labels
    have hhas'' : s'.draft.Has l := Nat.lt_of_lt_of_le hhas' h.labels
    exact (hend.target l hhas'' hhas'').trans ((h.target l hl hhas').trans (hbegin.target l hhas hhas))
  · obtain ⟨new, hnew, hblocks⟩ := h.clauses
    refine ⟨new ++ [⟨kind, outer, s.draft.code.size, s'.draft.code.size⟩], ?_, ?_⟩
    · show (s'.draft.clauses.push _).toList = _
      rw [Array.toList_push, hnew, List.append_assoc]
      rfl
    · rw [List.filter_append]
      exact List.rel_append (hblocks.imp fun _ _ hs => (hgrow hs).mono hbegin.labels)
        (hlast.imp fun _ _ => hgrow)
  · exact Nat.lt_of_lt_of_le (h.shared l slot hl) hend.labels
  · exact h.closed n inner hc hloop hM' (Nat.le_trans hn hbegin.labels)

end Tracked

/-- A step that is tracked wherever there are the labels `M` and at least `k` instructions. -/
def Tracks (p : Program) (M : Label → Prop) (k : Nat) (closed : List LoopKind → Prop)
    (blocks : List (List Stmt)) {α : Type} (g : Gen α) : Prop :=
  ∀ c s, Permits p (everywhere s.draft) c s → (∀ l, M l → s.draft.Has l) → k ≤ s.draft.code.size →
    Tracked M closed blocks c s (g c s).2

namespace Tracks

variable {α β : Type}

theorem weaken {g : Gen α} (h : Tracks p M k closed blocks g) (hM : ∀ l, M l → M' l) (hk : k ≤ k')
    (hclosed : ∀ inner, closed' inner → closed inner) : Tracks p M' k' closed' blocks g :=
  fun c s hp hM' hk' =>
    (h c s hp (fun l hl => hM' l (hM l hl)) (Nat.le_trans hk hk')).weaken hM hclosed

theorem bind {g : Gen α} {f : α → Gen β} (hg : Tracks p M k closed blocks g)
    (hf : ∀ a, Tracks p M k closed' blocks' (f a)) :
    Tracks p M k (fun inner => closed inner ∧ closed' inner) (blocks ++ blocks') (g >>= f) :=
  fun c s hp hM hk =>
    have h := hg c s hp hM hk
    h.trans (hf _ c _ (h.permits hp) (fun l hl => Nat.lt_of_lt_of_le (hM l hl) h.labels)
      (Nat.le_trans hk h.size_le)) hM

/-- A step without clauses in front. -/
theorem first {g : Gen α} {f : α → Gen β} (hg : Tracks p M k (fun _ => True) [] g)
    (hf : ∀ a, Tracks p M k closed blocks (f a)) : Tracks p M k closed blocks (g >>= f) :=
  (hg.bind hf).weaken (fun _ => id) (Nat.le_refl k) fun _ hc => ⟨trivial, hc⟩

/-- A step without clauses behind. -/
theorem last {g : Gen α} {f : α → Gen β} (hg : Tracks p M k closed blocks g)
    (hf : ∀ a, Tracks p M k (fun _ => True) [] (f a)) : Tracks p M k closed blocks (g >>= f) := by
  have h := (hg.bind hf).weaken (fun _ => id) (Nat.le_refl k) fun _ hc => ⟨hc, trivial⟩
  rwa [List.append_nil] at h

/-- A walk that declares nothing, whose exits are among `M`. -/
theorem walk {L : Exit → Prop} {g : Gen α} {Q : α → Prop} (h : Walk p (fun _ => True) L .assigns g Q)
    (hL : ∀ l, L (.label l) → M l) : Tracks p M k (fun _ => True) [] g := by
  intro c s hp hM _
  have hsees : Sees p (fun _ => True) c s := hp.program ▸ sees_any c s
  have hlays := (h.laid (everywhere s.draft) c s hp fun e he => by
    cases e with
    | label l => exact ⟨hM l (hL l he), hM l (hL l he)⟩
    | ret => trivial).1
  have hexit := (h.quiet (typing_any p) nofun c s hsees).1.exit
  have hbare (n : Nat) (hn : n ≤ s.draft.labels.size) (hL' : ∀ l, L (.label l) → n ≤ l.index) :=
    (h.bares nofun n hL' c s hp.program hn).1
  refine .of_lays hlays hp (hbare 0 (Nat.zero_le _) fun _ _ => Nat.zero_le _).clauses ?_
  exact fun n inner _ _ hM' hn => ⟨hexit, (hbare n hn fun l hl => hM' l (hL l hl)).aims⟩

theorem aside {g : Gen α} (h : Aside g) : Tracks p M k (fun _ => True) [] g := fun c s hp _ _ =>
  .of_rests ((h c s).1 ▸ .refl _) (h c s).2 hp

theorem declareLocal (name : String) (type : StaticType) (pos : Source.Position) :
    Tracks p M k (fun _ => True) [] (declareLocal name type pos) := by
  intro c s hp hM hk
  cases hl : findLocal? c.program.language s.scopes name with
  | some l =>
    rw [declareLocal_taken hl]
    exact aside ((Aside.report pos _).bind fun _ => .pure _) c s hp hM hk
  | none =>
    rw [declareLocal_apply hl]
    exact .of_rests (Draft.rests_declareLocal ..) rfl hp

/-- A new label, for what follows to bind. -/
theorem fresh {f : Label → Gen α}
    (h : ∀ l, Tracks p (fun l' => l' = l ∨ M l') k closed blocks (f l)) :
    Tracks p M k closed blocks (newLabel >>= f) := by
  intro c s hp hM hk
  have hgrows := Draft.grows_newLabel s.draft s.draft.labels.size
  have hnew : Tracked M (fun _ => True) [] c s s.fresh := .of_rests (Draft.rests_newLabel s.draft) rfl hp
  have hrest := h s.label c s.fresh (hnew.permits hp) (by
    rintro l (rfl | hl)
    · exact Draft.has_newLabel s.draft
    · exact Nat.lt_of_lt_of_le (hM l hl) hgrows.labels) hk
  refine ⟨hrest.code, Nat.le_trans hgrows.labels hrest.labels, fun l hl hhas => ?_, ?_, hrest.sound,
    hrest.shared, fun n inner hc hloop hM' hn => ?_⟩
  · have hhas' : s.fresh.draft.Has l := Nat.lt_of_lt_of_le hhas hgrows.labels
    refine (hrest.target l ?_ hhas').trans (hgrows.target l hhas hhas)
    rintro (rfl | hl')
    · exact Nat.lt_irrefl _ hhas
    · exact hl hl'
  · obtain ⟨new, hnew, hblocks⟩ := hrest.clauses
    exact ⟨new, hnew, hblocks.imp fun _ _ hs => hs.mono hgrows.labels⟩
  · refine hrest.closed n inner hc hloop ?_ (Nat.le_trans hn hgrows.labels)
    rintro l (rfl | hl)
    · exact hn
    · exact hM' l hl

theorem mark {l : Label} (hl : M l) : Tracks p M k (fun _ => True) [] (mark l) := by
  intro c s hp hM _
  have hcode := Draft.code_mark (l := l) s.draft
  have hsize := Draft.size_labels_mark (l := l) s.draft
  refine ⟨Draft.prefix_of_eq hcode, hsize.ge, fun l' hl' _ => ?_, ⟨[], ?_, .nil⟩, hp.sound.mark (hM l hl),
    fun l' slot he => has_mark (hp.shared l' slot he), fun n inner _ _ _ _ => ⟨rfl, .rest hcode⟩⟩
  · exact Draft.target?_mark_of_ne s.draft fun heq =>
      hl' ((show l' = l from congrArg Label.mk heq) ▸ hl)
  · rw [List.append_nil]
    exact congrArg Array.toList (Draft.clauses_mark s.draft)

/-- A scope of its own. -/
theorem inScope {g : Gen Unit} (hg : Tracks p M k closed blocks g) :
    Tracks p M k closed blocks (inScope g) := by
  intro c s hp hM hk
  have h := hg c { s with scopes := [] :: s.scopes }
    (hp.of_labels (Nat.le_refl _) (fun _ _ => .inl) hp.sound) hM hk
  rw [inScope_apply]
  obtain ⟨log, hlog⟩ := complain_apply ((g c { s with scopes := [] :: s.scopes }).2.scopes.headD []) c
    { (g c { s with scopes := [] :: s.scopes }).2 with
      scopes := (g c { s with scopes := [] :: s.scopes }).2.scopes.tail }
  rw [hlog]
  exact ⟨h.code, h.labels, h.target, h.clauses, h.sound, h.shared, h.closed⟩

theorem nested {g : Gen Unit} (hg : Tracks p M k closed blocks g) :
    Tracks p M k closed blocks (nested g) :=
  inScope ((walk (walk_blockMark (L := fun _ => False)) fun _ => False.elim).first fun _ => hg)

/-- Steps in other regions or handlers. -/
theorem within {g : Gen α} {f : Context → Context} (hf : ∀ c, (f c).loops = c.loops)
    (hp : ∀ c s, Permits p (everywhere s.draft) c s → Permits p (everywhere s.draft) (f c) s)
    (hg : Tracks p M k closed blocks g) : Tracks p M k closed blocks (withReader f g) := by
  intro c s hp' hM hk
  have h := hg (f c) s (hp c s hp') hM hk
  refine ⟨h.code, h.labels, h.target, h.clauses, h.sound, h.shared, fun n inner hc hloop => ?_⟩
  exact h.closed n inner hc (by rwa [Looping, hf])

/-- The body of a loop. -/
theorem inLoop {g : Gen Unit} (kind : LoopKind) {exit next : Label} (hexit : M exit) (hnext : M next)
    (hg : Tracks p M k closed blocks g) :
    Tracks p M k (fun inner => closed (kind :: inner)) blocks (inLoop kind exit next (Lowering.nested g)) := by
  intro c s hp hM hk
  have h := hg.nested _ s (hp.inLoop kind ⟨hM exit hexit, hM exit hexit⟩ ⟨hM next hnext, hM next hnext⟩) hM hk
  refine ⟨h.code, h.labels, h.target, h.clauses, h.sound, h.shared, fun n inner hc hloop hM' => ?_⟩
  obtain ⟨frames, outer, hloops, rfl, hframes⟩ := hloop
  refine h.closed n _ hc ⟨⟨kind, exit, next, c.tryDepth⟩ :: frames, outer, ?_, rfl, ?_⟩ hM'
  · rw [hloops, List.cons_append]
  · rintro f hf
    rcases List.mem_cons.1 hf with rfl | hf
    · exact ⟨hM' exit hexit, hM' next hnext⟩
    · exact hframes f hf

/-! ### Regions and handlers -/

theorem beginTry {f : Nat → Gen α} (h : ∀ region, k ≤ region → Tracks p M region closed blocks (f region)) :
    Tracks p M k closed blocks (make Draft.beginTry >>= f) := by
  intro c s hp hM hk
  have hnew : Tracked M (fun _ => True) [] c s s.guarded := .of_rests (Draft.rests_beginTry s.draft) rfl hp
  have hrest := h s.draft.code.size hk c s.guarded (hnew.permits hp)
    (fun l hl => Nat.lt_of_lt_of_le (hM l hl) hnew.labels) (Nat.le_refl _)
  exact (hnew.trans hrest hM).weaken (fun _ => id) fun _ hc => ⟨trivial, hc⟩

theorem leaveTo {stop : Label} (hstop : M stop) : Tracks p M k (fun _ => True) [] (leaveTo stop) := by
  refine walk (L := (· = .label stop)) (Q := fun _ => True) ?_ (by rintro _ ⟨⟩; exact hstop)
  exact walk_isReachable.bind fun r _ => .ite (fun _ => .branch rfl rfl) fun _ => .pure trivial

/-- A handler that catches. -/
theorem caught {g : Gen Unit} {outer : Nat} (token : Token) (houter : outer ≤ k)
    (hg : Tracks p M k closed blocks g) : Tracks p M k closed blocks (do
      let handler ← make (·.beginHandler outer (.catch_ token))
      g
      edit (·.endHandler handler)) := by
  intro c s hp hM hk
  have hlabels := (Draft.grows_beginHandler s.draft outer (.catch_ token) 0).labels
  have h := hg c (s.handling outer (.catch_ token)) (permits_handling hp outer _)
    (fun l hl => Nat.lt_of_lt_of_le (hM l hl) hlabels) hk
  exact List.append_nil blocks ▸ h.handler (Nat.le_trans houter hk) .nil

/-- A handler that always runs. Its block goes nowhere else if it stays: its own labels are new ones, and
the labels of the draft are all older. -/
theorem always {g : Gen Unit} {outer : Nat} (houter : outer ≤ k)
    (hg : Tracks p (fun _ => False) 0 (fun inner => staysAll inner block) blocks g)
    (hlaid : Laid p (fun _ => False) g fun _ => True) :
    Tracks p M k (fun inner => staysAll inner block) (blocks ++ [block]) (do
      let handler ← make (·.beginHandler outer .finally_)
      Lowering.nested g
      emit .endfinally
      edit (·.endHandler handler)) := by
  intro c s hp hM hk
  let u := s.handling outer .finally_
  let r := (Lowering.nested g c u).2
  have hpu : Permits p (everywhere u.draft) c u := permits_handling hp outer _
  have hbody : Tracked (fun _ => False) _ blocks c u r := hg.nested c u hpu nofun (Nat.zero_le _)
  have hlast : Tracked (fun _ => False) (fun _ => True) [] c r (emit .endfinally c r).2 :=
    walk (k := 0) (L := fun _ => False) (walk_emit rfl (by decide)) nofun c r (hbody.permits hpu) nofun
      (Nat.zero_le _)
  have hboth : Tracked (fun _ => False) (fun inner => staysAll inner block) blocks c u
      (emit .endfinally c r).2 := by
    have h : Tracked _ (fun inner => staysAll inner block) (blocks ++ []) c u _ :=
      (hbody.trans hlast nofun).weaken (fun _ => id) fun _ hc => ⟨hc, trivial⟩
    rwa [List.append_nil] at h
  refine (hboth.weaken nofun fun _ => id).handler (Nat.le_trans houter hk) (.cons ⟨?_, fun hstays => ?_⟩ .nil)
  · refine ⟨r.draft.code.size, ?_, hbody.size_le, ?_⟩
    · exact (Draft.appends_emit r.draft rfl).size
    · show (r.draft.emit .endfinally).code[r.draft.code.size]? = _
      rw [(Draft.appends_emit r.draft rfl).code, Array.getElem?_push_size]
  · have hlays : Lays (everywhere u.draft) u.draft.labels.size u (emit .endfinally c r).2 :=
      ((Lays.of_eq (s := u) rfl rfl).step hpu hlaid.nested).step hpu (.emit rfl nofun)
    have hlabels := (Draft.grows_beginHandler s.draft outer .finally_ 0).labels
    obtain ⟨hexit, haims⟩ := hboth.closed u.draft.labels.size [] hstays ⟨[], c.loops, rfl, rfl, nofun⟩
      nofun (Nat.le_refl _)
    refine (hlays.block.shut (m := u.draft.labels.size) hboth.sound ?_ (fun i k l hi hk hl => ?_) rfl rfl).mono
      hlabels
    · exact (Draft.appends_emit r.draft rfl).unreachable.trans (Bool.or_true _)
    · have hnew := haims i k l hi hk hl
      refine ⟨hnew, ?_⟩
      rintro (hold | hold | ⟨slot, hold⟩)
      · exact Nat.not_lt.2 hnew hold
      · exact Nat.not_lt.2 hnew hold
      · exact Nat.not_lt.2 hnew (hpu.shared l slot (hexit ▸ hold))

end Tracks

/-! ## Jumps -/

/-- A jump goes to the innermost loop it can mean. -/
theorem tracks_jump (kind : Option LoopKind) (exit : Bool) (pos : Source.Position) :
    Tracks p M k (fun inner => inner.any fun k => kind.all (· = k)) [] (jump kind exit pos) := by
  intro c s hp _ _
  have hlays := (laid_jump (L := fun _ => False) kind exit pos (everywhere s.draft) c s hp nofun).1
  have hread : (read : Gen Context) c s = (c, s) := rfl
  have hclauses : (jump kind exit pos c s).2.draft.clauses = s.draft.clauses := by
    rw [jump, apply_bind, hread]
    dsimp only
    cases c.loops.find? fun frame => kind.all (· = frame.kind) with
    | some frame => exact Draft.clauses_push ..
    | none => exact congrArg Draft.clauses (Aside.report pos _ c s).1
  refine .of_lays hlays hp hclauses fun n inner hinner hloop _ _ => ?_
  obtain ⟨frames, outer, hloops, rfl, hframes⟩ := hloop
  obtain ⟨k, hk, hkind⟩ := List.any_eq_true.1 hinner
  obtain ⟨f, hf, rfl⟩ := List.mem_map.1 hk
  cases hfind : frames.find? fun frame => kind.all (· = frame.kind) with
  | none => exact absurd hkind (List.find?_eq_none.1 hfind f hf)
  | some frame =>
    have hframe := hframes frame (List.mem_of_find?_eq_some hfind)
    rw [jump, apply_bind, hread]
    dsimp only
    rw [hloops, List.find?_append, hfind]
    refine ⟨rfl, (Bare.branch ?_ ?_).aims⟩
    · split <;> rfl
    · cases exit
      · exact hframe.2
      · exact hframe.1

theorem clauses_sharedExit (ret : StaticType) (c : Context) (s : State) :
    (sharedExit ret c s).2.draft.clauses = s.draft.clauses := by
  rw [sharedExit_apply]
  split
  · rfl
  · by_cases hret : ret = .void
    · simp only [openExit, if_pos hret]
      rfl
    · simp only [openExit, if_neg hret]
      exact (Draft.rests_declareLocal ..).clauses

theorem tracks_leaveMethod (ret : StaticType) : Tracks p M k (fun _ => False) [] (leaveMethod ret) := by
  intro c s hp _ _
  have hlays := (laid_leaveMethod (L := fun _ => False) ret (everywhere s.draft) c s hp nofun).1
  refine .of_lays hlays hp ?_ fun _ _ => False.elim
  have heq : leaveMethod ret c s = (if c.tryDepth = 0 then emit .ret else _ : Gen Unit) c s := rfl
  rw [heq]
  split
  · exact (Draft.appends_ret s.draft).clauses
  · rw [apply_bind, ← clauses_sharedExit ret c s]
    cases sharedExit ret c s with
    | mk e s₁ =>
      obtain ⟨label, slot⟩ := e
      cases slot with
      | none => exact Draft.clauses_push ..
      | some slot =>
        obtain ⟨i, hi, -⟩ := Draft.plain_storeLocal s₁.draft slot
        exact (Draft.clauses_push ..).trans hi.clauses

/-! ## Compound statements -/

section

variable {body then_ else_ : Gen Unit} {closed₂ : List LoopKind → Prop} {blocks₁ blocks₂ : List (List Stmt)}

/-- A step that is tracked everywhere is tracked here. -/
theorem Tracks.everywhere (h : Tracks p (fun _ => False) 0 closed blocks body) :
    Tracks p M k closed blocks body :=
  h.weaken nofun (Nat.zero_le k) fun _ => id

theorem tracks_condition (cond : Source.Expr) {l : Label} (w : Bool) (hl : M l) :
    Tracks p M k (fun _ => True) [] ((compile cond).jump l w) :=
  .walk (L := (· = .label l)) ((walks_compile (typing_any p) cond).jump w rfl) (by rintro _ ⟨⟩; exact hl)

theorem tracks_branch {op : Opcode} {l : Label} (hop : op.operandKind = .branch) (hl : M l) :
    Tracks p M k (fun _ => True) [] (branch op l) :=
  .walk (L := (· = .label l)) (.branch hop rfl) (by rintro _ ⟨⟩; exact hl)

theorem tracks_if (cond : Source.Expr) (ht : Tracks p (fun _ => False) 0 closed blocks then_) :
    Tracks p M k closed blocks (ifStatement (compile cond) then_ none) :=
  .fresh fun _ => (tracks_condition cond false (.inl rfl)).first fun _ =>
    ht.everywhere.nested.last fun _ => .mark (.inl rfl)

theorem tracks_ifElse (cond : Source.Expr) (ht : Tracks p (fun _ => False) 0 closed blocks then_)
    (he : Tracks p (fun _ => False) 0 closed' blocks' else_) :
    Tracks p M k (fun inner => closed inner ∧ closed' inner) (blocks ++ blocks')
      (ifStatement (compile cond) then_ (some else_)) := by
  refine .fresh fun otherwise => (tracks_condition cond false (.inl rfl)).first fun _ => ?_
  refine ht.everywhere.nested.bind fun _ => .fresh fun stop => ?_
  have hrest : Tracks p (fun l => l = stop ∨ l = otherwise ∨ M l) k closed' blocks' (do
      mark otherwise
      nested else_
      mark stop) :=
    (Tracks.mark (.inr (.inl rfl))).first fun _ => he.everywhere.nested.last fun _ => .mark (.inl rfl)
  refine (Tracks.walk (L := fun _ => False) walk_isReachable fun _ => False.elim).first fun r => ?_
  cases r with
  | true => exact (tracks_branch rfl (.inl rfl)).first fun _ => hrest
  | false => exact hrest

theorem tracks_loopTest (cond : Option Source.Expr) {exit : Label} (hexit : M exit) :
    Tracks p M k (fun _ => True) [] (loopTest cond exit) := by
  unfold loopTest
  split
  · exact .aside (.pure _)
  · exact .aside (.pure _)
  · exact tracks_condition _ false hexit

theorem tracks_while (kind : LoopKind) (cond : Option Source.Expr)
    (hb : Tracks p (fun _ => False) 0 closed blocks body) :
    Tracks p M k (fun inner => closed (kind :: inner)) blocks (whileLoop kind cond body none) := by
  rw [whileLoop_eq]
  refine .fresh fun head => .fresh fun exit => ?_
  rw [nextLabel, pure_bind]
  refine (Tracks.mark (.inr (.inl rfl))).first fun _ => (tracks_loopTest cond (.inl rfl)).first fun _ => ?_
  refine (Tracks.inLoop kind (.inl rfl) (.inr (.inl rfl)) hb.everywhere).last fun _ => ?_
  refine (Tracks.aside (.pure ())).first fun _ => ?_
  exact (tracks_branch rfl (.inr (.inl rfl))).first fun _ => .mark (.inl rfl)

/-- The step of a loop runs outside the loop. -/
theorem tracks_whileStep (kind : LoopKind) (cond : Option Source.Expr) {step : Gen Unit}
    (hb : Tracks p (fun _ => False) 0 closed blocks body)
    (hs : Tracks p (fun _ => False) 0 closed' blocks' step) :
    Tracks p M k (fun inner => closed (kind :: inner) ∧ closed' inner) (blocks ++ blocks')
      (whileLoop kind cond body (some step)) := by
  rw [whileLoop_eq]
  refine .fresh fun head => .fresh fun exit => .fresh fun next => ?_
  refine (Tracks.mark (.inr (.inr (.inl rfl)))).first fun _ => ?_
  refine (tracks_loopTest cond (.inr (.inl rfl))).first fun _ => ?_
  refine (Tracks.inLoop kind (.inr (.inl rfl)) (.inl rfl) hb.everywhere).bind fun _ => ?_
  refine Tracks.last (((Tracks.mark (.inl rfl)).first fun _ => hs.everywhere)) fun _ => ?_
  exact (tracks_branch rfl (.inr (.inr (.inl rfl)))).first fun _ => .mark (.inr (.inl rfl))

theorem tracks_do (cond : Source.Expr) (until_ : Bool)
    (hb : Tracks p (fun _ => False) 0 closed blocks body) :
    Tracks p M k (fun inner => closed (.do_ :: inner)) blocks (doLoop body cond until_) :=
  .fresh fun _ => .fresh fun _ => .fresh fun _ => (Tracks.mark (.inr (.inr (.inl rfl)))).first fun _ =>
    (Tracks.inLoop .do_ (.inr (.inl rfl)) (.inl rfl) hb.everywhere).last fun _ =>
      (Tracks.mark (.inl rfl)).first fun _ =>
        (tracks_condition cond _ (.inr (.inr (.inl rfl)))).first fun _ => .mark (.inr (.inl rfl))

/-! ## Protected bodies -/

theorem tracks_catchBody (head : Source.CatchHead) (caught : StaticType)
    (hg : Tracks p (fun _ => False) 0 closed blocks body) :
    Tracks p M k closed blocks (catchBody head caught body) := by
  have hrest : Tracks p M k closed blocks (do blockMark; body) :=
    (Tracks.walk (L := fun _ => False) walk_blockMark fun _ => False.elim).first fun _ => hg.everywhere
  have hpop : Tracks p M k closed blocks (do emit .pop; blockMark; body) :=
    (Tracks.walk (L := fun _ => False) (walk_emit rfl (by decide)) fun _ => False.elim).first fun _ => hrest
  unfold catchBody
  cases head.var with
  | none => exact hpop
  | some name =>
    refine (Tracks.declareLocal name caught head.pos).first fun var => ?_
    cases var with
    | none => exact hpop
    | some var =>
      exact (Tracks.walk (L := fun _ => False) (.emission (.storeLocal var.slot)) fun _ => False.elim).first
        fun _ => hrest

theorem tracks_catchHandler {region : Nat} (head : Source.CatchHead) {stop : Label} (hregion : region ≤ k)
    (hstop : M stop) (hg : Tracks p (fun _ => False) 0 closed blocks body) :
    Tracks p M k closed blocks (catchHandler region head body stop) := by
  refine (Tracks.aside (.caughtType head)).first fun caught => ?_
  refine (Tracks.aside (.classToken _)).first fun token => ?_
  have hbody : Tracks p M k closed blocks (withReader
      (fun c => { c with catchDepth := c.catchDepth + 1 }) (inScope (catchBody head caught body))) :=
    .within (fun _ => rfl) (fun _ _ h => h.inCatch) (tracks_catchBody head caught hg).inScope
  exact .caught token hregion (hbody.last fun _ => .leaveTo hstop)

/-- A protected body and what stands behind it. -/
theorem tracks_bare {stop : Label} (hstop : M stop) {g : Gen Unit}
    (hb : Tracks p (fun _ => False) 0 closed blocks body) (hg : Tracks p M k closed' blocks' g) :
    Tracks p M k (fun inner => closed inner ∧ closed' inner) (blocks ++ blocks') (do
      nested body
      leaveTo stop
      g) :=
  hb.everywhere.nested.bind fun _ => (Tracks.leaveTo hstop).first fun _ => hg

/-- A protected body with a handler that catches, and what stands behind it. -/
theorem tracks_caught {stop : Label} (hstop : M stop) (head : Source.CatchHead) {handler g : Gen Unit}
    (hb : Tracks p (fun _ => False) 0 closed blocks body)
    (hh : Tracks p (fun _ => False) 0 closed' blocks' handler)
    (hg : ∀ region, k ≤ region → Tracks p M region closed₂ blocks₂ g) :
    Tracks p M k (fun inner => closed inner ∧ closed' inner ∧ closed₂ inner)
      (blocks ++ (blocks' ++ blocks₂)) (do
        let region ← make Draft.beginTry
        nested body
        leaveTo stop
        catchHandler region head handler stop
        g) :=
  .beginTry fun region hregion => tracks_bare hstop hb <|
    (tracks_catchHandler head (Nat.le_refl region) hstop hh).bind fun _ => hg region hregion

/-- What surrounds a protected body: the label behind the statement, and one more region. -/
theorem tracks_protected {f : Label → Gen Unit}
    (h : ∀ stop, Tracks p (fun l => l = stop ∨ M l) k closed blocks (f stop)) :
    Tracks p M k closed blocks (do
      let stop ← newLabel
      withReader (fun c => { c with tryDepth := c.tryDepth + 1 }) (f stop)
      mark stop) := by
  refine .fresh fun stop => Tracks.last (.within (fun _ => rfl) (fun c s hp => ?_) (h stop)) fun _ =>
    .mark (.inl rfl)
  exact hp.inside.within ⟨fun _ => False.elim, fun _ hl => .inl (hl.elim id id), False.elim⟩

end

/-! ## Statements -/

/-- A walk of its own: it neither declares locals nor branches to labels from outside. -/
theorem tracks_walk {α : Type} {g : Gen α} {Q : α → Prop}
    (h : Walk p (fun _ => True) (fun _ => False) .assigns g Q) : Tracks p M k (fun _ => True) [] g :=
  .walk h fun _ => False.elim

theorem tracks_localStatement (name : String) (type : Option Source.TypeUse) (init : Option Source.Expr)
    (pos : Source.Position) : Tracks p M k (fun _ => True) [] (localStatement name type init pos) := by
  have hT := typing_any p
  unfold localStatement
  rcases type with _ | type
  case' none => refine (tracks_walk (walk_inferredType hT init pos)).first fun t => ?_
  case' some => refine (tracks_walk (.resolveType type)).first fun t => ?_
  all_goals
    refine (Tracks.declareLocal name t pos).first fun new => ?_
    split
    · split
      · refine tracks_walk (Q := fun _ => True) ((walk_evaluate hT _).bind fun _ _ => (walk_coerce ..).seq ?_)
        exact (Walk.emission (.storeLocal _)).seq (walk_markAssigned _ _ (by decide))
      · exact .aside (.pure _)
    · exact .aside (.pure _)

theorem tracks_returnStatement (value : Option Source.Expr) (pos : Source.Position) :
    Tracks p M k (fun _ => False) [] (returnStatement value pos) := by
  have hT := typing_any p
  have hwalk {g : Gen Unit} (h : Walk p (fun _ => True) (fun _ => False) .assigns g fun _ => True) :
      Tracks p M k (fun _ => False) [] g :=
    (tracks_walk h).weaken (fun _ => id) (Nat.le_refl k) fun _ => False.elim
  refine (Tracks.aside (.look fun c _ => c)).first fun c => ?_
  dsimp only
  split
  · split
    · exact hwalk ((Walk.report ..).seq (walk_evaluate hT _).discard)
    · refine (tracks_walk (walk_evaluate hT _)).first fun t => ?_
      exact (tracks_walk (walk_coerce ..)).first fun _ => tracks_leaveMethod _
  · split
    · exact tracks_leaveMethod _
    · exact hwalk ((walk_typeName _).bind fun _ _ => .report ..)

/-- A statement starts with the note of where it stands. -/
theorem tracks_pointed {g : Gen Unit} (pos : Source.Position)
    (h : Tracks p (fun _ => False) 0 closed blocks g) (hclosed : ∀ inner, closed' inner → closed inner)
    (hblocks : blocks' = blocks) : Tracks p (fun _ => False) 0 closed' blocks' (do point pos; g) :=
  hblocks ▸ (tracks_walk (walk_point pos)).first fun _ =>
    h.weaken (fun _ => id) (Nat.le_refl 0) hclosed

/-- A statement without other statements in it, and without jumps. -/
theorem tracks_simple {g : Gen Unit} (pos : Source.Position)
    (h : Walk p (fun _ => True) (fun _ => False) .assigns g fun _ => True) :
    Tracks p (fun _ => False) 0 closed [] (do point pos; g) :=
  tracks_pointed pos (tracks_walk h) (fun _ _ => trivial) rfl

mutual

/-- **The clauses of a statement are those of its blocks that always run**, by recursion on the
statement. -/
theorem tracks_statement : ∀ s, Tracks p (fun _ => False) 0 (fun inner => s.stays inner) s.finallies
    (statement s)
  | .local_ pos name type init =>
    tracks_pointed pos (tracks_localStatement name type init pos) (fun _ _ => trivial) rfl
  | .assign pos to_ op value => tracks_simple pos (walk_assign (typing_any p) to_ op value (by decide))
  | .increment pos to_ delta => tracks_simple pos (walk_increment (typing_any p) to_ delta (by decide))
  | .expr pos e =>
    tracks_simple pos ((walk_evaluate (typing_any p) e).bind fun _ _ =>
      .ite (fun _ => walk_emit rfl (by decide)) fun _ => .pure trivial)
  | .if_ pos cond then_ none =>
    tracks_pointed pos (tracks_if cond (tracks_statements then_)) (fun _ => id) rfl
  | .if_ pos cond then_ (some else_) =>
    tracks_pointed pos (tracks_ifElse cond (tracks_statements then_) (tracks_statements else_))
      (fun _ h => Bool.and_eq_true_iff.1 h) rfl
  | .while_ pos kind cond body none =>
    tracks_pointed pos (tracks_while kind cond (tracks_statements body)) (fun _ => id) rfl
  | .while_ pos kind cond body (some step) =>
    tracks_pointed pos (tracks_whileStep kind cond (tracks_statements body) (tracks_statement step))
      (fun _ h => Bool.and_eq_true_iff.1 h) rfl
  | .doWhile pos body cond until_ =>
    tracks_pointed pos (tracks_do cond until_ (tracks_statements body)) (fun _ => id) rfl
  | .break_ pos kind => tracks_pointed pos (tracks_jump kind true pos) (fun _ => id) rfl
  | .continue_ pos kind => tracks_pointed pos (tracks_jump kind false pos) (fun _ => id) rfl
  | .return_ pos value => tracks_pointed pos (tracks_returnStatement value pos) (fun _ => nofun) rfl
  | .throw_ pos value => tracks_simple pos (walk_throwStatement (typing_any p) value pos)
  | .try_ pos body none none =>
    tracks_pointed pos
      (tracks_protected fun _ => tracks_bare (.inl rfl) (tracks_statements body) (.aside (.pure ())))
      (fun _ h => ⟨by simpa [Stmt.stays] using h, trivial⟩) (by simp [Stmt.finallies])
  | .try_ pos body none (some finally_) =>
    tracks_pointed pos
      (tracks_protected fun _ => .beginTry fun region _ =>
        tracks_bare (.inl rfl) (tracks_statements body)
          (.always (Nat.le_refl region) (tracks_statements finally_)
            (walk_statements (typing_any p) finally_ _).laid))
      (fun _ h => by simpa [Stmt.stays] using h) (by simp [Stmt.finallies])
  | .try_ pos body (some (head, handler)) none =>
    tracks_pointed pos
      (tracks_protected fun _ => tracks_caught (.inl rfl) head (tracks_statements body)
        (tracks_statements handler) fun _ _ => .aside (.pure ()))
      (fun _ h => by simpa [Stmt.stays] using h) (by simp [Stmt.finallies])
  | .try_ pos body (some (head, handler)) (some finally_) =>
    tracks_pointed pos
      (tracks_protected fun _ => .beginTry fun region _ =>
        tracks_caught (.inl rfl) head (tracks_statements body) (tracks_statements handler)
          fun inner hinner => .always hinner (tracks_statements finally_)
            (walk_statements (typing_any p) finally_ _).laid)
      (fun _ h => by simpa [Stmt.stays, and_assoc] using h) (by simp [Stmt.finallies])
  | .block pos body => (tracks_statements body).inScope

theorem tracks_statements : ∀ ss, Tracks p (fun _ => False) 0 (fun inner => staysAll inner ss)
    (Source.finalliesAll ss) (statements ss)
  | [] => (Tracks.aside (.pure ())).weaken (fun _ => id) (Nat.le_refl 0) fun _ _ => trivial
  | s :: rest =>
    ((tracks_statement s).bind fun _ => tracks_statements rest).weaken (fun _ => id) (Nat.le_refl 0)
      fun _ h => Bool.and_eq_true_iff.1 h

end

/-! ## Methods -/

/-- A method up to its common exit. -/
theorem tracks_mainPart (decl : Source.MethodDecl) :
    Tracks p (fun _ => False) 0 (fun _ => False) (Source.finalliesAll decl.body) (mainPart decl) := by
  refine (tracks_walk (walk_point _)).first fun _ => (tracks_walk walk_blockMark).first fun _ => ?_
  refine Tracks.last ?_ fun _ => .walk (L := (· = .ret)) (walk_finalReturn decl rfl) nofun
  exact (tracks_statements decl.body).inScope.weaken (fun _ => id) (Nat.le_refl 0) fun _ => False.elim

/-- The common exit only appends, and binds a label that is not bound yet. -/
theorem commonExit_spec (hfree : ∀ l slot, s.exit = some (l, slot) → s.draft.target? l = none) :
    s.draft.code.toList <+: (commonExit c s).2.draft.code.toList ∧
      Draft.Binds s.draft (commonExit c s).2.draft ∧
      (commonExit c s).2.draft.clauses = s.draft.clauses := by
  cases he : s.exit with
  | none =>
    rw [commonExit_apply he]
    exact ⟨List.prefix_refl _, fun _ _ => id, rfl⟩
  | some e =>
    obtain ⟨label, slot⟩ := e
    have happend {d : Draft} {i : DraftInstruction} (hi : Draft.Appends i (s.draft.mark label) d) :
        s.draft.code.toList <+: d.code.toList ∧ Draft.Binds s.draft d ∧
          d.clauses = s.draft.clauses := by
      refine ⟨?_, (Draft.binds_mark (hfree label slot he)).trans (hi.grows _).binds, ?_⟩
      · rw [← Draft.code_mark (l := label) s.draft]
        exact (hi.grows 0).code
      · rw [hi.clauses, Draft.clauses_mark]
    have hget : (get : Gen State) c s = (s, s) := rfl
    rw [commonExit, apply_bind, hget]
    dsimp only
    rw [he]
    cases slot with
    | none => exact happend (Draft.appends_ret _)
    | some slot =>
      obtain ⟨i, hi, -⟩ := Draft.plain_loadLocal (s.draft.mark label) slot
      obtain ⟨hcode, hbinds, hclauses⟩ := happend hi
      have hret := Draft.appends_ret ((s.draft.mark label).loadLocal slot)
      exact ⟨hcode.trans (hret.grows 0).code, hbinds.trans (hret.grows _).binds,
        hret.clauses.trans hclauses⟩

end Lowering

/-- The blocks of a method that always run, in the order in which they end. -/
def Method.finallies (m : Method) : List (List Source.Stmt) :=
  match m.origin with
  | .declared decl => Source.finalliesAll decl.body
  | _ => []

namespace Lowering

/-- **The clauses of a method that always run are those of its blocks**: each ends with an `endfinally`,
and if its block stays, so do its branches. -/
theorem seals_methodBody {c : Context} {s : State} (hloops : c.loops = []) (hdraft : s.draft = {})
    (hexit : s.exit = none) :
    List.Forall₂ (Seals 0 (methodBody c s).2.draft)
      ((methodBody c s).2.draft.clauses.toList.filter (·.kind = .finally_)) c.method.finallies := by
  have hT := typing_any c.program
  have hp : Permits c.program (everywhere s.draft) c s := by
    refine ⟨rfl, fun _ => trivial, by simp [hloops], by simp [hloops], by simp [hexit], ?_⟩
    rw [hdraft]
    exact .empty
  have hread : (read : Gen Context) c s = (c, s) := rfl
  rw [methodBody, apply_bind, hread, Method.finallies]
  -- bodies without statements have no clauses
  have hplain {g : Gen Unit} (hg : Walk c.program (fun _ => True) (· = .ret) .assigns g fun _ => True) :
      List.Forall₂ (Seals 0 (g c s).2.draft)
        ((g c s).2.draft.clauses.toList.filter (·.kind = .finally_)) [] := by
    have hclauses := (hg.bares (by decide) 0 (fun _ _ => Nat.zero_le _) c s rfl (Nat.zero_le _)).1.clauses
    rw [hclauses, hdraft]
    exact .nil
  dsimp only
  cases c.method.origin with
  | declared decl =>
    dsimp only
    rw [declaredBody_eq, apply_bind]
    have htracked := tracks_mainPart (p := c.program) decl c s hp (fun _ => False.elim) (Nat.zero_le _)
    have hlays := ((walk_mainPart (L := (· = .ret)) hT decl rfl).laid (everywhere s.draft) c s hp
      (by rintro _ rfl; trivial)).1
    have hfree (l : Label) (slot : Option UInt16) (hl : (mainPart decl c s).2.exit = some (l, slot)) :
        (mainPart decl c s).2.draft.target? l = none := by
      rcases hlays.shared l slot hl with ⟨he, -⟩ | ⟨-, hfree⟩
      · rw [hexit] at he
        cases he
      · exact hfree.2
    obtain ⟨hcode, hbinds, hclauses⟩ := commonExit_spec (c := c) hfree
    obtain ⟨new, hnew, hblocks⟩ := htracked.clauses
    rw [hclauses, hnew, hdraft]
    refine hblocks.imp fun _ _ hs => (hs.mono (Nat.zero_le _)).grow hcode fun l t _ ht => hbinds l t ht
  | ctor => exact hplain (walk_ctorBody hT rfl)
  | cctor => exact hplain (walk_cctorBody hT rfl)

end Lowering

end CilScope
