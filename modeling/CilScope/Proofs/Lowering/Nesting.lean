import CilScope.Proofs.Draft.Block
import CilScope.Proofs.Lowering.Frame

/-!
# Lowering nests

The code of a method is a block: loops, choices and protected regions are blocks inside it, and
every branch out of one goes to a label that is bound around it. `Walk.laid` shows it of all walks,
and `block_methodBody` of whole methods.
-/

namespace CilScope.Lowering

open Draft (Exits Block Sound)

/-! ## What a step may rely on -/

/-- The exits `x`, and the common exit of returns once there is one. -/
def sharing (x : Exits) (s : State) : Exits :=
  { x with leave := fun l => x.leave l ∨ ∃ slot, s.exit = some (l, slot) }

/-- The exit is one of `x`, and there to be taken. -/
def Grants (x : Exits) (d : Draft) : Exit → Prop
  | .label l => d.Has l ∧ x.jump l
  | .ret => x.ret

/-- A label that is there and not bound. -/
def Unbound (d : Draft) (l : Label) : Prop := d.Has l ∧ d.target? l = none

/-- The exits `x` are enough where the walk is: for returns that need not leave a region, and for
the loops around, which are jumped out of from their own region and left from inside others. -/
structure Permits (p : Program) (x : Exits) (c : Context) (s : State) : Prop where
  program : c.program = p
  ret : c.tryDepth = 0 → x.ret
  depth : ∀ f ∈ c.loops, f.tryDepth ≤ c.tryDepth
  loop : ∀ f ∈ c.loops, ∀ l, l = f.exit ∨ l = f.next →
    s.draft.Has l ∧ x.Allows l ∧ (f.tryDepth = c.tryDepth → x.jump l)
  shared : ∀ l slot, s.exit = some (l, slot) → s.draft.Has l
  sound : s.draft.Sound

/-- The steps from `s` to `s'` lay out a block with the exits `x`, and bind labels from index `n` on
only. -/
structure Lays (x : Exits) (n : Nat) (s s' : State) : Prop where
  le : n ≤ s.draft.labels.size
  block : Block (sharing x s') s.draft s'.draft
  grows : s.draft.Grows n s'.draft
  exit : ∀ e, s.exit = some e → s'.exit = some e
  /-- The common exit is not bound, and if it is opened on the way, its label is a new one. -/
  shared : ∀ l slot, s'.exit = some (l, slot) →
    s.exit = some (l, slot) ∧ (Unbound s.draft l → Unbound s'.draft l) ∨
      s.draft.labels.size ≤ l.index ∧ Unbound s'.draft l

variable {p : Program} {L : Exit → Prop} {x y : Exits} {c : Context} {n : Nat} {s s' s'' : State}
  {l : Label}

theorem sharing_within (hxy : x.Within y) (h : ∀ e, s.exit = some e → s'.exit = some e) :
    (sharing x s).Within (sharing y s') where
  jump := hxy.jump
  leave := by
    rintro l (hl | ⟨slot, hl⟩)
    · exact (hxy.leave l hl).imp id .inl
    · exact .inr (.inr ⟨slot, h _ hl⟩)
  ret := hxy.ret

theorem Unbound.grows {d d' : Draft} (h : Unbound d l) (hgrows : d.Grows n d') (hl : l.index < n) :
    Unbound d' l :=
  ⟨Nat.lt_of_lt_of_le h.1 hgrows.labels, (hgrows.target l hl h.1).trans h.2⟩

theorem has_mark {d : Draft} {m : Label} (h : d.Has l) : (d.mark m).Has l := by
  rwa [Draft.Has, Draft.size_labels_mark]

theorem Unbound.mark {d : Draft} {m : Label} (h : Unbound d l) (hne : l ≠ m) :
    Unbound (d.mark m) l := by
  refine ⟨has_mark h.1, ?_⟩
  rw [Draft.target?_mark_of_ne d fun heq => hne (congrArg Label.mk heq)]
  exact h.2

namespace Lays

theorem labels (h : Lays x n s s') : s.draft.labels.size ≤ s'.draft.labels.size := h.grows.labels

theorem within (h : Lays x n s s') (hxy : x.Within y) : Lays y n s s' :=
  { h with block := h.block.mono (sharing_within hxy fun _ => id) }

theorem mono {n' : Nat} (h : Lays x n s s') (hn : n' ≤ n) : Lays x n' s s' :=
  { h with le := Nat.le_trans hn h.le, grows := h.grows.mono hn }

theorem trans (h : Lays x n s s') (h' : Lays x n s' s'') : Lays x n s s'' where
  le := h.le
  block := (h.block.mono (sharing_within (.refl x) h'.exit)).seq h'.block
  grows := h.grows.trans h'.grows
  exit := fun e he => h'.exit e (h.exit e he)
  shared := fun l slot hl => by
    rcases h'.shared l slot hl with ⟨hl', hkeeps⟩ | ⟨hnew, hfree⟩
    · exact (h.shared l slot hl').imp (And.imp id (hkeeps ∘ ·)) (And.imp id hkeeps)
    · exact .inr ⟨Nat.le_trans h.labels hnew, hfree⟩

/-- A step behind others. -/
theorem next (h : Lays x n s s') (h' : Lays x s'.draft.labels.size s' s'') : Lays x n s s'' :=
  h.trans (h'.mono (Nat.le_trans h.le h.labels))

/-- A step that leaves the common exit alone. -/
theorem of_block (hblock : Block x s.draft s'.draft)
    (hgrows : s.draft.Grows s.draft.labels.size s'.draft) (hexit : s'.exit = s.exit) :
    Lays x s.draft.labels.size s s' where
  le := Nat.le_refl _
  block := hblock.mono ⟨fun _ => id, fun _ hl => .inr (.inl hl), id⟩
  grows := hgrows
  exit := fun _ he => hexit.trans he
  shared := fun _ _ hl => .inl ⟨hexit ▸ hl, fun hfree => hfree.grows hgrows hfree.1⟩

theorem of_rests (h : Draft.Rests s.draft s'.draft) (hexit : s'.exit = s.exit) :
    Lays x s.draft.labels.size s s' :=
  of_block (.rest h) h.grows hexit

/-- A step that leaves the draft and the common exit alone. -/
theorem of_eq (hdraft : s'.draft = s.draft) (hexit : s'.exit = s.exit) :
    Lays x s.draft.labels.size s s' :=
  of_rests (hdraft ▸ .refl _) hexit

theorem has (h : Lays x n s s') (hl : s.draft.Has l) : s'.draft.Has l :=
  Nat.lt_of_lt_of_le hl h.labels

end Lays

/-- The state behind a label that is bound now. -/
def State.bound (s : State) (l : Label) : State := { s with draft := s.draft.mark l }

namespace Permits

theorem within (h : Permits p x c s) (hxy : x.Within y) : Permits p y c s where
  program := h.program
  ret := fun hd => hxy.ret (h.ret hd)
  depth := h.depth
  loop := fun f hf l hl =>
    have ⟨hhas, hallows, hjump⟩ := h.loop f hf l hl
    ⟨hhas, hxy.allows hallows, fun hd => hxy.jump l (hjump hd)⟩
  shared := h.shared
  sound := h.sound

/-- A step that only adds labels changes nothing. -/
theorem of_labels (h : Permits p x c s) (hlabels : s.draft.labels.size ≤ s'.draft.labels.size)
    (hshared : ∀ l slot, s'.exit = some (l, slot) → s.exit = some (l, slot) ∨ s'.draft.Has l)
    (hsound : s'.draft.Sound) : Permits p x c s' where
  program := h.program
  ret := h.ret
  depth := h.depth
  loop := fun f hf l hl =>
    have ⟨hhas, hrest⟩ := h.loop f hf l hl
    ⟨Nat.lt_of_lt_of_le hhas hlabels, hrest⟩
  shared := fun l slot hl =>
    (hshared l slot hl).elim (fun hl => Nat.lt_of_lt_of_le (h.shared l slot hl) hlabels) id
  sound := hsound

theorem after (h : Permits p x c s) (hlays : Lays y n s s') : Permits p x c s' :=
  h.of_labels hlays.labels (fun l slot hl => (hlays.shared l slot hl).imp And.left (·.2.1))
    (hlays.block.sound h.sound)

theorem mark (h : Permits p x c s) (hhas : s.draft.Has l) : Permits p x c (s.bound l) :=
  h.of_labels (Nat.le_of_eq (Draft.size_labels_mark s.draft).symm) (fun _ _ => .inl)
    (h.sound.mark hhas)

/-- Inside a protected region everything around it can only be left for. -/
theorem inside (h : Permits p x c s) :
    Permits p x.inside { c with tryDepth := c.tryDepth + 1 } s where
  program := h.program
  ret := fun hd => absurd hd (Nat.succ_ne_zero _)
  depth := fun f hf => Nat.le_succ_of_le (h.depth f hf)
  loop := fun f hf l hl => by
    obtain ⟨hhas, hallows, -⟩ := h.loop f hf l hl
    refine ⟨hhas, Exits.allows_inside.2 hallows, fun hd => ?_⟩
    exact absurd (h.depth f hf) (hd ▸ Nat.not_succ_le_self _)
  shared := h.shared
  sound := h.sound

/-- Two regions may start at one place. -/
theorem inside_inside (h : Permits p x.inside c s) : Permits p x.inside.inside c s where
  program := h.program
  ret := h.ret
  depth := h.depth
  loop := fun f hf l hl =>
    have ⟨hhas, hallows, hjump⟩ := h.loop f hf l hl
    ⟨hhas, Exits.allows_inside.2 hallows, hjump⟩
  shared := h.shared
  sound := h.sound

/-- A handler that catches is no other place. -/
theorem inCatch (h : Permits p x c s) : Permits p x { c with catchDepth := c.catchDepth + 1 } s :=
  ⟨h.program, h.ret, h.depth, h.loop, h.shared, h.sound⟩

/-- Inside a loop its labels are exits. -/
theorem inLoop (h : Permits p x c s) (kind : Source.LoopKind) {exit next : Label}
    (hexit : s.draft.Has exit ∧ x.jump exit) (hnext : s.draft.Has next ∧ x.jump next) :
    Permits p x { c with loops := ⟨kind, exit, next, c.tryDepth⟩ :: c.loops } s where
  program := h.program
  ret := h.ret
  depth := fun f hf => by
    rcases List.mem_cons.1 hf with rfl | hf
    · exact Nat.le_refl _
    · exact h.depth f hf
  loop := fun f hf l hl => by
    rcases List.mem_cons.1 hf with rfl | hf
    · rcases hl with rfl | rfl
      · exact ⟨hexit.1, .inl hexit.2, fun _ => hexit.2⟩
      · exact ⟨hnext.1, .inl hnext.2, fun _ => hnext.2⟩
    · exact h.loop f hf l hl
  shared := h.shared
  sound := h.sound

end Permits

/-! ## Steps that lay out blocks -/

/-- A step that leaves the draft and the common exit alone. -/
def Aside {α : Type} (g : Gen α) : Prop :=
  ∀ c s, (g c s).2.draft = s.draft ∧ (g c s).2.exit = s.exit

namespace Aside

variable {α β : Type}

theorem bind {g : Gen α} {k : α → Gen β} (hg : Aside g) (hk : ∀ a, Aside (k a)) : Aside (g >>= k) :=
  fun c s =>
    have ⟨hdraft, hexit⟩ := hg c s
    have ⟨hdraft', hexit'⟩ := hk (g c s).1 c (g c s).2
    ⟨hdraft'.trans hdraft, hexit'.trans hexit⟩

theorem look (f : Context → State → α) : Aside fun c s => (f c s, s) := fun _ _ => ⟨rfl, rfl⟩

theorem pure (a : α) : Aside (Pure.pure a) := look fun _ _ => a

theorem report (pos : Source.Position) (cause : Cause) : Aside (report pos cause) := by
  intro c s
  rw [report_apply]
  dsimp only
  split <;> exact ⟨rfl, rfl⟩

theorem resolveType (t : Source.TypeUse) : Aside (resolveType t) := by
  intro c s
  rw [resolveType_apply]
  dsimp only
  split <;> exact ⟨rfl, rfl⟩

theorem classToken (k : Library.Class) : Aside (classToken k) := fun _ _ => ⟨rfl, rfl⟩

theorem caughtType (head : Source.CatchHead) : Aside (caughtType head) := by
  unfold Lowering.caughtType
  split
  · refine (resolveType _).bind fun t => ?_
    split
    · exact pure t
    · exact (report _ _).bind fun _ => pure t
  · exact (look fun c _ => c.program.language).bind fun _ => pure _

end Aside

/-- A step that lays out a block wherever its exits `L` are granted, and whose result has `Q`. -/
def Laid (p : Program) (L : Exit → Prop) {α : Type} (g : Gen α) (Q : α → Prop) : Prop :=
  ∀ x c s, Permits p x c s → (∀ e, L e → Grants x s.draft e) →
    Lays x s.draft.labels.size s (g c s).2 ∧ Q (g c s).1

theorem Grants.after {e : Exit} (h : Grants x s.draft e) (hlays : Lays y n s s') :
    Grants x s'.draft e := by
  cases e with
  | label l => exact ⟨hlays.has h.1, h.2⟩
  | ret => exact h

namespace Laid

variable {α β : Type} {Q : α → Prop} {R : β → Prop}

theorem bind {g : Gen α} {k : α → Gen β} (hg : Laid p L g Q) (hk : ∀ a, Q a → Laid p L (k a) R) :
    Laid p L (g >>= k) R := by
  intro x c s hp hL
  obtain ⟨hlays, hQ⟩ := hg x c s hp hL
  obtain ⟨hlays', hR⟩ := hk _ hQ x c _ (hp.after hlays) fun e he => (hL e he).after hlays
  exact ⟨hlays.next hlays', hR⟩

theorem seq {g : Gen Unit} {k : Gen β} (hg : Laid p L g fun _ => True) (hk : Laid p L k R) :
    Laid p L (g >>= fun _ => k) R :=
  hg.bind fun _ _ => hk

theorem look {f : Context → State → α} (h : ∀ c s, c.program = p → Q (f c s)) :
    Laid p L (fun c s => (f c s, s)) Q :=
  fun _ c s hp _ => ⟨.of_eq rfl rfl, h c s hp.program⟩

theorem pure {a : α} (h : Q a) : Laid p L (Pure.pure a) Q := look fun _ _ _ => h

theorem aside {g : Gen α} (h : Aside g) : Laid p L g fun _ => True :=
  fun _ c s _ _ => ⟨.of_eq (h c s).1 (h c s).2, trivial⟩

theorem rests {f : Draft → Draft} (h : ∀ d, Draft.Rests d (f d)) :
    Laid p L (edit f) fun _ => True :=
  fun _ _ s _ _ => ⟨.of_rests (h s.draft) rfl, trivial⟩

theorem plain {f : Draft → Draft} (h : ∀ d, ∃ i, Draft.Appends i d (f d) ∧ i.Plain) :
    Laid p L (edit f) fun _ => True := by
  intro x c s _ _
  obtain ⟨i, hi, hplain⟩ := h s.draft
  exact ⟨.of_block (.plain hi hplain) (hi.grows _) rfl, trivial⟩

theorem emit {op : Opcode} (h : op.operandKind = .none) (hret : op ≠ .ret) :
    Laid p L (emit op) fun _ => True :=
  plain fun d => ⟨_, Draft.appends_emit d h, nofun, hret⟩

theorem ret (h : L .ret) : Laid p L (Lowering.emit .ret) fun _ => True := by
  intro x c s _ hL
  have hi := Draft.appends_ret s.draft
  exact ⟨.of_block (.add (hi.adds nofun) nofun fun _ => hL _ h) (hi.grows _) rfl,
    trivial⟩

/-- A branch to an exit. -/
theorem branch {op : Opcode} (hop : op.operandKind = .branch) (hl : L (.label l)) :
    Laid p L (branch op l) fun _ => True := by
  intro x c s _ hL
  obtain ⟨hhas, hjump⟩ := hL _ hl
  exact ⟨.of_block (.branch hop hhas (.inl hjump)) (Draft.grows_branch _ hop _) rfl,
    trivial⟩

theorem declareLocal (name : String) (type : StaticType) (pos : Source.Position) :
    Laid p L (declareLocal name type pos) fun _ => True := by
  intro x c s hp hL
  cases hl : findLocal? c.program.language s.scopes name with
  | some l =>
    rw [declareLocal_taken hl]
    exact ((aside (.report pos _)).seq (pure (Q := fun _ => True) trivial)) x c s hp hL
  | none =>
    rw [declareLocal_apply hl]
    exact ⟨.of_rests (Draft.rests_declareLocal ..) rfl, trivial⟩

/-- A scope of its own. -/
theorem inScope {g : Gen Unit} (hg : Laid p L g fun _ => True) :
    Laid p L (inScope g) fun _ => True := by
  intro x c s hp hL
  refine ⟨?_, trivial⟩
  have hp' : Permits p x c { s with scopes := [] :: s.scopes } :=
    hp.of_labels (Nat.le_refl _) (fun _ _ => .inl) hp.sound
  obtain ⟨hlays, -⟩ := hg x c _ hp' hL
  rw [inScope_apply]
  obtain ⟨log, hlog⟩ := complain_apply ((g c { s with scopes := [] :: s.scopes }).2.scopes.headD []) c
    { (g c { s with scopes := [] :: s.scopes }).2 with
      scopes := (g c { s with scopes := [] :: s.scopes }).2.scopes.tail }
  rw [hlog]
  exact ⟨hlays.le, hlays.block, hlays.grows, hlays.exit, hlays.shared⟩

theorem blockMark : Laid p L blockMark fun _ => True := by
  refine (look (f := fun c _ => c) (Q := fun _ => True) fun _ _ _ => trivial).bind fun c _ => ?_
  split
  · exact pure trivial
  · exact emit rfl nofun

theorem nested {g : Gen Unit} (hg : Laid p L g fun _ => True) : Laid p L (nested g) fun _ => True :=
  (blockMark.seq hg).inScope

end Laid

/-- The instructions of the framework and of the program neither branch nor return. -/
theorem Emission.plain {f : Draft → Draft} (h : Emission p f) (d : Draft) :
    ∃ i, Draft.Appends i d (f d) ∧ i.Plain := by
  cases h with
  | emit h hret => exact ⟨_, Draft.appends_emit d h, nofun, hret⟩
  | loadInt v => exact Draft.plain_loadInt d v
  | loadLocal i => exact Draft.plain_loadLocal d i
  | storeLocal i => exact Draft.plain_storeLocal d i
  | loadArg i => exact Draft.plain_loadArg d i
  | storeArg i => exact Draft.plain_storeArg d i
  | field hop =>
    refine ⟨_, Draft.appends_emitToken d (token_of_mem_field hop) _, nofun, ?_⟩
    rintro rfl
    cases token_of_mem_field hop
  | method hop =>
    refine ⟨_, Draft.appends_emitCall d (token_of_mem_call hop) _ _ _, nofun, ?_⟩
    rintro rfl
    cases token_of_mem_call hop

theorem laid_mention {g : Gen Unit} (h : Mention g) : Laid p L g fun _ => True := by
  intro x c s _ _
  refine ⟨?_, trivial⟩
  have hlaid {i : DraftInstruction} {r : References} {d : Draft} (hi : Draft.Appends i s.draft d)
      (hplain : i.Plain) :
      Lays x s.draft.labels.size s { s with references := r, draft := d } :=
    .of_block (.plain hi hplain) (hi.grows _) rfl
  cases h with
  | box k => exact hlaid (Draft.appends_emitToken s.draft rfl _) ⟨nofun, nofun⟩
  | string text => exact hlaid (Draft.appends_emitToken s.draft rfl _) ⟨nofun, nofun⟩
  | method pops pushes hm hop =>
    refine hlaid (Draft.appends_emitCall s.draft (token_of_mem_call hop) _ _ _) ⟨nofun, ?_⟩
    rintro rfl
    cases token_of_mem_call hop

theorem laid_coerce (source target : StaticType) (pos : Source.Position) :
    Laid p L (coerce source target pos) fun _ => True := by
  have hname (t : StaticType) : Laid p L (typeName t) fun _ => True :=
    .look (f := fun c _ => c.program.typeName t) fun _ _ _ => trivial
  unfold coerce box
  split
  · exact (hname _).bind fun _ _ => (hname _).bind fun _ _ => .aside (.report _ _)
  · split
    · split
      · exact laid_mention (.box .int32)
      · split
        · exact laid_mention (.box .boolean)
        · exact .pure trivial
    · exact .pure trivial

/-! ## Labels -/

/-- The label that comes next. -/
def State.label (s : State) : Label := ⟨s.draft.labels.size⟩

/-- The state behind a new label. -/
def State.fresh (s : State) : State := { s with draft := s.draft.newLabel.1 }

theorem size_fresh (s : State) : s.fresh.draft.labels.size = s.draft.labels.size + 1 :=
  Array.size_push ..

/-- A label that is yet to be bound, and is not the common exit. -/
structure Free (s : State) (l : Label) : Prop where
  unbound : Unbound s.draft l
  other : ∀ slot, s.exit ≠ some (l, slot)

theorem Free.has (h : Free s l) : s.draft.Has l := h.unbound.1

theorem Permits.fresh (h : Permits p x c s) : Permits p x c s.fresh :=
  h.of_labels (Draft.grows_newLabel s.draft 0).labels (fun _ _ => .inl)
    (h.sound.rest (Draft.rests_newLabel s.draft))

theorem Permits.free (h : Permits p x c s) : Free s.fresh s.label where
  unbound := ⟨Draft.has_newLabel s.draft, by simp [Draft.target?, State.fresh, State.label, Draft.newLabel]⟩
  other := fun slot hl => Nat.lt_irrefl _ (h.shared s.label slot hl)

theorem Free.bound {m : Label} (h : Free s l) (hne : l ≠ m) : Free (s.bound m) l :=
  ⟨h.unbound.mark hne, h.other⟩

theorem Free.fresh (h : Free s l) : Free s.fresh l :=
  ⟨h.unbound.grows (Draft.grows_newLabel s.draft _) h.has, h.other⟩

/-- Nothing goes to a label that is yet to come. -/
theorem Permits.unused (h : Permits p x c s) (hl : s.draft.labels.size ≤ l.index) :
    s.draft.Unused l :=
  h.sound.unused (Nat.not_lt.2 hl)

namespace Lays

theorem fresh (s : State) : Lays x s.draft.labels.size s s.fresh :=
  .of_rests (Draft.rests_newLabel s.draft) rfl

/-- A label that is not bound yet is bound only where it is meant to be. -/
theorem free (h : Lays x n s s') (hl : l.index < n) (hfree : Free s l) : Free s' l where
  unbound := hfree.unbound.grows h.grows hl
  other := fun slot he => by
    rcases h.shared l slot he with ⟨he, -⟩ | ⟨hnew, -⟩
    · exact hfree.other slot he
    · exact absurd hfree.has (Nat.not_lt.2 hnew)

/-- A label is bound at the end of the block. -/
theorem forward (h : Lays (x.with_ l) n s s') (hn : n ≤ l.index) (hunused : s.draft.Unused l)
    (hfree : Free s' l) : Lays x n s (s'.bound l) where
  le := h.le
  block := .forward l hunused h.block hfree.has hfree.unbound.2
  grows := h.grows.trans (Draft.grows_mark _ hn)
  exit := h.exit
  shared := fun m slot hm => by
    have hne : m ≠ l := fun heq => hfree.other slot (heq ▸ hm)
    exact (h.shared m slot hm).imp (And.imp id fun hkeeps hm => (hkeeps hm).mark hne)
      (And.imp id fun hm => hm.mark hne)

/-- A label is bound at the start of the block. -/
theorem backward (h : Lays (x.with_ l) n (s.bound l) s') (hn : n ≤ l.index)
    (hunused : s.draft.Unused l) (hfree : Free s l) : Lays x n s s' where
  le := Nat.le_trans h.le (Nat.le_of_eq (Draft.size_labels_mark s.draft))
  block := .backward l hunused hfree.has hfree.unbound.2 h.block
  grows := (Draft.grows_mark _ hn).trans h.grows
  exit := h.exit
  shared := fun m slot hm => by
    rcases h.shared m slot hm with ⟨hm, hkeeps⟩ | ⟨hnew, hm⟩
    · exact .inl ⟨hm, fun hm' => hkeeps (hm'.mark fun heq => hfree.other slot (heq ▸ hm))⟩
    · exact .inr ⟨Nat.le_trans (Nat.le_of_eq (Draft.size_labels_mark s.draft).symm) hnew, hm⟩

/-- A step that takes none of the exits by itself. -/
theorem step {α : Type} {g : Gen α} {Q : α → Prop} (h : Lays x n s s') (hp : Permits p x c s)
    (hg : Laid p (fun _ => False) g Q) : Lays x n s (g c s').2 :=
  h.next (hg x c s' (hp.after h) fun _ => False.elim).1

/-- A step that may go to `l`. -/
theorem stepTo {g : Gen Unit} (h : Lays x n s s') (hp : Permits p x c s)
    (hg : Laid p (· = .label l) g fun _ => True) (hhas : s'.draft.Has l) (hl : x.jump l) :
    Lays x n s (g c s').2 := by
  refine h.next (hg x c s' (hp.after h) ?_).1
  rintro _ rfl
  exact ⟨hhas, hl⟩

/-- A branch to a label around the block. -/
theorem branch {op : Opcode} (h : Lays x n s s') (hop : op.operandKind = .branch)
    (hhas : s'.draft.Has l) (hl : x.jump l ∨ op = .leave ∧ x.leave l) :
    Lays x n s (branch op l c s').2 :=
  h.next (.of_block (.branch hop hhas hl) (Draft.grows_branch _ hop _) rfl)

theorem goto (h : Lays x n s s') (hhas : s'.draft.Has l) (hl : x.jump l) :
    Lays x n s (Lowering.branch .br l c s').2 :=
  h.branch rfl hhas (.inl hl)

/-- A branch to the common exit. -/
theorem leaveShared {slot : Option UInt16} (h : Lays x n s s') (hhas : s'.draft.Has l)
    (hexit : s'.exit = some (l, slot)) : Lays x n s (Lowering.branch .leave l c s').2 := by
  have hl : (sharing x s').leave l := .inr ⟨slot, hexit⟩
  have hgrows := Draft.grows_branch s'.draft (l := l) (show Opcode.leave.operandKind = .branch from rfl)
  exact h.next ⟨Nat.le_refl _, .branch rfl hhas (.inr ⟨rfl, hl⟩), hgrows _, fun _ => id,
    fun _ _ he => .inl ⟨he, fun h => h.grows (hgrows _) h.1⟩⟩

end Lays

/-- A label of one's own that is bound at the end. -/
theorem Laid.scope {k : Label → Gen Unit}
    (hk : ∀ l, Laid p (fun e => e = .label l ∨ L e) (k l) fun _ => True) :
    Laid p L (do let l ← newLabel; k l; mark l) fun _ => True := by
  intro x c s hp hL
  refine ⟨?_, trivial⟩
  have hnew : Lays (x.with_ s.label) s.draft.labels.size s s.fresh := .fresh s
  have hp' := (hp.within (x.within_with_ s.label)).after hnew
  obtain ⟨hlays, -⟩ := hk s.label _ c _ hp' fun e he => by
    rcases he with rfl | he
    · exact ⟨hp.free.has, .inl rfl⟩
    · have := (hL e he).after hnew
      cases e with
      | label m => exact ⟨this.1, .inr this.2⟩
      | ret => exact this
  exact (hnew.next hlays).forward (Nat.le_refl _) (hp.unused (Nat.le_refl _))
    (hlays.free hp.free.has hp.free)

/-! ## Conditions and choices -/

/-- Two ways that meet: the first one goes around the second one to `stop`, the second one starts at
`other`. -/
theorem Lays.choice {other stop : Label} (h : Lays ((x.with_ stop).with_ other) n s s')
    (h' : Lays (x.with_ stop) (s'.bound other).draft.labels.size
      (s'.bound other) s'')
    (hne : stop ≠ other) (hother : n ≤ other.index) (hstop : n ≤ stop.index)
    (hunused : s.draft.Unused other) (hunused' : s.draft.Unused stop)
    (hfree : Free s' other) (hfree' : Free s' stop) :
    Lays x n s (s''.bound stop) := by
  have hmarked : Free (s'.bound other) stop := hfree'.bound hne
  have hboth : Lays (x.with_ stop) n s s'' := (h.forward hother hunused hfree).next h'
  exact hboth.forward hstop hunused' (h'.free hmarked.has hmarked)

theorem within_with_with (x : Exits) (l m : Label) : x.Within ((x.with_ l).with_ m) :=
  ⟨fun _ hl => .inr (.inr hl), fun _ => .inr, id⟩

section

variable {lhs rhs cond : ExprCode} {then_ : Gen Unit} {else_ : Option (Gen Unit)}

theorem laid_shortCircuit (isOr : Bool)
    (hl : ∀ l w, Laid p (· = .label l) (lhs.jump l w) fun _ => True)
    (hr : Laid p (fun _ => False) rhs.value fun _ => True) :
    Laid p L (shortCircuit isOr lhs rhs) fun _ => True := by
  intro x c s hp _
  refine ⟨?_, trivial⟩
  let shortcut : Label := s.label
  let stop : Label := s.fresh.label
  let s₂ := s.fresh.fresh
  have hstop : stop.index = s.draft.labels.size + 1 := size_fresh s
  have hsize : s₂.draft.labels.size = stop.index + 1 := size_fresh s.fresh
  let y := (x.with_ stop).with_ shortcut
  have hmade : Lays y s.draft.labels.size s s₂ := (Lays.fresh s).next (.fresh s.fresh)
  have hp₂ : Permits p y c s₂ := (hp.within (within_with_with x _ _)).after hmade
  have hfree : Free s₂ shortcut := hp.free.fresh
  have hfree' : Free s₂ stop := hp.fresh.free
  have hlhs : Lays y s₂.draft.labels.size s₂ (lhs.jump shortcut isOr c s₂).2 :=
    (Lays.of_eq rfl rfl).stepTo hp₂ (hl shortcut isOr) hfree.has (.inl rfl)
  have hrhs := (hlhs.step hp₂ hr).step hp₂
    (laid_coerce (rhs.value c (lhs.jump shortcut isOr c s₂).2).1 .bool rhs.pos)
  have hbr := hrhs.goto (c := c) (hrhs.has hfree'.has) (.inr (.inl rfl))
  have hload : Lays (x.with_ stop) _ _ _ := (Lays.of_eq rfl rfl).step
    (((hp.within (x.within_with_ stop)).after (hmade.next hbr)).mark (hbr.has hfree.has))
    (Laid.plain fun d => Draft.plain_loadInt d (if isOr then 1 else 0))
  refine (hmade.next hbr).choice hload ?_ (Nat.le_refl _) ?_ (hp.unused (Nat.le_refl _))
    (hp.unused ?_) (hbr.free hfree.has hfree) (hbr.free hfree'.has hfree')
  · exact fun heq => absurd (congrArg Label.index heq) (hstop ▸ Nat.succ_ne_self _)
  · exact hstop ▸ Nat.le_succ _
  · exact hstop ▸ Nat.le_succ _

theorem laid_jumpOnBoth (isOr : Bool) (w : Bool)
    (hl : ∀ L' l w, L' (.label l) → Laid p L' (lhs.jump l w) fun _ => True)
    (hr : ∀ L' l w, L' (.label l) → Laid p L' (rhs.jump l w) fun _ => True) (h : L (.label l)) :
    Laid p L (jumpOnBoth isOr lhs rhs l w) fun _ => True := by
  unfold jumpOnBoth
  split
  · exact (hl L l w h).seq (hr L l w h)
  · exact Laid.scope (k := fun skip => lhs.jump skip (!w) >>= fun _ => rhs.jump l w)
      fun skip => (hl _ skip _ (.inl rfl)).seq (hr _ l w (.inr h))

theorem laid_ifStatement
    (hc : ∀ L' l w, L' (.label l) → Laid p L' (cond.jump l w) fun _ => True)
    (ht : ∀ L', Laid p L' then_ fun _ => True)
    (he : ∀ g, else_ = some g → ∀ L', Laid p L' g fun _ => True) :
    Laid p L (ifStatement cond then_ else_) fun _ => True := by
  cases else_ with
  | none =>
    exact Laid.scope (k := fun otherwise => cond.jump otherwise false >>= fun _ => nested then_)
      fun otherwise => (hc _ otherwise _ (.inl rfl)).seq (ht _).nested
  | some else_ =>
    intro x c s hp _
    refine ⟨?_, trivial⟩
    let otherwise : Label := s.label
    let s₁ := s.fresh
    let s₃ := (nested then_ c (cond.jump otherwise false c s₁).2).2
    let stop : Label := s₃.label
    let y := (x.with_ stop).with_ otherwise
    have hfree : Free s₁ otherwise := hp.free
    have hthen : Lays (x.with_ otherwise) s₁.draft.labels.size s₁ s₃ := by
      have hp₁ := (hp.within (x.within_with_ otherwise)).after (Lays.fresh (x := x) s)
      exact ((Lays.of_eq rfl rfl).stepTo hp₁ (hc _ otherwise false rfl) hfree.has (.inl rfl)).step hp₁
        (ht _).nested
    have hp₃ : Permits p x c s₃ := hp.fresh.after hthen
    have hsize : s.draft.labels.size < stop.index := Nat.lt_of_lt_of_le hfree.has hthen.labels
    have hmade : Lays y s.draft.labels.size s s₃.fresh := by
      have hboth := ((Lays.fresh s).next hthen).within (y := y)
        ((x.within_with_ stop).with_ otherwise)
      exact hboth.next (.fresh s₃)
    -- behind the first way, which may end in a branch to `stop`
    have hrest {s₅ : State} (h : Lays y s.draft.labels.size s s₅) (h₅ : Free s₅ otherwise)
        (h₅' : Free s₅ stop) :
        Lays x s.draft.labels.size s ((do mark otherwise; nested else_; mark stop) c s₅ : _ × State).2 := by
      have helse : Lays (x.with_ stop) _ _ _ := (Lays.of_eq rfl rfl).step
        (((hp.within (x.within_with_ stop)).after h).mark h₅.has) (he else_ rfl _).nested
      refine h.choice helse ?_ (Nat.le_refl _) (Nat.le_of_lt hsize) (hp.unused (Nat.le_refl _))
        (hp.unused (Nat.le_of_lt hsize)) h₅ h₅'
      exact fun heq => absurd (congrArg Label.index heq) (Nat.ne_of_gt hsize)
    have h₄ : Free s₃.fresh otherwise := (hthen.free hfree.has hfree).fresh
    have h₄' : Free s₃.fresh stop := hp₃.free
    show Lays x s.draft.labels.size s
      ((if s₃.fresh.draft.isReachable then do branch .br stop; mark otherwise; nested else_; mark stop
        else do mark otherwise; nested else_; mark stop : Gen Unit) c s₃.fresh).2
    split
    · have hbr : Lays y s₃.fresh.draft.labels.size s₃.fresh (branch .br stop c s₃.fresh).2 :=
        (Lays.of_eq rfl rfl).branch rfl h₄'.has (.inl (.inr (.inl rfl)))
      exact hrest (hmade.next hbr) (hbr.free h₄.has h₄) (hbr.free h₄'.has h₄')
    · exact hrest hmade h₄ h₄'

end

/-! ## Loops

A loop makes its labels first: the head is bound in front of the round and the exit behind it, and the
label for the next round in front of what ends the round. -/

/-- A round that starts at the head, and ends where the exit is bound. The labels are made on the way
from `s` to `s'`. -/
theorem Lays.loop (hp : Permits p x c s) (hmade : Lays x s.draft.labels.size s s')
    (hcode : s'.draft.code = s.draft.code) (hfree : Free s' s.label)
    (hfree' : Free s' s.fresh.label)
    (h : Lays ((x.with_ s.fresh.label).with_ s.label) (s.draft.labels.size + 2) (s'.bound s.label) s'') :
    Lays x s.draft.labels.size s (s''.bound s.fresh.label) := by
  have hindex : s.fresh.label.index = s.draft.labels.size + 1 := size_fresh s
  have hunused {l : Label} (hl : s.draft.labels.size ≤ l.index) : s'.draft.Unused l := fun i hi =>
    hp.unused hl i (hcode ▸ hi)
  have hne : s.fresh.label ≠ s.label := fun heq =>
    absurd (congrArg Label.index heq) (hindex ▸ Nat.succ_ne_self _)
  have hround : Lays (x.with_ s.fresh.label) s.draft.labels.size s' s'' :=
    (h.mono (Nat.le_add_right _ 2)).backward (Nat.le_refl _) (hunused (Nat.le_refl _)) hfree
  have hexit : s.draft.labels.size ≤ s.fresh.label.index := hindex ▸ Nat.le_succ _
  refine hmade.trans (hround.forward hexit (hunused hexit) (h.free ?_ (hfree'.bound hne)))
  rw [hindex]
  exact Nat.lt_succ_self _

/-- The part of a round in front of the label for the next one. -/
theorem Lays.round (hp : Permits p x c s)
    (h : Lays (x.with_ s.fresh.fresh.label) (s.fresh.fresh.fresh.bound s.label).draft.labels.size
      (s.fresh.fresh.fresh.bound s.label) s') :
    Lays x (s.draft.labels.size + 2) (s.fresh.fresh.fresh.bound s.label)
      (s'.bound s.fresh.fresh.label) := by
  have hindex : s.fresh.fresh.label.index = s.draft.labels.size + 2 := by
    rw [State.label, size_fresh, size_fresh]
  have hne : s.fresh.fresh.label ≠ s.label := fun heq =>
    absurd (congrArg Label.index heq) (hindex ▸ (by show _ + 2 ≠ s.draft.labels.size; omega))
  have hfree : Free (s.fresh.fresh.fresh.bound s.label) s.fresh.fresh.label :=
    hp.fresh.fresh.free.bound hne
  refine (h.mono ?_).forward hindex.ge (fun i hi => ?_) (h.free hfree.has hfree)
  · exact Nat.le_trans hindex.ge (Nat.le_of_lt hfree.has)
  · rw [State.bound, Draft.code_mark] at hi
    exact hp.unused (hindex ▸ Nat.le_add_right _ 2) i hi

theorem laid_loopTest {cond : Option Source.Expr} (exit : Label)
    (hc : ∀ e, cond = some e → ∀ L' l w, L' (.label l) →
      Laid p L' ((compile e).jump l w) fun _ => True) :
    Laid p (· = .label exit) (loopTest cond exit) fun _ => True := by
  unfold loopTest
  split
  · exact .pure trivial
  · exact .pure trivial
  · exact hc _ rfl _ exit false rfl

/-- The body of a loop. -/
theorem Lays.inLoop {body : Gen Unit} (h : Lays x n s s') (hp : Permits p x c s)
    (hb : Laid p (fun _ => False) body fun _ => True) (kind : Source.LoopKind) (exit next : Label)
    (hexit : s'.draft.Has exit ∧ x.jump exit) (hnext : s'.draft.Has next ∧ x.jump next) :
    Lays x n s (inLoop kind exit next (nested body) c s').2 :=
  h.next (hb.nested x _ s' ((hp.after h).inLoop kind hexit hnext) fun _ => False.elim).1

section

variable {body : Gen Unit}

theorem laid_whileLoop (kind : Source.LoopKind) {cond : Option Source.Expr}
    {step : Option (Gen Unit)}
    (hc : ∀ e, cond = some e → ∀ L' l w, L' (.label l) →
      Laid p L' ((compile e).jump l w) fun _ => True)
    (hb : ∀ L', Laid p L' body fun _ => True)
    (hs : ∀ g, step = some g → ∀ L', Laid p L' g fun _ => True) :
    Laid p L (whileLoop kind cond body step) fun _ => True := by
  rw [whileLoop_eq]
  intro x c s hp _
  refine ⟨?_, trivial⟩
  let s₂ := s.fresh.fresh
  have hmade : Lays x s.draft.labels.size s s₂ := (Lays.fresh s).next (.fresh s.fresh)
  have hfree : Free s₂ s.label := hp.free.fresh
  have hfree' : Free s₂ s.fresh.label := hp.fresh.free
  have hp' : Permits p ((x.with_ s.fresh.label).with_ s.label) c s := hp.within (within_with_with x _ _)
  -- the test and the body
  have htop {z : Exits} {s₄ : State} {next : Label} (hp₄ : Permits p z c s₄)
      (hexit : s₄.draft.Has s.fresh.label ∧ z.jump s.fresh.label)
      (hnext : s₄.draft.Has next ∧ z.jump next) :
      Lays z s₄.draft.labels.size s₄
        (inLoop kind s.fresh.label next (nested body) c (loopTest cond s.fresh.label c s₄).2).2 := by
    have htest : Lays z s₄.draft.labels.size s₄ (loopTest cond s.fresh.label c s₄).2 :=
      (Lays.of_eq rfl rfl).stepTo hp₄ (laid_loopTest _ hc) hexit.1 hexit.2
    exact htest.inLoop hp₄ (hb _) kind _ _ ⟨htest.has hexit.1, hexit.2⟩ ⟨htest.has hnext.1, hnext.2⟩
  cases step with
  | none =>
    have hbody := htop ((hp'.after hmade).mark hfree.has) ⟨has_mark hfree'.has, .inr (.inl rfl)⟩
      ⟨has_mark hfree.has, .inl rfl⟩
    have hback := hbody.goto (c := c) (hbody.has (has_mark hfree.has)) (.inl rfl)
    have hsize : s.draft.labels.size + 2 = (s₂.bound s.label).draft.labels.size := by
      rw [State.bound, Draft.size_labels_mark, size_fresh, size_fresh]
    exact .loop hp hmade rfl hfree hfree' (hback.mono hsize.le)
  | some g =>
    have hmade₃ : Lays x s.draft.labels.size s s₂.fresh := hmade.next (.fresh s₂)
    have hp₃ := (hp'.after hmade₃).mark hfree.fresh.has
    have hbody := htop (hp₃.within (Exits.within_with_ _ s₂.label))
      ⟨has_mark hfree'.fresh.has, .inr (.inr (.inl rfl))⟩ ⟨has_mark hp.fresh.fresh.free.has, .inl rfl⟩
    have hstep := (Lays.round hp' hbody).step hp₃ (hs g rfl _)
    have hback := hstep.goto (c := c) (hstep.has (has_mark hfree.fresh.has)) (.inl rfl)
    exact .loop hp hmade₃ rfl hfree.fresh hfree'.fresh hback

theorem laid_doLoop {cond : Source.Expr} (until_ : Bool)
    (hb : ∀ L', Laid p L' body fun _ => True)
    (hc : ∀ L' l w, L' (.label l) → Laid p L' ((compile cond).jump l w) fun _ => True) :
    Laid p L (doLoop body cond until_) fun _ => True := by
  intro x c s hp _
  refine ⟨?_, trivial⟩
  let s₃ := s.fresh.fresh.fresh
  have hmade : Lays x s.draft.labels.size s s₃ :=
    ((Lays.fresh s).next (.fresh s.fresh)).next (.fresh s.fresh.fresh)
  have hfree : Free s₃ s.label := hp.free.fresh.fresh
  have hfree' : Free s₃ s.fresh.label := hp.fresh.free.fresh
  have hp' : Permits p ((x.with_ s.fresh.label).with_ s.label) c s := hp.within (within_with_with x _ _)
  have hp₃ := (hp'.after hmade).mark hfree.has
  have hbody := (Lays.of_eq rfl rfl).inLoop (hp₃.within (Exits.within_with_ _ s.fresh.fresh.label)) (hb _)
    .do_ s.fresh.label s.fresh.fresh.label
    ⟨has_mark hfree'.has, .inr (.inr (.inl rfl))⟩ ⟨has_mark hp.fresh.fresh.free.has, .inl rfl⟩
  have hround := Lays.round hp' hbody
  have htest := hround.stepTo hp₃ (hc _ s.label (!until_) rfl) (hround.has (has_mark hfree.has)) (.inl rfl)
  exact .loop hp hmade rfl hfree hfree' htest

end

/-! ## Jumps -/

/-- A jump leaves the regions between it and its loop, if there are any. -/
theorem laid_jump (kind : Option Source.LoopKind) (exit : Bool) (pos : Source.Position) :
    Laid p L (jump kind exit pos) fun _ => True := by
  intro x c s hp hL
  refine ⟨?_, trivial⟩
  have hread : (read : Gen Context) c s = (c, s) := rfl
  rw [jump, apply_bind, hread]
  dsimp only
  cases hframe : c.loops.find? fun frame => kind.all (· = frame.kind) with
  | none => exact (Laid.aside (.report pos _) x c s hp hL).1
  | some frame =>
    have hmem : frame ∈ c.loops := List.mem_of_find?_eq_some hframe
    obtain ⟨hhas, hallows, hjump⟩ := hp.loop frame hmem (if exit then frame.exit else frame.next)
      (by cases exit <;> simp)
    refine (Lays.of_eq rfl rfl).branch (by split <;> rfl) hhas ?_
    by_cases hdepth : frame.tryDepth < c.tryDepth
    · rw [if_pos hdepth]
      exact hallows.imp id fun hl => ⟨rfl, hl⟩
    · exact .inl (hjump (Nat.le_antisymm (hp.depth frame hmem) (Nat.not_lt.1 hdepth)))

/-- The common exit is there behind the step that opens it. -/
theorem lays_sharedExit (ret : StaticType) (hp : Permits p x c s) :
    Lays x s.draft.labels.size s (sharedExit ret c s).2 ∧
      (sharedExit ret c s).2.exit = some (sharedExit ret c s).1 ∧
      (sharedExit ret c s).2.draft.Has (sharedExit ret c s).1.1 := by
  rw [sharedExit_apply]
  cases he : s.exit with
  | some e => exact ⟨.of_eq rfl rfl, he, hp.shared e.1 e.2 he⟩
  | none =>
    have hopen : (openExit ret c s).1.1 = s.label ∧
        Draft.Rests s.fresh.draft (openExit ret c s).2.draft := by
      unfold openExit
      by_cases hret : ret = .void
      · simp only [if_pos hret]
        exact ⟨rfl, .refl _⟩
      · simp only [if_neg hret]
        exact ⟨rfl, Draft.rests_declareLocal ..⟩
    obtain ⟨hlabel, hrests⟩ := hopen
    have hunbound : Unbound (openExit ret c s).2.draft (openExit ret c s).1.1 := by
      rw [hlabel]
      exact hp.free.unbound.grows hrests.grows hp.free.has
    have hnew := Draft.rests_newLabel s.draft
    refine ⟨⟨Nat.le_refl _, .seq (.rest hnew) (.rest hrests), ?_, fun e h => ?_, fun l slot h => .inr ?_⟩,
      rfl, hunbound.1⟩
    · exact hnew.grows.trans (hrests.grows.mono hnew.grows.labels)
    · rw [he] at h
      cases h
    · rw [show l = (openExit ret c s).1.1 from (congrArg Prod.fst (Option.some.inj h)).symm]
      exact ⟨hlabel ▸ Nat.le_refl _, hunbound⟩

theorem laid_leaveMethod (ret : StaticType) : Laid p L (leaveMethod ret) fun _ => True := by
  intro x c s hp _
  refine ⟨?_, trivial⟩
  have heq : leaveMethod ret c s = (if c.tryDepth = 0 then emit .ret else _ : Gen Unit) c s := rfl
  rw [heq]
  split
  · rename_i hdepth
    exact (Laid.ret (L := (· = .ret)) rfl x c s hp (by rintro _ rfl; exact hp.ret hdepth)).1
  · obtain ⟨hshared, hexit, hhas⟩ := lays_sharedExit ret hp
    rw [apply_bind]
    cases hr : sharedExit ret c s with
    | mk exit s₁ =>
      obtain ⟨label, slot⟩ := exit
      rw [hr] at hshared hexit hhas
      cases slot with
      | none => exact hshared.leaveShared hhas hexit
      | some slot =>
        have hstore := hshared.step hp (Laid.plain fun d => Draft.plain_storeLocal d slot)
        obtain ⟨i, hi, -⟩ := Draft.plain_storeLocal s₁.draft slot
        exact hstore.leaveShared (Nat.lt_of_lt_of_le hhas (hi.grows 0).labels) hexit

/-! ## Protected regions -/

theorem lays_leaveTo {stop : Label} (h : Lays x n s s') (hhas : s'.draft.Has stop)
    (hstop : x.Allows stop) :
    Lays x n s (leaveTo stop c s').2 ∧ (leaveTo stop c s').2.draft.unreachable = true := by
  have heq : leaveTo stop c s' =
      (if s'.draft.isReachable then branch .leave stop else pure () : Gen Unit) c s' := rfl
  rw [heq]
  split
  · refine ⟨h.branch rfl hhas (hstop.imp id fun hl => ⟨rfl, hl⟩), ?_⟩
    exact (Draft.unreachable_branch s'.draft).trans (Bool.or_true _)
  · rename_i hreachable
    refine ⟨h, show s'.draft.unreachable = true from ?_⟩
    simpa [Draft.isReachable] using hreachable

/-- The state in a region that starts now. -/
def State.guarded (s : State) : State := { s with draft := s.draft.beginTry.1 }

/-- The state in the handler of a region that ends now. -/
def State.handling (s : State) (start : Nat) (kind : ClauseKind) : State :=
  { s with draft := (s.draft.beginHandler start kind).1 }

/-- A region and its handler, if neither falls out at its end. -/
theorem Lays.protect {kind : ClauseKind} {s₁ s₂ : State}
    (h : Lays x.inside s.guarded.draft.labels.size s.guarded s₁)
    (hend : s₁.draft.unreachable = true)
    (h' : Lays x.inside (s₁.handling s.draft.code.size kind).draft.labels.size
      (s₁.handling s.draft.code.size kind) s₂)
    (hstop : s₂.draft.unreachable = true) :
    Lays x s.draft.labels.size s { s₂ with
      draft := s₂.draft.endHandler ⟨kind, s.draft.code.size, s₁.draft.code.size⟩ } := by
  have htry := Draft.grows_beginTry s.draft s.draft.labels.size
  have hbegin := Draft.grows_beginHandler s₁.draft s.draft.code.size kind s.draft.labels.size
  have hdone := Draft.grows_endHandler s₂.draft ⟨kind, s.draft.code.size, s₁.draft.code.size⟩
    s.draft.labels.size
  have hfirst := h.mono htry.labels
  have hsecond := h'.mono (Nat.le_trans htry.labels (Nat.le_trans h.labels hbegin.labels))
  -- what is an exit inside is one that can be left for
  have hinside {s₁ : State} (he : ∀ e, s₁.exit = some e → s₂.exit = some e) :
      (sharing x.inside s₁).Within (sharing x s₂).inside := by
    refine ⟨fun _ => False.elim, fun l hl => .inr ?_, False.elim⟩
    rcases hl with hl | ⟨slot, hl⟩
    · exact hl.imp id .inl
    · exact .inr (.inr ⟨slot, he _ hl⟩)
  refine ⟨Nat.le_refl _, ?_, ?_, fun e he => h'.exit e (h.exit e he), fun l slot hl => ?_⟩
  · exact .protect kind (h.block.mono (hinside h'.exit)) hend (h'.block.mono (hinside fun _ => id)) hstop
  · exact htry.trans (hfirst.grows.trans (hbegin.trans (hsecond.grows.trans hdone)))
  · have hlast (hfree : Unbound s₂.draft l) := hfree.grows (Draft.grows_endHandler s₂.draft
      ⟨kind, s.draft.code.size, s₁.draft.code.size⟩ _) hfree.1
    rcases h'.shared l slot hl with ⟨hl, hkeeps'⟩ | ⟨hnew, hfree⟩
    · have hmid (hfree : Unbound s₁.draft l) := hlast (hkeeps' (hfree.grows
        (Draft.grows_beginHandler s₁.draft s.draft.code.size kind _) hfree.1))
      rcases h.shared l slot hl with ⟨hl, hkeeps⟩ | ⟨hnew, hfree⟩
      · exact .inl ⟨hl, fun hfree => hmid (hkeeps (hfree.grows (Draft.grows_beginTry s.draft _) hfree.1))⟩
      · exact .inr ⟨Nat.le_trans htry.labels hnew, hmid hfree⟩
    · exact .inr ⟨Nat.le_trans hsecond.le hnew, hlast hfree⟩

section

variable {body g : Gen Unit} {stop : Label}

theorem Permits.guarded (h : Permits p x c s) : Permits p x c s.guarded :=
  h.of_labels (Draft.grows_beginTry s.draft 0).labels (fun _ _ => .inl)
    (h.sound.rest (Draft.rests_beginTry s.draft))

theorem Permits.handling (h : Permits p x c s) (start : Nat) (kind : ClauseKind) :
    Permits p x c (s.handling start kind) :=
  h.of_labels (Draft.grows_beginHandler s.draft start kind 0).labels (fun _ _ => .inl)
    (h.sound.beginHandler start kind)

/-- A protected body, up to its end. -/
theorem lays_region (hp : Permits p x c s) (hb : Laid p (fun _ => False) body fun _ => True)
    (hhas : s.draft.Has stop) (hstop : x.Allows stop) :
    Lays x s.draft.labels.size s (leaveTo stop c (nested body c s).2).2 ∧
      (leaveTo stop c (nested body c s).2).2.draft.unreachable = true := by
  have hbody : Lays x s.draft.labels.size s (nested body c s).2 :=
    (Lays.of_eq rfl rfl).step hp hb.nested
  exact lays_leaveTo hbody (hbody.has hhas) hstop

/-- What a handler does with the exception. -/
def catchBody (head : Source.CatchHead) (caught : StaticType) (body : Gen Unit) : Gen Unit := do
  let var ← match head.var with
    | some name => declareLocal name caught head.pos
    | none => pure none
  match var with
  | some var => edit (·.storeLocal var.slot)
  | none => emit .pop
  blockMark
  body

theorem laid_catchBody (head : Source.CatchHead) (caught : StaticType)
    (hg : Laid p L g fun _ => True) : Laid p L (catchBody head caught g) fun _ => True := by
  have hpop : Laid p L (emit .pop) fun _ => True := .emit rfl nofun
  unfold catchBody
  cases head.var with
  | none => exact hpop.seq (Laid.blockMark.seq hg)
  | some name =>
    refine (Laid.declareLocal name caught head.pos).bind fun var _ => ?_
    cases var with
    | none => exact hpop.seq (Laid.blockMark.seq hg)
    | some var =>
      exact (Laid.plain fun d => Draft.plain_storeLocal d var.slot).seq (Laid.blockMark.seq hg)

/-- A protected body with a handler that catches. -/
theorem lays_caught (hp : Permits p x.inside c s) (hb : Laid p (fun _ => False) body fun _ => True)
    (head : Source.CatchHead) (hg : Laid p (fun _ => False) g fun _ => True)
    (hhas : s.draft.Has stop) (hstop : x.Allows stop) :
    let r := ((do
      let region ← make Draft.beginTry
      nested body
      leaveTo stop
      catchHandler region head g stop : Gen Unit) c s).2
    Lays x s.draft.labels.size s r ∧ r.draft.unreachable = true := by
  have hhas₀ : s.guarded.draft.Has stop :=
    Nat.lt_of_lt_of_le hhas (Draft.grows_beginTry s.draft 0).labels
  obtain ⟨hregion, hend⟩ := lays_region hp.guarded hb hhas₀ (Exits.allows_inside.2 hstop)
  let s₁ := (leaveTo stop c (nested body c s.guarded).2).2
  let caught := (caughtType head c s₁).1
  let caughtClass : Library.Class := if caught = .object then .object else .exception
  let s₂ := (classToken caughtClass c (caughtType head c s₁).2).2
  let kind : ClauseKind := .catch_ (classToken caughtClass c (caughtType head c s₁).2).1
  -- finding out what is caught does not touch the code
  have haside : s₂.draft = s₁.draft ∧ s₂.exit = s₁.exit :=
    (Aside.caughtType head).bind (fun _ => Aside.classToken caughtClass) c s₁
  have hregion₂ : Lays x.inside s.guarded.draft.labels.size s.guarded s₂ :=
    hregion.next (.of_eq haside.1 haside.2)
  let u := s₂.handling s.draft.code.size kind
  have hp' : Permits p x.inside c u := (hp.guarded.after hregion₂).handling s.draft.code.size kind
  have hhandler : Lays x.inside u.draft.labels.size u
      (inScope (catchBody head caught g) { c with catchDepth := c.catchDepth + 1 } u).2 :=
    (Lays.of_eq rfl rfl).step hp'.inCatch (laid_catchBody head caught hg).inScope
  have hhas' : u.draft.Has stop := Nat.lt_of_lt_of_le (hregion₂.has hhas₀)
    (Draft.grows_beginHandler s₂.draft s.draft.code.size kind 0).labels
  obtain ⟨hleave, hdone⟩ := lays_leaveTo (c := c) hhandler (hhandler.has hhas')
    (Exits.allows_inside.2 hstop)
  exact ⟨hregion₂.protect (haside.1 ▸ hend) hleave hdone, hdone⟩

/-- A region with a handler that always runs. -/
theorem lays_finally {s₁ : State} (hp : Permits p x.inside c s)
    (h : Lays x.inside s.guarded.draft.labels.size s.guarded s₁)
    (hend : s₁.draft.unreachable = true) (hg : Laid p (fun _ => False) g fun _ => True) :
    Lays x s.draft.labels.size s ((do
      let handler ← make (·.beginHandler s.draft.code.size .finally_)
      nested g
      emit .endfinally
      edit (·.endHandler handler) : Gen Unit) c s₁).2 := by
  let u := s₁.handling s.draft.code.size .finally_
  have hp' : Permits p x.inside c u := (hp.guarded.after h).handling s.draft.code.size .finally_
  have hstop : Opcode.endfinally.operandKind = .none := rfl
  have hhandler := ((Lays.of_eq (s := u) rfl rfl).step hp' hg.nested).step hp' (.emit hstop nofun)
  exact h.protect hend hhandler ((Draft.appends_emit _ hstop).unreachable.trans (Bool.or_true _))

theorem laid_tryStatement {handler : Option (Source.CatchHead × Gen Unit)}
    {finally_ : Option (Gen Unit)} (hb : ∀ L', Laid p L' body fun _ => True)
    (hh : ∀ head g, handler = some (head, g) → ∀ L', Laid p L' g fun _ => True)
    (hf : ∀ g, finally_ = some g → ∀ L', Laid p L' g fun _ => True) :
    Laid p L (tryStatement body handler finally_) fun _ => True := by
  intro x c s hp _
  refine ⟨?_, trivial⟩
  let stop : Label := s.label
  let y := x.with_ stop
  let c' : Context := { c with tryDepth := c.tryDepth + 1 }
  have hp₁ : Permits p y.inside c' s.fresh :=
    ((hp.within (x.within_with_ stop)).after (Lays.fresh (x := x) s)).inside
  have hfree : Free s.fresh stop := hp.free
  have hstop : y.Allows stop := Exits.allows_with_
  have hclose {r : State} (h : Lays y s.fresh.draft.labels.size s.fresh r) :
      Lays x s.draft.labels.size s (r.bound stop) :=
    ((Lays.fresh s).next h).forward (Nat.le_refl _) (hp.unused (Nat.le_refl _)) (h.free hfree.has hfree)
  have hhas : s.fresh.guarded.draft.Has stop :=
    Nat.lt_of_lt_of_le hfree.has (Draft.grows_beginTry s.fresh.draft 0).labels
  cases finally_ with
  | none =>
    cases handler with
    | none =>
      exact hclose ((lays_region hp₁ (hb _) hfree.has (Exits.allows_inside.2 hstop)).1.within y.inside_within)
    | some h => exact hclose (lays_caught hp₁ (hb _) h.1 (hh h.1 h.2 rfl _) hfree.has hstop).1
  | some f =>
    cases handler with
    | none =>
      obtain ⟨hregion, hend⟩ := lays_region hp₁.guarded (hb _) hhas (Exits.allows_inside.2 hstop)
      exact hclose (lays_finally hp₁ hregion hend (hf f rfl _))
    | some h =>
      obtain ⟨hregion, hend⟩ := lays_caught hp₁.guarded.inside_inside (hb _) h.1 (hh h.1 h.2 rfl _) hhas
        (Exits.allows_inside.2 hstop)
      exact hclose (lays_finally hp₁ hregion hend (hf f rfl _))

end

/-- **Every walk lays out a block.** -/
theorem Walk.laid {b : Freedom} {α : Type} {g : Gen α} {Q : α → Prop}
    (h : Walk p (fun _ => True) L b g Q) : Laid p L g Q := by
  induction h with
  | look f h => exact .look fun c s hc => h c s (hc ▸ sees_any c s)
  | bind _ _ ihg ihk => exact ihg.bind ihk
  | weaken _ h ih => exact fun x c s hp hL => ⟨(ih x c s hp hL).1, h _ (ih x c s hp hL).2⟩
  | report pos cause => exact .aside (.report pos cause)
  | resolveType t => exact .aside (.resolveType t)
  | point pos => exact .rests fun d => Draft.rests_point d pos
  | emission h => exact .plain h.plain
  | mention h => exact laid_mention h
  | ret h => exact .ret h
  | branch hop hl => exact .branch hop hl
  | probe hg _ =>
    intro x c s hp _
    have hsees : Sees p (fun _ => True) { c with muted := true } { s with draft := {} } :=
      hp.program ▸ sees_any { c with muted := true } _
    obtain ⟨hstill, hQ⟩ := hg.quiet (typing_any p) nofun _ _ hsees
    exact ⟨.of_eq rfl hstill.exit, hQ⟩
  | updateLocal slot f h => exact .aside fun _ _ => ⟨rfl, rfl⟩
  | shortCircuit isOr _ _ ihl ihr =>
    exact laid_shortCircuit isOr (fun l w => ihl _ l w rfl) (ihr _)
  | jumpOnBoth isOr w _ _ hl ihl ihr => exact laid_jumpOnBoth isOr w ihl ihr hl
  | declareLocal name pos _ => exact .declareLocal name _ pos
  | inScope _ ih => exact ih.inScope
  | loopJump kind exit pos => exact laid_jump kind exit pos
  | leaveMethod _ => exact laid_leaveMethod _
  | ifStatement _ _ _ ihc iht ihe => exact laid_ifStatement ihc iht ihe
  | whileLoop kind _ _ _ ihc ihb ihs => exact laid_whileLoop kind ihc ihb ihs
  | doLoop until_ _ _ ihb ihc => exact laid_doLoop until_ ihb ihc
  | tryStatement _ _ _ ihb ihh ihf => exact laid_tryStatement ihb ihh ihf

/-! ## Methods -/

theorem unreachable_emitRet (c : Context) (s : State) :
    (emit .ret c s).2.draft.unreachable = true :=
  (Draft.appends_ret s.draft).unreachable.trans (Bool.or_true _)

/-- The end of a method is not reached: if it could be, a return stands there. -/
theorem unreachable_finalReturn (decl : Source.MethodDecl) (c : Context) (s : State) :
    (finalReturn decl c s).2.draft.unreachable = true := by
  have heq : finalReturn decl c s = (if s.draft.isReachable then (do
      point decl.endPos
      if c.method.ret = .void then blockMark
      else
        report decl.pos (.notAllPathsReturn c.method.name)
        loadDefault c.method.ret
      emit .ret) else pure () : Gen Unit) c s := rfl
  rw [heq]
  split
  · by_cases hvoid : c.method.ret = .void
    · simp only [if_pos hvoid]
      exact unreachable_emitRet c _
    · simp only [if_neg hvoid]
      exact unreachable_emitRet c _
  · rename_i hreachable
    show s.draft.unreachable = true
    simpa [Draft.isReachable] using hreachable

theorem within_body (h : s.exit = none) : (sharing .body s).Within .body := by
  refine ⟨fun _ => id, ?_, id⟩
  rintro l (hl | ⟨slot, hl⟩)
  · exact .inr hl
  · rw [h] at hl
    cases hl

/-- The common exit closes the block of a method. -/
theorem block_commonExit (h : Lays .body 0 s s') (hunused : ∀ l, s.draft.Unused l)
    (hexit : s.exit = none) (hend : s'.draft.unreachable = true) :
    Block .body s.draft (commonExit c s').2.draft ∧ (commonExit c s').2.draft.unreachable = true := by
  cases he : s'.exit with
  | none =>
    rw [commonExit_apply he]
    exact ⟨h.block.mono (within_body he), hend⟩
  | some e =>
    obtain ⟨label, slot⟩ := e
    have hunbound : Unbound s'.draft label := by
      rcases h.shared label slot he with ⟨he', -⟩ | ⟨-, hunbound⟩
      · rw [hexit] at he'
        cases he'
      · exact hunbound
    have hwithin : (sharing .body s').Within (Exits.body.with_ label) := by
      refine ⟨fun _ => .inr, ?_, id⟩
      rintro l (hl | ⟨slot', hl⟩)
      · exact .inr hl
      · rw [he] at hl
        cases hl
        exact Exits.allows_with_
    have hmark : Block .body s.draft (s'.draft.mark label) :=
      .forward label (hunused label) (h.block.mono hwithin) hunbound.1 hunbound.2
    have hret (d : Draft) : Block .body d (d.emit .ret) :=
      .add ((Draft.appends_ret d).adds nofun) nofun fun _ => trivial
    have hget : (get : Gen State) c s' = (s', s') := rfl
    rw [commonExit, apply_bind, hget]
    dsimp only
    rw [he]
    cases slot with
    | none => exact ⟨hmark.seq (hret _), unreachable_emitRet c _⟩
    | some slot =>
      obtain ⟨i, hi, hplain⟩ := Draft.plain_loadLocal (s'.draft.mark label) slot
      exact ⟨(hmark.seq (.plain hi hplain)).seq (hret _), unreachable_emitRet c _⟩

/-- **The code of a method is a block, and control does not come to its end.** -/
theorem block_methodBody (hloops : c.loops = []) (hdraft : s.draft = {})
    (hexit : s.exit = none) : Block .body {} (methodBody c s).2.draft ∧
      (methodBody c s).2.draft.unreachable = true := by
  have hp : Permits c.program .body c s := by
    refine ⟨rfl, fun _ => trivial, by simp [hloops], by simp [hloops], by simp [hexit], ?_⟩
    rw [hdraft]
    exact .empty
  have hgrants : ∀ e, e = Exit.ret → Grants .body s.draft e := by
    rintro _ rfl
    trivial
  have hread : (read : Gen Context) c s = (c, s) := rfl
  rw [methodBody, apply_bind, hread, ← hdraft]
  dsimp only
  have hT := typing_any c.program
  cases c.method.origin with
  | declared decl =>
    dsimp only
    rw [declaredBody_eq]
    obtain ⟨hlays, -⟩ := (walk_mainPart (L := (· = .ret)) hT decl rfl).laid .body c s hp hgrants
    refine block_commonExit (hlays.mono (Nat.zero_le _)) (fun l i hi => ?_) hexit
      (unreachable_finalReturn decl c _)
    rw [hdraft] at hi
    exact absurd hi (Array.not_mem_empty i)
  | ctor =>
    have hwalk := walk_ctorBody (p := c.program) (L := (· = .ret)) (b := .assigns) hT rfl
    have hquiet := (hwalk.quiet hT nofun c s (sees_any c s)).1
    refine ⟨(hwalk.laid .body c s hp hgrants).1.block.mono (within_body (hquiet.exit.trans hexit)), ?_⟩
    have hlast : ∃ s', ctorBody c s = emit .ret c s' := by
      have hlanguage : language c s = (c.program.language, s) := rfl
      unfold ctorBody
      rw [apply_bind, hlanguage]
      cases c.program.language <;> exact ⟨_, rfl⟩
    obtain ⟨s', hlast⟩ := hlast
    dsimp only
    rw [hlast]
    exact unreachable_emitRet c s'
  | cctor =>
    have hwalk := walk_cctorBody (p := c.program) (L := (· = .ret)) (b := .assigns) hT rfl
    have hquiet := (hwalk.quiet hT nofun c s (sees_any c s)).1
    refine ⟨(hwalk.laid .body c s hp hgrants).1.block.mono (within_body (hquiet.exit.trans hexit)), ?_⟩
    exact unreachable_emitRet c _

end CilScope.Lowering
