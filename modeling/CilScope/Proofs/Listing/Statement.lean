import CilScope.Proofs.Listing.Names

/-!
# Protected regions and their handlers in the region tree

A statement is a protected range with a handler right behind it. If every candidate for the region
tree lies beside the statement, around it or inside one of its ranges (`Statement.Respects`), then
the protected region and the handler become neighbours in the tree, in this order and with nothing
between them (`Statement.paired_foldl_add`).

Candidates go into the tree in the order of their starts. What comes before the protected region
lies before the statement or around it (`Statement.Precedes`), so there is a place for the region.
What comes between the two lies inside the protected region and leaves it the last one of its list
(`Statement.Started`), so the handler goes right behind it. What comes later parts no neighbours
(`Statement.Paired.insert`).
-/

namespace CilScope

namespace Listing

open CilScope.Flow

/-! ## Putting a span into a tree -/

theorem contains_eq_false_iff {s inner : Span} :
    s.contains inner = false ↔ inner.start < s.start ∨ s.stop < inner.stop := by
  simp [Span.contains, imp_iff_not_or]

theorem overlaps_eq_false_iff {s other : Span} :
    s.overlaps other = false ↔ s.stop ≤ other.start ∨ other.stop ≤ s.start := by
  simp [Span.overlaps, imp_iff_not_or]

section

variable {s outer : Span} {body alternative rest : List Region}

theorem insert_body (hcontains : outer.contains s = true) (hadmits : outer.admits s = true)
    (hbefore : behindSplit outer.kind.split? s.start = false) {body' : List Region}
    (h : Region.insert s body = some body') :
    Region.insert s (.mk outer body alternative :: rest) =
      some (.mk outer body' alternative :: rest) := by
  rw [Region.insert, if_pos hcontains, hadmits, hbefore, h]
  rfl

theorem insert_alternative (hcontains : outer.contains s = true) (hadmits : outer.admits s = true)
    (hbehind : behindSplit outer.kind.split? s.start = true) {alternative' : List Region}
    (h : Region.insert s alternative = some alternative') :
    Region.insert s (.mk outer body alternative :: rest) =
      some (.mk outer body alternative' :: rest) := by
  rw [Region.insert, if_pos hcontains, hadmits, hbehind, h]
  rfl

theorem insert_behind (hcontains : outer.contains s = false) (hapart : outer.overlaps s = false)
    {rest' : List Region} (h : Region.insert s rest = some rest') :
    Region.insert s (.mk outer body alternative :: rest) =
      some (.mk outer body alternative :: rest') := by
  rw [Region.insert, hcontains, hapart, h]
  rfl

/-- A candidate leaves the tree as it is, or goes into it, maybe without its second part. -/
theorem add_cases (tree : List Region) (s : Span) : Region.add tree s = tree ∨
    ∃ s', (s' = s ∨ s.withoutElse? = some s') ∧
      Region.insert s' tree = some (Region.add tree s) := by
  unfold Region.add
  cases hinsert : Region.insert s tree with
  | some tree' => exact .inr ⟨s, .inl rfl, hinsert⟩
  | none =>
    cases hwithout : s.withoutElse? with
    | none => exact .inl rfl
    | some s' =>
      cases hinsert' : Region.insert s' tree with
      | none => simp [hinsert']
      | some tree' => exact .inr ⟨s', .inr rfl, by simp [hinsert']⟩

theorem add_of_insert {tree tree' : List Region} (h : Region.insert s tree = some tree') :
    Region.add tree s = tree' := by
  rw [Region.add, h]
  rfl

end

/-! ## Statements -/

/-- A protected range `[start, middle)` with its handler `[middle, stop)`, neither of them empty. -/
structure Statement where
  kind : ClauseKind
  start : Nat
  middle : Nat
  stop : Nat
  protects : start < middle
  handles : middle < stop

namespace Statement

/-- The protected region of a statement. -/
def protected_ (t : Statement) : Span := ⟨.protected_, t.start, t.middle⟩

/-- The handler of a statement. -/
def handler (t : Statement) : Span := ⟨.handler t.kind, t.middle, t.stop⟩

@[simp] theorem protected_start (t : Statement) : t.protected_.start = t.start := rfl

@[simp] theorem protected_stop (t : Statement) : t.protected_.stop = t.middle := rfl

@[simp] theorem handler_start (t : Statement) : t.handler.start = t.middle := rfl

@[simp] theorem handler_stop (t : Statement) : t.handler.stop = t.stop := rfl

/-- The span is around the statement, and has all of it in one part. -/
structure Around (t : Statement) (s : Span) : Prop where
  start : s.start ≤ t.start
  stop : t.stop ≤ s.stop
  split : ∀ split, s.kind.split? = some split → split ≤ t.start ∨ t.stop ≤ split

/-- The span lies beside the statement, around it, or inside one of its ranges. -/
def Respects (t : Statement) (s : Span) : Prop :=
  s.stop ≤ t.start ∨ t.stop ≤ s.start ∨ t.Around s ∨ (t.start ≤ s.start ∧ s.stop ≤ t.middle) ∨
    (t.middle ≤ s.start ∧ s.stop ≤ t.stop)

/-- Somewhere in the tree, in one list, the handler of the statement is the next region behind its
protected region. -/
inductive Paired (t : Statement) : List Region → Prop
  | here {body alternative body' alternative' rest : List Region} :
    Paired t (.mk t.protected_ body alternative :: .mk t.handler body' alternative' :: rest)
  | behind {r : Region} {rest : List Region} (h : Paired t rest) : Paired t (r :: rest)
  | body {s : Span} {body alternative rest : List Region} (h : Paired t body) :
    Paired t (.mk s body alternative :: rest)
  | alternative {s : Span} {body alternative rest : List Region} (h : Paired t alternative) :
    Paired t (.mk s body alternative :: rest)

/-- Neighbours stay neighbours. -/
theorem Paired.insert {t : Statement} {s : Span} {tree tree' : List Region} (h : t.Paired tree)
    (hinsert : Region.insert s tree = some tree') : t.Paired tree' := by
  induction h generalizing tree' with
  | here =>
    obtain ⟨-, -, -, ⟨-, _, -, rfl⟩ | ⟨-, _, -, rfl⟩⟩ | ⟨-, _, hrest, rfl⟩ := insert_cons hinsert
    · exact .here
    · exact .here
    · obtain ⟨-, -, -, ⟨-, _, -, rfl⟩ | ⟨-, _, -, rfl⟩⟩ | ⟨-, _, -, rfl⟩ := insert_cons hrest <;>
        exact .here
  | @behind r rest h ih =>
    obtain ⟨span, body, alternative⟩ := r
    obtain ⟨-, -, -, ⟨-, _, -, rfl⟩ | ⟨-, _, -, rfl⟩⟩ | ⟨-, _, hrest, rfl⟩ := insert_cons hinsert
    · exact .behind h
    · exact .behind h
    · exact .behind (ih hrest)
  | body h ih =>
    obtain ⟨-, -, -, ⟨-, _, -, rfl⟩ | ⟨-, _, hbody, rfl⟩⟩ | ⟨-, _, -, rfl⟩ := insert_cons hinsert
    · exact .body h
    · exact .body (ih hbody)
    · exact .body h
  | alternative h ih =>
    obtain ⟨-, -, -, ⟨-, _, halternative, rfl⟩ | ⟨-, _, -, rfl⟩⟩ | ⟨-, _, -, rfl⟩ :=
      insert_cons hinsert
    · exact .alternative (ih halternative)
    · exact .alternative h
    · exact .alternative h

theorem Paired.add {t : Statement} {s : Span} {tree : List Region} (h : t.Paired tree) :
    t.Paired (Region.add tree s) := by
  rcases add_cases tree s with heq | ⟨s', -, hinsert⟩
  · rwa [heq]
  · exact h.insert hinsert

/-- The protected region of the statement stands in the tree, in the part that is around the
statement, and nothing of the list is behind it. -/
inductive Started (t : Statement) : List Region → Prop
  | here {body alternative : List Region} : Started t [.mk t.protected_ body alternative]
  | behind {s : Span} {body alternative rest : List Region} (hs : s.stop ≤ t.start)
    (h : Started t rest) : Started t (.mk s body alternative :: rest)
  | body {s : Span} {body alternative rest : List Region} (hs : t.Around s)
    (hbefore : behindSplit s.kind.split? t.start = false) (h : Started t body) :
    Started t (.mk s body alternative :: rest)
  | alternative {s : Span} {body alternative rest : List Region} (hs : t.Around s)
    (hbehind : behindSplit s.kind.split? t.start = true) (h : Started t alternative) :
    Started t (.mk s body alternative :: rest)

/-- The span lies before the statement or around it. -/
def Precedes (t : Statement) (s : Span) : Prop := s.stop ≤ t.start ∨ t.Around s

section

variable {t : Statement}

/-- What is inside the statement is in the part of a region around it where the statement starts. -/
theorem Around.behindSplit_eq {s r : Span} (h : t.Around s) (hstart : t.start ≤ r.start)
    (hlt : r.start < t.stop) :
    behindSplit s.kind.split? r.start = behindSplit s.kind.split? t.start := by
  cases hsplit : s.kind.split? with
  | none => rfl
  | some split =>
    have := h.split split hsplit
    simp only [behindSplit, decide_eq_decide]
    omega

/-- A region around the statement has room for its ranges. -/
theorem Around.takes {s r : Span} (h : t.Around s) (hstart : t.start ≤ r.start)
    (hend : r.stop ≤ t.stop) (hkind : r = t.protected_ ∨ r = t.handler) :
    s.contains r = true ∧ s.admits r = true := by
  obtain ⟨hs, hs', hsplit⟩ := h
  constructor
  · simp only [Span.contains, Bool.and_eq_true, decide_eq_true_eq]
    omega
  · rw [Span.admits, Bool.and_eq_true]
    constructor
    · split
      · rename_i split heq
        have := hsplit split heq
        simp only [Bool.not_eq_true', Bool.and_eq_false_iff, decide_eq_false_iff_not]
        omega
      · rfl
    · rcases hkind with rfl | rfl <;> rfl

/-- The protected region finds its place behind regions before the statement and in regions around
it. -/
theorem exists_started {tree : List Region} (h : Region.All t.Precedes tree) :
    ∃ tree', Region.insert t.protected_ tree = some tree' ∧ t.Started tree' := by
  induction h with
  | nil => exact ⟨_, by rw [Region.insert], .here⟩
  | @cons s body alternative rest hs _ _ _ ihbody ihalternative ihrest =>
    rcases hs with hbefore | haround
    · obtain ⟨rest', hrest, hstarted⟩ := ihrest
      exact ⟨_, insert_behind
        (contains_eq_false_iff.2 (.inr (Nat.lt_of_le_of_lt hbefore t.protects)))
        (overlaps_eq_false_iff.2 (.inl hbefore)) hrest, .behind hbefore hstarted⟩
    · obtain ⟨hcontains, hadmits⟩ := haround.takes (Nat.le_refl _) (Nat.le_of_lt t.handles)
        (.inl rfl)
      cases hsplit : behindSplit s.kind.split? t.start with
      | false =>
        obtain ⟨body', hbody, hstarted⟩ := ihbody
        exact ⟨_, insert_body hcontains hadmits hsplit hbody, .body haround hsplit hstarted⟩
      | true =>
        obtain ⟨alternative', halternative, hstarted⟩ := ihalternative
        exact ⟨_, insert_alternative hcontains hadmits hsplit halternative,
          .alternative haround hsplit hstarted⟩

/-- What lies inside the protected region goes there, or nowhere. -/
theorem Started.insert {s : Span} (hstart : t.start ≤ s.start) (hlt : s.start < s.stop)
    (hend : s.stop ≤ t.middle) {tree tree' : List Region} (h : t.Started tree)
    (hinsert : Region.insert s tree = some tree') : t.Started tree' := by
  have hbefore : s.start < t.stop := Nat.lt_of_lt_of_le hlt (Nat.le_trans hend t.handles.le)
  induction h generalizing tree' with
  | here =>
    obtain ⟨-, -, -, ⟨-, _, -, rfl⟩ | ⟨-, _, -, rfl⟩⟩ | ⟨hapart, -⟩ := insert_cons hinsert
    · exact .here
    · exact .here
    · have hout : t.middle ≤ s.start ∨ s.stop ≤ t.start := overlaps_eq_false_iff.1 hapart
      omega
  | behind hs h ih =>
    obtain ⟨-, hstop', -⟩ | ⟨-, rest', hrest, rfl⟩ := insert_cons hinsert
    · omega
    · exact .behind hs (ih hrest)
  | body hs hsplit h ih =>
    have hpart := hs.behindSplit_eq hstart hbefore
    obtain ⟨-, -, -, ⟨hbehind, -⟩ | ⟨-, body', hbody, rfl⟩⟩ | ⟨hapart, -⟩ := insert_cons hinsert
    · rw [hpart, hsplit] at hbehind
      cases hbehind
    · exact .body hs hsplit (ih hbody)
    · have := hs.start
      have := hs.stop
      rw [overlaps_eq_false_iff] at hapart
      omega
  | alternative hs hsplit h ih =>
    have hpart := hs.behindSplit_eq hstart hbefore
    obtain ⟨-, -, -, ⟨-, alternative', halternative, rfl⟩ | ⟨hfirst, -⟩⟩ | ⟨hapart, -⟩ :=
      insert_cons hinsert
    · exact .alternative hs hsplit (ih halternative)
    · rw [hpart, hsplit] at hfirst
      cases hfirst
    · have := hs.start
      have := hs.stop
      rw [overlaps_eq_false_iff] at hapart
      omega

/-- The handler goes right behind the protected region. -/
theorem Started.exists_paired {tree : List Region} (h : t.Started tree) :
    ∃ tree', Region.insert t.handler tree = some tree' ∧ t.Paired tree' := by
  induction h with
  | here =>
    exact ⟨_, insert_behind (contains_eq_false_iff.2 (.inr t.handles))
      (overlaps_eq_false_iff.2 (.inl (Nat.le_refl _))) (by rw [Region.insert]), .here⟩
  | behind hs h ih =>
    obtain ⟨rest', hrest, hpaired⟩ := ih
    have hbehind := Nat.le_trans hs (Nat.le_of_lt t.protects)
    exact ⟨_, insert_behind
      (contains_eq_false_iff.2 (.inr (Nat.lt_of_le_of_lt hbehind t.handles)))
      (overlaps_eq_false_iff.2 (.inl hbehind)) hrest, .behind hpaired⟩
  | body hs hbefore h ih =>
    obtain ⟨body', hbody, hpaired⟩ := ih
    obtain ⟨hcontains, hadmits⟩ := hs.takes (Nat.le_of_lt t.protects) (Nat.le_refl _) (.inr rfl)
    have hpart := hs.behindSplit_eq (r := t.handler) (Nat.le_of_lt t.protects) t.handles
    exact ⟨_, insert_body hcontains hadmits (hpart.trans hbefore) hbody, .body hpaired⟩
  | alternative hs hbehind h ih =>
    obtain ⟨alternative', halternative, hpaired⟩ := ih
    obtain ⟨hcontains, hadmits⟩ := hs.takes (Nat.le_of_lt t.protects) (Nat.le_refl _) (.inr rfl)
    have hpart := hs.behindSplit_eq (r := t.handler) (Nat.le_of_lt t.protects) t.handles
    exact ⟨_, insert_alternative hcontains hadmits (hpart.trans hbehind) halternative,
      .alternative hpaired⟩

/-! ### The order of candidates -/

theorem le_iff {a b : Span} : Span.le a b = true ↔ a.start < b.start ∨ a.start = b.start ∧
    (b.stop < a.stop ∨ a.stop = b.stop ∧ a.kind.rank ≤ b.kind.rank) := by
  simp [Span.le]

/-- What is known of a candidate for the tree of a body with `n` instructions: it respects the
statement, and no other range of a clause is one of the two of the statement. -/
structure Suits (t : Statement) (n : Nat) (s : Span) : Prop where
  inside : s.Within n
  respects : t.Respects s
  distinct : s.kind.rank = 0 → s ≠ t.protected_ → s ≠ t.handler →
    ¬(s.start = t.start ∧ s.stop = t.middle) ∧ ¬(s.start = t.middle ∧ s.stop = t.stop)

/-- What comes before the protected region lies before the statement or around it. -/
theorem Suits.precedes {n : Nat} {s : Span} (h : t.Suits n s) (hle : Span.le s t.protected_ = true)
    (hne : s ≠ t.protected_) : t.Precedes s := by
  have hprotects := t.protects
  have hhandles := t.handles
  have hdistinct := h.distinct
  have hhandler : s = t.handler → s.start = t.middle := fun heq => heq ▸ rfl
  have hle : s.start < t.start ∨ s.start = t.start ∧
    (t.middle < s.stop ∨ s.stop = t.middle ∧ s.kind.rank ≤ 0) := le_iff.1 hle
  rcases h.respects with hbefore | hbehind | haround | hin | hin
  · exact .inl hbefore
  · omega
  · exact .inr haround
  · refine absurd ⟨by omega, by omega⟩ (hdistinct (by omega) hne fun heq => ?_).1
    have := hhandler heq
    omega
  · omega

/-- What comes between the protected region and the handler lies in the protected region. -/
theorem Suits.between {n : Nat} (hn : t.stop ≤ n) {s : Span} (h : t.Suits n s)
    (hle : Span.le t.protected_ s = true) (hle' : Span.le s t.handler = true)
    (hne : s ≠ t.handler) : t.start ≤ s.start ∧ s.start < s.stop ∧ s.stop ≤ t.middle := by
  have hprotects := t.protects
  have hhandles := t.handles
  have hdistinct := h.distinct
  have hprotected : s = t.protected_ → s.start = t.start := fun heq => heq ▸ rfl
  have hle : t.start < s.start ∨ t.start = s.start ∧
    (s.stop < t.middle ∨ t.middle = s.stop ∧ 0 ≤ s.kind.rank) := le_iff.1 hle
  have hle' : s.start < t.middle ∨ s.start = t.middle ∧
    (t.stop < s.stop ∨ s.stop = t.stop ∧ s.kind.rank ≤ 0) := le_iff.1 hle'
  have hlt : s.start < s.stop := by
    rcases h.inside with hbeyond | ⟨hlt, -⟩
    · omega
    · exact hlt
  rcases h.respects with hbefore | hbehind | haround | hin | hin
  · omega
  · omega
  · have := haround.start
    have := haround.stop
    omega
  · omega
  · refine absurd ⟨by omega, by omega⟩ (hdistinct (by omega) (fun heq => ?_) hne).2
    have := hprotected heq
    omega

/-- A conditional without its second part ends where the second part started. -/
theorem exists_split {s s' : Span} (h : s.withoutElse? = some s') : ∃ split,
    s.kind.split? = some split ∧ s'.kind.split? = none ∧ s'.start = s.start ∧ s'.stop = split := by
  unfold Span.withoutElse? at h
  split at h
  · rename_i test split hkind
    cases h
    exact ⟨split, by rw [hkind]; rfl, rfl, rfl, rfl⟩
  · cases h

theorem Precedes.withoutElse {n : Nat} {s s' : Span} (h : t.Precedes s) (hinside : s.Within n)
    (hstart : s.start < n) (hs' : s.withoutElse? = some s') : t.Precedes s' := by
  obtain ⟨_, hsplit, hnone, hstart', rfl⟩ := exists_split hs'
  have hin := ((hinside.resolve_left (Nat.not_le.2 hstart)).2.2 _ hsplit).2
  rcases h with hbefore | haround
  · exact .inl (Nat.le_trans hin hbefore)
  · rcases haround.split _ hsplit with hle | hle
    · exact .inl hle
    · refine .inr ⟨hstart' ▸ haround.start, hle, fun split hsplit' => ?_⟩
      rw [hnone] at hsplit'
      cases hsplit'

theorem Started.add {n : Nat} (hn : t.stop ≤ n) {s : Span} (hstart : t.start ≤ s.start)
    (hlt : s.start < s.stop) (hend : s.stop ≤ t.middle) (hinside : s.Within n)
    {tree : List Region} (h : t.Started tree) : t.Started (Region.add tree s) := by
  rcases add_cases tree s with heq | ⟨s', rfl | hs', hinsert⟩
  · rwa [heq]
  · exact h.insert hstart hlt hend hinsert
  · obtain ⟨_, hsplit, -, hstart', rfl⟩ := exists_split hs'
    have hhandles := t.handles
    obtain ⟨hfirst, hlast⟩ := (hinside.resolve_left (by omega)).2.2 _ hsplit
    exact h.insert (hstart' ▸ hstart) (hstart' ▸ hfirst) (Nat.le_trans hlast hend) hinsert

/-- **The protected region and the handler of a statement become neighbours** if all candidates
respect the statement. -/
theorem paired_foldl_add {n : Nat} (hn : t.stop ≤ n) {spans : List Span}
    (hsorted : spans.Pairwise (Span.le · · = true)) (hprotected : t.protected_ ∈ spans)
    (hhandler : t.handler ∈ spans) (hsuits : ∀ s ∈ spans, t.Suits n s) :
    t.Paired (spans.foldl Region.add []) := by
  have hprotects := t.protects
  have hhandles := t.handles
  have hbefore {s : Span} (hs : Span.le s t.protected_ = true) : s.start < n := by
    have : s.start ≤ t.start := start_le_of_le hs
    omega
  obtain ⟨pre, rest, rfl, hpre⟩ := List.eq_append_cons_of_mem hprotected
  obtain ⟨-, hrest, hcross⟩ := List.pairwise_append.1 hsorted
  obtain ⟨hbehind, hrest⟩ := List.pairwise_cons.1 hrest
  -- the handler starts behind the protected region, so it comes later
  have hmem : t.handler ∈ rest := by
    rcases List.mem_append.1 hhandler with hmem | hmem
    · have : t.middle ≤ t.start := start_le_of_le (hcross _ hmem _ (List.mem_cons_self ..))
      omega
    · refine (List.mem_cons.1 hmem).resolve_left fun heq => ?_
      have : t.middle = t.start := congrArg Span.start heq
      omega
  obtain ⟨mid, post, rfl, hmid⟩ := List.eq_append_cons_of_mem hmem
  obtain ⟨-, -, hcross'⟩ := List.pairwise_append.1 hrest
  rw [List.foldl_append, List.foldl_cons, List.foldl_append, List.foldl_cons]
  -- before the protected region
  have hall : Region.All t.Precedes (pre.foldl Region.add []) := by
    have hpres : ∀ s ∈ pre, t.Suits n s ∧ Span.le s t.protected_ = true ∧ s ≠ t.protected_ :=
      fun s hs => ⟨hsuits s (List.mem_append_left _ hs), hcross s hs _ (List.mem_cons_self ..),
        fun heq => hpre (heq ▸ hs)⟩
    refine List.foldlRecOn pre Region.add .nil fun tree htree s hs => ?_
    obtain ⟨hsuit, hle, hne⟩ := hpres s hs
    have hprecedes := hsuit.precedes hle hne
    exact htree.add hprecedes fun s' hs' =>
      hprecedes.withoutElse hsuit.inside (hbefore hle) hs'
  obtain ⟨tree, hinsert, hstarted⟩ := exists_started hall
  rw [add_of_insert hinsert]
  -- between the protected region and the handler
  have hstarted' : t.Started (mid.foldl Region.add tree) := by
    refine List.foldlRecOn mid Region.add hstarted fun tree htree s hs => ?_
    have hsuit := hsuits s (List.mem_append_right _ (List.mem_cons_of_mem _
      (List.mem_append_left _ hs)))
    obtain ⟨hstart, hlt, hend⟩ := hsuit.between hn (hbehind s (List.mem_append_left _ hs))
      (hcross' s hs _ (List.mem_cons_self ..)) fun heq => hmid (heq ▸ hs)
    exact htree.add hn hstart hlt hend hsuit.inside
  obtain ⟨tree', hinsert', hpaired⟩ := hstarted'.exists_paired
  rw [add_of_insert hinsert']
  -- behind the handler
  exact List.foldlRecOn post Region.add hpaired fun tree htree s _ => htree.add

end

end Statement

end Listing

end CilScope
