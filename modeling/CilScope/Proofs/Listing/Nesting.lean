import CilScope.Listing.Region
import CilScope.Proofs.Flow.Blocks

/-!
# Regions nest

`Fits P lo hi tree` says that the regions of a tree lie in the range `[lo, hi)`, ascending and disjoint,
each of them with its own regions inside its only part or inside its two parts, and that `P` holds of
their spans. Putting a span into a tree keeps this if no region of the tree starts behind the span
(`Fits.insert`), which is why candidates come in the order of their starts. `fits_regions` is that the
region tree of a body nests in the range of all instructions.

A clause whose range starts at the end of the code, where offsets have wrapped around, gives a region
that starts behind all instructions. It shows nothing, and neither do the regions behind it.
-/

namespace CilScope.Listing

open CilScope.Flow

/-- A span that is not empty, ends within `[0, hi)` and is split inside, or one that starts behind
it. -/
def Span.Within (hi : Nat) (s : Span) : Prop :=
  hi ≤ s.start ∨ s.start < s.stop ∧ s.stop ≤ hi ∧
    ∀ split, s.kind.split? = some split → s.start < split ∧ split ≤ s.stop

theorem Span.Within.mono {hi hi' : Nat} {s : Span} (h : s.Within hi) (hle : hi' ≤ hi)
    (hstop : s.stop ≤ hi') : s.Within hi' :=
  h.imp (Nat.le_trans hle) fun ⟨hlt, _, hsplit⟩ => ⟨hlt, hstop, hsplit⟩

/-- The regions nest in a range, and `P` holds of the spans that are shown. -/
inductive Fits (P : Span → Prop) : Nat → Nat → List Region → Prop
  | nil {lo hi : Nat} (hle : lo ≤ hi) : Fits P lo hi []
  /-- A region behind the range is not shown. -/
  | beyond {lo hi : Nat} {s : Span} {body alternative rest : List Region} (hs : P s) (hle : lo ≤ hi)
      (hstart : hi ≤ s.start) : Fits P lo hi (.mk s body alternative :: rest)
  | whole {lo hi : Nat} {s : Span} {body alternative rest : List Region} (hs : P s)
      (hsplit : s.kind.split? = none) (hlo : lo ≤ s.start) (hlt : s.start < s.stop)
      (hbody : Fits P s.start s.stop body) (hrest : Fits P s.stop hi rest) :
      Fits P lo hi (.mk s body alternative :: rest)
  | halves {lo hi : Nat} {s : Span} {split : Nat} {body alternative rest : List Region} (hs : P s)
      (hsplit : s.kind.split? = some split) (hlo : lo ≤ s.start) (hlt : s.start < s.stop)
      (hbody : Fits P s.start split body) (halternative : Fits P split s.stop alternative)
      (hrest : Fits P s.stop hi rest) : Fits P lo hi (.mk s body alternative :: rest)

/-- A span that is put into a list of regions goes into a part of the first one, inside of which it lies,
or behind it. -/
theorem insert_cons {s outer : Span} {body alternative rest tree : List Region}
    (h : Region.insert s (.mk outer body alternative :: rest) = some tree) :
    (outer.start ≤ s.start ∧ s.stop ≤ outer.stop ∧ outer.admits s = true ∧
      ((behindSplit outer.kind.split? s.start = true ∧ ∃ alternative',
          Region.insert s alternative = some alternative' ∧
          tree = .mk outer body alternative' :: rest) ∨
        (behindSplit outer.kind.split? s.start = false ∧ ∃ body',
          Region.insert s body = some body' ∧ tree = .mk outer body' alternative :: rest))) ∨
      (outer.overlaps s = false ∧ ∃ rest', Region.insert s rest = some rest' ∧
        tree = .mk outer body alternative :: rest') := by
  rw [Region.insert] at h
  split at h
  · rename_i hcontains
    obtain ⟨hstart, hstop⟩ : outer.start ≤ s.start ∧ s.stop ≤ outer.stop := by
      simpa [Span.contains] using hcontains
    split at h
    · cases h
    · rename_i hadmits
      refine .inl ⟨hstart, hstop, by simpa using hadmits, ?_⟩
      split at h
      · obtain ⟨alternative', halternative', rfl⟩ := Option.map_eq_some_iff.1 h
        exact .inl ⟨‹_›, alternative', halternative', rfl⟩
      · obtain ⟨body', hbody', rfl⟩ := Option.map_eq_some_iff.1 h
        exact .inr ⟨Bool.eq_false_iff.2 ‹_›, body', hbody', rfl⟩
  · split at h
    · cases h
    · obtain ⟨rest', hrest', rfl⟩ := Option.map_eq_some_iff.1 h
      exact .inr ⟨Bool.eq_false_iff.2 ‹_›, rest', hrest', rfl⟩

namespace Fits

variable {P Q : Span → Prop} {lo hi : Nat} {tree : List Region}

theorem le (h : Fits P lo hi tree) : lo ≤ hi := by
  induction h with
  | nil hle | beyond _ hle => exact hle
  | whole _ _ hlo hlt _ _ _ ih | halves _ _ hlo hlt _ _ _ _ _ ih => omega

theorem mono (h : Fits P lo hi tree) (hPQ : ∀ s, P s → Q s) : Fits Q lo hi tree := by
  induction h with
  | nil hle => exact .nil hle
  | beyond hs hle hstart => exact .beyond (hPQ _ hs) hle hstart
  | whole hs hsplit hlo hlt _ _ ihbody ihrest =>
    exact .whole (hPQ _ hs) hsplit hlo hlt ihbody ihrest
  | halves hs hsplit hlo hlt _ _ _ ihbody ihalternative ihrest =>
    exact .halves (hPQ _ hs) hsplit hlo hlt ihbody ihalternative ihrest

/-- A span alone. -/
theorem single {s : Span} (hs : P s) (hlo : lo ≤ s.start) (hle : lo ≤ hi) (hin : s.Within hi) :
    Fits P lo hi [.mk s [] []] := by
  rcases hin with hstart | ⟨hlt, hstop, hinside⟩
  · exact .beyond hs hle hstart
  · cases hsplit : s.kind.split? with
    | none => exact .whole hs hsplit hlo hlt (.nil (Nat.le_of_lt hlt)) (.nil hstop)
    | some split =>
      obtain ⟨hstart, hend⟩ := hinside split hsplit
      exact .halves hs hsplit hlo hlt (.nil (Nat.le_of_lt hstart)) (.nil hend) (.nil hstop)

/-- A span that starts at or behind a region and has nothing in common with it lies behind it. -/
theorem stop_le {s outer : Span} (hin : s.Within hi) (hstop : outer.stop ≤ hi)
    (hle : outer.start ≤ s.start) (hapart : outer.overlaps s = false) : outer.stop ≤ s.start := by
  simp only [Span.overlaps, Bool.and_eq_false_iff, decide_eq_false_iff_not] at hapart
  rcases hin with hstart | ⟨hlt, -, -⟩ <;> omega

theorem stop_le_split {s outer : Span} {split : Nat} (hsplit : outer.kind.split? = some split)
    (hadmits : outer.admits s = true) (hbefore : behindSplit outer.kind.split? s.start = false) :
    s.stop ≤ split := by
  simp only [Span.admits, hsplit, Bool.and_eq_true, Bool.not_eq_true', Bool.and_eq_false_iff,
    decide_eq_false_iff_not] at hadmits
  simp only [hsplit, behindSplit, decide_eq_false_iff_not] at hbefore
  omega

/-- Putting a span into a tree keeps the nesting, if no region of the tree starts behind the span. -/
theorem insert {s : Span} (hs : P s) (hlast : ∀ t, P t → t.start ≤ s.start) (h : Fits P lo hi tree)
    (hlo : lo ≤ s.start) (hin : s.Within hi) {tree' : List Region}
    (hinsert : Region.insert s tree = some tree') : Fits P lo hi tree' := by
  induction h generalizing tree' with
  | nil hle =>
    rw [Region.insert, Option.some.injEq] at hinsert
    exact hinsert ▸ single hs hlo hle hin
  | beyond houter hle hstart =>
    -- the region at the front stays where it is, whatever the span becomes part of
    obtain ⟨-, -, -, ⟨-, _, -, rfl⟩ | ⟨-, _, -, rfl⟩⟩ | ⟨-, _, -, rfl⟩ := insert_cons hinsert <;>
      exact .beyond houter hle hstart
  | whole houter hsplit hlo' hlt hbody hrest ihbody ihrest =>
    obtain ⟨hstart, hstop, -, ⟨hbehind, _⟩ | ⟨-, body', hbody', rfl⟩⟩ | ⟨hapart, rest', hrest', rfl⟩ :=
      insert_cons hinsert
    · simp [hsplit, behindSplit] at hbehind
    · exact .whole houter hsplit hlo' hlt (ihbody hstart (hin.mono hrest.le hstop) hbody') hrest
    · have hbehind := stop_le hin hrest.le (hlast _ houter) hapart
      exact .whole houter hsplit hlo' hlt hbody (ihrest hbehind hin hrest')
  | halves houter hsplit hlo' hlt hbody halternative hrest ihbody ihalternative ihrest =>
    obtain ⟨hstart, hstop, hadmits, ⟨hbehind, alternative', halternative', rfl⟩ |
      ⟨hbefore, body', hbody', rfl⟩⟩ | ⟨hapart, rest', hrest', rfl⟩ := insert_cons hinsert
    · rw [hsplit] at hbehind
      exact .halves houter hsplit hlo' hlt hbody
        (ihalternative (of_decide_eq_true hbehind) (hin.mono hrest.le hstop) halternative') hrest
    · -- what starts before the split and does not straddle it ends before it
      have hend := stop_le_split hsplit hadmits hbefore
      have hle := Nat.le_trans halternative.le hrest.le
      exact .halves houter hsplit hlo' hlt (ihbody hstart (hin.mono hle hend) hbody') halternative
        hrest
    · have hbehind := stop_le hin hrest.le (hlast _ houter) hapart
      exact .halves houter hsplit hlo' hlt hbody halternative (ihrest hbehind hin hrest')

end Fits

/-! ## The tree of all candidates -/

/-- If a span is a handler, then one of these clauses has it. -/
def Span.HandlerIn (clauses : List Clause) (s : Span) : Prop :=
  ∀ kind, s.kind = .handler kind → ∃ c ∈ clauses, c.kind = kind

/-- What is known of a candidate for the region tree of a body with `n` instructions. -/
structure Candidate (clauses : List Clause) (n : Nat) (s : Span) : Prop where
  inside : s.Within n
  handler : s.HandlerIn clauses

section

variable {clauses : List Clause} {n : Nat} {s : Span}

/-- A conditional without its second part starts where it started. -/
theorem Candidate.withoutElse (h : Candidate clauses n s) {t : Span} (ht : s.withoutElse? = some t) :
    Candidate clauses n t ∧ t.start = s.start := by
  unfold Span.withoutElse? at ht
  split at ht
  · rename_i test split hkind
    cases ht
    refine ⟨⟨?_, fun kind hk => by cases hk⟩, rfl⟩
    refine h.inside.imp id fun ⟨hlt, hstop, hsplit⟩ => ?_
    obtain ⟨hstart, hend⟩ := hsplit split (by rw [hkind]; rfl)
    exact ⟨hstart, Nat.le_trans hend hstop, fun _ hnone => by cases hnone⟩
  · cases ht

/-- Nothing in the tree starts behind `last`, and its handlers are those of clauses. -/
def Placed (clauses : List Clause) (last : Nat) (t : Span) : Prop :=
  t.start ≤ last ∧ t.HandlerIn clauses

theorem fits_insert {tree tree' : List Region} (h : Fits (Placed clauses s.start) 0 n tree)
    (hs : Candidate clauses n s) (hinsert : Region.insert s tree = some tree') :
    Fits (Placed clauses s.start) 0 n tree' :=
  h.insert ⟨Nat.le_refl _, hs.handler⟩ (fun _ ht => ht.1) (Nat.zero_le _) hs.inside hinsert

theorem fits_add {last : Nat} {tree : List Region} (h : Fits (Placed clauses last) 0 n tree)
    (hs : Candidate clauses n s) (hlast : last ≤ s.start) :
    Fits (Placed clauses s.start) 0 n (Region.add tree s) := by
  replace h := h.mono fun t ht => show Placed clauses s.start t from ⟨Nat.le_trans ht.1 hlast, ht.2⟩
  unfold Region.add
  cases hinsert : Region.insert s tree with
  | some tree' => exact fits_insert h hs hinsert
  | none =>
    cases hwithout : s.withoutElse? with
    | none => exact h
    | some t =>
      obtain ⟨ht, hstart⟩ := hs.withoutElse hwithout
      cases hinsert' : Region.insert t tree with
      | none => simpa [hinsert'] using h
      | some tree' =>
        rw [← hstart] at h ⊢
        simpa [hinsert'] using fits_insert h ht hinsert'

/-- Candidates in the order of their starts are put into a tree that nests. -/
theorem fits_foldl_add {spans : List Span} (hsorted : spans.Pairwise (·.start ≤ ·.start))
    (hspans : ∀ s ∈ spans, Candidate clauses n s) {last : Nat} {tree : List Region}
    (hlast : ∀ s ∈ spans, last ≤ s.start) (h : Fits (Placed clauses last) 0 n tree) :
    Fits (Span.HandlerIn clauses) 0 n (spans.foldl Region.add tree) := by
  induction spans generalizing last tree with
  | nil => exact h.mono fun _ ht => ht.2
  | cons s spans ih =>
    obtain ⟨hfirst, hsorted⟩ := List.pairwise_cons.1 hsorted
    obtain ⟨hs, hspans⟩ := List.forall_mem_cons.1 hspans
    exact ih hsorted hspans hfirst (fits_add h hs (hlast s (List.mem_cons_self ..)))

end

/-! ### Where candidates come from -/

theorem start_le_of_le {a b : Span} (h : Span.le a b = true) : a.start ≤ b.start := by
  simp [Span.le] at h
  omega

theorem Span.le_trans (a b c : Span) (hab : Span.le a b = true) (hbc : Span.le b c = true) :
    Span.le a c = true := by
  simp [Span.le] at *
  omega

theorem Span.le_total (a b : Span) : (Span.le a b || Span.le b a) = true := by
  simp [Span.le]
  omega

theorem mem_protectedSpans {o : Offsets} {clauses : List Clause} {s : Span}
    (h : s ∈ protectedSpans o clauses) : ∃ c ∈ clauses, s ∈ clauseSpans o c := by
  have hfold (spans found : List Span) (h : s ∈ spans.foldl (fun found s =>
      if s.kind == .protected_ && found.contains s then found else found ++ [s]) found) :
      s ∈ found ∨ s ∈ spans := by
    induction spans generalizing found with
    | nil => exact .inl h
    | cons t spans ih =>
      rcases ih _ h with h | h
      · dsimp only at h
        split at h
        · exact .inl h
        · rcases List.mem_append.1 h with h | h
          · exact .inl h
          · exact .inr (List.mem_cons.2 (.inl (List.mem_singleton.1 h)))
      · exact .inr (List.mem_cons_of_mem _ h)
  rcases hfold _ _ h with h | h
  · cases h
  · exact List.mem_flatMap.1 h

section

variable {g : Graph} {instructions : List Instruction} {clauses : List Clause} {s : Span}

theorem candidate_of_clause (hg : g.Describes instructions clauses) (ho : g.offsets.Ascending)
    {c : Clause} (hc : c ∈ clauses) (h : s ∈ clauseSpans g.offsets c) :
    Candidate clauses instructions.length s := by
  have hsize : g.offsets.starts.size = instructions.length := by
    rw [hg.offsets, Offsets.size_ofCode]
  have hclause (hlt : s.start < g.offsets.starts.size) := hg.clause (by
    rintro rfl
    rw [hsize] at hlt
    cases hlt) c hc
  obtain ⟨⟨kind, start, stop⟩, hmem, hspan⟩ := List.mem_filterMap.1 h
  simp only at hspan
  split at hspan
  · rename_i i j hi hj
    cases hspan
    simp only [List.mem_cons, Prod.mk.injEq, List.not_mem_nil, or_false] at hmem
    rcases hmem with ⟨rfl, rfl, rfl⟩ | ⟨rfl, rfl, rfl⟩
    · have hrange := Offsets.boundary?_lt ho hi hj fun hlt => (hclause hlt).1
      rw [hsize] at hrange
      refine ⟨hrange.imp id fun hlt => ⟨hlt.1, hlt.2, fun _ hnone => by cases hnone⟩,
        fun _ hkind => by cases hkind⟩
    · have hrange := Offsets.boundary?_lt ho hi hj fun hlt => (hclause hlt).2
      rw [hsize] at hrange
      refine ⟨hrange.imp id fun hlt => ⟨hlt.1, hlt.2, fun _ hnone => by cases hnone⟩,
        fun _ hkind => ?_⟩
      cases hkind
      exact ⟨c, hc, rfl⟩
  · cases hspan

theorem foldl_max_le_iff {xs : List Nat} {a bound : Nat} :
    xs.foldl max a ≤ bound ↔ a ≤ bound ∧ ∀ x ∈ xs, x ≤ bound := by
  induction xs generalizing a with
  | nil => simp
  | cons x xs ih =>
    rw [List.foldl_cons, ih, Nat.max_le, List.forall_mem_cons, and_assoc]

theorem candidate_of_loop (hg : g.Describes instructions clauses) {l : Loop}
    (hl : l ∈ g.naturalLoops) (h : loopSpan? g l = some s) :
    Candidate clauses instructions.length s := by
  obtain ⟨hheader, hbody⟩ := Graph.naturalLoops_spec hl
  have hblock {b : Nat} (hb : b ∈ l.body) : (g.blocks.getD b default).first <
      (g.blocks.getD b default).stop ∧ (g.blocks.getD b default).stop ≤ instructions.length := by
    have hlt : b < g.blocks.size := hbody b hb
    rw [Array.getD_eq_getD_getElem?, Array.getElem?_eq_getElem hlt, Option.getD_some]
    exact hg.block _ (Array.getElem_mem hlt)
  simp only [loopSpan?] at h
  split at h
  · cases h
  · split at h
    · cases h
      refine ⟨.inr ⟨?_, ?_, fun _ hnone => by cases hnone⟩, fun _ hkind => by cases hkind⟩
      · exact Nat.lt_of_lt_of_le (hblock hheader).1
          ((foldl_max_le_iff.1 (Nat.le_refl _)).2 _ (List.mem_map_of_mem hheader))
      · refine foldl_max_le_iff.2 ⟨Nat.zero_le _, fun stop hstop => ?_⟩
        obtain ⟨b, hb, rfl⟩ := List.mem_map.1 hstop
        exact (hblock hb).2
    · cases h

theorem jump_lt (hg : g.Describes instructions clauses) {k target : Nat}
    (h : (instructions.toArray.map fun i => i.target?.bind g.offsets.indexOf?).getD k none =
      some target) : target < instructions.length := by
  rw [Array.getD_eq_getD_getElem?, Array.getElem?_map] at h
  cases hi : instructions.toArray[k]? with
  | none => simp [hi] at h
  | some i =>
    rw [hi, Option.map_some, Option.getD_some] at h
    obtain ⟨offset, -, hindex⟩ := Option.bind_eq_some_iff.1 h
    rw [← Offsets.size_ofCode, ← hg.offsets]
    exact Offsets.lt_of_indexOf? hindex

theorem candidate_of_conditional (hg : g.Describes instructions clauses)
    (h : s ∈ conditionalSpans g instructions) : Candidate clauses instructions.length s := by
  obtain ⟨⟨i, test⟩, -, h⟩ := List.mem_filterMap.1 h
  simp only [conditionalSpan?, Option.bind_eq_bind, Option.bind_eq_some_iff] at h
  obtain ⟨_, -, target, htarget, _, hstart, last, -, _, -, h⟩ := h
  replace hstart : test + 1 < target := by simpa [guard] using hstart
  cases h
  have hend := Nat.le_of_lt (jump_lt hg htarget)
  refine ⟨.inr ?_, fun _ hkind => by cases hkind⟩
  -- a second part starts at the target, and it is what a jump from the first part leads over
  split
  · rename_i join hjoin
    split
    · rename_i hlt
      have hjoin' : join < instructions.length := by
        split at hjoin
        · exact jump_lt hg hjoin
        · cases hjoin
      refine ⟨Nat.lt_trans hstart hlt, Nat.le_of_lt hjoin', fun split hsplit => ?_⟩
      cases hsplit
      exact ⟨hstart, Nat.le_of_lt hlt⟩
    · exact ⟨hstart, hend, fun _ hnone => by cases hnone⟩
  · exact ⟨hstart, hend, fun _ hnone => by cases hnone⟩

end

/-- **The region tree of a body nests.** -/
theorem fits_regions {instructions : List Instruction} {clauses : List Clause} {g : Graph}
    (h : Graph.build instructions clauses = .ok g)
    (hoffsets : instructions.Pairwise (·.offset < ·.offset)) :
    Fits (Span.HandlerIn clauses) 0 instructions.length (regions instructions clauses g) := by
  have hg := Graph.describes_of_build h
  have ho : g.offsets.Ascending := by
    rw [Offsets.Ascending, hg.offsets, Offsets.starts_ofCode]
    exact List.pairwise_map.2 hoffsets
  have hsorted (spans : List Span) : (spans.mergeSort Span.le).Pairwise (·.start ≤ ·.start) :=
    (List.pairwise_mergeSort Span.le_trans Span.le_total spans).imp start_le_of_le
  refine fits_foldl_add (hsorted _) (fun s hs => ?_) (fun s _ => Nat.zero_le _)
    (.nil (Nat.zero_le _))
  rw [List.mem_mergeSort, List.mem_append, List.mem_append] at hs
  rcases hs with (hs | hs) | hs
  · obtain ⟨c, hc, hs⟩ := mem_protectedSpans hs
    exact candidate_of_clause hg ho hc hs
  · obtain ⟨l, hl, hs⟩ := List.mem_filterMap.1 hs
    exact candidate_of_loop hg hl hs
  · exact candidate_of_conditional hg hs

end CilScope.Listing
