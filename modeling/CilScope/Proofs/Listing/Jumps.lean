import CilScope.Proofs.Except
import CilScope.Proofs.Flow.Build
import CilScope.Proofs.Listing.Structured

/-!
# The words of jumps

In a structured listing a branch over the edge of a region shows a word in the place of its target.
`Worded` says which while blocks stand around every line of a text, and that the words are true of them:
a branch shown as `continue` goes to the head of a while block around it, one shown as `break` goes to
what follows such a block, and it is the innermost one that has the target at one of its edges
(`Jump.Means`). It need not be the innermost one of all: a branch out of two loops at once is shown by
what it does to the outer one.
-/

namespace CilScope.Listing

open CilScope.Flow CilScope.Text

/-! ## While blocks -/

/-- A while block: the index of its first instruction, and that of the one behind it. -/
structure WhileBlock where
  head : Nat
  behind : Nat

/-- Of these while blocks, innermost first, `w` is the first one that has `target` at its head or right
behind it. -/
def FirstAt (is : List Instruction) (target : UInt32) (around : List WhileBlock) (w : WhileBlock) :
    Prop :=
  ∃ inner outer, around = inner ++ w :: outer ∧
    ∀ v ∈ inner, ¬StandsAt is v.head target ∧ ¬StandsAt is v.behind target

/-- What the word for a jump to `target` says of the while blocks around it. -/
def Jump.Means (is : List Instruction) (target : UInt32) (around : List WhileBlock) : Jump → Prop
  | continue_ => ∃ w, FirstAt is target around w ∧ StandsAt is w.head target
  | break_ => ∃ w, FirstAt is target around w ∧ StandsAt is w.behind target
  | else_ | endif => True

/-- The line that names a while block. -/
def whileLine (head : UInt32) : String := "while (true) // head: " ++ offsetLabel head

/-- The text between two sinks shows the instructions of a range, in while blocks and other blocks, with
words that are true of the while blocks around them. -/
inductive Worded (n : Names) (m : MethodDef) (is : List Instruction) :
    List WhileBlock → Sink → Nat → Sink → Nat → Prop
  | nil (around : List WhileBlock) (s : Sink) (k : Nat) : Worded n m is around s k s k
  | line {around : List WhileBlock} {s s' : Sink} {k l : Nat} {i : Instruction} {text : String}
      (hi : is[k]? = some i) (word : Option Jump)
      (hline : instructionLine n m i (word.map Jump.text) = .ok text)
      (hword : ∀ j ∈ word, ∃ target, i.target? = some target ∧ j.Means is target around)
      (hrest : Worded n m is around (s.writeLine text) (k + 1) s' l) : Worded n m is around s k s' l
  | while_ {around : List WhileBlock} {s inside s' : Sink} {k mid l : Nat} {i : Instruction}
      (hi : is[k]? = some i) (hlt : k < mid)
      (hinside : Worded n m is (⟨k, mid⟩ :: around)
        ((s.writeLine (whileLine i.offset)).writeLine "\x7b").indent k inside mid)
      (hrest : Worded n m is around (inside.unindent.writeLine "\x7d // end while") mid s' l) :
      Worded n m is around s k s' l
  | block {around : List WhileBlock} {s inside s' : Sink} {k mid l : Nat} {heading closing : String}
      (hheading : ∀ head, heading ≠ whileLine head)
      (hinside : Worded n m is around ((s.writeLine heading).writeLine "\x7b").indent k inside mid)
      (hrest : Worded n m is around (inside.unindent.writeLine closing) mid s' l) :
      Worded n m is around s k s' l

variable {n : Names} {m : MethodDef} {is : List Instruction}

theorem Worded.append {around : List WhileBlock} {s s' s'' : Sink} {k l r : Nat}
    (h : Worded n m is around s k s' l) (h' : Worded n m is around s' l s'' r) :
    Worded n m is around s k s'' r := by
  induction h with
  | nil => exact h'
  | line hi word hline hword _ ih => exact .line hi word hline hword (ih h')
  | while_ hi hlt hinside _ _ ih => exact .while_ hi hlt hinside (ih h')
  | block hheading hinside _ _ ih => exact .block hheading hinside (ih h')

/-! ## The words of an outline -/

/-- The while block of a span. -/
def Span.while? (s : Span) : Option WhileBlock :=
  if s.kind = .loop then some ⟨s.start, s.stop⟩ else none

theorem Span.while?_eq_some {s : Span} {w : WhileBlock} :
    s.while? = some w ↔ s.kind = .loop ∧ w = ⟨s.start, s.stop⟩ := by
  rw [while?, Option.ite_none_right_eq_some, Option.some.injEq]
  exact and_congr_right' eq_comm

/-- A test is shown by what it does to its conditional. -/
theorem testJump?_cases {o : Offsets} {target : UInt32} {s : Span} {j : Jump}
    (h : Outline.testJump? o target s = some j) : j = .else_ ∨ j = .endif := by
  unfold Outline.testJump? at h
  split at h
  · exact .inl (Option.some.inj h).symm
  · split at h
    · exact .inr (Option.some.inj h).symm
    · cases h

/-- What a branch does to a region around it. -/
theorem jumpOut?_cases {o : Offsets} {target : UInt32} {s : Span} {j : Jump}
    (h : Outline.jumpOut? o target s = some j) :
    j = .endif ∨ s.kind = .loop ∧
      (j = .continue_ ∧ o.offsetAt s.start = target ∨ j = .break_ ∧ o.offsetAt s.stop = target) := by
  unfold Outline.jumpOut? at h
  split at h
  · refine .inr ⟨‹_›, ?_⟩
    split at h
    · exact .inl ⟨(Option.some.inj h).symm, ‹_›⟩
    · split at h
      · exact .inr ⟨(Option.some.inj h).symm, ‹_›⟩
      · cases h
  · split at h
    · exact .inl (Option.some.inj h).symm
    · cases h
  · cases h

/-- A branch that does nothing to a loop goes to neither of its edges. -/
theorem ne_of_jumpOut?_eq_none {o : Offsets} {target : UInt32} {s : Span} (hkind : s.kind = .loop)
    (h : Outline.jumpOut? o target s = none) :
    o.offsetAt s.start ≠ target ∧ o.offsetAt s.stop ≠ target := by
  unfold Outline.jumpOut? at h
  rw [hkind] at h
  dsimp only at h
  constructor
  · intro hstart
    rw [if_pos hstart] at h
    cases h
  · intro hstop
    rw [if_pos hstop] at h
    split at h <;> cases h

section

variable (hend : ∀ i ∈ is, i.offset < codeEnd is)
include hend

/-- An offset at which an instruction starts is that of an index if the instruction there starts at it. -/
theorem offsetAt_eq_iff {target : UInt32} (htarget : target ∈ is.map Instruction.offset) {k : Nat} :
    (Offsets.ofCode is.toArray).offsetAt k = target ↔ StandsAt is k target := by
  have hget : (Offsets.ofCode is.toArray).offsetAt k =
      (is[k]?.map Instruction.offset).getD (codeEnd is) := by
    rw [Offsets.offsetAt, Array.getD_eq_getD_getElem?, ← Array.getElem?_toList, Offsets.starts_ofCode,
      List.getElem?_map, Offsets.codeEnd_ofCode]
  rw [hget, StandsAt]
  cases is[k]?.map Instruction.offset with
  | some offset => simp
  | none =>
    obtain ⟨i, hi, rfl⟩ := List.mem_map.1 htarget
    simpa using (UInt32.ne_of_lt (hend i hi)).symm

/-- The words of an outline are true of the loops around them. -/
theorem means_of_jump? (hbound : ∀ i ∈ is, ∀ t ∈ i.target?, t ∈ is.map Instruction.offset)
    {around : List Span} {next : Option Span} {k : Nat} {i : Instruction} (hi : is[k]? = some i)
    {j : Jump} (h : Outline.jump? (.ofCode is.toArray) is.toArray around next k = some j) :
    ∃ target, i.target? = some target ∧ j.Means is target (around.filterMap Span.while?) := by
  simp only [Outline.jump?, List.getElem?_toArray, hi, Option.bind_eq_bind, Option.bind_some,
    Option.bind_eq_some_iff] at h
  obtain ⟨target, htarget, h⟩ := h
  refine ⟨target, htarget, ?_⟩
  have hat {k : Nat} := offsetAt_eq_iff hend (hbound i (List.mem_of_getElem? hi) target htarget) (k := k)
  rcases Option.or_eq_some_iff.1 h with htest | ⟨-, hout⟩
  · obtain ⟨s, -, htest⟩ := Option.bind_eq_some_iff.1 htest
    split at htest
    · split at htest
      · rcases testJump?_cases htest with rfl | rfl <;> trivial
      · cases htest
    · cases htest
  · obtain ⟨inner, s, outer, rfl, hs, hinner⟩ := List.findSome?_eq_some_iff.1 hout
    have hfirst (hkind : s.kind = .loop) : FirstAt is target
        ((inner ++ s :: outer).filterMap Span.while?) ⟨s.start, s.stop⟩ := by
      refine ⟨inner.filterMap Span.while?, outer.filterMap Span.while?, ?_, fun v hv => ?_⟩
      · rw [List.filterMap_append, List.filterMap_cons, Span.while?_eq_some.2 ⟨hkind, rfl⟩]
      · obtain ⟨x, hx, hxv⟩ := List.mem_filterMap.1 hv
        obtain ⟨hloop, rfl⟩ := Span.while?_eq_some.1 hxv
        obtain ⟨hstart, hstop⟩ := ne_of_jumpOut?_eq_none hloop (hinner x hx)
        exact ⟨mt hat.2 hstart, mt hat.2 hstop⟩
    rcases jumpOut?_cases hs with rfl | ⟨hkind, ⟨rfl, hstart⟩ | ⟨rfl, hstop⟩⟩
    · trivial
    · exact ⟨_, hfirst hkind, hat.1 hstart⟩
    · exact ⟨_, hfirst hkind, hat.1 hstop⟩

end

/-! ## The text of an outline -/

/-- Items written one list behind the other. -/
theorem exists_of_forM_append {α : Type} {f : α → Writer Unit} {xs ys : List α} {s s' : Sink}
    (h : (xs ++ ys).forM f s = .ok ((), s')) :
    ∃ s₁, xs.forM f s = .ok ((), s₁) ∧ ys.forM f s₁ = .ok ((), s') := by
  rw [show (xs ++ ys).forM f = (do xs.forM f; ys.forM f) from List.forM_append] at h
  obtain ⟨⟨⟨⟩, s₁⟩, hxs, hys⟩ := bind_eq_ok h
  exact ⟨s₁, hxs, hys⟩

theorem head?_while (rest : String) : ("while (true) // head: " ++ rest).toList.head? = some 'w' := by
  have hfirst : "while (true) // head: ".toList.head? = some 'w' := by simp
  rw [String.toList_append, List.head?_append, hfirst, Option.some_or]

/-- What starts with another letter names no while block. -/
theorem ne_whileLine {text : String} (h : text.toList.head? ≠ some 'w') (head : UInt32) :
    text ≠ whileLine head := by
  rintro rfl
  exact h (head?_while _)

theorem ne_whileLine_of_headingText {o : Offsets} {s : Span} {heading : String}
    (h : headingText n o s = .ok heading) (hkind : s.kind ≠ .loop) :
    ∀ head, heading ≠ whileLine head := by
  unfold headingText at h
  split at h
  · cases h
    exact ne_whileLine (by simp)
  · unfold handlerText at h
    split at h
    · obtain ⟨text, -, h⟩ := bind_eq_ok h
      cases h
      exact ne_whileLine (by simp)
    · cases h
      exact ne_whileLine (by simp)
  · contradiction
  · cases h
    exact ne_whileLine (by simp)

section

variable (n m is) in
/-- Where these items are written, the text shows the instructions of `[lo, hi)` inside these regions. -/
def Tells (around : List Span) (lo hi : Nat) (items : List Item) : Prop :=
  ∀ s s', items.forM (writeItem n m (.ofCode is.toArray) is.toArray) s = .ok ((), s') →
    Worded n m is (around.filterMap Span.while?) s lo s' hi

variable {around : List Span} {lo mid hi : Nat} {items items' : List Item}

theorem Tells.append (h : Tells n m is around lo mid items) (h' : Tells n m is around mid hi items') :
    Tells n m is around lo hi (items ++ items') := by
  intro s s' heq
  obtain ⟨s₁, heq, heq'⟩ := exists_of_forM_append heq
  exact (h _ _ heq).append (h' _ _ heq')

/-- One item is written. -/
theorem exists_of_forM_cons {α : Type} {f : α → Writer Unit} {x : α} {xs : List α} {s s' : Sink}
    (h : (x :: xs).forM f s = .ok ((), s')) :
    ∃ s₁, f x s = .ok ((), s₁) ∧ xs.forM f s₁ = .ok ((), s') := by
  obtain ⟨⟨⟨⟩, s₁⟩, hx, hxs⟩ := bind_eq_ok h
  exact ⟨s₁, hx, hxs⟩

/-- A line that names a block and braces around items make a block. -/
theorem Tells.block (h : Tells n m is around lo hi items) {naming : Item}
    (hnaming : ∀ s s', writeItem n m (.ofCode is.toArray) is.toArray naming s = .ok ((), s') →
      ∃ heading, (∀ head, heading ≠ whileLine head) ∧ s' = s.writeLine heading)
    (kind : Option RegionKind) :
    Tells n m is around lo hi ([naming, .opening] ++ items ++ [.closing kind]) := by
  intro s s' heq
  obtain ⟨inside, heq, hclosing⟩ := exists_of_forM_append heq
  obtain ⟨s₂, hopening, hitems⟩ := exists_of_forM_append heq
  obtain ⟨s₁, hnamed, hbrace⟩ := exists_of_forM_cons hopening
  obtain ⟨heading, hheading, rfl⟩ := hnaming _ _ hnamed
  cases hbrace
  cases hclosing
  exact .block hheading (h _ _ hitems) (.nil _ _ _)

/-- Only loops matter to the words. -/
theorem Tells.outside {s : Span} (h : Tells n m is (s :: around) lo hi items) (hkind : s.kind ≠ .loop) :
    Tells n m is around lo hi items := by
  intro sink sink' heq
  have hinside := h _ _ heq
  rwa [List.filterMap_cons, Span.while?, if_neg hkind] at hinside

theorem exists_of_writeItem_heading {s : Span} (hkind : s.kind ≠ .loop) {o : Offsets} (sink sink' : Sink)
    (h : writeItem n m o is.toArray (.heading s) sink = .ok ((), sink')) :
    ∃ heading, (∀ head, heading ≠ whileLine head) ∧ sink' = sink.writeLine heading := by
  obtain ⟨heading, hheading, rfl⟩ := line_eq_ok h
  exact ⟨heading, ne_whileLine_of_headingText hheading hkind, rfl⟩

theorem exists_of_writeItem_otherwise {o : Offsets} (sink sink' : Sink)
    (h : writeItem n m o is.toArray .otherwise sink = .ok ((), sink')) :
    ∃ heading, (∀ head, heading ≠ whileLine head) ∧ sink' = sink.writeLine heading := by
  cases h
  exact ⟨"else", ne_whileLine (by simp), rfl⟩

/-- The line of a loop and braces around items make a while block. -/
theorem Tells.while_ {s : Span} (hkind : s.kind = .loop) (hlt : s.start < s.stop)
    (hstop : s.stop ≤ is.length) (h : Tells n m is (s :: around) s.start s.stop items) :
    Tells n m is around s.start s.stop ([.heading s, .opening] ++ items ++ [.closing (some s.kind)]) := by
  intro sink sink' heq
  obtain ⟨inside, heq, hclosing⟩ := exists_of_forM_append heq
  obtain ⟨s₂, hopening, hitems⟩ := exists_of_forM_append heq
  obtain ⟨s₁, hnamed, hbrace⟩ := exists_of_forM_cons hopening
  obtain ⟨heading, hheading, rfl⟩ := line_eq_ok hnamed
  have hfirst := List.getElem?_eq_getElem (Nat.lt_of_lt_of_le hlt hstop)
  have hoffset : (Offsets.ofCode is.toArray).offsetAt s.start = is[s.start].offset := by
    rw [Offsets.offsetAt, Array.getD_eq_getD_getElem?, ← Array.getElem?_toList, Offsets.starts_ofCode,
      List.getElem?_map, hfirst]
    rfl
  cases hbrace
  rw [hkind] at hclosing
  cases hclosing
  rw [headingText, hkind, hoffset] at hheading
  obtain rfl : whileLine is[s.start].offset = heading := Except.ok.inj hheading
  refine .while_ hfirst hlt ?_ (.nil _ _ _)
  have hinside := h _ _ hitems
  rwa [List.filterMap_cons, Span.while?_eq_some.2 ⟨hkind, rfl⟩] at hinside

section

variable (hend : ∀ i ∈ is, i.offset < codeEnd is)
  (hbound : ∀ i ∈ is, ∀ t ∈ i.target?, t ∈ is.map Instruction.offset)
include hend hbound

theorem tells_flat (around : List Span) (next : Option Span) (hlo : lo ≤ hi) (hhi : hi ≤ is.length) :
    Tells n m is around lo hi (Outline.flat (.ofCode is.toArray) is.toArray around next lo hi) := by
  obtain ⟨count, rfl⟩ := Nat.exists_eq_add_of_le hlo
  rw [Outline.flat, Nat.add_sub_cancel_left]
  induction count generalizing lo with
  | zero =>
    intro s s' heq
    cases heq
    exact .nil _ _ _
  | succ count ih =>
    intro s s' heq
    have hfirst := List.getElem?_eq_getElem (show lo < is.length by omega)
    rw [List.range'_succ, List.map_cons] at heq
    obtain ⟨s₁, hline, hrest⟩ := exists_of_forM_cons heq
    rw [writeItem, List.getElem?_toArray, hfirst] at hline
    obtain ⟨text, htext, rfl⟩ := line_eq_ok hline
    refine .line hfirst _ htext (fun j hj => means_of_jump? hend hbound hfirst hj) ?_
    have hrest := @ih (lo + 1) (by omega) (by omega) _ _ hrest
    rwa [Nat.add_assoc, Nat.add_comm 1] at hrest

/-- **The words of regions that nest are true.** -/
theorem tells_items {P : Span → Prop} {tree : List Region} (h : Fits P lo hi tree) (hhi : hi ≤ is.length)
    (around : List Span) :
    Tells n m is around lo hi (Outline.items (.ofCode is.toArray) is.toArray around lo hi tree) := by
  induction h generalizing around with
  | nil hle =>
    rw [Outline.items]
    exact tells_flat hend hbound around none hle hhi
  | beyond hs hle hstart =>
    rw [Outline.items, if_neg (Nat.not_lt.2 hstart)]
    exact tells_flat hend hbound around _ hle hhi
  | @whole lo hi s body alternative rest hs hsplit hlo hlt hbody hrest ihbody ihrest =>
    have hstop := Nat.le_trans hrest.le hhi
    have hbefore := tells_flat (n := n) (m := m) hend hbound around (some s) hlo (by omega)
    have hinside := ihbody hstop (s :: around)
    have hblock : Tells n m is around s.start s.stop ([.heading s, .opening] ++
        Outline.items (.ofCode is.toArray) is.toArray (s :: around) s.start s.stop body ++
          [.closing (some s.kind)]) := by
      by_cases hkind : s.kind = .loop
      · exact hinside.while_ hkind hlt hstop
      · exact (hinside.outside hkind).block (exists_of_writeItem_heading hkind) _
    have hitems := hbefore.append (hblock.append (ihrest hhi around))
    rw [Outline.items, if_pos (Nat.lt_of_lt_of_le hlt hrest.le)]
    simpa [hsplit] using hitems
  | @halves lo hi s split body alternative rest hs hsplit hlo hlt hbody halternative hrest ihbody
      ihalternative ihrest =>
    have hstop := Nat.le_trans hrest.le hhi
    have hkind : s.kind ≠ .loop := by
      rintro hkind
      rw [hkind] at hsplit
      cases hsplit
    have hbefore := tells_flat (n := n) (m := m) hend hbound around (some s) hlo (by omega)
    have hfirst := ((ihbody (Nat.le_trans halternative.le hstop) (s :: around)).outside hkind).block
      (exists_of_writeItem_heading hkind) none
    have hsecond := ((ihalternative hstop (s :: around)).outside hkind).block
      exists_of_writeItem_otherwise (some s.kind)
    have hitems := hbefore.append ((hfirst.append hsecond).append (ihrest hhi around))
    rw [Outline.items, if_pos (Nat.lt_of_lt_of_le hlt hrest.le)]
    simpa [hsplit] using hitems

end

end

/-- **The words of a structured listing are true.** Where the instructions of a body ascend up to the end of
its code, a branch of its structured listing that is shown as `continue` goes to the head of a while block
around it, and one shown as `break` goes to what follows one; the block is the innermost one that has the
target at one of its edges. -/
theorem writeBody_worded {b : Body} {s s' : Sink} (hasc : b.instructions.Pairwise (·.offset < ·.offset))
    (hend : ∀ i ∈ b.instructions, i.offset < codeEnd b.instructions)
    (h : writeBody true n m b s = .ok ((), s')) :
    ∃ head, Worded n m b.instructions [] head 0 s' b.instructions.length := by
  obtain ⟨head, g, -, hg, hbody⟩ := writeBody_eq_ok h
  rw [hbody, if_pos rfl, writeStructured, outline, (Graph.describes_of_build hg).offsets] at h
  refine ⟨head, ?_⟩
  have hbound : ∀ i ∈ b.instructions, ∀ t ∈ i.target?, t ∈ b.instructions.map Instruction.offset := by
    intro i hi
    exact ((Graph.exists_build_iff (List.ne_nil_of_mem hi) hasc).1 ⟨g, hg⟩).branch i hi
  exact tells_items hend hbound (fits_regions hg hasc) (Nat.le_refl _) [] _ _ h

end CilScope.Listing
