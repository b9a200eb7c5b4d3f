import CilScope.Listing.Body
import CilScope.Proofs.Listing.Nesting
import CilScope.Proofs.Listing.Writer
import CilScope.Proofs.Text.Sink

/-!
# A structured listing loses and repeats nothing

`Blocks n text s is s'` says that the text between the sinks `s` and `s'` consists of one line for each of
the instructions `is`, in this order, and of blocks around them: every block is a line that names it, a
brace, what is inside, one step further in, and a brace again. The line of an instruction is its flat line
`text`, but for the operand of a branch (`Retells`). `writeBody_structured` is that wherever a body can be
listed flat it can be listed with its control structures, as such blocks around all its instructions.

The regions of a body nest (`fits_regions`), and the outline of regions that nest in a range shows every
instruction of the range once (`shows_items`).
-/

namespace CilScope

namespace Listing

open CilScope.Flow CilScope.Text

/-! ## The lines of instructions -/

/-- How the line of an instruction starts: with its offset and its mnemonic. -/
def stem (i : Instruction) : String := offsetLabel i.offset ++ ": " ++ i.opcode.mnemonic

/-- A line shows an instruction as its flat line does, except that a branch may have a word for what it does
in the place of its target. -/
def Retells (i : Instruction) (flat shown : String) : Prop :=
  shown = flat ∨ ∃ target, i.target? = some target ∧ flat = stem i ++ " " ++ offsetLabel target ∧
    ∃ word ∈ ["continue", "break", "else", "endif"], shown = stem i ++ " " ++ word

theorem Jump.text_mem (j : Jump) : j.text ∈ ["continue", "break", "else", "endif"] := by
  cases j <;> simp [Jump.text]

/-- A jump only matters to the line of a branch. -/
theorem retells_instructionLine {n : Names} {m : MethodDef} {i : Instruction} {flat : String}
    (h : instructionLine n m i none = .ok flat) (jump : Option Jump) :
    ∃ shown, instructionLine n m i (jump.map Jump.text) = .ok shown ∧ Retells i flat shown := by
  cases jump with
  | none => exact ⟨flat, h, .inl rfl⟩
  | some j =>
    cases hoperand : i.operand with
    | target t =>
      simp only [instructionLine, operandText, hoperand] at h ⊢
      cases h
      refine ⟨_, rfl, .inr ⟨t, by simp [Instruction.target?, hoperand], rfl, j.text, j.text_mem, rfl⟩⟩
    | none | int | var | token =>
      refine ⟨flat, ?_, .inl rfl⟩
      simp only [instructionLine, operandText, hoperand] at h ⊢
      exact h

/-! ## Text in blocks -/

/-- The lines that name a block. -/
inductive Heading (n : Names) : String → Prop
  | protected_ : Heading n ".try"
  | handler {kind : ClauseKind} {text : String} (h : handlerText n kind = .ok text) : Heading n text
  | loop (offset : UInt32) : Heading n ("while (true) // head: " ++ offsetLabel offset)
  | test (offset : UInt32) : Heading n ("if (" ++ offsetLabel offset ++ ")")
  | otherwise : Heading n "else"

/-- Instructions with these flat lines, and blocks around them, are written behind `s` and lead to
`s'`. -/
inductive Blocks (n : Names) (text : Instruction → String) : Sink → List Instruction → Sink → Prop
  | nil (s : Sink) : Blocks n text s [] s
  | line {s s' : Sink} {i : Instruction} {is : List Instruction} {shown : String}
      (hline : Retells i (text i) shown) (hrest : Blocks n text (s.writeLine shown) is s') :
      Blocks n text s (i :: is) s'
  | block {s inside s' : Sink} {is rest : List Instruction} {heading closing : String}
      (hheading : Heading n heading)
      (hinside : Blocks n text ((s.writeLine heading).writeLine "\x7b").indent is inside)
      (hclosing : closing = "\x7d" ∨ ∃ what, closing = "\x7d // end " ++ what)
      (hrest : Blocks n text (inside.unindent.writeLine closing) rest s') :
      Blocks n text s (is ++ rest) s'

namespace Blocks

variable {n : Names} {text : Instruction → String} {s s' s'' : Sink} {is is' : List Instruction}

theorem append (h : Blocks n text s is s') (h' : Blocks n text s' is' s'') :
    Blocks n text s (is ++ is') s'' := by
  induction h with
  | nil s => exact h'
  | line hline _ ih => exact .line hline (ih h')
  | block hheading hinside hclosing _ _ ih =>
    rw [List.append_assoc]
    exact .block hheading hinside hclosing (ih h')

/-- Blocks that are closed leave the indentation as it was. -/
theorem depth_eq (h : Blocks n text s is s') : s'.depth = s.depth := by
  induction h with
  | nil s => rfl
  | line _ _ ih => rw [ih, Sink.depth_writeLine]
  | block hheading _ hclosing _ ihinside ihrest =>
    rw [ihrest, Sink.depth_writeLine, Sink.unindent, ihinside, Sink.indent]
    simp

end Blocks

/-! ## Outlines -/

section

variable (n : Names) (m : MethodDef) (o : Offsets) (code : Array Instruction)
  (text : Instruction → String)

/-- The instructions of `[lo, hi)`. -/
def between (lo hi : Nat) : List Instruction := (code.toList.drop lo).take (hi - lo)

/-- The items can be written anywhere, as blocks around the instructions of `[lo, hi)`. -/
def Shows (lo hi : Nat) (items : List Item) : Prop :=
  ∀ s, ∃ s', items.forM (writeItem n m o code) s = .ok ((), s') ∧
    Blocks n text s (between code lo hi) s'

variable {n m o code text} {lo hi : Nat} {items : List Item}

/-- Items are written one list behind the other. -/
theorem forM_append_eq_ok {s s₁ s₂ : Sink} {xs ys : List Item}
    (h : xs.forM (writeItem n m o code) s = .ok ((), s₁))
    (h' : ys.forM (writeItem n m o code) s₁ = .ok ((), s₂)) :
    (xs ++ ys).forM (writeItem n m o code) s = .ok ((), s₂) := by
  have happend : (xs ++ ys).forM (writeItem n m o code) =
      (do xs.forM (writeItem n m o code); ys.forM (writeItem n m o code)) := List.forM_append
  rw [happend]
  show (xs.forM (writeItem n m o code) s >>= fun p => ys.forM (writeItem n m o code) p.2) = _
  rw [h]
  exact h'

theorem between_append {mid : Nat} (hlo : lo ≤ mid) (hhi : mid ≤ hi) :
    between code lo mid ++ between code mid hi = between code lo hi := by
  have hsize : hi - lo = (mid - lo) + (hi - mid) := by omega
  rw [between, between, between, hsize, List.take_add, List.drop_drop, Nat.add_sub_cancel' hlo]

theorem between_succ {k : Nat} {i : Instruction} (hi : code[k]? = some i) :
    between code k (k + 1) = [i] := by
  obtain ⟨hk, rfl⟩ := Array.getElem?_eq_some_iff.1 hi
  rw [between, Nat.add_sub_cancel_left, List.drop_eq_getElem_cons (by simpa using hk)]
  simp

theorem shows_nil (lo : Nat) : Shows n m o code text lo lo [] := by
  intro s
  refine ⟨s, rfl, ?_⟩
  rw [between, Nat.sub_self, List.take_zero]
  exact .nil s

theorem Shows.append {mid : Nat} {items' : List Item} (h : Shows n m o code text lo mid items)
    (h' : Shows n m o code text mid hi items') (hlo : lo ≤ mid) (hhi : mid ≤ hi) :
    Shows n m o code text lo hi (items ++ items') := by
  intro s
  obtain ⟨s₁, hwrite, hblocks⟩ := h s
  obtain ⟨s₂, hwrite', hblocks'⟩ := h' s₁
  refine ⟨s₂, forM_append_eq_ok hwrite hwrite', ?_⟩
  rw [← between_append hlo hhi]
  exact hblocks.append hblocks'

theorem closingText_eq (kind : Option RegionKind) :
    closingText kind = "\x7d" ∨ ∃ what, closingText kind = "\x7d // end " ++ what := by
  unfold closingText
  split
  · exact .inl rfl
  · exact .inr ⟨".try", rfl⟩
  · exact .inr ⟨"handler", rfl⟩
  · exact .inr ⟨"while", rfl⟩
  · exact .inr ⟨"if", rfl⟩

/-- A line that names a block and braces around items make a block. -/
theorem Shows.block (h : Shows n m o code text lo hi items) {naming : Item} {heading : String}
    (hnaming : ∀ s, writeItem n m o code naming s = .ok ((), s.writeLine heading))
    (hheading : Heading n heading) (kind : Option RegionKind) :
    Shows n m o code text lo hi ([naming, .opening] ++ items ++ [.closing kind]) := by
  intro s
  obtain ⟨s₁, hwrite, hblocks⟩ := h ((s.writeLine heading).writeLine "\x7b").indent
  refine ⟨s₁.unindent.writeLine (closingText kind), ?_, ?_⟩
  · refine forM_append_eq_ok (forM_append_eq_ok ?_ hwrite) rfl
    show (writeItem n m o code naming s >>= fun p => _) = _
    rw [hnaming]
    rfl
  · rw [← List.append_nil (between code lo hi)]
    exact .block hheading hblocks (closingText_eq kind) (.nil _)

/-- The region of a span has a line that names it. -/
theorem heading_of_headingText {s : Span} {heading : String} (h : headingText n o s = .ok heading) :
    Heading n heading := by
  unfold headingText at h
  split at h
  · cases h
    exact .protected_
  · exact .handler h
  · cases h
    exact .loop _
  · cases h
    exact .test _

theorem writeItem_heading {s : Span} {heading : String} (h : headingText n o s = .ok heading)
    (sink : Sink) : writeItem n m o code (.heading s) sink = .ok ((), sink.writeLine heading) := by
  show (headingText n o s).map (·, sink) >>= _ = _
  rw [h]
  rfl

theorem writeItem_otherwise (sink : Sink) :
    writeItem n m o code .otherwise sink = .ok ((), sink.writeLine "else") := rfl

theorem shows_instruction {k : Nat} {i : Instruction} (hi : code[k]? = some i)
    (h : instructionLine n m i none = .ok (text i)) (jump : Option Jump) :
    Shows n m o code text k (k + 1) [.instruction k jump] := by
  intro s
  obtain ⟨line, hline, hretells⟩ := retells_instructionLine h jump
  refine ⟨s.writeLine line, ?_, ?_⟩
  · show (writeItem n m o code (.instruction k jump) s >>= fun p => _) = _
    simp only [writeItem, hi]
    show ((instructionLine n m i (jump.map (·.text))).map (·, s) >>= _) >>= _ = _
    rw [hline]
    rfl
  · rw [between_succ hi]
    exact .line hretells (.nil _)

section

variable (hcode : ∀ (k : Nat) i, code[k]? = some i → instructionLine n m i none = .ok (text i))
include hcode

theorem shows_flat (around : List Span) (next : Option Span) (hlo : lo ≤ hi) (hhi : hi ≤ code.size) :
    Shows n m o code text lo hi (Outline.flat o code around next lo hi) := by
  obtain ⟨count, rfl⟩ := Nat.exists_eq_add_of_le hlo
  rw [Outline.flat, Nat.add_sub_cancel_left]
  induction count generalizing lo with
  | zero => exact shows_nil lo
  | succ count ih =>
    have hlt : lo < code.size := by omega
    have hfirst := Array.getElem?_eq_getElem hlt
    rw [List.range'_succ, List.map_cons, ← List.singleton_append]
    refine (shows_instruction hfirst (hcode lo _ hfirst) _).append ?_ (by omega) (by omega)
    have hrest := @ih (lo + 1) (by omega) (by omega)
    rwa [Nat.add_assoc, Nat.add_comm 1] at hrest

/-- **The outline of regions that nest shows every instruction once.** -/
theorem shows_items {P : Span → Prop} (hnamed : ∀ s, P s → ∃ heading, headingText n o s = .ok heading)
    {tree : List Region} (h : Fits P lo hi tree) (hhi : hi ≤ code.size) (around : List Span) :
    Shows n m o code text lo hi (Outline.items o code around lo hi tree) := by
  induction h generalizing around with
  | nil hle =>
    rw [Outline.items]
    exact shows_flat hcode around none hle hhi
  | beyond hs hle hstart =>
    rw [Outline.items, if_neg (Nat.not_lt.2 hstart)]
    exact shows_flat hcode around _ hle hhi
  | @whole lo hi s body alternative rest hs hsplit hlo hlt hbody hrest ihbody ihrest =>
    obtain ⟨heading, hheading⟩ := hnamed s hs
    have hbefore := shows_flat (o := o) hcode around (some s) hlo (by have := hrest.le; omega)
    have hblock := (ihbody (Nat.le_trans hrest.le hhi) (s :: around)).block
      (writeItem_heading hheading) (heading_of_headingText hheading) (some s.kind)
    have hitems := hbefore.append (hblock.append (ihrest hhi around) hbody.le hrest.le) hlo
      (Nat.le_trans hbody.le hrest.le)
    rw [Outline.items, if_pos (Nat.lt_of_lt_of_le hlt hrest.le)]
    simpa [hsplit] using hitems
  | @halves lo hi s split body alternative rest hs hsplit hlo hlt hbody halternative hrest ihbody
      ihalternative ihrest =>
    obtain ⟨heading, hheading⟩ := hnamed s hs
    have hbefore := shows_flat (o := o) hcode around (some s) hlo (by have := hrest.le; omega)
    have hstop := Nat.le_trans hrest.le hhi
    have hfirst := (ihbody (Nat.le_trans halternative.le hstop) (s :: around)).block
      (writeItem_heading hheading) (heading_of_headingText hheading) none
    have hsecond := (ihalternative hstop (s :: around)).block writeItem_otherwise .otherwise
      (some s.kind)
    have hblocks := hfirst.append hsecond hbody.le halternative.le
    have hitems := hbefore.append (hblocks.append (ihrest hhi around) (Nat.le_of_lt hlt) hrest.le)
      hlo (Nat.le_trans (Nat.le_of_lt hlt) hrest.le)
    rw [Outline.items, if_pos (Nat.lt_of_lt_of_le hlt hrest.le)]
    simpa [hsplit] using hitems

end

end

/-! ## Bodies -/

/-- A part of a listing that leaves the indentation as it was. -/
def Level {α : Type} (part : Writer α) : Prop :=
  ∀ s a s', part s = .ok (a, s') → s'.depth = s.depth

namespace Level

variable {α β : Type}

instance : IsPreorder Sink fun s s' => s'.depth = s.depth where
  refl _ := rfl
  trans _ _ _ h h' := h'.trans h

theorem bind {part : Writer α} {next : α → Writer β} (h : Level part) (h' : ∀ a, Level (next a)) :
    Level (part >>= next) := Leads.bind h h'

theorem pure (a : α) : Level (Pure.pure a : Writer α) := Leads.pure a

theorem line (text : String) : Level (Writer.line text) := by
  intro s a s' heq
  cases heq
  exact Sink.depth_writeLine s text

theorem name (text : Except ListingError String) : Level (Writer.name text) := Leads.name text

theorem forM {xs : List α} {f : α → Writer Unit} (h : ∀ x, Level (f x)) : Level (xs.forM f) := Leads.forM h

theorem mapM {xs : List α} {f : α → Writer β} (h : ∀ x, Level (f x)) : Level (xs.mapM f) := Leads.mapM h

theorem indented {part : Writer Unit} (h : Level part) : Level (Writer.indented part) := by
  intro s a s' heq
  obtain ⟨⟨_, s₁⟩, hpart, heq⟩ : ∃ p, part s.indent = .ok p ∧ Writer.unindent p.2 = .ok (a, s') :=
    bind_eq_ok heq
  cases heq
  have hdepth := h _ _ _ hpart
  simp [Sink.unindent, hdepth, Sink.indent]

theorem writeLocals (n : Names) (m : MethodDef) : Level (writeLocals n m) := by
  have hlist {entry : Type} (entries : List entry) (text : entry → Except ListingError String) :
      Level (writeList entries text) := (mapM fun _ => name _).bind fun _ => forM line
  unfold Listing.writeLocals
  split
  · exact .pure ()
  · exact (line _).bind fun _ => (indented (hlist _ _)).bind fun _ => line _

end Level

section

variable {n : Names} {m : MethodDef} {b : Body} {s s' : Sink}

theorem line_eq_ok {text : Except ListingError String}
    (h : (do Writer.line (← Writer.name text)) s = .ok ((), s')) :
    ∃ line, text = .ok line ∧ s' = s.writeLine line := by
  cases text with
  | error e => cases h
  | ok line =>
    cases h
    exact ⟨line, rfl, rfl⟩

/-- Lines that could be written are there, one behind the other. -/
theorem forM_line_eq_ok {α : Type} {xs : List α} {text : α → Except ListingError String}
    (h : (xs.forM fun x => do Writer.line (← Writer.name (text x))) s = .ok ((), s')) :
    ∃ lineOf : α → String, (∀ x ∈ xs, text x = .ok (lineOf x)) ∧
      s' = (xs.map lineOf).foldl Sink.writeLine s := by
  refine ⟨fun x => (text x).toOption.getD "", ?_⟩
  induction xs generalizing s with
  | nil =>
    cases h
    exact ⟨List.forall_mem_nil _, rfl⟩
  | cons x xs ih =>
    obtain ⟨⟨_, s₁⟩, hx, h⟩ := bind_eq_ok h
    obtain ⟨line, htext, rfl⟩ := line_eq_ok hx
    have hline : (text x).toOption.getD "" = line := by
      rw [htext]
      rfl
    obtain ⟨hlines, hfold⟩ := ih h
    rw [List.map_cons, List.foldl_cons, hline]
    exact ⟨List.forall_mem_cons.2 ⟨htext.trans (congrArg Except.ok hline.symm), hlines⟩, hfold⟩

/-- Behind the same head, a body that can be listed is listed in both ways by its graph. -/
theorem writeBody_eq_ok {structured : Bool} (h : writeBody structured n m b s = .ok ((), s')) :
    ∃ head g, head.depth = s.depth ∧ Graph.build b.instructions m.clauses = .ok g ∧
      ∀ structured, writeBody structured n m b s =
        (if structured then writeStructured n m b g else writeFlat n m b) head := by
  obtain ⟨⟨_, s₁⟩, hlocals, -⟩ : ∃ p, writeLocals n m _ = .ok p ∧ _ = _ := bind_eq_ok h
  cases hg : Graph.build b.instructions m.clauses with
  | error e =>
    rw [writeBody, hg] at h
    obtain ⟨_, -, h⟩ := bind_eq_ok h
    cases h
  | ok g =>
    refine ⟨s₁.line, g, ?_, rfl, fun structured => ?_⟩
    · simpa using Level.writeLocals n m _ _ _ hlocals
    · rw [writeBody, hg]
      show writeLocals n m _ >>= _ = _
      rw [hlocals]
      rfl

/-- A flat listing is one line for every instruction, and a table of the clauses behind them. -/
theorem writeFlat_eq_ok (h : writeFlat n m b s = .ok ((), s')) :
    ∃ (text : Instruction → String) (table : List String),
      (∀ i ∈ b.instructions, instructionLine n m i none = .ok (text i)) ∧
      (∀ c ∈ m.clauses, ∃ row, clauseLine n c = .ok row) ∧
      s' = (b.instructions.map text ++ table).foldl Sink.writeLine s := by
  obtain ⟨⟨_, s₁⟩, hinstructions, h⟩ := bind_eq_ok h
  obtain ⟨text, htext, rfl⟩ := forM_line_eq_ok hinstructions
  by_cases hempty : m.clauses.isEmpty = true
  · simp only [hempty] at h
    cases h
    refine ⟨text, [], htext, fun c hc => ?_, by rw [List.append_nil]⟩
    rw [List.isEmpty_iff.1 hempty] at hc
    cases hc
  · simp only [hempty] at h
    obtain ⟨row, hrow, rfl⟩ := forM_line_eq_ok (s := _) h
    exact ⟨text, "" :: m.clauses.map row, htext, fun c hc => ⟨row c, hrow c hc⟩,
      by rw [List.foldl_append]; rfl⟩

/-- The regions of a body have lines that name them if the rows of its clauses can be written. -/
theorem exists_headingText (hclauses : ∀ c ∈ m.clauses, ∃ row, clauseLine n c = .ok row) (o : Offsets)
    {span : Span} (h : span.HandlerIn m.clauses) : ∃ heading, headingText n o span = .ok heading := by
  unfold headingText
  cases hkind : span.kind with
  | handler kind =>
    obtain ⟨c, hc, rfl⟩ := h kind hkind
    obtain ⟨row, hrow⟩ := hclauses c hc
    obtain ⟨handler, hhandler, -⟩ := bind_eq_ok hrow
    exact ⟨handler, hhandler⟩
  | protected_ | loop | conditional => exact ⟨_, rfl⟩

/-- **A structured listing loses and repeats nothing.** Where a body can be listed flat, it can be listed
with its control structures: as blocks, all of them closed, around one line for every instruction, in the
order of the instructions, which retells the flat line. -/
theorem writeBody_structured {flat : Sink}
    (hoffsets : b.instructions.Pairwise (·.offset < ·.offset))
    (hflat : writeBody false n m b s = .ok ((), flat)) :
    ∃ (text : Instruction → String) (table : List String) (head structured : Sink),
      (∀ i ∈ b.instructions, instructionLine n m i none = .ok (text i)) ∧
      flat = (b.instructions.map text ++ table).foldl Sink.writeLine head ∧
      writeBody true n m b s = .ok ((), structured) ∧
      Blocks n text head b.instructions structured ∧
      structured.depth = s.depth := by
  obtain ⟨head, g, hdepth, hg, hbody⟩ := writeBody_eq_ok hflat
  rw [hbody] at hflat
  obtain ⟨text, table, htext, hclauses, hlines⟩ := writeFlat_eq_ok hflat
  have hcode (k : Nat) (i : Instruction) (hi : b.instructions.toArray[k]? = some i) :
      instructionLine n m i none = .ok (text i) :=
    htext i (List.mem_of_getElem? (by simpa using hi))
  obtain ⟨structured, hwrite, hblocks⟩ := shows_items hcode
    (fun span => exists_headingText hclauses g.offsets) (fits_regions hg hoffsets)
    (Nat.le_of_eq List.size_toArray.symm) [] head
  have hall : between b.instructions.toArray 0 b.instructions.length = b.instructions := by
    rw [between, Nat.sub_zero, List.drop_zero, List.take_length]
  rw [hall] at hblocks
  refine ⟨text, table, head, structured, htext, hlines, ?_, hblocks, ?_⟩
  · rw [hbody]
    exact hwrite
  · rw [hblocks.depth_eq, hdepth]

end

/-- A test with two parts in front of a protected region. -/
def branching : Body where
  rva := 0x2050
  codeSize := 12
  instructions :=
    [⟨0, .ldcI41, .none⟩, ⟨1, .brfalseS, .target 6⟩, ⟨3, .nop, .none⟩, ⟨4, .brS, .target 7⟩,
      ⟨6, .nop, .none⟩, ⟨7, .nop, .none⟩, ⟨8, .leaveS, .target 11⟩, ⟨10, .endfinally, .none⟩,
      ⟨11, .ret, .none⟩]

/-- The method of `branching`. -/
def branchingMethod : MethodDef where
  name := "M"
  clauses := [⟨.finally_, 7, 3, 10, 1⟩]

theorem writeBody_structured_branching :
    branching.instructions.Pairwise (·.offset < ·.offset) ∧
    ∃ (text : Instruction → String) (head flat structured : Sink),
      writeBody false ⟨{}, "M"⟩ branchingMethod branching {} = .ok ((), flat) ∧
      writeBody true ⟨{}, "M"⟩ branchingMethod branching {} = .ok ((), structured) ∧
      Blocks ⟨{}, "M"⟩ text head branching.instructions structured ∧
      structured.depth = 0 := by
  have hoffsets : branching.instructions.Pairwise (·.offset < ·.offset) := by decide
  have hok : (writeBody false ⟨{}, "M"⟩ branchingMethod branching {}).isOk = true := by
    decide +kernel
  refine ⟨hoffsets, ?_⟩
  cases hflat : writeBody false ⟨{}, "M"⟩ branchingMethod branching {} with
  | error e =>
    rw [hflat] at hok
    cases hok
  | ok p =>
    obtain ⟨text, _, head, structured, -, -, hstructured, hblocks, hdepth⟩ :=
      writeBody_structured hoffsets hflat
    exact ⟨text, head, p.2, structured, rfl, hstructured, hblocks, hdepth⟩

end Listing

end CilScope
