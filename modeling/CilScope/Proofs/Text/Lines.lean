import CilScope.Proofs.Text.Sink

/-!
# The lines of a sink

Text arrives in pieces of any size, with line breaks at their ends, and the indentation may change in the
middle of a line. `chunks_and_lines` says that the pieces do not matter, only the text they make up, and
what every line is: nothing, or the text of the line behind as many tabs as were in force when the first
character of the line was written.

`marked` keeps for every written character the indentation in force, and `laid` is the text that a sink
makes of such characters.
-/

namespace CilScope.Text.Sink

/-! ### What is written, and how far in -/

/-- What can be done with a sink. -/
inductive Step
  | indent
  | unindent
  | line
  | write (t : String)
  | writeLine (t : String)

namespace Step

/-- The characters a step writes. -/
def written : Step → List Char
  | indent | unindent => []
  | line => ['\n']
  | write t => t.toList
  | writeLine t => t.toList ++ ['\n']

/-- The indentation behind a step; it never falls below the margin. -/
def depthBehind (depth : Nat) : Step → Nat
  | indent => depth + 1
  | unindent => depth - 1
  | line | write _ | writeLine _ => depth

end Step

/-- Does a step. -/
def perform (s : Sink) : Step → Sink
  | .indent => s.indent
  | .unindent => s.unindent
  | .line => s.line
  | .write t => s.write t
  | .writeLine t => s.writeLine t

/-- A sink behind steps, which starts empty and at the margin. -/
def after (steps : List Step) : Sink := steps.foldl perform {}

/-- A written character and the indentation that was in force. -/
structure Mark where
  depth : Nat
  char : Char

/-- The characters that steps write from an indentation on. -/
def marked (depth : Nat) : List Step → List Mark
  | [] => []
  | step :: steps => step.written.map (Mark.mk depth) ++ marked (step.depthBehind depth) steps

/-- A line: nothing, or its characters behind the tabs that its first character asks for. -/
def indented : List Mark → List Char
  | [] => []
  | first :: rest => List.replicate first.depth '\t' ++ (first :: rest).map Mark.char

/-! ### The text that is made of it -/

/-- The text that characters add to a sink whose line has been `started` or not. -/
def laid (started : Bool) : List Mark → List Char
  | [] => []
  | m :: ms =>
    if m.char = '\n' then '\n' :: laid false ms
    else (if started then [] else List.replicate m.depth '\t') ++ m.char :: laid true ms

theorem laid_cons_newline (started : Bool) (depth : Nat) (ms : List Mark) :
    laid started (⟨depth, '\n'⟩ :: ms) = '\n' :: laid false ms := by
  rw [laid, if_pos rfl]

theorem laid_cons (started : Bool) {m : Mark} (hm : m.char ≠ '\n') (ms : List Mark) :
    laid started (m :: ms) =
      (if started then [] else List.replicate m.depth '\t') ++ m.char :: laid true ms := by
  rw [laid, if_neg hm]

/-- Characters that are written at one indentation have been laid out when others follow. -/
theorem laid_foldl_put (cs : List Char) (s : Sink) (ms : List Mark) :
    s.text.toList ++ laid s.midLine (cs.map (Mark.mk s.depth) ++ ms) =
      (cs.foldl put s).text.toList ++ laid (cs.foldl put s).midLine ms := by
  induction cs generalizing s with
  | nil => rfl
  | cons c cs ih =>
    rw [List.foldl_cons, ← ih, depth_put, List.map_cons, List.cons_append]
    by_cases hc : c = '\n'
    · subst hc
      rw [laid_cons_newline, put, if_pos rfl, line, String.toList_push, List.append_assoc]
      rfl
    · rw [laid_cons s.midLine hc, put, if_neg hc]
      cases s.midLine <;> simp [toList_pushTabs]

/-- A step writes its characters and then changes the indentation. -/
theorem perform_eq (s : Sink) (step : Step) :
    s.perform step = { step.written.foldl put s with depth := step.depthBehind s.depth } := by
  have hwrite (t : String) : t.toList.foldl put s = s.write t := (s.write_eq_foldl t).symm
  cases step with
  | indent | unindent | line => rfl
  | write t => rw [Step.written, hwrite, Step.depthBehind, ← depth_write s t]; rfl
  | writeLine t =>
    rw [Step.written, List.foldl_append, hwrite, Step.depthBehind, ← depth_write s t]
    rfl

theorem text_foldl_perform (steps : List Step) (s : Sink) :
    (steps.foldl perform s).text.toList = s.text.toList ++ laid s.midLine (marked s.depth steps) := by
  induction steps generalizing s with
  | nil => exact (List.append_nil _).symm
  | cons step steps ih => rw [List.foldl_cons, ih, marked, laid_foldl_put, perform_eq]

/-! ### Its lines -/

/-- Characters without a line break stand in front of the first line. -/
theorem splitOn_append_of_notMem {front : List Char} (h : '\n' ∉ front) (cs : List Char) :
    (front ++ cs).splitOn '\n' = (cs.splitOn '\n').modifyHead (front ++ ·) := by
  obtain ⟨l, ls, hls⟩ := List.exists_cons_of_ne_nil (List.splitOn_ne_nil '\n' cs)
  induction front with
  | nil => rw [hls]; exact hls
  | cons c front ih =>
    obtain ⟨hc, hfront⟩ := not_or.1 (mt List.mem_cons.2 h)
    rw [List.cons_append, List.splitOn_cons_eq_if_modifyHead, if_neg (mt beq_iff_eq.1 (Ne.symm hc)),
      ih hfront, hls]
    rfl

/-- The first line goes on where it has been started; all others start with their tabs. -/
theorem splitOn_laid (ms : List Mark) :
    ∃ l ls, ms.splitOnP (·.char == '\n') = l :: ls ∧ ∀ started, (laid started ms).splitOn '\n' =
      (if started then l.map Mark.char else indented l) :: ls.map indented := by
  induction ms with
  | nil => exact ⟨[], [], rfl, fun started => by cases started <;> rfl⟩
  | cons m ms ih =>
    obtain ⟨l, ls, hsplit, hlaid⟩ := ih
    rw [List.splitOnP_cons_eq_if_modifyHead, hsplit]
    obtain ⟨depth, c⟩ := m
    by_cases hc : c = '\n'
    · subst hc
      refine ⟨[], l :: ls, rfl, fun started => ?_⟩
      rw [laid_cons_newline, List.splitOn_cons_eq_if_modifyHead, if_pos (beq_self_eq_true _), hlaid]
      cases started <;> rfl
    · refine ⟨⟨depth, c⟩ :: l, ls, if_neg (mt beq_iff_eq.1 hc), fun started => ?_⟩
      have hfront : '\n' ∉ (if started then [] else List.replicate depth '\t') ++ [c] := by
        cases started <;> simp [Ne.symm hc, List.mem_replicate]
      rw [laid_cons started hc, List.append_cons, splitOn_append_of_notMem hfront, hlaid]
      cases started <;> simp [indented]

/-- **Only the text counts, not the pieces it comes in; and every line is empty or starts with as many tabs
as the indentation in force when its first character was written.** -/
theorem chunks_and_lines :
    (∀ (s : Sink) (t u : String), (s.write t).write u = s.write (t ++ u)) ∧
      (∀ (s : Sink) (t : String), s.writeLine t = s.write (t ++ "\n")) ∧
      ∀ steps : List Step, (after steps).text.toList.splitOn '\n' =
        ((marked 0 steps).splitOnP (·.char == '\n')).map indented := by
  refine ⟨fun s t u => ?_, fun s t => ?_, fun steps => ?_⟩
  · rw [write_eq_foldl, write_eq_foldl, write_eq_foldl, String.toList_append, List.foldl_append]
  · rw [writeLine, write_eq_foldl, write_eq_foldl, String.toList_append, List.foldl_append]
    rfl
  · obtain ⟨l, ls, hsplit, hlaid⟩ := splitOn_laid (marked 0 steps)
    rw [after, text_foldl_perform, hsplit]
    exact hlaid false

/-- A blank line inside, and a change of the indentation behind its first character. -/
example : (after [.writeLine "\x7b", .indent, .write "a 1\n\nb", .unindent, .write " c", .line,
    .writeLine "\x7d"]).text = "\x7b\n\ta 1\n\n\tb c\n\x7d\n" := by
  decide

end CilScope.Text.Sink
