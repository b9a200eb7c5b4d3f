import Mathlib
import CilScope.Text.Sink

/-!
# What a sink holds

Writing a text in pieces comes to the same as writing its characters one by one, `Sink.write_eq_foldl`.
Whatever is written, the text only grows. At the margin it grows by the text that is written, as it is;
further in a line starts with a tab.
-/

namespace CilScope.Text.Sink

variable {s : Sink}

/-! ### Character by character -/

/-- Writes one character. A line break ends the line; any other character first pays the indentation if it
starts its line. -/
def put (s : Sink) (c : Char) : Sink :=
  if c = '\n' then s.line
  else if s.midLine then { s with text := s.text.push c }
  else { s with text := (pushTabs s.text s.depth).push c, midLine := true }

/-- The first character of a piece pays for the piece. -/
theorem writePiece_cons (s : Sink) {c : Char} (hc : c ≠ '\n') (piece : List Char) :
    s.writePiece (c :: piece) = (s.put c).writePiece piece := by
  cases piece with
  | nil => cases hmid : s.midLine <;> simp [writePiece, put, hc, hmid]
  | cons d piece =>
    cases hmid : s.midLine <;> simp [writePiece, put, hc, hmid, ← String.toList_inj]

theorem writePieces_cons (s : Sink) {c : Char} (hc : c ≠ '\n') (piece : List Char)
    (pieces : List (List Char)) :
    s.writePieces ((c :: piece) :: pieces) = (s.put c).writePieces (piece :: pieces) := by
  cases pieces <;> simp only [writePieces, s.writePiece_cons hc]

theorem writePieces_splitOn (s : Sink) (cs : List Char) :
    s.writePieces (cs.splitOn '\n') = cs.foldl put s := by
  induction cs generalizing s with
  | nil => rfl
  | cons c cs ih =>
    obtain ⟨piece, pieces, hpieces⟩ := List.exists_cons_of_ne_nil (List.splitOn_ne_nil '\n' cs)
    rw [List.splitOn_cons_eq_if_modifyHead, List.foldl_cons, ← ih, hpieces]
    by_cases hc : c = '\n'
    · rw [if_pos (beq_iff_eq.2 hc), put, if_pos hc]
      rfl
    · rw [if_neg (mt beq_iff_eq.1 hc), List.modifyHead_cons, writePieces_cons s hc]

/-- **A text is written character by character.** -/
theorem write_eq_foldl (s : Sink) (t : String) : s.write t = t.toList.foldl put s :=
  s.writePieces_splitOn t.toList

/-! ### What is kept and what grows -/

@[simp] theorem depth_put (s : Sink) (c : Char) : (s.put c).depth = s.depth := by
  unfold put
  repeat' split
  all_goals rfl

@[simp] theorem depth_write (s : Sink) (t : String) : (s.write t).depth = s.depth := by
  rw [write_eq_foldl]
  induction t.toList generalizing s with
  | nil => rfl
  | cons c cs ih => rw [List.foldl_cons, ih, depth_put]

@[simp] theorem depth_line (s : Sink) : s.line.depth = s.depth := rfl

@[simp] theorem depth_writeLine (s : Sink) (t : String) : (s.writeLine t).depth = s.depth :=
  depth_write s t

theorem toList_pushTabs (text : String) (n : Nat) :
    (pushTabs text n).toList = text.toList ++ List.replicate n '\t' := by
  induction n generalizing text with
  | zero => simp [pushTabs]
  | succ n ih => rw [pushTabs, ih, String.toList_push, List.append_assoc, List.replicate_succ]; rfl

theorem prefix_put (s : Sink) (c : Char) : s.text.toList <+: (s.put c).text.toList := by
  unfold put line
  split
  · rw [String.toList_push]
    exact List.prefix_append ..
  · split
    · rw [String.toList_push]
      exact List.prefix_append ..
    · rw [String.toList_push, toList_pushTabs, List.append_assoc]
      exact List.prefix_append ..

theorem prefix_foldl_put (s : Sink) (cs : List Char) :
    s.text.toList <+: (cs.foldl put s).text.toList := by
  induction cs generalizing s with
  | nil => exact List.prefix_rfl
  | cons c cs ih => exact (prefix_put s c).trans (ih _)

theorem prefix_line (s : Sink) : s.text.toList <+: s.line.text.toList := by
  rw [line, String.toList_push]
  exact List.prefix_append ..

theorem prefix_write (s : Sink) (t : String) : s.text.toList <+: (s.write t).text.toList := by
  rw [write_eq_foldl]
  exact prefix_foldl_put s t.toList

theorem prefix_writeLine (s : Sink) (t : String) : s.text.toList <+: (s.writeLine t).text.toList :=
  (prefix_write s t).trans (prefix_line _)

/-! ### At the margin and further in -/

theorem put_margin (hdepth : s.depth = 0) (c : Char) :
    (s.put c).text = s.text.push c ∧ (s.put c).depth = 0 := by
  unfold put
  split
  · rename_i hc
    rw [hc]
    exact ⟨rfl, hdepth⟩
  · split
    · exact ⟨rfl, hdepth⟩
    · exact ⟨by rw [hdepth]; rfl, hdepth⟩

theorem foldl_put_margin (hdepth : s.depth = 0) (cs : List Char) :
    (cs.foldl put s).text = s.text ++ String.ofList cs ∧ (cs.foldl put s).depth = 0 := by
  induction cs generalizing s with
  | nil => simp [hdepth]
  | cons c cs ih =>
    obtain ⟨htext, hd⟩ := put_margin hdepth c
    obtain ⟨htexts, hds⟩ := ih hd
    refine ⟨?_, hds⟩
    rw [List.foldl_cons, htexts, htext, ← String.toList_inj]
    simp

/-- A line that is written at the margin stands there as it is. -/
theorem writeLine_margin (text : String) (midLine : Bool) (t : String) :
    (⟨text, 0, midLine⟩ : Sink).writeLine t = ⟨text ++ t ++ "\n", 0, false⟩ := by
  obtain ⟨htext, hdepth⟩ := foldl_put_margin (s := ⟨text, 0, midLine⟩) rfl t.toList
  rw [String.ofList_toList, ← write_eq_foldl] at htext
  rw [← write_eq_foldl] at hdepth
  unfold writeLine line
  rw [htext, hdepth]
  rfl

/-- A line that is started further in starts with a tab. -/
theorem tab_prefix_writeLine (hdepth : s.depth ≠ 0) (hstart : s.midLine = false) {c : Char} (hc : c ≠ '\n')
    {t : String} {cs : List Char} (ht : t.toList = c :: cs) :
    s.text.toList ++ ['\t'] <+: (s.writeLine t).text.toList := by
  obtain ⟨d, hd⟩ := Nat.exists_eq_succ_of_ne_zero hdepth
  have hput : s.text.toList ++ ['\t'] <+: (s.put c).text.toList := by
    rw [put, if_neg hc, if_neg (by simp [hstart]), String.toList_push, toList_pushTabs, hd,
      List.replicate_succ]
    exact ⟨List.replicate d '\t' ++ [c], by simp⟩
  refine hput.trans (List.IsPrefix.trans ?_ (prefix_line _))
  rw [write_eq_foldl, ht]
  exact prefix_foldl_put _ _

end CilScope.Text.Sink
