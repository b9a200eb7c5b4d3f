import CilScope.Proofs.Draft.Faithful
import CilScope.Proofs.Draft.Twin

/-!
# What laying out fails for

A draft whose branches all go to bound labels, with instructions that all have the shape of their opcodes,
is laid out whenever its body is shorter than 2^31 bytes (`Closed.exists_finish`). The draft of a whole body
is of this kind unless it remembers a limit that it has exceeded. So `Draft.finish` names a limit that was
exceeded whenever it fails, and it fails whenever a limit was exceeded.
-/

namespace CilScope.Draft

variable {d : Draft}

/-- A draft without unbound labels and misshaped instructions can be laid out. -/
theorem Closed.exists_finish (h : d.Closed) (hfault : d.fault = none)
    (hshaped : ∀ i ∈ d.code.toList, i.Shaped) (hlen : d.bodyLength < 2 ^ 31) :
    ∃ body, d.finish = .ok body := by
  have hencode : ∀ (k : Nat) s, d.settled[k]? = some s → ∃ r,
      operand (d.offsetOf? (offsets d.settled)) s.instruction.operand = .ok r ∧
        (Instruction.encode ⟨0 + UInt32.ofNat (place d.settled k), s.opcode, r⟩).fits = true := by
    intro k s hk
    have hmem : s.instruction ∈ d.code.toList :=
      (settled_spec d).1 ▸ List.mem_map_of_mem (List.mem_of_getElem? hk)
    rw [UInt32.zero_add]
    refine encode_fits_of_label hlen hk (hshaped _ hmem) fun l hl => ?_
    obtain ⟨t, ht, hle⟩ := h _ (Array.mem_toList_iff.1 hmem) l hl
    exact ⟨t, offsetOf?_of_target ht (length_settled d ▸ hle)⟩
  obtain ⟨code, hcode⟩ := exists_encodeFrom 0 hencode
  exact ⟨_, (h.finish_eq hfault).trans (by rw [hcode]; rfl)⟩

namespace Block

/-- What a whole body promises of its draft: nothing was in the draft before. -/
theorem fromEmpty (h : Block .body {} d) :
    (d.fault = none → (∀ i ∈ d.code.toList, i.Shaped) ∧ d.locals.size ≤ 0x10000) ∧ d.Blamed := by
  refine ⟨fun hfault => ⟨h.grows.shaped hfault ?_, h.grows.few hfault (Nat.zero_le _)⟩,
    h.grows.blamed nofun⟩
  exact fun i hi => absurd hi List.not_mem_nil

/-- **A body that cannot be laid out exceeds a limit**, the one that is reported. -/
theorem overruns_of_finish (h : Block .body {} d) (hlen : d.bodyLength < 2 ^ 31)
    {fault : GenerationFault} (hfinish : d.finish = .error fault) : d.Overruns fault := by
  obtain ⟨hclean, hblamed⟩ := h.fromEmpty
  cases hfault : d.fault with
  | none =>
    obtain ⟨body, hbody⟩ := h.closed.exists_finish hfault (hclean hfault).1 hlen
    rw [hbody] at hfinish
    cases hfinish
  | some fault' =>
    rw [finish, hfault] at hfinish
    cases hfinish
    exact hblamed _ hfault

/-- A body that is laid out exceeds no limit. -/
theorem not_overruns_of_finish (h : Block .body {} d) {body : FinishedBody}
    (hfinish : d.finish = .ok body) (fault : GenerationFault) : ¬ d.Overruns fault := by
  obtain ⟨hshaped, hfew⟩ := h.fromEmpty.1 (finish_eq_ok hfinish).1
  intro hover
  cases hover with
  | locals hmany => exact Nat.not_lt_of_le hfew hmany
  | @argument i hfar hi =>
    have hnear : i.toNat < 256 := hshaped _ hi
    omega

end Block

end CilScope.Draft
