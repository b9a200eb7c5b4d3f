import CilScope.Proofs.Except
import CilScope.Proofs.Metadata.RoundTrip

/-!
# What decoding accepts

A section is read tolerantly, yet nothing that it may say differently changes how many bytes it takes, and
nothing that is missing at its end goes unnoticed:

* `decode_encode_of_decode`: what any bytes decode to is what its own encoding decodes to, and that is as
  long as the part of the bytes that was read;
* `decode_truncated`: every proper beginning of an encoded module is found truncated, whether the nesting
  of its types is valid or not.

Both come from `Takes`, which says what a step does whenever it succeeds. It composes along binds, so
every reader of the format has one lemma, read off its parts.
-/

namespace CilScope.Metadata

/-! ## Steps that succeed -/

section

variable {α β : Type}

/-- The step does not find all its bytes in `p`. -/
def Truncates (r : Reader α) (pos : Nat) (p : List UInt8) : Prop :=
  ∃ offset, r.run ⟨pos, p⟩ = .error (.truncated offset)

/-- Where the step succeeds, it takes as many bytes from the front as `P` says for its result. Of a
beginning of its input it takes the same bytes, or it finds it truncated. -/
def Takes (r : Reader α) (P : α → Nat → Prop) : Prop :=
  ∀ pos xs a s, r.run ⟨pos, xs⟩ = .ok (a, s) →
    ∃ used, xs = used ++ s.rest ∧ s.pos = pos + used.length ∧ P a used.length ∧
      ∀ p, p <+: xs → Truncates r pos p ∨
        ∃ q, p = used ++ q ∧ r.run ⟨pos, p⟩ = .ok (a, ⟨pos + used.length, q⟩)

namespace Takes

variable {r : Reader α} {k : α → Reader β} {P P' : α → Nat → Prop} {Q : β → Nat → Prop}

theorem pure {a : α} (h : P a 0) : Takes (Pure.pure a : Reader α) P := by
  intro pos xs b s hrun
  cases hrun
  exact ⟨[], rfl, rfl, h, fun p _ => .inr ⟨p, rfl, rfl⟩⟩

theorem throw {e : ReadError} : Takes (MonadExcept.throw e : Reader α) P := fun _ _ _ _ h => nomatch h

theorem bind (hr : Takes r P) (hk : ∀ a n, P a n → Takes (k a) fun b m => Q b (n + m)) :
    Takes (r >>= k) Q := by
  intro pos xs b s hrun
  rw [StateT.run_bind] at hrun
  obtain ⟨⟨a, mid⟩, hfirst, hrest⟩ := bind_eq_ok hrun
  obtain ⟨used, rfl, hmid, hP, hcut⟩ := hr _ _ _ _ hfirst
  obtain ⟨used', hxs, hpos, hQ, hcut'⟩ := hk a _ hP _ _ _ _ hrest
  rw [hmid] at hpos hcut'
  rw [hxs] at hcut hcut' ⊢
  refine ⟨used ++ used', (List.append_assoc ..).symm, ?_, ?_, fun p hp => ?_⟩
  · rw [hpos, List.length_append, Nat.add_assoc]
  · rwa [List.length_append]
  · obtain ⟨offset, hshort⟩ | ⟨q, rfl, hsame⟩ := hcut p hp
    · exact .inl ⟨offset, by rw [StateT.run_bind, hshort]; rfl⟩
    · have hq := (List.prefix_append_right_inj used).1 hp
      obtain ⟨offset, hshort⟩ | ⟨q', rfl, hsame'⟩ := hcut' q hq
      · exact .inl ⟨offset, by rw [StateT.run_bind, hsame]; exact hshort⟩
      · refine .inr ⟨q', (List.append_assoc ..).symm, ?_⟩
        rw [StateT.run_bind, hsame, List.length_append, ← Nat.add_assoc]
        exact hsame'

theorem weaken (hr : Takes r P) (h : ∀ a n, P a n → P' a n) : Takes r P' := by
  intro pos xs a s hrun
  obtain ⟨used, hxs, hpos, hP, hcut⟩ := hr _ _ _ _ hrun
  exact ⟨used, hxs, hpos, h a _ hP, hcut⟩

/-- The last step of a record. -/
theorem last {f : α → β} (hr : Takes r P) (h : ∀ a n, P a n → Q (f a) n) :
    Takes (r >>= fun x => Pure.pure (f x)) Q :=
  hr.bind fun a n ha => pure (h a n ha)

/-- A look at the offset takes nothing. -/
theorem offset_bind {k : Nat → Reader β} (hk : ∀ n, Takes (k n) Q) : Takes (Reader.offset >>= k) Q :=
  fun pos xs b s hrun => hk pos pos xs b s hrun

theorem ite {c : Prop} [Decidable c] {r' : Reader α} (hr : c → Takes r P) (hr' : ¬c → Takes r' P) :
    Takes (if c then r else r') P := by
  split
  · exact hr ‹_›
  · exact hr' ‹_›

end Takes

/-- A step that makes something of the next `n` bytes. -/
theorem takes_front {r : Reader α} (n : Nat) (f : List UInt8 → α)
    (hshort : ∀ pos p, p.length < n → Truncates r pos p)
    (hlong : ∀ pos p, n ≤ p.length → r.run ⟨pos, p⟩ = .ok (f (p.take n), ⟨pos + n, p.drop n⟩)) :
    Takes r fun a m => m = n ∧ ∃ bs : List UInt8, bs.length = n ∧ a = f bs := by
  intro pos xs a s hrun
  rcases Nat.lt_or_ge xs.length n with h | h
  · obtain ⟨offset, hoffset⟩ := hshort pos xs h
    rw [hoffset] at hrun
    cases hrun
  · rw [hlong pos xs h] at hrun
    cases hrun
    have hlen : (xs.take n).length = n := by rw [List.length_take, Nat.min_eq_left h]
    refine ⟨xs.take n, (List.take_append_drop ..).symm, by rw [hlen], ⟨hlen, _, hlen, rfl⟩,
      fun p hp => ?_⟩
    rcases Nat.lt_or_ge p.length n with hp' | hp'
    · exact .inl (hshort pos p hp')
    · have htake : p.take n = xs.take n := by
        obtain ⟨rest, rfl⟩ := hp
        rw [List.take_append_of_le_length hp']
      refine .inr ⟨p.drop n, ?_, ?_⟩
      · rw [← htake, List.take_append_drop]
      · rw [hlong pos p hp', htake, hlen]

/-- A step for a list whose length has been read passes the check of the length again wherever it does not
find its input truncated. -/
theorem takes_checked {r : Reader α} {n : Nat} {P : α → Nat → Prop} (hr : Takes r P) :
    Takes (do
      let input ← get
      if input.rest.length < n then throw (.truncated input.pos)
      r) P := by
  have happly (pos : Nat) (xs : List UInt8) : (do
      let input ← get
      if input.rest.length < n then throw (.truncated input.pos)
      r : Reader α).run ⟨pos, xs⟩ =
        if xs.length < n then .error (.truncated pos) else r.run ⟨pos, xs⟩ := by
    show (if xs.length < n then _ else _ : Reader _).run _ = _
    split <;> rfl
  intro pos xs a s hrun
  rw [happly] at hrun
  split at hrun
  · cases hrun
  · obtain ⟨used, hxs, hpos, hP, hcut⟩ := hr _ _ _ _ hrun
    refine ⟨used, hxs, hpos, hP, fun p hp => ?_⟩
    rcases Nat.lt_or_ge p.length n with h | h
    · exact .inl ⟨pos, by rw [happly, if_pos h]⟩
    · rw [Truncates, happly, if_neg (Nat.not_lt.2 h)]
      exact hcut p hp

end

/-! ## Bytes, words and lengths -/

theorem takes_take (n : Nat) : Takes (Reader.take n) fun bs m => bs.length = n ∧ m = n := by
  refine (takes_front n id (fun pos p h => ⟨pos, ?_⟩) fun pos p h => ?_).weaken ?_
  · show (if n ≤ p.length then _ else _ : Reader _).run _ = _
    rw [if_neg (Nat.not_le.2 h)]
    rfl
  · show (if n ≤ p.length then _ else _ : Reader _).run _ = _
    rw [if_pos h]
    rfl
  · rintro _ m ⟨rfl, bs, hbs, rfl⟩
    exact ⟨hbs, rfl⟩

theorem takes_byte : Takes Reader.byte fun _ m => m = 1 := by
  refine (takes_front 1 (fun bs => bs.headD 0) (fun pos p h => ⟨pos, ?_⟩) fun pos p h => ?_).weaken
    fun _ _ h => h.1
  · rcases p with _ | ⟨b, p⟩
    · rfl
    · simp at h
  · rcases p with _ | ⟨b, p⟩
    · simp at h
    · rfl

theorem takes_word16 : Takes Reader.word16 fun _ m => m = 2 := by
  refine (takes_front 2 (fun bs => Bytes.word16 (bs.getD 0 0) (bs.getD 1 0)) (fun pos p h => ⟨pos, ?_⟩)
    fun pos p h => ?_).weaken fun _ _ h => h.1
  · rcases p with _ | ⟨b₀, _ | ⟨b₁, p⟩⟩
    · rfl
    · rfl
    · simp at h
  · rcases p with _ | ⟨b₀, _ | ⟨b₁, p⟩⟩
    · simp at h
    · simp at h
    · rfl

theorem takes_word32 : Takes Reader.word32 fun _ m => m = 4 := by
  refine (takes_front 4 (fun bs => Bytes.word32 (bs.getD 0 0) (bs.getD 1 0) (bs.getD 2 0) (bs.getD 3 0))
    (fun pos p h => ⟨pos, ?_⟩) fun pos p h => ?_).weaken fun _ _ h => h.1
  · rcases p with _ | ⟨b₀, _ | ⟨b₁, _ | ⟨b₂, _ | ⟨b₃, p⟩⟩⟩⟩
    · rfl
    · rfl
    · rfl
    · rfl
    · simp only [List.length_cons] at h
      omega
  · rcases p with _ | ⟨b₀, _ | ⟨b₁, _ | ⟨b₂, _ | ⟨b₃, p⟩⟩⟩⟩
    · simp at h
    · simp at h
    · simp at h
    · simp at h
    · rfl

theorem takes_vector (n : Nat) : Takes (Reader.vector n) fun _ m => m = n := by
  refine (takes_take n).bind fun bs m h => ?_
  rw [dif_pos h.1]
  exact .pure h.2

theorem takes_length : Takes Reader.length fun k m => k < 2 ^ 32 ∧ m = 4 :=
  .last takes_word32 fun w _ h => ⟨w.toNat_lt, h⟩

/-- The result is bounded, and what the step took is as long as the result is written. -/
def Fits {α : Type} (write : Writer α) (bounded : α → Prop) (a : α) (n : Nat) : Prop :=
  bounded a ∧ (write a).length = n

theorem takes_block : Takes Reader.block (Fits Writer.block fun bs => bs.length < 2 ^ 32) := by
  refine .bind takes_length fun k m hk => (takes_take k).weaken fun bs n hn => ?_
  obtain ⟨⟨hlt, rfl⟩, rfl, rfl⟩ := And.intro hk hn
  exact ⟨hlt, by rw [Writer.block, List.length_append, Writer.length, Bytes.length_ofWord32]⟩

theorem takes_text : Takes Reader.text (Fits Writer.text BoundedText) := by
  refine .bind takes_length fun k m hk => .offset_bind fun start => (takes_take k).bind fun bs n hn => ?_
  split
  · rename_i s hs
    have hbytes := Bytes.ofString_of_toString? hs
    refine .pure ⟨?_, ?_⟩
    · rw [BoundedText, hbytes, hn.1]
      exact hk.1
    · rw [Writer.text, Writer.block, hbytes, List.length_append, Writer.length, Bytes.length_ofWord32, hk.2,
        hn.1, hn.2, Nat.add_zero]
  · exact .throw

theorem takes_times {α : Type} {item : Reader α} {write : Writer α} {bounded : α → Prop}
    (h : Takes item (Fits write bounded)) (n : Nat) :
    Takes (Reader.times item n) fun xs m =>
      xs.length = n ∧ (∀ x ∈ xs, bounded x) ∧ (xs.flatMap write).length = m := by
  induction n with
  | zero => exact .pure ⟨rfl, by simp, rfl⟩
  | succ n ih =>
    refine h.bind fun x m hx => ih.last fun xs m' hxs => ⟨?_, ?_, ?_⟩
    · rw [List.length_cons, hxs.1]
    · exact List.forall_mem_cons.2 ⟨hx.1, hxs.2.1⟩
    · rw [List.flatMap_cons, List.length_append, hx.2, hxs.2.2]

theorem takes_list {α : Type} {item : Reader α} {write : Writer α} {bounded : α → Prop}
    (h : Takes item (Fits write bounded)) :
    Takes (Reader.list item) (Fits (Writer.list write) (BoundedList bounded)) := by
  refine .bind takes_length fun n m hn => takes_checked ((takes_times h n).weaken fun xs m' hxs => ?_)
  obtain ⟨hlen, hall, hwidth⟩ := hxs
  refine ⟨⟨by rw [hlen]; exact hn.1, hall⟩, ?_⟩
  rw [Writer.list, List.length_append, Writer.length, Bytes.length_ofWord32, hn.2, hwidth]

/-! ## Tags and flags -/

/-- A step whose result is always written with the width that the step takes. -/
theorem Takes.fits {α : Type} {r : Reader α} {n : Nat} {write : Writer α} (hr : Takes r fun _ m => m = n)
    (h : ∀ a, (write a).length = n) : Takes r (Fits write fun _ => True) :=
  hr.weaken fun a _ hm => ⟨trivial, (h a).trans hm.symm⟩

theorem takes_flag : Takes Reader.flag (Fits Writer.flag fun _ => True) :=
  .last takes_byte fun _ _ h => ⟨trivial, h.symm⟩

theorem takes_token : Takes Reader.token (Fits Writer.token fun _ => True) :=
  .last takes_word32 fun _ _ h => ⟨trivial, h.symm⟩

theorem takes_version : Takes Reader.version (Fits Writer.version fun _ => True) := by
  refine .bind takes_word16 fun major _ h₁ => .bind takes_word16 fun minor _ h₂ =>
    .bind takes_word16 fun build _ h₃ => .last takes_word16 fun revision _ h₄ => ⟨trivial, ?_⟩
  rw [h₁, h₂, h₃, h₄]
  rfl

theorem takes_visibility : Takes Reader.visibility (Fits Writer.visibility fun _ => True) := by
  refine .offset_bind fun start => .bind takes_byte fun tag n hn => ?_
  split
  · exact .pure ⟨trivial, hn.symm⟩
  · exact .pure ⟨trivial, hn.symm⟩
  · exact .pure ⟨trivial, hn.symm⟩
  · exact .pure ⟨trivial, hn.symm⟩
  · exact .throw

theorem takes_optional {α : Type} {item : Reader α} {write : Writer α} {bounded : α → Prop}
    (h : Takes item (Fits write bounded)) :
    Takes (Reader.optional item) (Fits (Writer.optional write) fun x => ∀ a ∈ x, bounded a) := by
  refine .bind takes_flag fun b n hn => .ite (fun _ => h.last fun a m hm => ⟨?_, ?_⟩) fun _ => .pure ⟨?_, ?_⟩
  · rintro _ ⟨⟩
    exact hm.1
  · rw [Writer.optional, List.length_cons, hm.2, ← hn.2, Writer.flag, List.length_singleton, Nat.add_comm]
  · simp
  · exact hn.2

/-! ## Signatures -/

theorem takes_elementSig : Takes Reader.elementSig (Fits Writer.typeSig fun _ => True) := by
  refine .offset_bind fun start => .bind takes_byte fun tag n hn => ?_
  have hsimple {t : TypeSig} (h : (Writer.typeSig t).length = 1) :
      Takes (Pure.pure t : Reader TypeSig) fun t m => Fits Writer.typeSig (fun _ => True) t (n + m) :=
    .pure ⟨trivial, h.trans hn.symm⟩
  refine .ite (fun _ => hsimple rfl) fun _ => .ite (fun _ => hsimple rfl) fun _ =>
    .ite (fun _ => hsimple rfl) fun _ => .ite (fun _ => hsimple rfl) fun _ =>
    .ite (fun _ => hsimple rfl) fun _ => .ite (fun _ => ?_) fun _ => .throw
  refine .last takes_token fun t m hm => ⟨trivial, ?_⟩
  rw [Writer.typeSig, List.length_cons, hm.2, hn, Nat.add_comm]

theorem length_typeSig_arrays (element : TypeSig) (rank : Nat) :
    (Writer.typeSig (Reader.arrays element rank)).length = rank + (Writer.typeSig element).length := by
  induction rank with
  | zero => exact (Nat.zero_add _).symm
  | succ rank ih => rw [Reader.arrays, Writer.typeSig, List.length_cons, ih, Nat.add_right_comm]

/-- A beginning of a list that starts with other entries of a kind than the list has no others. -/
theorem takeWhile_of_prefix {α : Type} (P : α → Bool) {p xs : List α} (h : p <+: xs) :
    p.takeWhile P = xs.takeWhile P ∨ p.takeWhile P = p := by
  obtain ⟨rest, rfl⟩ := h
  induction p with
  | nil => exact .inr rfl
  | cons x p ih =>
    rw [List.cons_append, List.takeWhile_cons, List.takeWhile_cons]
    split
    · exact ih.imp (congrArg (x :: ·)) (congrArg (x :: ·))
    · exact .inl rfl

theorem takes_typeSig : Takes Reader.typeSig (Fits Writer.typeSig fun _ => True) := by
  -- with a known rank the step is made of two others
  let ranked (rank : Nat) : Reader TypeSig := do
    let _ ← Reader.take rank
    return Reader.arrays (← Reader.elementSig) rank
  have hranked (rank : Nat) : Takes (ranked rank) (Fits Writer.typeSig fun _ => True) :=
    (takes_take rank).bind fun _ n hn => .last takes_elementSig fun t m hm =>
      ⟨trivial, by rw [length_typeSig_arrays, hm.2, hn.2]⟩
  let rankOf (xs : List UInt8) : Nat := (xs.takeWhile (· = ElementCode.array.byte)).length
  have hrun (pos : Nat) (xs : List UInt8) :
      Reader.typeSig.run ⟨pos, xs⟩ = (ranked (rankOf xs)).run ⟨pos, xs⟩ := rfl
  intro pos xs t s h
  rw [hrun] at h
  obtain ⟨used, hxs, hpos, hP, hcut⟩ := hranked _ _ _ _ _ h
  refine ⟨used, hxs, hpos, hP, fun p hp => ?_⟩
  rw [Truncates, hrun]
  rcases takeWhile_of_prefix (· = ElementCode.array.byte) hp with heq | heq
  · rw [show rankOf p = rankOf xs from congrArg List.length heq]
    exact hcut p hp
  · -- all bytes that are left are codes of arrays, so the element is missing
    rw [show rankOf p = p.length from congrArg List.length heq]
    have htake := reads_take p pos []
    rw [List.append_nil] at htake
    refine .inl ⟨pos + p.length, ?_⟩
    rw [StateT.run_bind, htake]
    rfl

theorem takes_methodSig : Takes Reader.methodSig (Fits Writer.methodSig BoundedSig) := by
  refine .bind takes_flag fun hasThis _ h₁ => .bind takes_typeSig fun ret _ h₂ =>
    (takes_list takes_typeSig).last fun params _ h₃ => ⟨h₃.1.1, ?_⟩
  simp only [Writer.methodSig, List.length_append, h₁.2, h₂.2, h₃.2, Nat.add_assoc]

/-! ## Records -/

theorem takes_attributes : Takes (Reader.list Reader.customAttribute)
    (Fits (Writer.list Writer.customAttribute) (BoundedList BoundedAttribute)) := by
  refine takes_list (.bind takes_token fun ctor _ h₁ => .last takes_block fun blob _ h₂ => ⟨h₂.1, ?_⟩)
  rw [Writer.customAttribute, List.length_append, h₁.2, h₂.2]

theorem takes_assembly : Takes Reader.assembly (Fits Writer.assembly BoundedAssembly) := by
  refine .bind takes_text fun name _ h₁ => .bind takes_version fun version _ h₂ =>
    .bind takes_word32 fun hashAlgorithm _ h₃ => .last takes_attributes fun attributes _ h₄ =>
      ⟨⟨h₁.1, h₄.1⟩, ?_⟩
  simp only [Writer.assembly, List.length_append, Bytes.length_ofWord32, h₁.2, h₂.2, h₃, h₄.2, Nat.add_assoc]

theorem takes_assemblyRef :
    Takes Reader.assemblyRef (Fits Writer.assemblyRef fun r => BoundedText r.name) := by
  have hbytes : Takes (Reader.vector 8) (Fits Vector.toList fun _ => True) :=
    (takes_vector 8).fits fun key => by simp
  have hkey := takes_optional hbytes
  refine .bind takes_text fun name _ h₁ => .bind takes_version fun version _ h₂ =>
    hkey.last fun key _ h₃ => ⟨h₁.1, ?_⟩
  simp only [Writer.assemblyRef, List.length_append, h₁.2, h₂.2, h₃.2, Nat.add_assoc]

theorem takes_typeRef : Takes Reader.typeRef (Fits Writer.typeRef BoundedTypeRef) := by
  refine .bind takes_token fun scope _ h₁ => .bind takes_text fun namespace_ _ h₂ =>
    .last takes_text fun name _ h₃ => ⟨⟨h₂.1, h₃.1⟩, ?_⟩
  simp only [Writer.typeRef, List.length_append, h₁.2, h₂.2, h₃.2, Nat.add_assoc]

theorem takes_memberRef : Takes Reader.memberRef (Fits Writer.memberRef BoundedMemberRef) := by
  refine .bind takes_token fun parent _ h₁ => .bind takes_text fun name _ h₂ =>
    .last takes_methodSig fun sig _ h₃ => ⟨⟨h₂.1, h₃.1⟩, ?_⟩
  simp only [Writer.memberRef, List.length_append, h₁.2, h₂.2, h₃.2, Nat.add_assoc]

theorem takes_field : Takes Reader.field (Fits Writer.field fun f => BoundedText f.name) := by
  refine .bind takes_text fun name _ h₁ => .bind takes_visibility fun visibility _ h₂ =>
    .bind takes_flag fun isStatic _ h₃ => .last takes_typeSig fun sig _ h₄ => ⟨h₁.1, ?_⟩
  simp only [Writer.field, List.length_append, h₁.2, h₂.2, h₃.2, h₄.2, Nat.add_assoc]

theorem takes_localVar : Takes Reader.localVar (Fits Writer.localVar BoundedLocal) := by
  refine .bind takes_typeSig fun sig _ h₁ => (takes_optional takes_text).last fun name _ h₂ => ⟨h₂.1, ?_⟩
  simp only [Writer.localVar, List.length_append, h₁.2, h₂.2]

theorem takes_clauseKind : Takes Reader.clauseKind (Fits Writer.clauseKind fun _ => True) := by
  refine .offset_bind fun start => .bind takes_byte fun tag n hn => ?_
  split
  · refine .last takes_token fun t m hm => ⟨trivial, ?_⟩
    rw [Writer.clauseKind, List.length_cons, hm.2, hn, Nat.add_comm]
  · exact .pure ⟨trivial, hn.symm⟩
  · exact .throw

theorem takes_clause : Takes Reader.clause (Fits Writer.clause fun _ => True) := by
  refine .bind takes_clauseKind fun kind _ h₁ => .bind takes_word32 fun tryOffset _ h₂ =>
    .bind takes_word32 fun tryLength _ h₃ => .bind takes_word32 fun handlerOffset _ h₄ =>
      .last takes_word32 fun handlerLength _ h₅ => ⟨trivial, ?_⟩
  simp only [Writer.clause, List.length_append, Bytes.length_ofWord32, h₁.2, h₂, h₃, h₄, h₅, Nat.add_assoc]

theorem takes_method : Takes Reader.method (Fits Writer.method BoundedMethod) := by
  refine .bind takes_text fun name _ h₁ => .bind takes_visibility fun visibility _ h₂ =>
    .bind takes_byte fun bits _ h₃ => .bind takes_methodSig fun sig _ h₄ =>
      (takes_list takes_text).bind fun paramNames _ h₅ => (takes_list takes_localVar).bind fun locals _ h₆ =>
        .bind takes_word16 fun maxStack _ h₇ => (takes_list takes_clause).bind fun clauses _ h₈ =>
          .last takes_attributes fun attributes _ h₉ => ⟨⟨h₁.1, h₄.1, h₅.1, h₆.1, h₈.1.1, h₉.1⟩, ?_⟩
  simp only [Writer.method, List.length_append, List.length_singleton, Bytes.length_ofWord16, h₁.2, h₂.2, h₃,
    h₄.2, h₅.2, h₆.2, h₇, h₈.2, h₉.2, Nat.add_assoc]

theorem takes_base : Takes Reader.base (Fits Writer.base (· ≠ some ⟨0⟩)) := by
  refine .last takes_token fun t n hn => ?_
  split
  · exact ⟨nofun, hn.2⟩
  · rename_i hne
    exact ⟨fun h => hne (congrArg Token.raw (Option.some.inj h)), hn.2⟩

theorem takes_enclosing : Takes Reader.enclosing (Fits Writer.enclosing fun _ => True) := by
  refine .bind takes_length fun k n hn => ?_
  split
  · exact .pure ⟨trivial, hn.2.symm⟩
  · exact .pure ⟨trivial, hn.2.symm⟩

theorem takes_type :
    Takes Reader.type (Fits Writer.type fun t => BoundedType t ∧ t.base ≠ some ⟨0⟩) := by
  refine .bind takes_text fun namespace_ _ h₁ => .bind takes_text fun name _ h₂ =>
    .bind takes_visibility fun visibility _ h₃ => .bind takes_byte fun bits _ h₄ =>
      .bind takes_base fun base _ h₅ => .bind takes_enclosing fun enclosing _ h₆ =>
        .bind takes_attributes fun attributes _ h₇ => (takes_list takes_field).bind fun fields _ h₈ =>
          (takes_list takes_method).last fun methods _ h₉ =>
            ⟨⟨⟨h₁.1, h₂.1, h₇.1, h₈.1, h₉.1⟩, h₅.1⟩, ?_⟩
  simp only [Writer.type, List.length_append, List.length_singleton, h₁.2, h₂.2, h₃.2, h₄, h₅.2, h₆.2, h₇.2,
    h₈.2, h₉.2, Nat.add_assoc]

/-! ## Modules -/

/-- What the tables of a section give can be said by the format. -/
theorem takes_tables : Takes Reader.tables
    (Fits encode fun m => Bounded m ∧ ∀ t ∈ m.types, t.base ≠ some ⟨0⟩) := by
  refine .bind takes_word32 fun found _ h₁ => .ite (fun _ => .throw) fun _ => ?_
  refine .bind takes_word16 fun version _ h₂ => .ite (fun _ => .throw) fun _ => ?_
  refine .bind takes_assembly fun assembly _ h₃ => .bind takes_text fun moduleName _ h₄ =>
    (takes_vector 16).bind fun mvid _ h₅ => (takes_list takes_assemblyRef).bind fun assemblyRefs _ h₆ =>
      (takes_list takes_typeRef).bind fun typeRefs _ h₇ =>
        (takes_list takes_memberRef).bind fun memberRefs _ h₈ =>
          (takes_list takes_text).bind fun userStrings _ h₉ =>
            (takes_list takes_type).last fun types _ h₁₀ => ⟨⟨?_, fun t ht => (h₁₀.1.2 t ht).2⟩, ?_⟩
  · exact ⟨h₃.1, h₄.1, h₆.1, h₇.1, h₈.1, h₉.1, h₁₀.1.1, fun t ht => (h₁₀.1.2 t ht).1⟩
  · simp only [encode, List.length_append, Bytes.length_ofWord16, Bytes.length_ofWord32, Vector.length_toList,
      h₁, h₂, h₃.2, h₄.2, h₅, h₆.2, h₇.2, h₈.2, h₉.2, h₁₀.2, Nat.add_assoc]

theorem decode_of_tables {section_ : List UInt8} {m : Metadata} {s : Input}
    (h : Reader.tables.run ⟨0, section_⟩ = .ok (m, s)) :
    decode section_ = match badNesting? m.types with
      | none => .ok m
      | some (index, enclosing) => .error (.badEnclosingType index enclosing) := by
  unfold decode
  rw [h]
  rfl

/-- **Decoding gives modules that are decoded again.** Whatever bytes a module is decoded from, it is also
decoded from its own encoding, which is as long as the part of the bytes that was read. -/
theorem decode_encode_of_decode {section_ : List UInt8} {m : Metadata} (h : decode section_ = .ok m) :
    decode (encode m) = .ok m ∧ ∃ used rest, section_ = used ++ rest ∧
      Reader.tables.run ⟨0, section_⟩ = .ok (m, ⟨used.length, rest⟩) ∧
        (encode m).length = used.length := by
  obtain ⟨⟨m', s⟩, hrun, hcheck⟩ := bind_eq_ok h
  obtain ⟨hnesting, rfl⟩ : badNesting? m'.types = none ∧ m' = m := by
    dsimp only at hcheck
    split at hcheck
    · cases hcheck
      exact ⟨‹_›, rfl⟩
    · cases hcheck
  obtain ⟨used, rfl, hpos, ⟨⟨hbounded, hbase⟩, hwidth⟩, -⟩ := takes_tables _ _ _ _ hrun
  constructor
  · have henclosing : ∀ t ∈ m'.types, ∀ i ∈ t.enclosing, i + 1 < 2 ^ 32 := by
      intro t ht i hi
      have hlt := enclosing_lt_of_badNesting? hnesting ht hi
      have hlen := hbounded.types.1
      omega
    have hread := reads_tables hbounded hbase henclosing 0 []
    rw [List.append_nil] at hread
    rw [decode_of_tables hread, hnesting]
  · refine ⟨used, s.rest, rfl, ?_, hwidth⟩
    rw [hrun]
    rw [Nat.zero_add] at hpos
    rw [← hpos]

/-- One type, written with every byte that may be written in more than one way: the flag of a key that is
there, the spare bits of the type, and a byte behind the tables. -/
def looseSection : List UInt8 :=
  Bytes.ofWord32 signature ++ Bytes.ofWord16 formatVersion ++ List.replicate 40 0 ++
    (Writer.length 1 ++ List.replicate 12 0 ++ [7, 1, 2, 3, 4, 5, 6, 7, 8]) ++ List.replicate 12 0 ++
    (Writer.length 1 ++ List.replicate 8 0 ++ [3, 0xF5] ++ List.replicate 20 0) ++ [0xFF]

/-- A module with one referenced assembly and one type, both without names. -/
def looseModule : Metadata where
  assemblyRefs := [{ name := "", publicKeyToken := some #v[1, 2, 3, 4, 5, 6, 7, 8] }]
  types := [{ name := "", visibility := .public_, isAbstract := true, beforeFieldInit := true }]

theorem decode_encode_looseModule : decode looseSection = .ok looseModule ∧
    decode (encode looseModule) = .ok looseModule ∧ ∃ used rest, looseSection = used ++ rest ∧
      Reader.tables.run ⟨0, looseSection⟩ = .ok (looseModule, ⟨used.length, rest⟩) ∧
        (encode looseModule).length = used.length := by
  have h : decode looseSection = .ok looseModule := by decide +kernel
  exact ⟨h, decode_encode_of_decode h⟩

/-! ## Beginnings of encoded modules -/

/-- A type whose base is not the token that stands for none. -/
def withoutNilBase (t : TypeDef) : TypeDef := { t with base := t.base.filter (· ≠ ⟨0⟩) }

/-- Both forms of a type without base are written alike. -/
theorem type_withoutNilBase (t : TypeDef) : Writer.type (withoutNilBase t) = Writer.type t := by
  have hbase : Writer.base (withoutNilBase t).base = Writer.base t.base := by
    rcases hb : t.base with _ | ⟨raw⟩
    · rw [withoutNilBase, hb]
      rfl
    · rw [withoutNilBase, hb, Option.filter_some]
      split
      · rfl
      · rename_i hzero
        simp only [ne_eq, decide_not, Bool.not_eq_true, Bool.not_eq_false', decide_eq_true_eq] at hzero
        rw [hzero]
        rfl
  simp only [Writer.type, hbase]
  rfl

/-- The module with all of its types so. -/
def withoutNilBases (m : Metadata) : Metadata := { m with types := m.types.map withoutNilBase }

theorem encode_withoutNilBases (m : Metadata) : encode (withoutNilBases m) = encode m := by
  have htypes : Writer.list Writer.type (m.types.map withoutNilBase) = Writer.list Writer.type m.types := by
    simp only [Writer.list, List.length_map, List.flatMap_map, type_withoutNilBase]
  simp only [encode, withoutNilBases, htypes]

/-- What is written is read, up to bases that stand for none. -/
theorem reads_encode {m : Metadata} (hbounded : Bounded m)
    (henclosing : ∀ t ∈ m.types, ∀ i ∈ t.enclosing, i + 1 < 2 ^ 32) :
    Reads Reader.tables (encode m) (withoutNilBases m) := by
  have htypes : BoundedList BoundedType (withoutNilBases m).types := by
    refine ⟨by rw [withoutNilBases, List.length_map]; exact hbounded.types.1, fun t ht => ?_⟩
    obtain ⟨t, hmem, rfl⟩ := List.mem_map.1 ht
    obtain ⟨h₁, h₂, h₃, h₄, h₅⟩ := hbounded.types.2 t hmem
    exact ⟨h₁, h₂, h₃, h₄, h₅⟩
  rw [← encode_withoutNilBases]
  refine reads_tables ⟨hbounded.assembly, hbounded.moduleName, hbounded.assemblyRefs, hbounded.typeRefs,
    hbounded.memberRefs, hbounded.userStrings, htypes⟩ (fun t ht hzero => ?_) fun t ht => ?_
  · obtain ⟨t, -, rfl⟩ := List.mem_map.1 ht
    have := (Option.filter_eq_some_iff.1 hzero).2
    simp at this
  · obtain ⟨t, hmem, rfl⟩ := List.mem_map.1 ht
    exact henclosing t hmem

/-- **Truncated metadata is always recognised.** A proper beginning of an encoded module is found
truncated, whether the nesting of the module is valid or not. -/
theorem decode_truncated {m : Metadata} (hbounded : Bounded m)
    (henclosing : ∀ t ∈ m.types, ∀ i ∈ t.enclosing, i < 2 ^ 32 - 1) {p : List UInt8}
    (hp : p <+: encode m) (hne : p ≠ encode m) : ∃ offset, decode p = .error (.truncated offset) := by
  have hread := reads_encode hbounded (fun t ht i hi => by have := henclosing t ht i hi; omega) 0 []
  rw [List.append_nil] at hread
  obtain ⟨used, hused, -, -, hcut⟩ := takes_tables _ _ _ _ hread
  rw [List.append_nil] at hused
  obtain ⟨offset, hshort⟩ | ⟨q, hq, -⟩ := hcut p hp
  · refine ⟨offset, ?_⟩
    unfold decode
    rw [hshort]
    rfl
  · refine absurd (hp.eq_of_length_le ?_) hne
    rw [hq, hused, List.length_append]
    exact Nat.le_add_right ..

/-- Two types, each nested in the other one, with a base that stands for none. -/
def entangled : Metadata where
  types := [{ name := "A", base := some ⟨0⟩, enclosing := some 1 }, { name := "B", enclosing := some 0 }]

theorem bounded_entangled : Bounded entangled := by
  have htext : ∀ s ∈ ["", "A", "B"], BoundedText s := by
    unfold BoundedText
    decide +kernel
  refine ⟨⟨htext _ (by decide), boundedList_nil⟩, htext _ (by decide), boundedList_nil, boundedList_nil,
    boundedList_nil, boundedList_nil, by decide, fun t ht => ?_⟩
  simp only [entangled, List.mem_cons, List.not_mem_nil, or_false] at ht
  rcases ht with rfl | rfl <;>
    exact ⟨htext _ (by decide), htext _ (by decide), boundedList_nil, boundedList_nil, boundedList_nil⟩

/-- Without its last byte the section is found truncated; complete, it is refused for its nesting. -/
theorem decode_truncated_entangled :
    Bounded entangled ∧ (∀ t ∈ entangled.types, ∀ i ∈ t.enclosing, i < 2 ^ 32 - 1) ∧
      (encode entangled).dropLast <+: encode entangled ∧
      (encode entangled).dropLast ≠ encode entangled ∧
      (∃ offset, decode (encode entangled).dropLast = .error (.truncated offset)) ∧
      decode (encode entangled) = .error (.badEnclosingType 0 1) := by
  have henclosing : ∀ t ∈ entangled.types, ∀ i ∈ t.enclosing, i < 2 ^ 32 - 1 := by decide
  have hne : (encode entangled).dropLast ≠ encode entangled := by decide +kernel
  exact ⟨bounded_entangled, henclosing, List.dropLast_prefix _, hne,
    decode_truncated bounded_entangled henclosing (List.dropLast_prefix _) hne, by decide +kernel⟩

end CilScope.Metadata
