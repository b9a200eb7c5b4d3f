import CilScope.Artifact.Assemble
import CilScope.Artifact.Load
import CilScope.Proofs.Metadata.RoundTrip

/-!
# Loading what was stored

`Image.load_assemble`: the artifact of an image loads back to the metadata of the image and, for
every method row, to the body of that row. Bodies are found by name only, and many methods may share
a name. What makes the pairing right is that addresses never fall from row to row and that two
bodies share an address only if the first of them is empty (`pairwise_laidSpans`): sorting the
symbols by address and size then changes nothing, and each method takes the symbol of its own row.
-/

namespace CilScope.Artifact

/-! ## Addresses -/

/-- A length rounded up to a boundary. -/
def aligned (n : Nat) : Nat := (n + (alignment - 1)) / alignment * alignment

theorem add_padding (n : Nat) : n + padding n = aligned n := by
  unfold padding aligned alignment
  omega

theorem aligned_aligned_add (m n : Nat) : aligned (aligned m + n) = aligned m + aligned n := by
  unfold aligned alignment
  omega

theorem le_aligned (n : Nat) : n ≤ aligned n := by
  unfold aligned alignment
  omega

/-- Where the body of row `i` starts: behind the bodies of the rows before it, each rounded up to a
boundary. -/
def bodyStart (bodies : List FinishedBody) (i : Nat) : Nat :=
  ((bodies.take i).map fun b => aligned b.code.length).sum

theorem bodyStart_cons_succ (b : FinishedBody) (bodies : List FinishedBody) (i : Nat) :
    bodyStart (b :: bodies) (i + 1) = aligned b.code.length + bodyStart bodies i := rfl

/-- The spans of bodies, the first of which starts at `start`. -/
def laidSpans (start : Nat) : List (String × FinishedBody) → List Span
  | [] => []
  | (name, body) :: rest =>
    ⟨name, start, body.code.length⟩ :: laidSpans (start + aligned body.code.length) rest

/-- The symbols that are stored with the bodies say where these lie. -/
theorem filterMap_symbols_layBodies (offset : Nat) (named : List (String × FinishedBody)) :
    (layBodies offset named).2.filterMap Span.ofSymbol? = laidSpans (aligned offset) named := by
  induction named generalizing offset with
  | nil => rfl
  | cons p rest ih =>
    obtain ⟨name, body⟩ := p
    have hspan : Span.ofSymbol?
        { name := Bytes.ofString name, value := aligned offset, size := body.code.length } =
        some ⟨name, aligned offset, body.code.length⟩ := by
      simp [Span.ofSymbol?, guard, Bytes.toString?_ofString]
    rw [layBodies, laidSpans]
    simp only [add_padding]
    rw [List.filterMap_cons, hspan]
    simp only
    rw [ih, aligned_aligned_add]

theorem le_start_of_mem_laidSpans {start : Nat} {named : List (String × FinishedBody)} {s : Span}
    (h : s ∈ laidSpans start named) : start ≤ s.start := by
  induction named generalizing start with
  | nil => cases h
  | cons p rest ih =>
    rcases List.mem_cons.1 h with rfl | h
    · exact Nat.le_refl _
    · exact Nat.le_trans (Nat.le_add_right _ _) (ih h)

/-- The spans are in the order of their addresses; where two bodies share an address the first is
empty. -/
theorem pairwise_laidSpans (start : Nat) (named : List (String × FinishedBody)) :
    (laidSpans start named).Pairwise fun a b => a.precedes b = true := by
  induction named generalizing start with
  | nil => exact List.Pairwise.nil
  | cons p rest ih =>
    refine List.Pairwise.cons (fun s hs => ?_) (ih _)
    have hstart := le_start_of_mem_laidSpans hs
    have hlength := le_aligned p.2.code.length
    simp only [Span.precedes, Bool.or_eq_true, Bool.and_eq_true, decide_eq_true_eq]
    omega

/-! ## Bodies -/

/-- What a stored body that starts at `start` is loaded as. -/
structure LoadsAs (start : Nat) (stored : FinishedBody) (loaded : Body) : Prop where
  instructions : Instruction.decodeStream stored.code = .ok loaded.instructions
  codeSize : loaded.codeSize.toNat = stored.code.length
  rva : loaded.rva.toNat = Module.baseAddress.toNat + start

/-- A body that lies in the code section behind `before` is loaded from there. -/
theorem bodyAt_append (before behind : List UInt8) (name : String) {stored : FinishedBody}
    (hsize : before.length + stored.code.length < 2 ^ 31)
    (hdecode : ∃ is, Instruction.decodeStream stored.code = .ok is) :
    ∃ loaded, bodyAt (before ++ (stored.code ++ behind))
        ⟨name, before.length, stored.code.length⟩ = .ok loaded ∧
      LoadsAs before.length stored loaded := by
  obtain ⟨is, his⟩ := hdecode
  have hbase : Module.baseAddress.toNat = 0x2050 := rfl
  refine ⟨⟨Module.baseAddress + UInt32.ofNat before.length, UInt32.ofNat stored.code.length, is⟩,
    ?_, his, ?_, ?_⟩
  · rw [bodyAt, if_neg (by simp), List.drop_left, List.take_left, his]
    rfl
  · rw [UInt32.toNat_ofNat', Nat.mod_eq_of_lt (by omega)]
  · rw [UInt32.toNat_add, UInt32.toNat_ofNat', hbase]
    omega

/-- The bodies that are stored behind `before` are handed out in the order of their rows: the first
span that is left carries the name that is looked for. -/
theorem bodies_layBodies (before : List UInt8) {named : List (String × FinishedBody)}
    (hsize : (before ++ (layBodies before.length named).1).length < 2 ^ 31)
    (hdecode : ∀ p ∈ named, ∃ is, Instruction.decodeStream p.2.code = .ok is) :
    ∃ loaded, bodies (before ++ (layBodies before.length named).1) (named.map Prod.fst)
        (laidSpans (aligned before.length) named) = .ok loaded ∧
      loaded.length = named.length ∧
      ∀ (i : Nat) stored, (named.map Prod.snd)[i]? = some stored → ∃ body, loaded[i]? = some body ∧
        LoadsAs (aligned before.length + bodyStart (named.map Prod.snd) i) stored body := by
  induction named generalizing before with
  | nil => exact ⟨[], rfl, rfl, fun i stored h => by cases h⟩
  | cons p rest ih =>
    obtain ⟨name, stored⟩ := p
    -- the body stands behind its padding, and the other bodies behind it
    let padded := before ++ List.replicate (padding before.length) 0
    have hpadded : padded.length = aligned before.length := by
      rw [List.length_append, List.length_replicate, add_padding]
    have hbehind : (padded ++ stored.code).length =
        before.length + padding before.length + stored.code.length := by
      rw [List.length_append, List.length_append, List.length_replicate]
    have hcode : before ++ (layBodies before.length ((name, stored) :: rest)).1 =
        padded ++ (stored.code ++ (layBodies (padded ++ stored.code).length rest).1) := by
      rw [layBodies, hbehind]
      simp [padded, List.append_assoc]
    rw [hcode] at hsize ⊢
    have hfirst : padded.length + stored.code.length < 2 ^ 31 := by
      rw [← List.append_assoc, List.length_append, List.length_append] at hsize
      omega
    obtain ⟨body, hbody, hloads⟩ := bodyAt_append padded
      (layBodies (padded ++ stored.code).length rest).1 name hfirst
      (hdecode _ (List.mem_cons_self ..))
    rw [← List.append_assoc] at hsize
    obtain ⟨loaded, hloaded, hlength, hrest⟩ :=
      ih (padded ++ stored.code) hsize fun q hq => hdecode q (List.mem_cons_of_mem _ hq)
    have hnext : aligned (padded ++ stored.code).length =
        aligned before.length + aligned stored.code.length := by
      rw [List.length_append, hpadded, aligned_aligned_add]
    rw [hnext] at hloaded hrest
    rw [hpadded] at hbody hloads
    refine ⟨body :: loaded, ?_, by rw [List.length_cons, List.length_cons, hlength],
      fun i other hother => ?_⟩
    · rw [List.map_cons, laidSpans, bodies, List.find?_cons_of_pos (by simp),
        List.eraseP_cons_of_pos (by simp)]
      simp only
      rw [hbody, ← List.append_assoc, hloaded]
      rfl
    · cases i with
      | zero =>
        cases hother
        exact ⟨body, rfl, hloads⟩
      | succ i =>
        obtain ⟨b, hb, hloads⟩ := hrest i other hother
        refine ⟨b, hb, ?_⟩
        rw [List.map_cons, bodyStart_cons_succ, ← Nat.add_assoc]
        exact hloads

end CilScope.Artifact

namespace CilScope.Metadata

/-- A metadata section is read back. -/
theorem decode_encode {m : Metadata} (hnesting : badNesting? m.types = none)
    (hbase : ∀ t ∈ m.types, t.base ≠ some ⟨0⟩) (hbounded : Bounded m) :
    decode (encode m) = .ok m := by
  have henclosing : ∀ t ∈ m.types, ∀ i ∈ t.enclosing, i + 1 < 2 ^ 32 := by
    intro t ht i hi
    have hlt := enclosing_lt_of_badNesting? hnesting ht hi
    have hlen := hbounded.types.1
    omega
  have hread := reads_tables hbounded hbase henclosing 0 []
  rw [List.append_nil] at hread
  unfold decode
  rw [hread]
  simp only [bind, Except.bind, hnesting]
  rfl

end CilScope.Metadata

namespace CilScope.Image

open Artifact

/-- The code section of an image. -/
def codeSection (image : Image) : List UInt8 := (layBodies 0 image.namedBodies).1

/-- The artifact of an image that has a body for every method. -/
def artifact (image : Image) : Artifact :=
  ⟨some image.codeSection, some image.metadata.encode, (layBodies 0 image.namedBodies).2⟩

theorem assemble_eq_ok {image : Image}
    (h : image.metadata.methods.length = image.bodies.length) :
    image.assemble = .ok image.artifact := by
  rw [assemble, if_pos h]
  rfl

theorem spans_artifact (image : Image) : image.artifact.spans = laidSpans 0 image.namedBodies := by
  rw [spans, artifact, filterMap_symbols_layBodies]
  exact List.mergeSort_of_pairwise (pairwise_laidSpans _ _)

theorem namedBodies_eq_zip (image : Image) :
    image.namedBodies = (bodyNames image.metadata).zip image.bodies := by
  rw [bodyNames, List.zip_eq_zipWith, List.zipWith_map_left]
  rfl

/-- **The artifact of an image loads back to the image**: to its metadata and, for every method row, to
the decoded body of that row, however many methods share a name. -/
theorem load_assemble {image : Image}
    (hcount : image.metadata.methods.length = image.bodies.length)
    (hnesting : Metadata.badNesting? image.metadata.types = none)
    (hbase : ∀ t ∈ image.metadata.types, t.base ≠ some ⟨0⟩)
    (hbounded : Metadata.Bounded image.metadata)
    (hdecode : ∀ b ∈ image.bodies, ∃ is, Instruction.decodeStream b.code = .ok is)
    (hsize : image.codeSection.length < 2 ^ 31) :
    ∃ artifact module, image.assemble = .ok artifact ∧ artifact.load = .ok module ∧
      module.metadata = image.metadata ∧ module.bodies.length = image.metadata.methods.length ∧
      ∀ (row : Nat) stored, image.bodies[row]? = some stored →
        ∃ body, module.body? row = some body ∧
          LoadsAs (bodyStart image.bodies row) stored body := by
  have hnames : (bodyNames image.metadata).length = image.bodies.length := by
    rw [bodyNames, List.length_map, hcount]
  have hfst : image.namedBodies.map Prod.fst = bodyNames image.metadata := by
    rw [namedBodies_eq_zip, List.map_fst_zip (Nat.le_of_eq hnames)]
  have hsnd : image.namedBodies.map Prod.snd = image.bodies := by
    rw [namedBodies_eq_zip, List.map_snd_zip (Nat.le_of_eq hnames.symm)]
  obtain ⟨loaded, hloaded, hlength, hbodies⟩ := bodies_layBodies [] hsize
    fun p hp => hdecode p.2 (hsnd ▸ List.mem_map_of_mem hp)
  rw [hfst] at hloaded
  rw [hsnd] at hbodies
  refine ⟨image.artifact, ⟨image.metadata, loaded.map some⟩, assemble_eq_ok hcount, ?_, rfl, ?_,
    fun row stored hrow => ?_⟩
  · have hload : Artifact.bodies image.codeSection (bodyNames image.metadata) image.artifact.spans =
        .ok loaded := by
      rw [spans_artifact]
      exact hloaded
    rw [load]
    simp only [artifact, Metadata.decode_encode hnesting hbase hbounded]
    simp only [artifact] at hload
    rw [hload]
    rfl
  · rw [List.length_map, hlength, ← List.length_map (f := Prod.fst), hfst, hnames, hcount]
  · obtain ⟨body, hbody, hloads⟩ := hbodies row stored hrow
    have hzero : aligned ([] : List UInt8).length = 0 := rfl
    rw [hzero, Nat.zero_add] at hloads
    exact ⟨body, by simp [Module.body?, hbody], hloads⟩

/-- A body that is its code. -/
def bareBody (code : List UInt8) : FinishedBody :=
  { code, instructionCount := code.length, maxStack := 8, locals := [], clauses := [], points := [] }

/-- Three overloads. The first has no code, so it shares its address with the second. -/
def overloads : Image where
  metadata := { moduleName := "m", types := [{ name := "C", methods := [
    { name := "M" }, { name := "M", sig := { params := [.int32] } },
    { name := "M", sig := { params := [.bool] } }] }] }
  bodies := [bareBody [], bareBody [0x2A], bareBody [0x00, 0x2A]]

theorem bounded_overloads : Metadata.Bounded overloads.metadata := by
  have htext : ∀ s ∈ ["", "m", "C", "M"], Metadata.BoundedText s := by
    unfold Metadata.BoundedText
    decide +kernel
  have hmethod : ∀ params : List TypeSig, params.length < 2 ^ 32 →
      Metadata.BoundedMethod { name := "M", sig := { params } } := fun params hparams =>
    ⟨htext "M" (by decide), hparams, Metadata.boundedList_nil, Metadata.boundedList_nil,
      Nat.two_pow_pos 32, Metadata.boundedList_nil⟩
  refine ⟨⟨htext _ (by decide), Metadata.boundedList_nil⟩, htext _ (by decide),
    Metadata.boundedList_nil, Metadata.boundedList_nil, Metadata.boundedList_nil,
    Metadata.boundedList_nil, by decide, ?_⟩
  simp only [overloads, List.forall_mem_cons]
  refine ⟨⟨htext _ (by decide), htext _ (by decide), Metadata.boundedList_nil,
    Metadata.boundedList_nil, by decide, ?_⟩, fun _ h => nomatch h⟩
  simp only [List.forall_mem_cons]
  exact ⟨hmethod _ (by decide), hmethod _ (by decide), hmethod _ (by decide), fun _ h => nomatch h⟩

theorem decodes_overloads :
    ∀ b ∈ overloads.bodies, ∃ is, Instruction.decodeStream b.code = .ok is := by
  simp only [overloads, List.forall_mem_cons, bareBody]
  refine ⟨⟨[], by cbv⟩, ⟨[⟨0, .ret, .none⟩], by cbv⟩,
    ⟨[⟨0, .nop, .none⟩, ⟨1, .ret, .none⟩], by cbv⟩, fun _ h => nomatch h⟩

/-- Each of the overloads gets its own body back, the first two from one address. -/
theorem load_assemble_overloads :
    overloads.metadata.methods.length = overloads.bodies.length ∧
      Metadata.badNesting? overloads.metadata.types = none ∧
      (∀ t ∈ overloads.metadata.types, t.base ≠ some ⟨0⟩) ∧
      Metadata.Bounded overloads.metadata ∧
      (∀ b ∈ overloads.bodies, ∃ is, Instruction.decodeStream b.code = .ok is) ∧
      overloads.codeSection.length < 2 ^ 31 ∧
      ∃ artifact module, overloads.assemble = .ok artifact ∧ artifact.load = .ok module ∧
        module.metadata = overloads.metadata ∧
        (∃ body, module.body? 0 = some body ∧ LoadsAs 0 (bareBody []) body) ∧
        (∃ body, module.body? 1 = some body ∧ LoadsAs 0 (bareBody [0x2A]) body) ∧
        ∃ body, module.body? 2 = some body ∧ LoadsAs 4 (bareBody [0x00, 0x2A]) body := by
  refine ⟨by decide, by decide, by decide, bounded_overloads, decodes_overloads, by decide +kernel, ?_⟩
  obtain ⟨artifact, module, hassemble, hload, hmetadata, -, hbodies⟩ :=
    @load_assemble overloads (by decide) (by decide) (by decide) bounded_overloads decodes_overloads
      (by decide +kernel)
  exact ⟨artifact, module, hassemble, hload, hmetadata, hbodies 0 _ rfl, hbodies 1 _ rfl,
    hbodies 2 _ rfl⟩

end CilScope.Image
