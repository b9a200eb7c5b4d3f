import CilScope.Listing.Module
import CilScope.Proofs.Metadata.Nesting

/-!
# Every type is shown once

A listing of types goes down from the types that are not nested, and finds what is nested in a type by
looking through all types. `visits` is the order in which it comes by, as a list of parts:

* `writeTypes_eq`: the types are written part by part in this order;
* `bracketed_visits`: every type is entered inside the type around it, and left behind its members;
* `entered_visits`, `written_visits`: if the chains of enclosing types end, every type is entered once and
  every method is written once, with its row.

`nesting_exact` puts this together with the check that a section has to pass: it accepts exactly those
modules whose chains end.
-/

namespace CilScope.Listing

open Writer Metadata

/-! ## The parts of a listing -/

/-- A part of the listing of the types. -/
inductive Visit
  /-- What stands in front of the nested types of a type. -/
  | enter (index : Nat)
  /-- The fields of a type. -/
  | fields (index : Nat)
  /-- A method of a type, with its row. -/
  | method (index : Nat) (method : MethodDef) (row : Nat)
  /-- A blank line. -/
  | gap
  /-- What stands behind the members of a type. -/
  | leave (index : Nat)

/-- Writes what stands in front of the nested types of a type, and goes one step further in. -/
def writeEnter (m : Module) (index : Nat) (type : TypeDef) : Writer Unit := do
  let n : Names := ⟨m.metadata, m.metadata.typeFullName index⟩
  line (".class " ++ typeVisibility type ++ " auto ansi" ++ flagWords
    [(type.isAbstract, "abstract"), (type.isSealed, "sealed"),
     (type.beforeFieldInit, "beforefieldinit")] ++ " " ++ Names.declared type)
  match type.base with
  | some base => indented do line ("extends " ++ (← name (n.typeToken base)))
  | none => pure ()
  line "\x7b"
  indent
  attributes n type.attributes
  unless (nestedTypes m.metadata index).isEmpty do line "// Nested Types"

/-- Writes the fields of a type, and the line in front of its methods. -/
def writeMembers (m : Module) (index : Nat) (type : TypeDef) : Writer Unit := do
  writeFields ⟨m.metadata, m.metadata.typeFullName index⟩ type.fields
  unless type.methods.isEmpty do line "// Methods"

/-- Writes the end of a type, one step back out. -/
def writeLeave (m : Module) (index : Nat) (type : TypeDef) : Writer Unit := do
  unindent
  line ("\x7d // end of class " ++
    if type.enclosing.isSome then type.name else m.metadata.typeFullName index)

/-- Writes a part. -/
def writeVisit (structured : Bool) (m : Module) : Visit → Writer Unit
  | .enter index => m.metadata.types[index]?.forM (writeEnter m index)
  | .fields index => m.metadata.types[index]?.forM (writeMembers m index)
  | .method index method row => writeMethod structured m index method row
  | .gap => blank
  | .leave index => m.metadata.types[index]?.forM (writeLeave m index)

/-- The parts for the methods of the type at `index`, the first of which has the row `first`. -/
def methodVisits (index first : Nat) (methods : List MethodDef) : List Visit :=
  methods.zipIdx.flatMap fun (method, i) => [.method index method (first + i), .gap]

/-- The parts for the type at `index` and all that is nested in it, at most `depth` types deep. -/
def typeVisits (m : Metadata) : (depth index : Nat) → List Visit
  | 0, _ => []
  | depth + 1, index =>
    match m.types[index]? with
    | none => []
    | some type =>
      .enter index :: ((nestedTypes m index).flatMap fun inner => typeVisits m depth inner ++ [.gap]) ++
        .fields index :: (methodVisits index (m.methodRows.getD index 0) type.methods ++ [.leave index])

/-- The parts for all types. -/
def visits (m : Metadata) : List Visit :=
  m.types.zipIdx.flatMap fun (type, index) =>
    if type.enclosing.isNone then typeVisits m m.types.length index ++ [.gap] else []

section

variable {α β : Type}

theorem forM_append (xs ys : List α) (f : α → Writer Unit) :
    (xs ++ ys).forM f = (xs.forM f >>= fun _ => ys.forM f) := List.forM_append

theorem forM_cons (x : α) (xs : List α) (f : α → Writer Unit) :
    (x :: xs).forM f = (f x >>= fun _ => xs.forM f) := rfl

theorem forM_singleton (x : α) (f : α → Writer Unit) : [x].forM f = f x := bind_pure (f x)

theorem forM_flatMap (xs : List α) (f : α → List β) (g : β → Writer Unit) :
    (xs.flatMap f).forM g = xs.forM fun x => (f x).forM g := by
  induction xs with
  | nil => rfl
  | cons x xs ih =>
    rw [List.flatMap_cons, forM_append, ih]
    rfl

end

/-- A heading is written only if something follows it. -/
theorem headed {α β : Type} (xs : List α) (heading : String) (f : α → Writer Unit) (k : Writer β) :
    (if xs.isEmpty = true then k else do line heading; xs.forM f; k) = (do
      (if xs.isEmpty = true then pure () else line heading)
      xs.forM f
      k) := by
  cases xs <;> rfl

/-- The steps in which a type is written. -/
theorem writeType_succ (structured : Bool) (m : Module) (depth index : Nat) {type : TypeDef}
    (htype : m.metadata.types[index]? = some type) :
    writeType structured m (depth + 1) index = (do
      writeEnter m index type
      (nestedTypes m.metadata index).forM (fun inner => do
        writeType structured m depth inner
        blank)
      writeMembers m index type
      type.methods.zipIdx.forM (fun (method, i) => do
        writeMethod structured m index method (m.metadata.methodRows.getD index 0 + i)
        blank)
      writeLeave m index type) := by
  rw [writeType, htype]
  unfold writeEnter writeMembers writeLeave indented
  dsimp only
  cases type.base with
  | none =>
    simp only [bind_assoc, headed]
    cases type.methods <;> rfl
  | some base =>
    simp only [bind_assoc, headed]
    cases type.methods <;> rfl

/-- A type is written part by part. -/
theorem writeType_eq (structured : Bool) (m : Module) (depth index : Nat) :
    writeType structured m depth index =
      (typeVisits m.metadata depth index).forM (writeVisit structured m) := by
  induction depth generalizing index with
  | zero => rfl
  | succ depth ih =>
    cases htype : m.metadata.types[index]? with
    | none =>
      rw [writeType, typeVisits, htype]
      rfl
    | some type =>
      have hinner (inner : Nat) : (typeVisits m.metadata depth inner ++ [Visit.gap]).forM (writeVisit structured m) =
          (writeType structured m depth inner >>= fun _ => blank) := by
        rw [forM_append, forM_singleton, ih]
        rfl
      rw [writeType_succ structured m depth index htype, typeVisits, htype]
      dsimp only
      rw [List.cons_append, forM_cons, forM_append, forM_flatMap, forM_cons, forM_append,
        forM_singleton, methodVisits, forM_flatMap]
      simp only [hinner, writeVisit, htype]
      rfl

/-- All types are written part by part. -/
theorem writeTypes_eq (structured : Bool) (m : Module) :
    writeTypes structured m = (visits m.metadata).forM (writeVisit structured m) := by
  rw [writeTypes, visits, forM_flatMap]
  refine congrArg _ (funext fun (type, index) => ?_)
  dsimp only
  split
  · rw [forM_append, forM_singleton, writeType_eq]
    rfl
  · rfl

/-! ## Where the parts stand -/

/-- Reading a part with the types that are open around it, from the inside out. A type is entered inside
the type around it, its members stand directly inside it, and it is left when it is the innermost. -/
inductive Step (types : List TypeDef) : List Nat → Visit → List Nat → Prop
  | enter {i : Nat} {open_ : List Nat} (h : outer? types i = open_.head?) :
      Step types open_ (.enter i) (i :: open_)
  | fields {i : Nat} {open_ : List Nat} : Step types (i :: open_) (.fields i) (i :: open_)
  | method {i : Nat} {open_ : List Nat} {m : MethodDef} {row : Nat} :
      Step types (i :: open_) (.method i m row) (i :: open_)
  | gap {open_ : List Nat} : Step types open_ .gap open_
  | leave {i : Nat} {open_ : List Nat} : Step types (i :: open_) (.leave i) open_

/-- Reading parts one after the other. -/
inductive Bracketed (types : List TypeDef) : List Nat → List Visit → List Nat → Prop
  | nil {open_ : List Nat} : Bracketed types open_ [] open_
  | cons {before between after : List Nat} {v : Visit} {vs : List Visit} (h : Step types before v between)
      (hs : Bracketed types between vs after) : Bracketed types before (v :: vs) after

namespace Bracketed

variable {types : List TypeDef} {open_ before between after : List Nat} {vs ws : List Visit}

theorem append (h : Bracketed types before vs between) (h' : Bracketed types between ws after) :
    Bracketed types before (vs ++ ws) after := by
  induction h with
  | nil => exact h'
  | cons hstep _ ih => exact .cons hstep (ih h')

theorem one {v : Visit} (h : Step types before v after) : Bracketed types before [v] after := .cons h .nil

theorem flatMap {α : Type} {xs : List α} {f : α → List Visit}
    (h : ∀ x ∈ xs, Bracketed types open_ (f x) open_) : Bracketed types open_ (xs.flatMap f) open_ := by
  induction xs with
  | nil => exact .nil
  | cons x xs ih =>
    rw [List.flatMap_cons]
    exact (h x (List.mem_cons_self ..)).append (ih fun y hy => h y (List.mem_cons_of_mem _ hy))

end Bracketed

section

variable {m : Metadata} {i j : Nat}

theorem mem_nestedTypes : j ∈ nestedTypes m i ↔ outer? m.types j = some i := by
  rw [nestedTypes, List.mem_filter, List.mem_range]
  constructor
  · rintro ⟨hj, h⟩
    rw [List.getElem?_eq_getElem hj, Option.map_some, beq_iff_eq, Option.some.injEq] at h
    rw [outer?_eq (List.getElem?_eq_getElem hj), h]
  · intro h
    obtain ⟨t, ht, ho⟩ := getElem?_of_outer? h
    exact ⟨lt_of_outer? h, by rw [ht, Option.map_some, ho, beq_iff_eq]⟩

theorem bracketed_typeVisits (depth : Nat) {open_ : List Nat} (h : outer? m.types i = open_.head?) :
    Bracketed m.types open_ (typeVisits m depth i) open_ := by
  induction depth generalizing i open_ with
  | zero => exact .nil
  | succ depth ih =>
    rw [typeVisits]
    split
    · exact .nil
    · rename_i type htype
      rw [List.cons_append]
      refine .cons (.enter h) (Bracketed.append (.flatMap fun inner hinner => ?_) (.cons .fields ?_))
      · exact (ih (mem_nestedTypes.1 hinner)).append (.one .gap)
      · exact Bracketed.append (.flatMap fun _ _ => .cons .method (.one .gap)) (.one .leave)

theorem bracketed_visits (m : Metadata) : Bracketed m.types [] (visits m) [] := by
  refine .flatMap fun (type, index) hmem => ?_
  dsimp only
  split
  · rename_i hnone
    refine (bracketed_typeVisits _ ?_).append (.one .gap)
    rw [outer?_eq (List.mem_zipIdx_iff_getElem?.1 hmem), Option.isNone_iff_eq_none.1 hnone]
    rfl
  · exact .nil

end

/-! ## What the parts cover -/

/-- The type that a part enters. -/
def Visit.type? : Visit → Option Nat
  | .enter index => some index
  | _ => none

/-- The method that a part writes, with its type and its row. -/
def Visit.method? : Visit → Option ((Nat × MethodDef) × Nat)
  | .method index m row => some ((index, m), row)
  | _ => none

/-- The types that are entered. -/
def entered (vs : List Visit) : List Nat := vs.filterMap Visit.type?

/-- The methods that are written, each with its type and its row. -/
def written (vs : List Visit) : List ((Nat × MethodDef) × Nat) := vs.filterMap Visit.method?

/-- `e` links lead from the type at `j` up to the one at `i`. -/
inductive Reaches (types : List TypeDef) : (e j i : Nat) → Prop
  | refl (j : Nat) : Reaches types 0 j j
  | up {e j a i : Nat} (h : Reaches types e j a) (ha : outer? types a = some i) :
      Reaches types (e + 1) j i

namespace Reaches

variable {types : List TypeDef} {e e' j a b i k l : Nat}

theorem unique (h : Reaches types e j a) (h' : Reaches types e j b) : a = b := by
  induction h generalizing b with
  | refl => cases h'; rfl
  | up _ ha ih =>
    cases h' with
    | up h' hb =>
      rw [ih h', hb] at ha
      exact (Option.some.inj ha).symm

/-- The end of a chain is so many links closer. -/
theorem climbs (h : Reaches types e j i) (hj : Climbs types k j) : ∃ l, k = e + l ∧ Climbs types l i := by
  induction h with
  | refl => exact ⟨k, (Nat.zero_add k).symm, hj⟩
  | up _ ha ih =>
    obtain ⟨l, rfl, hl⟩ := ih hj
    cases hl with
    | root _ hnone => rw [ha] at hnone; cases hnone
    | @up _ l o ho hl =>
      rw [ha] at ho
      cases ho
      exact ⟨l, by omega, hl⟩

theorem lt (h : Reaches types e j i) (hi : i < types.length) : j < types.length := by
  induction h with
  | refl => exact hi
  | up _ ha ih => exact ih (lt_of_outer? ha)

theorem head {o : Nat} (hj : outer? types j = some o) (h : Reaches types e o i) :
    Reaches types (e + 1) j i := by
  induction h with
  | refl => exact .up (.refl j) hj
  | up _ ha ih => exact .up (ih hj) ha

end Reaches

variable {types : List TypeDef} {m : Metadata} {a b e e' i j k depth : Nat}

/-- A chain that ends comes to a type that is not nested. -/
theorem exists_root (h : Climbs types k j) :
    ∃ r, r < types.length ∧ outer? types r = none ∧ Reaches types k j r := by
  induction h with
  | root hi h => exact ⟨_, hi, h, .refl _⟩
  | up ho _ ih =>
    obtain ⟨r, hr, hnone, hreach⟩ := ih
    exact ⟨r, hr, hnone, hreach.head ho⟩

/-- Two types with the same type around them, or none, have nothing nested in common. -/
theorem eq_of_reaches (hrooted : ∀ i < types.length, Rooted types i) (hj : j < types.length)
    (ha : Reaches types e j a) (hb : Reaches types e' j b) (h : outer? types a = outer? types b) : a = b := by
  obtain ⟨k, hk⟩ := hrooted j hj
  obtain ⟨l, hl, hla⟩ := ha.climbs hk
  obtain ⟨l', hl', hlb⟩ := hb.climbs hk
  have hsame : l = l' := by
    cases hla with
    | root _ hnone =>
      cases hlb with
      | root => rfl
      | up ho => rw [hnone, ho] at h; cases h
    | up ho hclimb =>
      cases hlb with
      | root _ hnone => rw [hnone, ho] at h; cases h
      | up ho' hclimb' =>
        rw [ho, ho'] at h
        cases h
        rw [hclimb.unique hclimb']
  obtain rfl : e = e' := by omega
  exact ha.unique hb

theorem entered_typeVisits_succ (hi : i < m.types.length) :
    entered (typeVisits m (depth + 1) i) =
      i :: (nestedTypes m i).flatMap fun a => entered (typeVisits m depth a) := by
  rw [typeVisits, List.getElem?_eq_getElem hi]
  simp [entered, methodVisits, List.filterMap_flatMap, List.filterMap_cons, Visit.type?]

/-- The methods of the type at `i`, each with its row. -/
def rowsOf (m : Metadata) (i : Nat) : List ((Nat × MethodDef) × Nat) :=
  match m.types[i]? with
  | none => []
  | some type => type.methods.zipIdx.map fun (method, k) => ((i, method), m.methodRows.getD i 0 + k)

theorem written_typeVisits_succ (hi : i < m.types.length) :
    written (typeVisits m (depth + 1) i) =
      ((nestedTypes m i).flatMap fun a => written (typeVisits m depth a)) ++ rowsOf m i := by
  rw [typeVisits, rowsOf, List.getElem?_eq_getElem hi]
  simp [written, methodVisits, List.filterMap_flatMap, List.filterMap_cons, Visit.method?, List.map_eq_flatMap]

/-- What is nested in a type, up to a depth. -/
theorem mem_entered_typeVisits (hi : i < m.types.length) :
    j ∈ entered (typeVisits m depth i) ↔ ∃ e < depth, Reaches m.types e j i := by
  induction depth generalizing i with
  | zero => exact iff_of_false List.not_mem_nil fun ⟨e, he, _⟩ => Nat.not_lt_zero e he
  | succ depth ih =>
    rw [entered_typeVisits_succ hi, List.mem_cons, List.mem_flatMap]
    constructor
    · rintro (rfl | ⟨a, ha, hj⟩)
      · exact ⟨0, Nat.zero_lt_succ _, .refl j⟩
      · have hout := mem_nestedTypes.1 ha
        obtain ⟨e, he, hreach⟩ := (ih (lt_of_outer? hout)).1 hj
        exact ⟨e + 1, Nat.succ_lt_succ he, hreach.up hout⟩
    · rintro ⟨e, he, hreach⟩
      cases hreach with
      | refl => exact .inl rfl
      | @up e _ a _ hreach hout =>
        exact .inr ⟨a, mem_nestedTypes.2 hout,
          (ih (lt_of_outer? hout)).2 ⟨e, Nat.lt_of_succ_lt_succ he, hreach⟩⟩

theorem nodup_nestedTypes (m : Metadata) (i : Nat) : (nestedTypes m i).Nodup :=
  List.nodup_range.filter _

/-- Types with the same type around them are entered with different types inside. -/
theorem nodup_entered_flatMap (hrooted : ∀ i < m.types.length, Rooted m.types i) {xs : List Nat}
    (hxs : xs.Nodup) (hlt : ∀ a ∈ xs, a < m.types.length)
    (hout : ∀ a ∈ xs, ∀ b ∈ xs, outer? m.types a = outer? m.types b)
    (hinner : ∀ a ∈ xs, (entered (typeVisits m depth a)).Nodup) :
    (xs.flatMap fun a => entered (typeVisits m depth a)).Nodup := by
  refine List.nodup_flatMap.2 ⟨hinner, hxs.pairwise_of_forall_ne fun a ha b hb hne => ?_⟩
  intro j hja hjb
  obtain ⟨e, -, hra⟩ := (mem_entered_typeVisits (hlt a ha)).1 hja
  obtain ⟨e', -, hrb⟩ := (mem_entered_typeVisits (hlt b hb)).1 hjb
  exact hne (eq_of_reaches hrooted (hra.lt (hlt a ha)) hra hrb (hout a ha b hb))

theorem nodup_entered_typeVisits (hrooted : ∀ i < m.types.length, Rooted m.types i)
    (hi : i < m.types.length) : (entered (typeVisits m depth i)).Nodup := by
  induction depth generalizing i with
  | zero => exact List.nodup_nil
  | succ depth ih =>
    rw [entered_typeVisits_succ hi, List.nodup_cons]
    constructor
    · intro hmem
      obtain ⟨a, ha, hmem⟩ := List.mem_flatMap.1 hmem
      have hout := mem_nestedTypes.1 ha
      obtain ⟨e, -, hreach⟩ := (mem_entered_typeVisits (lt_of_outer? hout)).1 hmem
      -- a type inside itself would have chains of two lengths
      obtain ⟨k, hk⟩ := hrooted i hi
      obtain ⟨l, hl, hclimb⟩ := (hreach.up hout).climbs hk
      have := hk.unique hclimb
      omega
    · refine nodup_entered_flatMap hrooted (nodup_nestedTypes m i) (fun a ha => ?_) (fun a ha b hb => ?_)
        fun a ha => ih (lt_of_outer? (mem_nestedTypes.1 ha))
      · exact lt_of_outer? (mem_nestedTypes.1 ha)
      · rw [mem_nestedTypes.1 ha, mem_nestedTypes.1 hb]

/-- The types that are not nested. -/
def topTypes (m : Metadata) : List Nat :=
  (List.range m.types.length).filter fun i => (outer? m.types i).isNone

theorem flatMap_ite {α β : Type} (xs : List α) (p : α → Bool) (f : α → List β) :
    (xs.flatMap fun x => if p x then f x else []) = (xs.filter p).flatMap f := by
  induction xs with
  | nil => rfl
  | cons x xs ih =>
    rw [List.flatMap_cons, List.filter_cons, ih]
    split <;> rfl

theorem visits_eq (m : Metadata) :
    visits m = (topTypes m).flatMap fun i => typeVisits m m.types.length i ++ [.gap] := by
  rw [topTypes, ← flatMap_ite, range_length, List.flatMap_map, visits]
  refine List.flatMap_congr fun x hx => ?_
  rw [outer?_eq (List.mem_zipIdx_iff_getElem?.1 hx)]

theorem mem_topTypes : i ∈ topTypes m ↔ i < m.types.length ∧ outer? m.types i = none := by
  rw [topTypes, List.mem_filter, List.mem_range, Option.isNone_iff_eq_none]

theorem entered_visits_eq (m : Metadata) : entered (visits m) =
    (topTypes m).flatMap fun i => entered (typeVisits m m.types.length i) := by
  rw [visits_eq]
  simp [entered, List.filterMap_flatMap, List.filterMap_cons, Visit.type?]

/-- Every type is entered exactly once. -/
theorem entered_visits (hrooted : ∀ i < m.types.length, Rooted m.types i) :
    (entered (visits m)).Perm (List.range m.types.length) := by
  have hnodup : (entered (visits m)).Nodup := by
    rw [entered_visits_eq]
    refine nodup_entered_flatMap hrooted (List.nodup_range.filter _) (fun a ha => (mem_topTypes.1 ha).1)
      (fun a ha b hb => ?_) fun a ha => nodup_entered_typeVisits hrooted (mem_topTypes.1 ha).1
    rw [(mem_topTypes.1 ha).2, (mem_topTypes.1 hb).2]
  refine (List.perm_ext_iff_of_nodup hnodup List.nodup_range).2 fun j => ?_
  rw [entered_visits_eq, List.mem_flatMap, List.mem_range]
  constructor
  · rintro ⟨r, hr, hj⟩
    obtain ⟨e, -, hreach⟩ := (mem_entered_typeVisits (mem_topTypes.1 hr).1).1 hj
    exact hreach.lt (mem_topTypes.1 hr).1
  · intro hj
    obtain ⟨k, hk⟩ := hrooted j hj
    obtain ⟨r, hr, hnone, hreach⟩ := exists_root hk
    exact ⟨r, mem_topTypes.2 ⟨hr, hnone⟩, (mem_entered_typeVisits hr).2 ⟨k, hk.lt_length, hreach⟩⟩

/-! ## Rows -/

/-- With every type that is entered its methods are written. -/
theorem written_typeVisits (hi : i < m.types.length) :
    (written (typeVisits m depth i)).Perm ((entered (typeVisits m depth i)).flatMap (rowsOf m)) := by
  induction depth generalizing i with
  | zero => exact .refl _
  | succ depth ih =>
    rw [written_typeVisits_succ hi, entered_typeVisits_succ hi, List.flatMap_cons, List.flatMap_assoc]
    refine List.perm_append_comm.trans (.append_left _ (.flatMap_left _ fun a ha => ?_))
    exact ih (lt_of_outer? (mem_nestedTypes.1 ha))

/-- The methods of the types from `index` on, the first of which has the row `row`, with their rows. -/
theorem zipIdx_methods (types : List TypeDef) (index row : Nat) :
    ((types.zipIdx index).flatMap fun (type, i) => type.methods.map (i, ·)).zipIdx row =
      (List.range types.length).flatMap fun i => match types[i]? with
        | none => []
        | some type => type.methods.zipIdx.map fun (method, k) =>
            ((index + i, method), (firstRows row (types.map (·.methods.length))).getD i 0 + k) := by
  induction types generalizing index row with
  | nil => rfl
  | cons type types ih =>
    rw [List.zipIdx_cons, List.flatMap_cons, List.zipIdx_append, ih, List.length_cons,
      List.range_succ_eq_map, List.flatMap_cons, List.flatMap_map]
    refine congrArg₂ _ ?_ ?_
    · rw [List.zipIdx_map, List.zipIdx_eq_map_add]
      simp [firstRows]
    · refine List.flatMap_congr fun i _ => ?_
      rw [List.length_map, Nat.add_assoc index 1 i, Nat.add_comm 1 i]
      rfl

theorem flatMap_rowsOf (m : Metadata) :
    (List.range m.types.length).flatMap (rowsOf m) = m.methods.zipIdx := by
  rw [methods, zipIdx_methods]
  simp only [Nat.zero_add]
  rfl

/-- The methods of a type have the rows from its first row on. -/
theorem getElem?_methods {type : TypeDef} (htype : m.types[i]? = some type) {x : MethodDef × Nat}
    (hx : x ∈ type.methods.zipIdx) : m.methods[m.methodRows.getD i 0 + x.2]? = some (i, x.1) := by
  have hrow : ((i, x.1), m.methodRows.getD i 0 + x.2) ∈ m.methods.zipIdx := by
    rw [← flatMap_rowsOf]
    refine List.mem_flatMap.2 ⟨i, List.mem_range.2 (List.getElem?_eq_some_iff.1 htype).1, ?_⟩
    rw [rowsOf, htype]
    exact List.mem_map_of_mem (f := fun x => ((i, x.1), m.methodRows.getD i 0 + x.2)) hx
  exact List.mem_zipIdx_iff_getElem?.1 hrow

/-- Every method is written exactly once, with its row. -/
theorem written_visits (hrooted : ∀ i < m.types.length, Rooted m.types i) :
    (written (visits m)).Perm m.methods.zipIdx := by
  have hwritten : written (visits m) =
      (topTypes m).flatMap fun i => written (typeVisits m m.types.length i) := by
    rw [visits_eq]
    simp [written, List.filterMap_flatMap, List.filterMap_cons, Visit.method?]
  rw [← flatMap_rowsOf, hwritten]
  refine .trans ?_ ((entered_visits hrooted).flatMap_right (rowsOf m))
  rw [entered_visits_eq, List.flatMap_assoc]
  exact .flatMap_left _ fun a ha => written_typeVisits (mem_topTypes.1 ha).1

/-! ## Sections -/

/-- The parts show every type once, in its place, and every method once, with its row. -/
structure ShowsOnce (m : Metadata) (vs : List Visit) : Prop where
  bracketed : Bracketed m.types [] vs []
  types : (entered vs).Perm (List.range m.types.length)
  methods : (written vs).Perm m.methods.zipIdx

theorem showsOnce_visits (hrooted : ∀ i < m.types.length, Rooted m.types i) : ShowsOnce m (visits m) :=
  ⟨bracketed_visits m, entered_visits hrooted, written_visits hrooted⟩

theorem decode_eq_ok_iff {section_ : List UInt8} {s : Input}
    (h : Reader.tables.run ⟨0, section_⟩ = .ok (m, s)) :
    decode section_ = .ok m ↔ ∀ i < m.types.length, Rooted m.types i := by
  rw [decode_of_tables h, ← badNesting?_eq_none_iff]
  cases badNesting? m.types with
  | none => exact iff_of_true rfl rfl
  | some bad => exact iff_of_false nofun nofun

/-- **The nesting of types is checked exactly, and every type is shown once.** A section whose tables can
be read is decoded exactly if the chain of enclosing types that starts at any type stays inside the table
and ends; else the first type is named for which it does not. All types of a decoded module have names, and
they are shown part by part, each type once inside the one around it, and each method once with its row. -/
theorem nesting_exact {section_ : List UInt8} {s : Input}
    (h : Reader.tables.run ⟨0, section_⟩ = .ok (m, s)) :
    (decode section_ = .ok m ↔ ∀ i < m.types.length, Rooted m.types i) ∧
    ((∃ i < m.types.length, ¬Rooted m.types i) → ∃ i outer, outer? m.types i = some outer ∧
      ¬Rooted m.types i ∧ (∀ j < i, Rooted m.types j) ∧
      decode section_ = .error (.badEnclosingType i outer)) ∧
    (decode section_ = .ok m →
      (∀ i < m.types.length, ∀ name, FullName m.types i name ↔ name = m.typeFullName i) ∧
      ShowsOnce m (visits m) ∧
      ∀ structured bodies, writeTypes structured ⟨m, bodies⟩ =
        (visits m).forM (writeVisit structured ⟨m, bodies⟩)) := by
  refine ⟨decode_eq_ok_iff h, fun ⟨i, hi, hbad⟩ => ?_, fun hdecode => ?_⟩
  · rw [decode_of_tables h]
    cases hfound : badNesting? m.types with
    | none => exact absurd (badNesting?_eq_none_iff.1 hfound i hi) hbad
    | some bad =>
      obtain ⟨i, outer⟩ := bad
      obtain ⟨hout, hchain, hfirst⟩ := badNesting?_eq_some hfound
      exact ⟨i, outer, hout, hchain, hfirst, rfl⟩
  · have hrooted := (decode_eq_ok_iff h).1 hdecode
    exact ⟨fun i hi name => fullName_iff (hrooted i hi) name, showsOnce_visits hrooted,
      fun structured bodies => writeTypes_eq structured ⟨m, bodies⟩⟩

/-- Three types inside each other, the outermost one last. -/
def scattered : Metadata where
  types := [{ name := "B", enclosing := some 2 },
    { name := "C", enclosing := some 0, methods := [{ name := "M" }, { name := "N" }] },
    { namespace_ := "S", name := "A", methods := [{ name := "P" }] }]

/-- The types are shown from the outside in, the methods of the outermost type with the last row. -/
theorem showsOnce_scattered :
    Reader.tables.run ⟨0, encode scattered⟩ = .ok (scattered, ⟨(encode scattered).length, []⟩) ∧
      decode (encode scattered) = .ok scattered ∧ FullName scattered.types 1 "S.A/B/C" ∧
      ShowsOnce scattered (visits scattered) ∧ entered (visits scattered) = [2, 0, 1] ∧
      (written (visits scattered)).map (·.2) = [0, 1, 2] := by
  have hrun : Reader.tables.run ⟨0, encode scattered⟩ =
      .ok (scattered, ⟨(encode scattered).length, []⟩) := by decide +kernel
  have hdecode : decode (encode scattered) = .ok scattered := by decide +kernel
  obtain ⟨-, -, hshown⟩ := nesting_exact hrun
  obtain ⟨hname, hshows, -⟩ := hshown hdecode
  exact ⟨hrun, hdecode, (hname 1 (by decide) _).2 (by decide +kernel), hshows, by decide, by decide⟩

end CilScope.Listing
