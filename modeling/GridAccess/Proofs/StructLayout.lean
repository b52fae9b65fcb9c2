import GridAccess.IR.Layout
import GridAccess.Proofs.Outcome
import GridAccess.Proofs.Walk

set_option autoImplicit false

/-!
# The layout of structs

The fields of a struct follow one another without overlap, each at its alignment, and the struct
ends after its last field and less than one alignment later (`Layout.Arranges`). The offsets of
fields and the size of the whole are computed apart from each other. They meet where a run of
fields ends: the fields up to one end where that one ends (`Layout.endBefore_succ`), and all of
them end where the padding of the struct begins (`Layout.size_ofFields_bounds`).

Sizes are computed by unfolding structs inside one another, one level deeper than there are structs.
That is deep enough for a struct that does not contain itself: each struct inside it has fewer
structs inside (`Layout.height_lt`). For one that does contain itself no depth is enough, so that
exactly the types without such a struct have an extent (`Layout.exists_extent_iff`). The extent of a
struct is made of the extents of its fields (`Layout.extent_struct`).
-/

namespace GridAccess

/-! ## Alignment -/

section AlignTo

variable {n a : Nat}

theorem alignTo_of_le_one (h : a ≤ 1) : alignTo n a = n := if_pos h

theorem le_alignTo (n a : Nat) : n ≤ alignTo n a := by
  rw [alignTo]
  split
  · exact le_rfl
  · have := Nat.div_add_mod (n + a - 1) a
    have := Nat.mod_lt (n + a - 1) (show 0 < a by omega)
    rw [Nat.mul_comm]
    omega

theorem alignTo_lt (h : 2 ≤ a) : alignTo n a < n + a := by
  have := Nat.div_mul_le_self (n + a - 1) a
  rw [alignTo, if_neg (by omega)]
  omega

theorem dvd_alignTo (h : a ≠ 0) : a ∣ alignTo n a := by
  rw [alignTo]
  split
  · obtain rfl : a = 1 := by omega
    exact Nat.one_dvd n
  · exact Nat.dvd_mul_left _ _

@[simp] theorem alignTo_zero (a : Nat) : alignTo 0 a = 0 := by
  rw [alignTo]
  split
  · rfl
  · rw [Nat.div_eq_of_lt (by omega), Nat.zero_mul]

end AlignTo

/-! ## Runs of fields -/

namespace Extent

variable {f : Extent} {fs : List Extent}

/-- Copies of something of this extent stand next to each other, all of them aligned. -/
def Tiles (e : Extent) : Prop := e.align ≠ 0 → e.align ∣ e.size

theorem tiles_padded (size align : Nat) : (padded size align).Tiles := dvd_alignTo

theorem fieldsEnd_append (offset : Nat) (fs gs : List Extent) :
    fieldsEnd offset (fs ++ gs) = fieldsEnd (fieldsEnd offset fs) gs := List.foldl_append

/-- The greatest of a number and some alignments is one of them, and bounds them. -/
theorem foldl_max_align (a : Nat) (fs : List Extent) :
    (fs.foldl (fun a g => max a g.align) a = a ∨
      ∃ f ∈ fs, fs.foldl (fun a g => max a g.align) a = f.align) ∧
    a ≤ fs.foldl (fun a g => max a g.align) a ∧
    ∀ f ∈ fs, f.align ≤ fs.foldl (fun a g => max a g.align) a := by
  induction fs generalizing a with
  | nil => simp
  | cons f fs ih =>
    obtain ⟨hattained, hle, hall⟩ := ih (max a f.align)
    rw [List.foldl_cons]
    refine ⟨?_, by omega, ?_⟩
    · rcases hattained with h | ⟨g, hg, h⟩
      · rcases Nat.le_total f.align a with hfa | haf
        · exact Or.inl (h.trans (Nat.max_eq_left hfa))
        · exact Or.inr ⟨f, List.mem_cons_self, h.trans (Nat.max_eq_right haf)⟩
      · exact Or.inr ⟨g, List.mem_cons_of_mem f hg, h⟩
    · intro g hg
      rcases List.mem_cons.1 hg with rfl | hg
      · omega
      · exact hall g hg

theorem align_le_fieldsAlign (hf : f ∈ fs) : f.align ≤ fieldsAlign fs := by
  cases fs with
  | nil => cases hf
  | cons g fs =>
    rcases List.mem_cons.1 hf with rfl | hf
    · exact (foldl_max_align _ fs).2.1
    · exact (foldl_max_align _ fs).2.2 f hf

/-- The alignment of a struct is one, or that of one of its fields. -/
theorem fieldsAlign_cases (fs : List Extent) :
    fieldsAlign fs = 1 ∨ ∃ f ∈ fs, fieldsAlign fs = f.align := by
  cases fs with
  | nil => exact Or.inl rfl
  | cons g fs =>
    rcases (foldl_max_align g.align fs).1 with h | ⟨f, hf, h⟩
    · exact Or.inr ⟨g, List.mem_cons_self, h⟩
    · exact Or.inr ⟨f, List.mem_cons_of_mem g hf, h⟩

/-! ## Powers of two -/

/-- The alignment is a power of two. -/
def Binary (e : Extent) : Prop := e.align.isPowerOfTwo

theorem isPowerOfTwo_integerAlign (bytes : Nat) : (integerAlign bytes).isPowerOfTwo := by
  rw [integerAlign]
  split_ifs
  · exact ⟨0, rfl⟩
  · exact ⟨1, rfl⟩
  · exact ⟨2, rfl⟩
  · exact ⟨3, rfl⟩

theorem dvd_of_isPowerOfTwo {a b : Nat} (ha : a.isPowerOfTwo) (hb : b.isPowerOfTwo)
    (hab : a ≤ b) : a ∣ b := by
  obtain ⟨i, rfl⟩ := ha
  obtain ⟨j, rfl⟩ := hb
  exact Nat.pow_dvd_pow 2 ((Nat.pow_le_pow_iff_right (by decide)).1 hab)

theorem binary_ofFields (h : ∀ f ∈ fs, f.Binary) : (ofFields fs).Binary := by
  rcases fieldsAlign_cases fs with hone | ⟨f, hf, heq⟩
  · exact ⟨0, hone⟩
  · obtain ⟨k, hk⟩ := h f hf
    exact ⟨k, heq.trans hk⟩

theorem align_dvd_ofFields (h : ∀ f ∈ fs, f.Binary) (hf : f ∈ fs) :
    f.align ∣ (ofFields fs).align :=
  dvd_of_isPowerOfTwo (h f hf) (binary_ofFields h) (align_le_fieldsAlign hf)

end Extent

/-! ## Structs inside one another -/

/-- The struct that values of a type are made of: a struct itself, or that of the elements of an
array. -/
def Ty.core? : Ty → Option String
  | struct name => some name
  | array t _ => t.core?
  | _ => none

namespace Layout

variable {l : Layout} {a b : String} {fields : List Ty} {t : Ty} {i : Nat}

/-- Struct `a` has fields that are made of struct `b`. -/
def Embeds (l : Layout) (a b : String) : Prop :=
  ∃ fields, l.fields? a = some fields ∧ ∃ t ∈ fields, t.core? = some b

/-- No struct contains itself. -/
def NonRecursive (l : Layout) : Prop := ∀ a, ¬ Relation.TransGen l.Embeds a a

/-- No struct inside values of the type contains itself. -/
def Bounded (l : Layout) (t : Ty) : Prop :=
  ∀ a, t.core? = some a → ∀ b, Relation.ReflTransGen l.Embeds a b →
    ¬ Relation.TransGen l.Embeds b b

theorem nonRecursive_of_nil (h : l.structs = []) : l.NonRecursive := by
  intro a hcycle
  obtain ⟨b, ⟨fields, hfields, -⟩, -⟩ := Relation.TransGen.head'_iff.1 hcycle
  rw [fields?, h] at hfields
  cases hfields

theorem NonRecursive.bounded (h : l.NonRecursive) (t : Ty) : l.Bounded t := fun _ _ b _ => h b

theorem Bounded.element {n : Nat} (h : l.Bounded (.array t n)) : l.Bounded t := h

theorem Bounded.field (h : l.Bounded (.struct a)) (hfields : l.fields? a = some fields)
    (ht : t ∈ fields) : l.Bounded t :=
  fun _ hb c hbc => h a rfl c (.head ⟨fields, hfields, t, ht, hb⟩ hbc)

/-- The names of the structs that are defined. -/
def names (l : Layout) : Finset String := (l.structs.map Prod.fst).toFinset

theorem mem_names (h : l.fields? a = some fields) : a ∈ l.names := by
  obtain ⟨before, after, hcut, -⟩ := List.lookup_eq_some_iff.1 h
  rw [names, List.mem_toFinset, hcut]
  simp

theorem card_names_le (l : Layout) : l.names.card ≤ l.structs.length := by
  simpa [names] using List.toFinset_card_le (l.structs.map Prod.fst)

open Classical in
/-- The number of structs inside a struct. -/
noncomputable def height (l : Layout) (a : String) : Nat :=
  (l.names.filter fun b => Relation.TransGen l.Embeds a b).card

/-- A struct has more structs inside than one that it contains. -/
theorem height_lt (h : l.Bounded (.struct a)) (hab : l.Embeds a b)
    (hb : l.fields? b = some fields) : l.height b < l.height a := by
  classical
  exact card_below_lt (R := fun b a => Relation.TransGen l.Embeds a b)
    (fun _ _ _ h h' => h'.trans h) (h a rfl b (.single hab)) (mem_names hb) (.single hab)

theorem height_lt_length (h : l.Bounded (.struct a)) (ha : l.fields? a = some fields) :
    l.height a < l.structs.length := by
  classical
  have hcard := card_below_lt_card (R := fun b a => Relation.TransGen l.Embeds a b)
    (h a rfl a .refl) (mem_names ha)
  exact hcard.trans_le l.card_names_le

/-- Going on from a struct to what it has fields of comes to an end. -/
theorem acc_of_bounded (h : l.Bounded (.struct a)) : Acc (fun b a => l.Embeds a b) a := by
  induction hheight : l.height a using Nat.strong_induction_on generalizing a with
  | _ n ih =>
    refine ⟨a, fun b hab => ?_⟩
    obtain ⟨fields, ha, t, ht, hb⟩ := hab
    cases hinner : l.fields? b with
    | some inner =>
      have hlt := height_lt h ⟨fields, ha, t, ht, hb⟩ hinner
      exact ih _ (hheight ▸ hlt) (fun c hc => h.field ha ht c (hb.trans hc)) rfl
    | none =>
      -- there is nothing inside a struct without a definition
      refine ⟨b, fun c hbc => ?_⟩
      obtain ⟨inner, hdefined, -⟩ := hbc
      rw [hinner] at hdefined
      cases hdefined

theorem not_transGen_of_acc (h : Acc (fun b a => l.Embeds a b) a) :
    ¬ Relation.TransGen l.Embeds a a := by
  induction h with
  | intro a _ ih =>
    intro hcycle
    obtain ⟨b, hab, hba⟩ := Relation.TransGen.head'_iff.1 hcycle
    exact ih b hab (.tail' hba hab)

/-- A type is bounded if going on from its struct to the structs inside comes to an end. -/
theorem bounded_iff_acc :
    l.Bounded t ↔ ∀ a, t.core? = some a → Acc (fun b a => l.Embeds a b) a := by
  constructor
  · exact fun h a ha => acc_of_bounded fun c hc => h c (ha.trans hc)
  · intro h a ha b hab
    refine not_transGen_of_acc ?_
    induction hab with
    | refl => exact h a ha
    | tail _ hbc ih => exact ih.inv hbc

/-- A struct is bounded if its fields are. -/
theorem bounded_struct (h : ∀ t ∈ (l.fields? a).getD [], l.Bounded t) :
    l.Bounded (.struct a) := by
  rw [bounded_iff_acc]
  rintro _ ⟨⟩
  refine ⟨a, fun b hab => ?_⟩
  obtain ⟨fields, ha, t, ht, hb⟩ := hab
  rw [ha, Option.getD_some] at h
  exact bounded_iff_acc.1 (h t ht) b hb

/-! ## Extents that exist -/

/-- The extent of a type depends on the struct that it is made of. -/
theorem extentWith_congr {p : Nat} {s s' : String → Except Fault Extent}
    (h : ∀ b, t.core? = some b → s b = s' b) : extentWith p s t = extentWith p s' t := by
  induction t with
  | struct name => exact h name rfl
  | array t n ih => rw [extentWith, extentWith, ih h]
  | _ => rfl

/-- A type has an extent if the struct that it is made of has one. -/
theorem exists_extentWith_iff {p : Nat} {s : String → Except Fault Extent} :
    (∃ e, extentWith p s t = .ok e) ↔ ∀ b, t.core? = some b → ∃ e, s b = .ok e := by
  induction t with
  | struct name => simp [extentWith, Ty.core?]
  | array t n ih => simpa [extentWith, Ty.core?, map_eq_ok_iff] using ih
  | _ => simp [extentWith, Ty.core?]

theorem extentWith_eq_error {p : Nat} {s : String → Except Fault Extent} {f : Fault}
    (h : extentWith p s t = .error f) : ∃ b, s b = .error f := by
  induction t with
  | struct name => exact ⟨name, h⟩
  | array t n ih => exact ih (map_eq_error_iff.1 h)
  | _ => cases h

theorem structExtent_eq_error {d : Nat} {f : Fault} (h : l.structExtent d a = .error f) :
    f = .endless := by
  induction d generalizing a with
  | zero => exact (Except.error.inj h).symm
  | succ d ih =>
    obtain ⟨t, -, ht⟩ := exists_of_mapM_eq_error (map_eq_error_iff.1 h)
    obtain ⟨b, hb⟩ := extentWith_eq_error ht
    exact ih hb

/-- A struct that has an extent one level up has one for each of its fields. -/
theorem exists_structExtent_succ_iff {d : Nat} :
    (∃ e, l.structExtent (d + 1) a = .ok e) ↔
      ∀ t ∈ (l.fields? a).getD [], ∀ b, t.core? = some b → ∃ e, l.structExtent d b = .ok e := by
  simp only [← exists_extentWith_iff (p := l.pointerSize), ← exists_mapM_iff, structExtent,
    map_eq_ok_iff]
  constructor
  · rintro ⟨_, es, hes, -⟩
    exact ⟨es, hes⟩
  · rintro ⟨es, hes⟩
    exact ⟨_, es, hes, rfl⟩

/-- Unfolding a struct deeper does not change its extent. -/
theorem structExtent_succ {d : Nat} {e : Extent} (h : l.structExtent d a = .ok e) :
    l.structExtent (d + 1) a = .ok e := by
  induction d generalizing a e with
  | zero => cases h
  | succ d ih =>
    have hfields := exists_structExtent_succ_iff.1 ⟨e, h⟩
    rw [← h, structExtent, structExtent]
    apply congrArg
    apply mapM_eq_mapM
    intro t ht
    apply extentWith_congr
    intro b hb
    obtain ⟨e, he⟩ := hfields t ht b hb
    rw [he, ih he]

theorem bounded_of_structExtent {d : Nat} {e : Extent} (h : l.structExtent d a = .ok e) :
    l.Bounded (.struct a) := by
  induction d generalizing a e with
  | zero => cases h
  | succ d ih =>
    refine bounded_struct fun t ht b hb => ?_
    obtain ⟨e, he⟩ := exists_structExtent_succ_iff.1 ⟨e, h⟩ t ht b hb
    exact ih he b rfl

/-- A struct that does not contain itself has an extent, if it is unfolded one level deeper than it
has structs inside: what is innermost may be without a definition. -/
theorem exists_structExtent {d : Nat} (h : l.Bounded (.struct a)) (hpos : 0 < d)
    (hd : ∀ fields, l.fields? a = some fields → l.height a + 1 < d) :
    ∃ e, l.structExtent d a = .ok e := by
  induction d generalizing a with
  | zero => exact absurd hpos (Nat.lt_irrefl 0)
  | succ d ih =>
    rw [exists_structExtent_succ_iff]
    intro t ht b hb
    cases ha : l.fields? a with
    | none => simp [ha] at ht
    | some fields =>
      rw [ha, Option.getD_some] at ht
      have hlt := hd fields ha
      refine ih (fun c hc => h.field ha ht c (hb.trans hc)) (by omega) fun inner hinner => ?_
      have := height_lt h ⟨fields, ha, t, ht, hb⟩ hinner
      omega

/-- Exactly the types without a struct that contains itself have an extent. -/
theorem exists_extent_iff : (∃ e, l.extent t = .ok e) ↔ l.Bounded t := by
  rw [extent, exists_extentWith_iff]
  constructor
  · intro h a ha
    obtain ⟨e, he⟩ := h a ha
    exact bounded_of_structExtent he a rfl
  · intro h a ha
    have hbounded : l.Bounded (.struct a) := fun c hc => h c (ha.trans hc)
    refine exists_structExtent hbounded (Nat.succ_pos _) fun fields hfields => ?_
    have := height_lt_length hbounded hfields
    omega

theorem extent_eq_error {f : Fault} (h : l.extent t = .error f) :
    f = .endless ∧ ¬ l.Bounded t := by
  obtain ⟨b, hb⟩ := extentWith_eq_error h
  refine ⟨structExtent_eq_error hb, fun hbounded => ?_⟩
  obtain ⟨e, he⟩ := exists_extent_iff.2 hbounded
  rw [h] at he
  cases he

theorem extent_eq_endless (h : ¬ l.Bounded t) : l.extent t = .error .endless := by
  cases he : l.extent t with
  | ok e => exact absurd (exists_extent_iff.1 ⟨e, he⟩) h
  | error f => rw [(extent_eq_error he).1]

/-- The extent of a struct is made of the extents of its fields. -/
theorem extent_struct (l : Layout) (a : String) :
    l.extent (.struct a) = Extent.ofFields <$> ((l.fields? a).getD []).mapM l.extent := by
  by_cases h : l.Bounded (.struct a)
  · obtain ⟨e, he⟩ := exists_extent_iff.2 h
    have hfields := exists_structExtent_succ_iff.1 ⟨e, he⟩
    show l.structExtent (l.structs.length + 1) a = _
    rw [structExtent]
    apply congrArg
    apply mapM_eq_mapM
    intro t ht
    apply extentWith_congr
    intro b hb
    obtain ⟨e, he⟩ := hfields t ht b hb
    rw [he, structExtent_succ he]
  · rw [extent_eq_endless h]
    -- one of the fields is not bounded either
    cases hfields : ((l.fields? a).getD []).mapM l.extent with
    | ok es =>
      have hall := exists_mapM_iff.1 ⟨es, hfields⟩
      exact absurd (bounded_struct fun t ht => exists_extent_iff.1 (hall t ht)) h
    | error f =>
      obtain ⟨t, -, ht⟩ := exists_of_mapM_eq_error hfields
      rw [(extent_eq_error ht).1]
      rfl

/-! ## Sizes and alignments -/

theorem sizeOf_eq {e : Extent} (h : l.extent t = .ok e) : l.sizeOf t = .ok e.size := by
  rw [sizeOf, h, map_ok]

theorem alignOf_eq {e : Extent} (h : l.extent t = .ok e) : l.alignOf t = .ok e.align := by
  rw [alignOf, h, map_ok]

theorem exists_of_sizeOf {size : Nat} (h : l.sizeOf t = .ok size) :
    ∃ e, l.extent t = .ok e ∧ e.size = size := map_eq_ok_iff.1 h

theorem exists_of_alignOf {align : Nat} (h : l.alignOf t = .ok align) :
    ∃ e, l.extent t = .ok e ∧ e.align = align := map_eq_ok_iff.1 h

theorem tiles_extent {e : Extent} (h : l.extent t = .ok e) : e.Tiles := by
  cases t with
  | struct name =>
    rw [extent_struct] at h
    obtain ⟨es, -, rfl⟩ := map_eq_ok_iff.1 h
    exact Extent.tiles_padded _ _
  | array t n =>
    obtain ⟨inner, -, rfl⟩ := map_eq_ok_iff.1 h
    exact Extent.tiles_padded _ _
  | void =>
    cases h
    exact fun _ => Nat.dvd_zero 1
  | float | double =>
    cases h
    exact fun _ => Nat.dvd_refl _
  | int bits | pointer t space =>
    cases h
    exact Extent.tiles_padded _ _

theorem binary_extentWith {s : String → Except Fault Extent} {p : Nat} {e : Extent}
    (hp : p.isPowerOfTwo) (hs : ∀ a e, s a = .ok e → e.Binary) (h : extentWith p s t = .ok e) :
    e.Binary := by
  induction t generalizing e with
  | void =>
    cases h
    exact ⟨0, rfl⟩
  | int bits =>
    cases h
    exact Extent.isPowerOfTwo_integerAlign _
  | float =>
    cases h
    exact ⟨2, rfl⟩
  | double =>
    cases h
    exact ⟨3, rfl⟩
  | pointer t space =>
    cases h
    exact hp
  | struct name => exact hs name e h
  | array t n ih =>
    obtain ⟨inner, hinner, rfl⟩ := map_eq_ok_iff.1 h
    exact show inner.Binary from ih hinner

theorem binary_structExtent (hp : l.pointerSize.isPowerOfTwo) {d : Nat} {e : Extent}
    (h : l.structExtent d a = .ok e) : e.Binary := by
  induction d generalizing a e with
  | zero => cases h
  | succ d ih =>
    obtain ⟨es, hes, rfl⟩ := map_eq_ok_iff.1 h
    refine Extent.binary_ofFields fun f hf => ?_
    obtain ⟨t, -, ht⟩ := exists_mem_of_forall₂ (forall₂_of_mapM hes) hf
    exact binary_extentWith hp (fun _ _ => ih) ht

theorem binary_extent (hp : l.pointerSize.isPowerOfTwo) {e : Extent} (h : l.extent t = .ok e) :
    e.Binary :=
  binary_extentWith hp (fun _ _ => binary_structExtent hp) h

/-! ## Offsets -/

theorem fieldOffset?_eq_error {f : Fault} (h : l.fieldOffset? a i = .error f) :
    f = .endless ∧ ¬ l.Bounded (.struct a) := by
  rw [fieldOffset?] at h
  cases ha : l.fields? a with
  | none => simp [ha] at h
  | some fields =>
    cases ht : fields[i]? with
    | none => simp [ha, ht] at h
    | some t =>
      simp only [ha, ht, Option.bind_some, Option.map_some, alignOf] at h
      -- one of the fields up to this one has no extent
      have hfield : ∃ u ∈ fields, l.extent u = .error f := by
        rcases bind_eq_error_iff.1 h with h | ⟨es, -, h⟩
        · obtain ⟨u, hu, he⟩ := exists_of_mapM_eq_error h
          exact ⟨u, List.mem_of_mem_take hu, he⟩
        · rcases bind_eq_error_iff.1 h with h | ⟨align, -, h⟩
          · exact ⟨t, List.mem_of_getElem? ht, map_eq_error_iff.1 h⟩
          · exact absurd h pure_ne_error
      obtain ⟨u, hu, he⟩ := hfield
      exact ⟨(extent_eq_error he).1, fun hbounded => (extent_eq_error he).2 (hbounded.field ha hu)⟩

/-- A field has an offset exactly if it is there. -/
theorem isSome_of_fieldOffset? {o : Option Nat} (h : l.fieldOffset? a i = .ok o) :
    o.isSome ↔ ((l.fields? a).bind (·[i]?)).isSome := by
  rw [fieldOffset?] at h
  cases ha : l.fields? a with
  | none =>
    rw [ha] at h
    cases h
    simp
  | some fields =>
    cases ht : fields[i]? with
    | none =>
      simp only [ha, ht, Option.bind_some, Option.map_none] at h
      cases h
      simp [ht]
    | some t =>
      simp only [ha, ht, Option.bind_some, Option.map_some] at h
      obtain ⟨es, -, h⟩ := bind_eq_ok_iff.1 h
      obtain ⟨align, -, h⟩ := bind_eq_ok_iff.1 h
      obtain rfl := pure_eq_ok_iff.1 h
      simp [ht]

section Fields

variable {es : List Extent} {e : Extent} {off : Nat}

theorem mapM_take (h : fields.mapM l.extent = .ok es) (i : Nat) :
    (fields.take i).mapM l.extent = .ok (es.take i) := by
  induction fields generalizing es i with
  | nil =>
    obtain rfl := pure_eq_ok_iff.1 h
    simp
    rfl
  | cons t fields ih =>
    rw [List.mapM_cons] at h
    obtain ⟨e, he, h⟩ := bind_eq_ok_iff.1 h
    obtain ⟨rest, hrest, h⟩ := bind_eq_ok_iff.1 h
    obtain rfl := pure_eq_ok_iff.1 h
    cases i with
    | zero => rfl
    | succ i =>
      rw [List.take_succ_cons, List.take_succ_cons, List.mapM_cons, he, ok_bind, ih hrest i]
      rfl

/-- Where the fields before the one at place `i` end. -/
def endBefore (es : List Extent) (i : Nat) : Nat := Extent.fieldsEnd 0 (es.take i)

theorem fieldOffset?_eq (ha : l.fields? a = some fields) (hes : fields.mapM l.extent = .ok es)
    (ht : fields[i]? = some t) (he : l.extent t = .ok e) :
    l.fieldOffset? a i = .ok (some (alignTo (endBefore es i) e.align)) := by
  simp only [fieldOffset?, ha, ht, Option.bind_some, Option.map_some, mapM_take hes i, ok_bind,
    alignOf_eq he]
  rfl

/-- An offset belongs to a field. -/
theorem exists_of_fieldOffset? (ha : l.fields? a = some fields)
    (hes : fields.mapM l.extent = .ok es) (hoff : l.fieldOffset? a i = .ok (some off)) :
    ∃ t e, fields[i]? = some t ∧ l.extent t = .ok e ∧ off = alignTo (endBefore es i) e.align := by
  have hi := (isSome_of_fieldOffset? hoff).1 rfl
  rw [ha, Option.bind_some, Option.isSome_iff_exists] at hi
  obtain ⟨t, ht⟩ := hi
  obtain ⟨e, he⟩ := exists_mapM_iff.1 ⟨es, hes⟩ t (List.mem_of_getElem? ht)
  rw [fieldOffset?_eq ha hes ht he, Except.ok.injEq, Option.some.injEq] at hoff
  exact ⟨t, e, ht, he, hoff.symm⟩

theorem getElem?_of_mapM (hes : fields.mapM l.extent = .ok es) (ht : fields[i]? = some t)
    (he : l.extent t = .ok e) : es[i]? = some e := by
  obtain ⟨e', hget, he'⟩ := exists_of_forall₂ (forall₂_of_mapM hes).flip ht
  rw [hget, Except.ok.inj (he'.symm.trans he)]

/-- The fields up to one end where that one ends. -/
theorem endBefore_succ (he : es[i]? = some e) :
    endBefore es (i + 1) = alignTo (endBefore es i) e.align + e.size := by
  rw [endBefore, List.take_add_one, he, Option.toList_some, Extent.fieldsEnd_append]
  rfl

theorem endBefore_length (es : List Extent) :
    endBefore es es.length = Extent.fieldsEnd 0 es := by
  rw [endBefore, List.take_length]

/-- The fields of a struct that has an extent. -/
theorem exists_fields {whole : Extent} (ha : l.fields? a = some fields)
    (h : l.extent (.struct a) = .ok whole) :
    ∃ es, fields.mapM l.extent = .ok es ∧ whole = Extent.ofFields es := by
  rw [extent_struct, ha, Option.getD_some] at h
  obtain ⟨es, hes, rfl⟩ := map_eq_ok_iff.1 h
  exact ⟨es, hes, rfl⟩

/-- A struct ends after its fields, less than one alignment later. -/
theorem size_ofFields_bounds (es : List Extent) :
    endBefore es es.length ≤ (Extent.ofFields es).size ∧
    (2 ≤ (Extent.ofFields es).align →
      (Extent.ofFields es).size < endBefore es es.length + (Extent.ofFields es).align) ∧
    ((Extent.ofFields es).align < 2 → (Extent.ofFields es).size = endBefore es es.length) := by
  rw [endBefore_length]
  refine ⟨le_alignTo _ _, fun htwo => alignTo_lt htwo, fun hone => ?_⟩
  exact alignTo_of_le_one (Nat.le_of_lt_succ hone)

end Fields

/-! ## Structs as a whole -/

/-- The fields of a struct have offsets, follow one another from zero on, and end where the
padding of the struct begins. -/
structure Arranges (l : Layout) (name : String) (fields : List Ty) : Prop where
  isSome_iff : ∀ i, ∃ o, l.fieldOffset? name i = .ok o ∧ (o.isSome ↔ i < fields.length)
  first : l.fieldOffset? name 0 = .ok (some 0)
  apart : ∀ i t size off next, fields[i]? = some t → l.sizeOf t = .ok size →
    l.fieldOffset? name i = .ok (some off) → l.fieldOffset? name (i + 1) = .ok (some next) →
    off + size ≤ next
  last : ∀ t size off whole align, fields[fields.length - 1]? = some t → l.sizeOf t = .ok size →
    l.fieldOffset? name (fields.length - 1) = .ok (some off) →
    l.sizeOf (.struct name) = .ok whole → l.alignOf (.struct name) = .ok align →
      off + size ≤ whole ∧ (2 ≤ align → whole < off + size + align) ∧
      (align < 2 → whole = off + size)

theorem arranges_of_bounded (h : l.Bounded (.struct a)) (ha : l.fields? a = some fields)
    (hne : fields ≠ []) : l.Arranges a fields := by
  obtain ⟨whole, hwhole⟩ := exists_extent_iff.2 h
  obtain ⟨es, hes, rfl⟩ := exists_fields ha hwhole
  have hpos : 0 < fields.length := List.length_pos_iff.2 hne
  have hlength : fields.length = es.length := (mapM_eq_ok hes).1
  constructor
  case isSome_iff =>
    intro i
    cases ho : l.fieldOffset? a i with
    | error f => exact absurd h (fieldOffset?_eq_error ho).2
    | ok o =>
      refine ⟨o, rfl, (isSome_of_fieldOffset? ho).trans ?_⟩
      rw [ha, Option.bind_some, Option.isSome_iff_ne_none, ne_eq, List.getElem?_eq_none_iff,
        Nat.not_le]
  case first =>
    have ht := List.getElem?_eq_getElem hpos
    obtain ⟨e, he⟩ := exists_mapM_iff.1 ⟨es, hes⟩ _ (List.mem_of_getElem? ht)
    rw [fieldOffset?_eq ha hes ht he]
    exact congrArg (fun n => Except.ok (some n)) (alignTo_zero _)
  case apart =>
    intro i t size off next ht hsize hoff hnext
    obtain ⟨e, he, rfl⟩ := exists_of_sizeOf hsize
    rw [fieldOffset?_eq ha hes ht he, Except.ok.injEq, Option.some.injEq] at hoff
    obtain ⟨u, e', -, -, rfl⟩ := exists_of_fieldOffset? ha hes hnext
    rw [← hoff, ← endBefore_succ (getElem?_of_mapM hes ht he)]
    exact le_alignTo _ _
  case last =>
    intro t size off whole align ht hsize hoff hwhole' halign
    obtain ⟨e, he, rfl⟩ := exists_of_sizeOf hsize
    rw [sizeOf_eq hwhole, Except.ok.injEq] at hwhole'
    rw [alignOf_eq hwhole, Except.ok.injEq] at halign
    rw [fieldOffset?_eq ha hes ht he, Except.ok.injEq, Option.some.injEq] at hoff
    rw [← hoff, ← endBefore_succ (getElem?_of_mapM hes ht he), Nat.sub_add_cancel hpos, hlength,
      ← hwhole', ← halign]
    exact size_ofFields_bounds es

/-- Where alignments are powers of two, a field stands at a multiple of its alignment, and so
does every struct that has it. -/
theorem aligned_of_bounded {off align outer : Nat} (ha : l.fields? a = some fields)
    (hp : l.pointerSize.isPowerOfTwo) (ht : fields[i]? = some t)
    (hoff : l.fieldOffset? a i = .ok (some off)) (halign : l.alignOf t = .ok align)
    (houter : l.alignOf (.struct a) = .ok outer) : align ∣ off ∧ align ∣ outer := by
  obtain ⟨e, he, rfl⟩ := exists_of_alignOf halign
  obtain ⟨whole, hwhole, rfl⟩ := exists_of_alignOf houter
  obtain ⟨es, hes, rfl⟩ := exists_fields ha hwhole
  have hne : e.align ≠ 0 := (Nat.pos_of_isPowerOfTwo (binary_extent hp he)).ne'
  rw [fieldOffset?_eq ha hes ht he, Except.ok.injEq, Option.some.injEq] at hoff
  refine ⟨hoff ▸ dvd_alignTo hne, Extent.align_dvd_ofFields (fun f hf => ?_) ?_⟩
  · obtain ⟨u, -, hu⟩ := exists_mem_of_forall₂ (forall₂_of_mapM hes) hf
    exact binary_extent hp hu
  · exact List.mem_of_getElem? (getElem?_of_mapM hes ht he)

/-- The two computations of a layout agree: types have sizes and alignments, offsets of fields and
sizes of structs fit together, sizes are multiples of alignments, and with pointers whose size is a
power of two all that is placed is aligned. -/
theorem struct_layout_sound (hl : l.NonRecursive) (ha : l.fields? a = some fields)
    (hne : fields ≠ []) :
    (∀ t, ∃ size align, l.sizeOf t = .ok size ∧ l.alignOf t = .ok align ∧
      (align ≠ 0 → align ∣ size) ∧ (l.pointerSize.isPowerOfTwo → align.isPowerOfTwo)) ∧
    l.Arranges a fields ∧
    (l.pointerSize.isPowerOfTwo → ∀ i t off align outer, fields[i]? = some t →
      l.fieldOffset? a i = .ok (some off) → l.alignOf t = .ok align →
      l.alignOf (.struct a) = .ok outer → align ∣ off ∧ align ∣ outer) := by
  refine ⟨fun t => ?_, arranges_of_bounded (hl.bounded _) ha hne, fun hp => ?_⟩
  · obtain ⟨e, he⟩ := exists_extent_iff.2 (hl.bounded t)
    exact ⟨e.size, e.align, sizeOf_eq he, alignOf_eq he, tiles_extent he,
      fun hp => binary_extent hp he⟩
  · intro i t off align outer ht hoff halign houter
    exact aligned_of_bounded ha hp ht hoff halign houter

/-- Fields with padding between them: a byte, an array of another struct, an integer of three
bytes, and a pointer back to the struct itself, which does not make it contain itself. -/
def nestedFields : List Ty :=
  [.int 8, .array (.struct "mixed") 3, .int 24, .pointer (.struct "outer") 0]

def nestedStructs : Layout where
  structs := [("outer", nestedFields), ("mixed", [.int 8, .int 64, .int 32])]

theorem embeds_nestedStructs (h : nestedStructs.Embeds a b) : a = "outer" ∧ b = "mixed" := by
  obtain ⟨fields, hfields, t, ht, hb⟩ := h
  obtain ⟨before, after, hcut, -⟩ := List.lookup_eq_some_iff.1 hfields
  have hmem : (a, fields) ∈ nestedStructs.structs := hcut ▸ by simp
  rcases List.mem_pair.1 hmem with heq | heq <;> obtain ⟨rfl, rfl⟩ := Prod.mk.inj heq
  · simp only [nestedFields, List.mem_cons, List.not_mem_nil, or_false] at ht
    rcases ht with rfl | rfl | rfl | rfl <;> simp_all [Ty.core?]
  · simp only [List.mem_cons, List.not_mem_nil, or_false] at ht
    rcases ht with rfl | rfl | rfl <;> simp [Ty.core?] at hb

theorem nonRecursive_nestedStructs : nestedStructs.NonRecursive := by
  intro a h
  -- a cycle leaves `a` and comes back to it, and no struct does both
  obtain ⟨b, hab, -⟩ := Relation.TransGen.head'_iff.1 h
  obtain ⟨c, -, hca⟩ := Relation.TransGen.tail'_iff.1 h
  have houter := (embeds_nestedStructs hab).1
  have hmixed := (embeds_nestedStructs hca).2
  exact absurd (houter.symm.trans hmixed) (by decide)

theorem struct_layout_sound_nested :
    nestedStructs.NonRecursive ∧ nestedStructs.fields? "outer" = some nestedFields ∧
    nestedFields ≠ [] ∧ nestedStructs.pointerSize.isPowerOfTwo ∧
    nestedStructs.Arranges "outer" nestedFields ∧
    (∀ t, ∃ align, nestedStructs.alignOf t = .ok align ∧ align.isPowerOfTwo) ∧
    ["mixed", "outer"].mapM (fun name => nestedStructs.sizeOf (.struct name)) = .ok [24, 96] ∧
    (List.range 5).mapM (nestedStructs.fieldOffset? "outer") =
      .ok [some 0, some 8, some 80, some 88, none] := by
  obtain ⟨hsizes, harranges, -⟩ := struct_layout_sound nonRecursive_nestedStructs
    (show nestedStructs.fields? "outer" = some nestedFields from rfl) (List.cons_ne_nil _ _)
  have hp : nestedStructs.pointerSize.isPowerOfTwo := ⟨3, rfl⟩
  refine ⟨nonRecursive_nestedStructs, rfl, List.cons_ne_nil _ _, hp, harranges, fun t => ?_,
    by decide, by decide⟩
  obtain ⟨size, align, -, halign, -, hpower⟩ := hsizes t
  exact ⟨align, halign, hpower hp⟩

end Layout

end GridAccess
