import GridAccess.Proofs.AccessAxes
import GridAccess.Proofs.Arguments
import GridAccess.Proofs.SideBySide

set_option autoImplicit false

/-!
# Records of arrays

The accesses of a function make up one record for each array, or none at all. There are records
exactly if all accesses to an array agree on the number of dimensions and a parameter stands for
each array. What a record says is then fixed by the accesses to its array, whatever their order
(`AccessSummary.Faithful`, `AccessSummary.Faithful.facts_eq`): the axes of a dimension are the least
set that contains those of each access. Otherwise the error is about the least of the arrays that no
record can be made of (`AccessSummary.FailsWith`). This is `AccessSummary.aggregate_exact`.
-/

namespace GridAccess

/-! ## The first step that fails -/

section Steps

variable {α β ε : Type} {f : α → Except ε β} {xs : List α}

/-- Steps for the members of a list end at the first that fails. -/
theorem split_of_mapM_eq_error {e : ε} (h : xs.mapM f = .error e) :
    ∃ before x after, xs = before ++ x :: after ∧ (∀ z ∈ before, ∃ y, f z = .ok y) ∧
      f x = .error e := by
  induction xs with
  | nil => exact absurd h pure_ne_error
  | cons x xs ih =>
    rw [List.mapM_cons, bind_eq_error_iff] at h
    rcases h with h | ⟨y, hy, h⟩
    · exact ⟨[], x, xs, rfl, by simp, h⟩
    · rcases bind_eq_error_iff.1 h with h | ⟨zs, -, h⟩
      · obtain ⟨before, z, after, rfl, hbefore, hz⟩ := ih h
        refine ⟨x :: before, z, after, rfl, ?_, hz⟩
        intro w hw
        rcases List.mem_cons.1 hw with rfl | hw
        · exact ⟨y, hy⟩
        · exact hbefore w hw
      · exact absurd h pure_ne_error

end Steps

/-! ## Sets of axes -/

namespace AxisSet

variable {s t : AxisSet}

theorem ext_contains (h : ∀ a, s.contains a = t.contains a) : s = t := by
  obtain ⟨x, y, z⟩ := s
  obtain ⟨x', y', z'⟩ := t
  exact congr (congr (congrArg AxisSet.mk (h .x)) (h .y)) (h .z)

theorem eq_of_subset (hst : s.subset t = true) (hts : t.subset s = true) : s = t := by
  rw [subset_iff] at hst hts
  exact ext_contains fun a => Bool.eq_iff_iff.2 ⟨hst a, hts a⟩

end AxisSet

/-! ## What records say -/

/-- What is reported of an array: its argument, its dimensions, how it is used, and for each
dimension the axes that its indices depend on. -/
structure ArrayFacts where
  arg : Nat
  dims : Nat
  isRead : Bool
  isWritten : Bool
  axes : List AxisSet
deriving DecidableEq, Repr

/-- The facts that a record reports. -/
def ArrayRecord.facts (r : ArrayRecord) : ArrayFacts where
  arg := r.arg
  dims := r.dims
  isRead := r.isRead
  isWritten := r.isWritten
  axes := r.axes

namespace AccessSummary

variable {p : Provenance} {found found' : List Access} {h : Handle} {r r' : ArrayRecord}

/-- The summary of a function to which accesses have been added one after another. -/
def ofAccesses (name : String) (found : List Access) : AccessSummary :=
  found.foldl add { name }

/-- The accesses to one array, in order. -/
def accessesTo (found : List Access) (h : Handle) : List Access :=
  found.filter fun a => a.handle = h

/-- The accesses to the array agree on the number of dimensions. -/
def Uniform (found : List Access) (h : Handle) : Prop :=
  ∀ a ∈ found, ∀ b ∈ found, a.handle = h → b.handle = h → a.dims.length = b.dims.length

/-- The array is accessed, but no record can be made of it. -/
def Fails (p : Provenance) (found : List Access) (h : Handle) : Prop :=
  (∃ a ∈ found, a.handle = h) ∧ ¬ (Uniform found h ∧ (p.paramOf? h).isSome = true)

/-- The error about an array: its first access and the first one after it with another number of
dimensions, or else that no parameter stands for the array. -/
inductive FailsWith (p : Provenance) (found : List Access) (h : Handle) : AnalysisError → Prop
  | inconsistent {first other : Access} {before after : List Access}
      (hgroup : accessesTo found h = first :: before ++ other :: after)
      (hbefore : ∀ a ∈ before, a.dims.length = first.dims.length)
      (hother : other.dims.length ≠ first.dims.length) :
      FailsWith p found h (.inconsistentDimensions first.array first.site first.dims.length
        other.site other.dims.length)
  | unmapped {first : Access} {rest : List Access} (hgroup : accessesTo found h = first :: rest)
      (hrest : ∀ a ∈ rest, a.dims.length = first.dims.length) (hparam : p.paramOf? h = none) :
      FailsWith p found h (.unmappedArray first.array)

/-- The set contains the axes that each access to the array depends on in a dimension. -/
def Bounds (found : List Access) (h : Handle) (d : Nat) (s : AxisSet) : Prop :=
  ∀ a ∈ found, a.handle = h → ∀ dim, a.dims[d]? = some dim → dim.axes.subset s = true

/-- The record of an array says what its accesses and the provenance say. -/
structure Faithful (p : Provenance) (found : List Access) (r : ArrayRecord) : Prop where
  accessed : ∃ a ∈ found, a.handle = r.handle
  array : (accessesTo found r.handle).head?.map (·.array) = some r.array
  arg : p.paramOf? r.handle = some r.arg
  dims : ∀ a ∈ found, a.handle = r.handle → a.dims.length = r.dims
  length_axes : r.axes.length = r.dims
  bounds : ∀ d s, r.axes[d]? = some s → Bounds found r.handle d s
  least : ∀ d s t, r.axes[d]? = some s → Bounds found r.handle d t → s.subset t = true
  isRead : r.isRead = true ↔ r.handle ∈ p.reads
  isWritten : r.isWritten = true ↔ r.handle ∈ p.writes

theorem mem_accessesTo_iff {a : Access} : a ∈ accessesTo found h ↔ a ∈ found ∧ a.handle = h := by
  simp [accessesTo]

/-- The axes of all accesses together are the least set that contains those of each. -/
theorem axesAt_subset_iff (found : List Access) (h : Handle) (d : Nat) (t : AxisSet) :
    (axesAt (accessesTo found h) d).subset t = true ↔ Bounds found h d t := by
  rw [AxisSet.subset_iff]
  simp only [contains_axesAt_iff, mem_accessesTo_iff, Bounds, AxisSet.subset_iff]
  constructor
  · intro hall a ha hh dim hdim axis haxis
    exact hall axis ⟨a, ⟨ha, hh⟩, dim, hdim, haxis⟩
  · rintro hall axis ⟨a, ⟨ha, hh⟩, dim, hdim, haxis⟩
    exact hall a ha hh dim hdim axis haxis

namespace Faithful

/-- What a record says does not depend on the order of the accesses. -/
theorem facts_eq (hr : Faithful p found r) (hr' : Faithful p found' r')
    (hmem : ∀ a, a ∈ found ↔ a ∈ found') (hh : r.handle = r'.handle) : r.facts = r'.facts := by
  have hbounds : ∀ d s, Bounds found r.handle d s ↔ Bounds found' r'.handle d s := by
    intro d s
    simp only [Bounds, hmem, hh]
  have harg : r.arg = r'.arg := by
    have hparam := hr.arg
    rw [hh, hr'.arg] at hparam
    exact (Option.some.inj hparam).symm
  have hdims : r.dims = r'.dims := by
    obtain ⟨a, ha, hah⟩ := hr.accessed
    rw [← hr.dims a ha hah, ← hr'.dims a ((hmem a).1 ha) (hah.trans hh)]
  have haxes : r.axes = r'.axes := by
    apply List.ext_getElem
    · rw [hr.length_axes, hr'.length_axes, hdims]
    · intro d hd hd'
      have hget := List.getElem?_eq_getElem hd
      have hget' := List.getElem?_eq_getElem hd'
      -- each is the least set with the property that both have
      exact AxisSet.eq_of_subset (hr.least d _ _ hget ((hbounds d _).2 (hr'.bounds d _ hget')))
        (hr'.least d _ _ hget' ((hbounds d _).1 (hr.bounds d _ hget)))
  have hread : r.isRead = r'.isRead := by
    rw [Bool.eq_iff_iff, hr.isRead, hr'.isRead, hh]
  have hwritten : r.isWritten = r'.isWritten := by
    rw [Bool.eq_iff_iff, hr.isWritten, hr'.isWritten, hh]
  rw [ArrayRecord.facts, ArrayRecord.facts, harg, hdims, haxes, hread, hwritten]

end Faithful

/-! ## The record of one array -/

theorem array_of_record {group : List Access} (hr : record p h group = .ok r) :
    group.head?.map (·.array) = some r.array := by
  cases group with
  | nil => cases hr
  | cons first rest =>
    rw [record] at hr
    split at hr
    · cases hr
    · split at hr
      · cases hr
      · obtain rfl := Except.ok.inj hr
        rfl

/-- The record that is made of the accesses to an array is faithful. -/
theorem faithful_of_record (hr : record p r.handle (accessesTo found r.handle) = .ok r) :
    Faithful p found r := by
  have hsums := (record_eq_ok hr).2
  have haxis : ∀ d s, r.axes[d]? = some s → s = axesAt (accessesTo found r.handle) d := by
    intro d s hs
    rw [hsums.axes, List.getElem?_map, Option.map_eq_some_iff] at hs
    obtain ⟨d', hd', rfl⟩ := hs
    obtain ⟨hlt, rfl⟩ := List.getElem?_eq_some_iff.1 hd'
    rw [List.getElem_range]
  refine ⟨?_, array_of_record hr, hsums.arg, ?_, ?_, ?_, ?_, ?_, ?_⟩
  · obtain ⟨a, ha⟩ := List.exists_mem_of_ne_nil _ hsums.nonempty
    exact ⟨a, mem_accessesTo_iff.1 ha⟩
  · intro a ha hh
    exact hsums.dims a (mem_accessesTo_iff.2 ⟨ha, hh⟩)
  · rw [hsums.axes, List.length_map, List.length_range]
  · intro d s hs
    rw [← axesAt_subset_iff, ← haxis d s hs, AxisSet.subset_iff]
    exact fun _ ha => ha
  · intro d s t hs ht
    rw [haxis d s hs]
    exact (axesAt_subset_iff found r.handle d t).2 ht
  · rw [hsums.isRead, List.contains_iff_mem]
  · rw [hsums.isWritten, List.contains_iff_mem]

theorem Faithful.not_fails (hr : Faithful p found r) : ¬ Fails p found r.handle := by
  rintro ⟨-, hnot⟩
  refine hnot ⟨?_, ?_⟩
  · intro a ha b hb hah hbh
    rw [hr.dims a ha hah, hr.dims b hb hbh]
  · rw [hr.arg]
    rfl

/-- The error that there is instead of a record. -/
theorem failsWith_of_record {e : AnalysisError} (ha : ∃ a ∈ found, a.handle = h)
    (he : record p h (accessesTo found h) = .error e) : FailsWith p found h e := by
  obtain ⟨a, ha, hh⟩ := ha
  have hmem : a ∈ accessesTo found h := mem_accessesTo_iff.2 ⟨ha, hh⟩
  cases hgroup : accessesTo found h with
  | nil =>
    rw [hgroup] at hmem
    cases hmem
  | cons first rest =>
    rw [hgroup, record] at he
    cases hother : (first :: rest).find? fun a => a.dims.length ≠ first.dims.length with
    | some other =>
      rw [hother] at he
      obtain rfl := Except.error.inj he
      obtain ⟨hne, before, after, hsplit, hbefore⟩ := List.find?_eq_some_iff_append.1 hother
      cases before with
      | nil =>
        -- the first access does not differ from itself
        obtain ⟨rfl, rfl⟩ := List.cons.inj hsplit
        simp at hne
      | cons _ before =>
        obtain ⟨rfl, rfl⟩ := List.cons.inj hsplit
        refine .inconsistent hgroup ?_ (of_decide_eq_true hne)
        intro b hb
        simpa using hbefore b (List.mem_cons_of_mem _ hb)
    | none =>
      rw [hother] at he
      cases hparam : p.paramOf? h with
      | some arg =>
        rw [hparam] at he
        cases he
      | none =>
        rw [hparam] at he
        obtain rfl := Except.error.inj he
        refine .unmapped hgroup ?_ hparam
        intro b hb
        simpa using List.find?_eq_none.1 hother b (List.mem_cons_of_mem _ hb)

theorem FailsWith.fails {e : AnalysisError} (he : FailsWith p found h e) : Fails p found h := by
  have hmem : ∀ a ∈ accessesTo found h, a ∈ found ∧ a.handle = h := fun a => mem_accessesTo_iff.1
  cases he with
  | @inconsistent first other before after hgroup _ hother =>
    obtain ⟨hfirst, hfirsth⟩ := hmem first (by simp [hgroup])
    obtain ⟨hmem, hotherh⟩ := hmem other (by simp [hgroup])
    exact ⟨⟨first, hfirst, hfirsth⟩, fun hall => hother (hall.1 _ hmem _ hfirst hotherh hfirsth)⟩
  | @unmapped first rest hgroup _ hparam =>
    refine ⟨⟨first, hmem first (by simp [hgroup])⟩, fun hall => ?_⟩
    rw [hparam] at hall
    cases hall.2

/-! ## The records of all arrays -/

theorem groups_ofAccesses (name : String) (found : List Access) :
    (ofAccesses name found).Groups found :=
  (groups_empty name).foldl_add found

namespace Groups

variable {s s' : AccessSummary} {rs rs' : List ArrayRecord}

theorem faithful (hs : s.Groups found) (hrs : s.aggregate p = .ok rs) (hr : r ∈ rs) :
    Faithful p found r :=
  faithful_of_record ((hs.mem_arrays_iff hrs).1 hr)

theorem pairwise_handle (hs : s.Groups found) (hrs : s.aggregate p = .ok rs) :
    (rs.map (·.handle)).Pairwise (· < ·) := by
  rw [map_handle_eq hrs]
  exact List.pairwise_map.2 hs.increasing

/-- The arrays with a record are those with an access. -/
theorem mem_map_handle_iff (hs : s.Groups found) (hrs : s.aggregate p = .ok rs) :
    h ∈ rs.map (·.handle) ↔ ∃ a ∈ found, a.handle = h := by
  constructor
  · intro hmem
    obtain ⟨r, hr, rfl⟩ := List.mem_map.1 hmem
    exact (hs.faithful hrs hr).accessed
  · rintro ⟨a, ha, rfl⟩
    obtain ⟨r, hr, hh⟩ := hs.exists_record hrs ha
    exact List.mem_map.2 ⟨r, hr, hh⟩

theorem not_fails (hs : s.Groups found) (hrs : s.aggregate p = .ok rs) (h : Handle) :
    ¬ Fails p found h := by
  intro hfails
  obtain ⟨r, hr, rfl⟩ := List.mem_map.1 ((hs.mem_map_handle_iff hrs).2 hfails.1)
  exact (hs.faithful hrs hr).not_fails hfails

/-- The error is about the least array that no record can be made of. -/
theorem exists_failsWith (hs : s.Groups found) {e : AnalysisError}
    (he : s.aggregate p = .error e) :
    ∃ h, FailsWith p found h e ∧ ∀ h' < h, ¬ Fails p found h' := by
  obtain ⟨before, ⟨h, group⟩, after, hsplit, hbefore, hrecord⟩ := split_of_mapM_eq_error he
  have hincreasing := hs.increasing
  rw [hsplit, Sorted.Increasing, List.pairwise_append] at hincreasing
  obtain ⟨-, hafter, -⟩ := hincreasing
  have hmem_iff : ∀ h' group', (h', group') ∈ before ++ (h, group) :: after ↔
      group' = accessesTo found h' ∧ group' ≠ [] := hsplit ▸ hs.mem_iff
  obtain ⟨rfl, hne⟩ := (hmem_iff h group).1 (by simp)
  have haccessed : ∃ a ∈ found, a.handle = h := by
    obtain ⟨a, ha⟩ := List.exists_mem_of_ne_nil _ hne
    exact ⟨a, mem_accessesTo_iff.1 ha⟩
  refine ⟨h, failsWith_of_record haccessed hrecord, ?_⟩
  rintro h' hlt ⟨⟨a, ha, hah⟩, hnot⟩
  have hmem : a ∈ accessesTo found h' := mem_accessesTo_iff.2 ⟨ha, hah⟩
  have hgroup := (hmem_iff h' _).2 ⟨rfl, List.ne_nil_of_mem hmem⟩
  rcases List.mem_append.1 hgroup with hgroup | hgroup
  · -- the groups before the one that fails have records
    obtain ⟨r, hr⟩ := hbefore _ hgroup
    obtain ⟨rfl, -⟩ := record_eq_ok hr
    exact (faithful_of_record hr).not_fails ⟨⟨a, ha, hah⟩, hnot⟩
  · rcases List.mem_cons.1 hgroup with heq | hgroup
    · obtain rfl : h' = h := congrArg Prod.fst heq
      exact irrefl _ hlt
    · exact asymm hlt ((List.pairwise_cons.1 hafter).1 _ hgroup)

/-- There are records unless one of them cannot be made. -/
theorem exists_aggregate_iff (hs : s.Groups found) :
    (∃ rs, s.aggregate p = .ok rs) ↔ ∀ h, ¬ Fails p found h := by
  constructor
  · rintro ⟨rs, hrs⟩
    exact hs.not_fails hrs
  · intro hall
    cases hrs : s.aggregate p with
    | ok rs => exact ⟨rs, rfl⟩
    | error e =>
      obtain ⟨h, he, -⟩ := hs.exists_failsWith hrs
      exact absurd he.fails (hall h)

/-- The same accesses in another order give records that say the same. -/
theorem map_facts_eq (hs : s.Groups found) (hs' : s'.Groups found')
    (hmem : ∀ a, a ∈ found ↔ a ∈ found') (hrs : s.aggregate p = .ok rs)
    (hrs' : s'.aggregate p = .ok rs') :
    rs.map (fun r => (r.handle, r.facts)) = rs'.map (fun r => (r.handle, r.facts)) := by
  have hhandles : rs.map (·.handle) = rs'.map (·.handle) := by
    apply (hs.pairwise_handle hrs).eq_of_mem_iff (hs'.pairwise_handle hrs')
    intro h
    rw [hs.mem_map_handle_iff hrs, hs'.mem_map_handle_iff hrs']
    simp only [hmem]
  apply List.ext_getElem
  · have hlength := congrArg List.length hhandles
    simpa using hlength
  · intro i hi hi'
    rw [List.length_map] at hi hi'
    have hh : rs[i].handle = rs'[i].handle := by
      have hget := congrArg (·[i]?) hhandles
      simpa [hi, hi'] using hget
    have hfacts := (hs.faithful hrs (List.getElem_mem hi)).facts_eq
      (hs'.faithful hrs' (List.getElem_mem hi')) hmem hh
    rw [List.getElem_map, List.getElem_map, hh, hfacts]

end Groups

theorem forall_not_fails_iff :
    (∀ h, ¬ Fails p found h) ↔
      ∀ a ∈ found, Uniform found a.handle ∧ (p.paramOf? a.handle).isSome = true := by
  constructor
  · intro hall a ha
    by_contra hnot
    exact hall a.handle ⟨⟨a, ha, rfl⟩, hnot⟩
  · rintro hall h ⟨⟨a, ha, rfl⟩, hnot⟩
    exact hnot (hall a ha)

/-- The accesses are kept array by array, and there are records exactly if the accesses to each
array agree on the number of dimensions and a parameter stands for it. Then each array that is
accessed has one record, in the order of the handles, and all of them are faithful. Otherwise the
error is about the least array without a record. What the records say does not depend on the order
of the accesses. -/
theorem aggregate_exact (name : String) (found : List Access) (p : Provenance) :
    (ofAccesses name found).Groups found ∧
      ((∃ rs, (ofAccesses name found).aggregate p = .ok rs) ↔
        ∀ a ∈ found, Uniform found a.handle ∧ (p.paramOf? a.handle).isSome = true) ∧
      (∀ rs, (ofAccesses name found).aggregate p = .ok rs →
        (rs.map (·.handle)).Pairwise (· < ·) ∧
        (∀ h, h ∈ rs.map (·.handle) ↔ ∃ a ∈ found, a.handle = h) ∧
        ∀ r ∈ rs, Faithful p found r) ∧
      (∀ e, (ofAccesses name found).aggregate p = .error e →
        ∃ h, FailsWith p found h e ∧ Fails p found h ∧ ∀ h' < h, ¬ Fails p found h') ∧
      ∀ name' found' rs, found'.Perm found → (ofAccesses name found).aggregate p = .ok rs →
        ∃ rs', (ofAccesses name' found').aggregate p = .ok rs' ∧
          rs'.map (fun r => (r.handle, r.facts)) = rs.map (fun r => (r.handle, r.facts)) := by
  have hs := groups_ofAccesses name found
  refine ⟨hs, hs.exists_aggregate_iff.trans forall_not_fails_iff, ?_, ?_, ?_⟩
  · intro rs hrs
    exact ⟨hs.pairwise_handle hrs, fun _ => hs.mem_map_handle_iff hrs, fun _ => hs.faithful hrs⟩
  · intro e he
    obtain ⟨h, hfails, hleast⟩ := hs.exists_failsWith he
    exact ⟨h, hfails, hfails.fails, hleast⟩
  · intro name' found' rs hperm hrs
    have hs' := groups_ofAccesses name' found'
    have hmem : ∀ a, a ∈ found' ↔ a ∈ found := fun a => hperm.mem_iff
    have hnot : ∀ h, ¬ Fails p found' h := by
      intro h hfails
      simp only [Fails, Uniform, hmem] at hfails
      exact hs.not_fails hrs h hfails
    obtain ⟨rs', hrs'⟩ := hs'.exists_aggregate_iff.2 hnot
    exact ⟨rs', hrs', hs'.map_facts_eq hs hmem hrs' hrs⟩

end AccessSummary

end GridAccess
