import GridAccess.Access.Summary
import GridAccess.Proofs.Outcome

set_option autoImplicit false

/-!
# Accesses grouped by array

Adding accesses one after another keeps, for each array, exactly the accesses to it in the order in
which they were added (`Groups.add`, `Groups.foldl_add`). So the record of an array is the one
made of the accesses with its handle, and there is one for each array that is accessed
(`Groups.mem_arrays_iff`, `Groups.exists_record`).
-/

namespace GridAccess

/-! ## Tables in increasing order -/

namespace Sorted

variable {κ α : Type} [LT κ]

/-- The keys of a table stand in increasing order. -/
def Increasing (t : List (κ × α)) : Prop := t.Pairwise fun p q => p.1 < q.1

variable [IsStrictTotalOrder κ (· < ·)] {k : κ} {t : List (κ × α)}

theorem ne_of_forall_lt (h : ∀ p ∈ t, k < p.1) {p : κ × α} (hp : p ∈ t) : p.1 ≠ k := by
  rintro rfl
  exact irrefl _ (h p hp)

variable [DecidableEq κ]

theorem find?_eq_none_of_lt (h : ∀ p ∈ t, k < p.1) : find? k t = none := by
  induction t with
  | nil => rfl
  | cons p t ih =>
    have hne : k ≠ p.1 := (ne_of_forall_lt h List.mem_cons_self).symm
    rw [find?, if_neg hne]
    apply ih
    intro q hq
    exact h q (List.mem_cons_of_mem p hq)

theorem find?_eq_some_iff (ht : Increasing t) {a : α} : find? k t = some a ↔ (k, a) ∈ t := by
  induction t with
  | nil => simp [find?]
  | cons p t ih =>
    obtain ⟨j, b⟩ := p
    obtain ⟨hlt, ht⟩ := List.pairwise_cons.1 ht
    by_cases hk : k = j
    · -- further down the keys are greater
      subst hk
      have hnot : (k, a) ∉ t := by
        intro hmem
        exact ne_of_forall_lt hlt hmem rfl
      simp [find?, hnot, eq_comm]
    · simp [find?, hk, ih ht]

variable [DecidableLT κ]

/-- Only the entry of the key is changed. -/
theorem mem_alter_iff (ht : Increasing t) (g : Option α → α) {p : κ × α} :
    p ∈ alter k g t ↔ p = (k, g (find? k t)) ∨ p.1 ≠ k ∧ p ∈ t := by
  induction t with
  | nil => simp [alter, find?]
  | cons q t ih =>
    obtain ⟨j, b⟩ := q
    obtain ⟨hlt, ht'⟩ := List.pairwise_cons.1 ht
    rw [alter]
    split
    · -- the entry is the first
      rename_i hk
      subst hk
      have hne : p ∈ t → p.1 ≠ k := ne_of_forall_lt hlt
      rw [find?, if_pos rfl]
      constructor
      · intro hp
        rcases List.mem_cons.1 hp with rfl | hp
        · exact .inl rfl
        · exact .inr ⟨hne hp, List.mem_cons_of_mem _ hp⟩
      · rintro (rfl | ⟨hpk, hp⟩)
        · exact List.mem_cons_self
        · rcases List.mem_cons.1 hp with rfl | hp
          · exact absurd rfl hpk
          · exact List.mem_cons_of_mem _ hp
    · rename_i hk
      split
      · -- the key is below all others
        rename_i hkj
        have hall : ∀ q ∈ (j, b) :: t, k < q.1 := by
          intro q hq
          rcases List.mem_cons.1 hq with rfl | hq
          · exact hkj
          · exact IsTrans.trans _ _ _ hkj (hlt q hq)
        rw [find?_eq_none_of_lt hall, List.mem_cons]
        constructor
        · rintro (rfl | hp)
          · exact .inl rfl
          · exact .inr ⟨ne_of_forall_lt hall hp, hp⟩
        · rintro (rfl | ⟨-, hp⟩)
          · exact .inl rfl
          · exact .inr hp
      · rw [find?, if_neg hk, List.mem_cons, ih ht', List.mem_cons]
        constructor
        · rintro (rfl | rfl | ⟨hpk, hp⟩)
          · exact .inr ⟨Ne.symm hk, .inl rfl⟩
          · exact .inl rfl
          · exact .inr ⟨hpk, .inr hp⟩
        · rintro (rfl | ⟨hpk, rfl | hp⟩)
          · exact .inr (.inl rfl)
          · exact .inl rfl
          · exact .inr (.inr ⟨hpk, hp⟩)

theorem Increasing.alter (ht : Increasing t) (g : Option α → α) : Increasing (alter k g t) := by
  induction t with
  | nil => exact List.pairwise_singleton _ _
  | cons p t ih =>
    obtain ⟨j, b⟩ := p
    obtain ⟨hlt, ht'⟩ := List.pairwise_cons.1 ht
    rw [Sorted.alter]
    split
    · exact List.pairwise_cons.2 ⟨hlt, ht'⟩
    · rename_i hk
      split
      · rename_i hkj
        refine List.pairwise_cons.2 ⟨?_, ht⟩
        intro q hq
        rcases List.mem_cons.1 hq with rfl | hq
        · exact hkj
        · exact IsTrans.trans _ _ _ hkj (hlt q hq)
      · rename_i hkj
        have hjk : j < k := ((trichotomous (r := (· < ·)) k j).resolve_left hkj).resolve_left hk
        refine List.pairwise_cons.2 ⟨?_, ih ht'⟩
        intro q hq
        rcases (mem_alter_iff ht' g).1 hq with rfl | ⟨-, hq⟩
        · exact hjk
        · exact hlt q hq

omit [IsStrictTotalOrder κ (· < ·)] in
/-- In a table of lists, a member put at the end of one of them is one more member in all. -/
theorem flatMap_alter_perm {β : Type} (k : κ) (b : β) (t : List (κ × List β)) :
    ((alter k (fun group => group.getD [] ++ [b]) t).flatMap (·.2)).Perm
      (t.flatMap (·.2) ++ [b]) := by
  induction t with
  | nil => exact .refl _
  | cons p t ih =>
    obtain ⟨j, group⟩ := p
    rw [alter]
    split
    · simp only [Option.getD_some, List.flatMap_cons, List.append_assoc]
      exact List.perm_append_comm.append_left group
    · split
      · simp only [Option.getD_none, List.nil_append, List.flatMap_cons]
        exact List.perm_append_comm
      · simp only [List.flatMap_cons, List.append_assoc]
        exact ih.append_left group

end Sorted

namespace Handle

variable {i j : Nat}

@[simp]
theorem slot_lt_slot_iff : slot i < slot j ↔ i < j := decide_eq_true_iff

@[simp]
theorem param_lt_param_iff : param i < param j ↔ i < j := decide_eq_true_iff

@[simp]
theorem slot_lt_param : slot i < param j := rfl

@[simp]
theorem not_param_lt_slot : ¬ param i < slot j := Bool.false_ne_true

instance : IsStrictTotalOrder Handle (· < ·) where
  trichotomous := by
    intro a b hab hba
    cases a <;> cases b <;> simp_all
    all_goals omega
  irrefl := by
    intro a
    cases a <;> simp
  trans := by
    intro a b c hab hbc
    cases a <;> cases b <;> cases c <;> simp_all
    all_goals omega

end Handle

/-! ## Groups -/

namespace AccessSummary

variable {s : AccessSummary} {found : List Access} {p : Provenance} {arrays : List ArrayRecord}
  {r : ArrayRecord}

/-- The summary has, for each array with an access among `found`, these accesses in order. -/
structure Groups (s : AccessSummary) (found : List Access) : Prop where
  increasing : Sorted.Increasing s.arrays
  mem_iff : ∀ h group, (h, group) ∈ s.arrays ↔
    group = found.filter (fun a => a.handle = h) ∧ group ≠ []
  perm : s.accesses.Perm found

theorem groups_empty (name : String) : Groups { name } [] where
  increasing := .nil
  mem_iff := by
    intro h group
    simp
  perm := .refl _

namespace Groups

theorem find?_getD (hs : s.Groups found) (h : Handle) :
    (Sorted.find? h s.arrays).getD [] = found.filter (fun a => a.handle = h) := by
  cases hfind : Sorted.find? h s.arrays with
  | some group =>
    exact ((hs.mem_iff h group).1 ((Sorted.find?_eq_some_iff hs.increasing).1 hfind)).1
  | none =>
    by_contra hne
    have hmem := (hs.mem_iff h _).2 ⟨rfl, Ne.symm hne⟩
    rw [(Sorted.find?_eq_some_iff hs.increasing).2 hmem] at hfind
    cases hfind

theorem add (hs : s.Groups found) (a : Access) : (s.add a).Groups (found ++ [a]) where
  increasing := hs.increasing.alter _
  mem_iff := by
    intro h group
    rw [AccessSummary.add, Sorted.mem_alter_iff hs.increasing, hs.mem_iff, hs.find?_getD,
      List.filter_append]
    by_cases hh : a.handle = h
    · subst hh
      simp only [decide_true, List.filter_cons_of_pos, List.filter_nil, Prod.mk.injEq, true_and,
        ne_eq, not_true_eq_false, false_and, or_false, iff_self_and]
      rintro rfl
      simp
    · simp [hh, Ne.symm hh]
  perm := (Sorted.flatMap_alter_perm a.handle a s.arrays).trans (hs.perm.append_right [a])

theorem foldl_add (hs : s.Groups found) (more : List Access) :
    (more.foldl AccessSummary.add s).Groups (found ++ more) := by
  induction more generalizing s found with
  | nil => simpa using hs
  | cons a more ih =>
    rw [List.foldl_cons, List.append_cons]
    exact ih (hs.add a)

end Groups

/-! ## Records -/

/-- What the record of an array says of the accesses to it. -/
structure Sums (p : Provenance) (group : List Access) (r : ArrayRecord) : Prop where
  nonempty : group ≠ []
  dims : ∀ a ∈ group, a.dims.length = r.dims
  arg : p.paramOf? r.handle = some r.arg
  axes : r.axes = (List.range r.dims).map (axesAt group)
  isRead : r.isRead = p.reads.contains r.handle
  isWritten : r.isWritten = p.writes.contains r.handle

theorem record_eq_ok {h : Handle} {group : List Access} (hr : record p h group = .ok r) :
    r.handle = h ∧ Sums p group r := by
  cases group with
  | nil => cases hr
  | cons first rest =>
    rw [record] at hr
    cases hother : (first :: rest).find? fun a => a.dims.length ≠ first.dims.length with
    | some other =>
      rw [hother] at hr
      cases hr
    | none =>
      rw [hother] at hr
      cases harg : p.paramOf? h with
      | none =>
        rw [harg] at hr
        cases hr
      | some arg =>
        rw [harg] at hr
        obtain rfl := Except.ok.inj hr
        refine ⟨rfl, by simp, ?_, harg, rfl, rfl, rfl⟩
        intro a ha
        simpa using List.find?_eq_none.1 hother a ha

namespace Groups

/-- The records are those that can be made of the accesses to one array. -/
theorem mem_arrays_iff (hs : s.Groups found) (harrays : s.aggregate p = .ok arrays) :
    r ∈ arrays ↔ record p r.handle (found.filter (fun a => a.handle = r.handle)) = .ok r := by
  have hall := forall₂_of_mapM harrays
  constructor
  · intro hr
    obtain ⟨⟨h, group⟩, hmem, hrecord⟩ := exists_mem_of_forall₂ hall hr
    obtain ⟨rfl, -⟩ := record_eq_ok hrecord
    rw [← ((hs.mem_iff r.handle group).1 hmem).1]
    exact hrecord
  · intro hr
    have hmem := (hs.mem_iff r.handle _).2 ⟨rfl, (record_eq_ok hr).2.nonempty⟩
    obtain ⟨r', hr', hrecord⟩ := exists_mem_of_forall₂ hall.flip hmem
    obtain rfl : r = r' := Except.ok.inj (hr.symm.trans hrecord)
    exact hr'

theorem sums (hs : s.Groups found) (harrays : s.aggregate p = .ok arrays) (hr : r ∈ arrays) :
    Sums p (found.filter (fun a => a.handle = r.handle)) r :=
  (record_eq_ok ((hs.mem_arrays_iff harrays).1 hr)).2

/-- Each array that is accessed has a record. -/
theorem exists_record (hs : s.Groups found) (harrays : s.aggregate p = .ok arrays) {a : Access}
    (ha : a ∈ found) : ∃ r ∈ arrays, r.handle = a.handle := by
  have hmem := (hs.mem_iff a.handle _).2
    ⟨rfl, List.ne_nil_of_mem (List.mem_filter.2 ⟨ha, decide_eq_true rfl⟩)⟩
  obtain ⟨r, hr, hrecord⟩ := exists_mem_of_forall₂ (forall₂_of_mapM harrays).flip hmem
  exact ⟨r, hr, (record_eq_ok hrecord).1⟩

/-- No array has two records. -/
theorem eq_of_handle_eq (hs : s.Groups found) (harrays : s.aggregate p = .ok arrays)
    {r' : ArrayRecord} (hr : r ∈ arrays) (hr' : r' ∈ arrays) (h : r.handle = r'.handle) :
    r = r' := by
  have hrecord := (hs.mem_arrays_iff harrays).1 hr
  rw [h] at hrecord
  exact Except.ok.inj (hrecord.symm.trans ((hs.mem_arrays_iff harrays).1 hr'))

end Groups

end AccessSummary

end GridAccess
