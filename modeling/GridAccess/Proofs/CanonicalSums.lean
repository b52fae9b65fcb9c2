import GridAccess.Proofs.Invariance
import Mathlib.Data.List.Sort

set_option autoImplicit false

/-!
# Sums in canonical form

A sum is tidy if its terms are two or more, no term is a sum again, only the first may be a constant
and then is not zero, no two are recurrences of one loop, and none is a recurrence in whose loop all
the others are invariant (`Context.TidyTerms`). Folding never leaves any other sum: if all sums in
the operands are tidy, all sums in the result are, and adding the terms of a result gives the
result again (`Context.sum_canonical`).

Each rule of folding may bring back a shape that another one has removed. A merged recurrence may
be zero or may take up terms that none of the two could, and the start of a recurrence may be a sum
that has to be dissolved. What holds all through is therefore said of nodes. The only rule that
leaves a sum is the one that applies when no other does, and `Context.foldable_tidySum` shows that
the sum it leaves is tidy.
-/

namespace GridAccess

namespace Evolution

/-! ## The order of operands -/

/-- The order in which operands are sorted. -/
abbrev RankLE (e f : Evolution) : Prop := e.rank ≤ f.rank

theorem insertByRank_eq (e : Evolution) (es : List Evolution) :
    insertByRank e es = es.orderedInsert RankLE e := by
  induction es with
  | nil => rfl
  | cons f fs ih => rw [insertByRank, List.orderedInsert_cons, ih]

theorem sortByRank_eq (es : List Evolution) : sortByRank es = es.insertionSort RankLE := by
  induction es with
  | nil => rfl
  | cons e es ih => rw [List.insertionSort_cons, ← ih, ← insertByRank_eq, sortByRank, sortByRank,
      List.foldr_cons]

/-- What has been sorted stays as it is. -/
theorem sortByRank_sortByRank (es : List Evolution) :
    sortByRank (sortByRank es) = sortByRank es := by
  have : IsTrans Evolution RankLE := ⟨fun _ _ _ h₁ h₂ => Nat.le_trans h₁ h₂⟩
  have : Std.Total RankLE := ⟨fun e f => le_total e.rank f.rank⟩
  rw [sortByRank_eq es, sortByRank_eq]
  exact (List.pairwise_insertionSort RankLE es).insertionSort_eq

/-! ## Operands that have been gathered -/

/-- The operands of a node of kind `node` that have been gathered: two or more, none of that kind
itself, and only the first may be a constant, which is then one of `ok`. -/
structure Gathered (node : List Evolution → Evolution) (ok : Word → Prop) (es : List Evolution) :
    Prop where
  two_le : 2 ≤ es.length
  flat : ∀ fs, node fs ∉ es
  constant : ∀ i w, es[i]? = some (.constant w) → i = 0 ∧ ok w

section Gather

variable {split : Evolution → List Evolution} {op : Word → Word → Word} {unit : Word}
  {es : List Evolution}

theorem constant_notMem_others (w : Word) : constant w ∉ sortByRank (othersOf es) := by
  intro h
  rw [(perm_sortByRank _).mem_iff, mem_othersOf_iff] at h
  cases h.2

/-- A constant that has been gathered stands first, and is what the constants combine to. -/
theorem constant_of_gather {i : Nat} {w : Word}
    (h : (gather split op unit es)[i]? = some (constant w)) :
    i = 0 ∧ w = (constantsOf (es.flatMap split)).foldl op unit ∧ w ≠ unit := by
  rw [gather] at h
  split at h
  · exact absurd (List.mem_of_getElem? h) (constant_notMem_others w)
  · rename_i hunit
    cases i with
    | zero =>
      obtain rfl := constant.inj (Option.some.inj h)
      exact ⟨rfl, rfl, hunit⟩
    | succ i =>
      rw [List.getElem?_cons_succ] at h
      exact absurd (List.mem_of_getElem? h) (constant_notMem_others w)

theorem gathered_gather {node : List Evolution → Evolution} {ok : Word → Prop}
    (hflat : ∀ fs, node fs ∉ gather split op unit es)
    (hok : (constantsOf (es.flatMap split)).foldl op unit ≠ unit →
      ok ((constantsOf (es.flatMap split)).foldl op unit))
    (htwo : 2 ≤ (gather split op unit es).length) : Gathered node ok (gather split op unit es) where
  two_le := htwo
  flat := hflat
  constant i w h := by
    obtain ⟨hi, rfl, hunit⟩ := constant_of_gather h
    exact ⟨hi, hok hunit⟩

/-- What has been gathered stays as it is. -/
theorem gather_gather (hunit : ∀ w, op unit w = w)
    (hsplit : ∀ e ∈ gather split op unit es, split e = [e]) :
    gather split op unit (gather split op unit es) = gather split op unit es := by
  have hflat : (gather split op unit es).flatMap split = gather split op unit es := by
    rw [List.flatMap_def, List.map_congr_left hsplit, ← List.flatMap_def, List.flatMap_singleton']
  have hothers : ∀ fs, othersOf (sortByRank (othersOf fs)) = sortByRank (othersOf fs) := by
    intro fs
    refine List.filter_eq_self.2 fun e he => ?_
    rw [(perm_sortByRank _).mem_iff, mem_othersOf_iff] at he
    simp [he.2]
  have hconstants : ∀ fs, constantsOf (sortByRank (othersOf fs)) = [] := by
    intro fs
    refine List.filterMap_eq_nil_iff.2 fun e he => ?_
    rw [(perm_sortByRank _).mem_iff, mem_othersOf_iff] at he
    exact he.2
  -- one constant in front at most, and the others in order already
  conv_lhs => rw [gather, hflat]
  rw [gather]
  split
  · rename_i htotal
    simp only [hothers, hconstants, sortByRank_sortByRank, List.foldl_nil, if_true]
  · rename_i htotal
    generalize (constantsOf (es.flatMap split)).foldl op unit = total at htotal ⊢
    have hfirst : ∀ fs, constantsOf (constant total :: fs) = total :: constantsOf fs := fun _ => rfl
    have hrest : ∀ fs, othersOf (constant total :: fs) = othersOf fs := fun _ => rfl
    simp only [hfirst, hrest, hothers, hconstants, sortByRank_sortByRank, List.foldl_cons,
      List.foldl_nil, hunit, if_neg htotal]

end Gather

theorem ofTerms_of_two_le {ops : List Evolution} (h : 2 ≤ ops.length) : ofTerms ops = sum ops := by
  match ops with
  | [] | [_] => simp at h
  | _ :: _ :: _ => rfl

/-- A sum made of terms that are no sums has these terms. -/
theorem eq_of_ofTerms_eq_sum {ops rs : List Evolution} (h : ofTerms ops = sum rs)
    (hflat : sum rs ∉ ops) : rs = ops ∧ 2 ≤ ops.length := by
  match ops with
  | [] => cases h
  | [e] => exact absurd (h ▸ List.mem_singleton_self e) hflat
  | e :: f :: ops => exact ⟨(sum.inj h).symm, by simp⟩

/-! ## Recurrences among operands -/

theorem mem_pivotsAfter (first before after : List Evolution) (a : Evolution)
    (steps : List Evolution) (l : Nat) :
    ⟨first ++ before, a, steps, l, after⟩ ∈
      pivotsAfter first (before ++ recurrence a steps l :: after) := by
  induction before generalizing first with
  | nil =>
    rw [List.append_nil, List.nil_append, pivotsAfter]
    exact List.mem_cons_self
  | cons e before ih =>
    have hmore := ih (first ++ [e])
    rw [List.append_assoc, List.singleton_append] at hmore
    cases e with
    | recurrence _ _ _ => exact List.mem_cons_of_mem _ hmore
    | _ => exact hmore

/-- Every place where operands can be cut at a recurrence is a pivot. -/
theorem mem_pivots (before after : List Evolution) (a : Evolution) (steps : List Evolution)
    (l : Nat) :
    ⟨before, a, steps, l, after⟩ ∈ pivots (before ++ recurrence a steps l :: after) := by
  rw [pivots]
  simpa using mem_pivotsAfter [] before after a steps l

theorem eq_recurrence_of_loop? {e : Evolution} {l : Nat} (h : e.loop? = some l) :
    ∃ a steps, e = recurrence a steps l := by
  cases e with
  | recurrence a steps k =>
    obtain rfl := Option.some.inj h
    exact ⟨a, steps, rfl⟩
  | _ => cases h

/-- If no two recurrences of one loop are found, there are none. -/
theorem nodup_loops_of_samePair? {es : List Evolution} (h : samePair? es = none) :
    (es.filterMap loop?).Nodup := by
  apply List.pairwise_filterMap.2
  apply List.pairwise_iff_forall_sublist.2
  intro e f hsub l hl k hk hlk
  subst hlk
  obtain ⟨a, as, rfl⟩ := eq_recurrence_of_loop? hl
  obtain ⟨b, bs, rfl⟩ := eq_recurrence_of_loop? hk
  -- the two stand one after the other, and would have been found there
  obtain ⟨front, back, rfl, hfront, hback⟩ := List.cons_sublist_iff.1 hsub
  obtain ⟨before, between, rfl⟩ := List.append_of_mem hfront
  obtain ⟨between', after, rfl⟩ := List.append_of_mem (List.singleton_sublist.1 hback)
  have hp := mem_pivots before (between ++ (between' ++ recurrence b bs l :: after)) a as l
  have hq := mem_pivots (between ++ between') after b bs l
  rw [samePair?, List.findSome?_eq_none_iff] at h
  have hnone := h _ (by simpa using hp)
  rw [Option.map_eq_none_iff, List.find?_eq_none] at hnone
  exact hnone _ (by simpa using hq) (by simp)

end Evolution

open Evolution

namespace Context

variable {C : Context} {es : List Evolution}

/-- If no recurrence is found that absorbs the other operands, there is none. -/
theorem exists_not_invariant (h : C.absorbing? (pivots es) = .ok none)
    {before after steps : List Evolution} {a : Evolution} {l : Nat}
    (hcut : es = before ++ .recurrence a steps l :: after) :
    ∃ x ∈ before ++ after, C.isInvariant l x ≠ .ok true := by
  by_contra hall
  push Not at hall
  have hp : ⟨before, a, steps, l, after⟩ ∈ pivots es := hcut ▸ mem_pivots before after a steps l
  exact absorbing?_ne_none hp (allInvariant_iff.2 hall) h

/-! ## Tidy sums -/

/-- The terms of a sum in canonical form: gathered, no two of them recurrences of one loop, and
beside each recurrence one that is not invariant in its loop. -/
structure TidyTerms (C : Context) (es : List Evolution) : Prop extends
    Gathered .sum (· ≠ 0) es where
  apart : (es.filterMap loop?).Nodup
  unabsorbed : ∀ before a steps l after, es = before ++ .recurrence a steps l :: after →
    ∃ x ∈ before ++ after, C.isInvariant l x ≠ .ok true

/-- If the node is a sum, its terms are in canonical form. -/
def TidySum (C : Context) (n : Evolution) : Prop := ∀ es, n = .sum es → C.TidyTerms es

/-- Bringing the terms of tidy sums together dissolves the sums. -/
theorem sum_notMem_sumTerms (hes : AllEverywhere C.TidySum es) (fs : List Evolution) :
    .sum fs ∉ sumTerms es := by
  intro hmem
  rcases mem_gather hmem with ⟨w, hw⟩ | ⟨e, he, hterm⟩
  · cases hw
  · cases e with
    | sum gs => exact ((hes _ he).top gs rfl).flat fs hterm
    | _ => cases List.mem_singleton.1 hterm

theorem terms_of_mem_sumTerms (hes : AllEverywhere C.TidySum es) {e : Evolution}
    (he : e ∈ sumTerms es) : terms e = [e] := by
  cases e with
  | sum fs => exact absurd he (sum_notMem_sumTerms hes fs)
  | _ => rfl

/-- A sum that folding leaves is tidy. -/
theorem foldable_tidySum (C : Context) : C.Foldable C.TidySum where
  constant _ _ h := nomatch h
  quotient _ _ _ h := nomatch h
  smax _ _ _ h := nomatch h
  umax _ _ _ h := nomatch h
  recurrence _ _ _ _ _ _ h := nomatch h
  zext _ _ h := nomatch h
  sext _ _ h := nomatch h
  trunc _ _ h := nomatch h
  product _ _ _ h := nomatch h
  sum := by
    intro es hes htwo hpair hnone rs hrs
    obtain rfl := Evolution.sum.inj hrs
    have hgathered : Gathered .sum (· ≠ 0) (sumTerms es) :=
      gathered_gather (sum_notMem_sumTerms hes) id htwo
    exact { hgathered with
      apart := nodup_loops_of_samePair? hpair
      unabsorbed := fun _ _ _ _ _ hcut => exists_not_invariant hnone hcut }

/-- Terms that folding leaves as they are make up a sum that folding leaves as it is. -/
theorem sum_sumTerms_eq (hes : AllEverywhere C.TidySum es)
    (hany : (es.flatMap terms).any isIndeterminate = false) (htwo : 2 ≤ (sumTerms es).length)
    (hpair : samePair? (sumTerms es) = none)
    (hnone : C.absorbing? (pivots (sumTerms es)) = .ok none) :
    C.sum (sumTerms es) = .ok (.sum (sumTerms es)) := by
  have hgather : sumTerms (sumTerms es) = sumTerms es :=
    gather_gather zero_add fun _ he => terms_of_mem_sumTerms hes he
  have hknown : ((sumTerms es).flatMap terms).any isIndeterminate = false := by
    rw [List.any_eq_false] at hany ⊢
    intro x hx
    obtain ⟨e, he, hxe⟩ := List.mem_flatMap.1 hx
    rw [terms_of_mem_sumTerms hes he] at hxe
    obtain rfl := List.mem_singleton.1 hxe
    rcases mem_gather he with ⟨w, rfl⟩ | ⟨f, hf, hxf⟩
    · simp [isIndeterminate]
    · exact hany x (List.mem_flatMap.2 ⟨f, hf, hxf⟩)
  have hmany : ¬ (sumTerms es).length ≤ 1 := by omega
  -- no rule but the last applies
  rw [sum, sumWithin, hknown, if_neg Bool.false_ne_true, hgather]
  simp only [if_neg hmany, hpair, hnone, ok_bind]
  exact congrArg Except.ok (ofTerms_of_two_le htwo)

end Context

namespace Sums

variable {C : Context} {es : List Evolution} {e : Evolution}

/-- A sum that is the result of folding is folded to itself. -/
theorem sum_self (h : Sums C es e) (hes : AllEverywhere C.TidySum es) {rs : List Evolution}
    (he : e = .sum rs) : C.sum rs = .ok (.sum rs) := by
  induction h with
  | lost _ => cases he
  | @plain es hany hplain =>
    obtain ⟨rfl, htwo⟩ := eq_of_ofTerms_eq_sum he (Context.sum_notMem_sumTerms hes rs)
    obtain ⟨hpair, hnone⟩ := hplain.resolve_left (by omega)
    exact Context.sum_sumTerms_eq hes hany htwo hpair hnone
  | merge _ hpair hstart hlength hsteps _ _ _ ihrest =>
    -- whatever the two recurrences are merged into, the sums in it are tidy
    have hP := C.foldable_tidySum
    refine ihrest (allEverywhere_merged hP.toLasting hes hpair ?_ hlength ?_) he
    · exact hstart.everywhere_of_foldable hP
    · exact fun x hx => (hsteps x hx).everywhere_of_foldable hP
  | absorb _ _ _ _ _ => cases he

end Sums

/-- Sums are built in canonical form. If every sum in the operands is tidy, then every sum in their
sum is; only a reference to an instruction or a loop that is not there leads to no result. A sum
that has been built is built again from its own terms. -/
theorem Context.sum_canonical (C : Context) (es : List Evolution)
    (hes : AllEverywhere C.TidySum es) :
    ((∃ e, C.sum es = .ok e ∧ e.Everywhere C.TidySum) ∨
      (C.sum es = .error .dangling ∧ ¬ AllEverywhere C.Known es)) ∧
    ∀ rs, C.sum es = .ok (.sum rs) → C.sum rs = .ok (.sum rs) := by
  constructor
  · rcases C.sum_cases es with ⟨e, he, hsums⟩ | hdangling
    · exact Or.inl ⟨e, he, hsums.everywhere_of_foldable C.foldable_tidySum hes⟩
    · exact Or.inr hdangling
  · intro rs hrs
    exact (sums_of_sumWithin hrs).sum_self hes rfl

/-- Two loops one after the other. -/
def twins : Context where
  module := { name := "twins" }
  function := { name := "twins", params := #[⟨"n", .word⟩] }
  cfg := Cfg.ofTargets 0 fun _ => []
  forest := ⟨#[⟨1, [1], [], []⟩, ⟨2, [2], [], []⟩]⟩

/-- Three recurrences, two of them of one loop, and a sum that is dissolved. -/
theorem twins_sum :
    let n : Evolution := .unknown (.argument 0)
    let second : Evolution := .recurrence n [.constant 3] 1
    let es : List Evolution := [.recurrence (.constant 1) [.constant 2] 0, .sum [.constant 3, n],
      second, .recurrence (.constant 4) [.constant 5] 0]
    let rs : List Evolution :=
      [.constant 3, n, .recurrence (.constant 5) [.constant 7] 0, second]
    twins.sum es = .ok (.sum rs) ∧ (Evolution.sum rs).Everywhere twins.TidySum ∧
      twins.sum rs = .ok (.sum rs) := by
  intro n second es rs
  have hsum : twins.sum es = .ok (.sum rs) := by decide +kernel
  have hconstant : ∀ w, (Evolution.constant w).Everywhere twins.TidySum :=
    fun _ => .leaf (fun _ h => nomatch h) rfl
  have hn : n.Everywhere twins.TidySum := .leaf (fun _ h => nomatch h) rfl
  have hrecurrence : ∀ a w l, a.Everywhere twins.TidySum →
      (Evolution.recurrence a [.constant w] l).Everywhere twins.TidySum := fun _ w _ ha =>
    everywhere_recurrence_iff.2 ⟨(fun _ h => nomatch h), ha, by simpa using hconstant w⟩
  have hpair : (Evolution.sum [.constant 3, n]).Everywhere twins.TidySum := by
    have hfold : twins.sum [.constant 3, n] = .ok (.sum [.constant 3, n]) := by decide +kernel
    exact (Context.sums_of_sumWithin hfold).everywhere_of_foldable twins.foldable_tidySum
      (by simpa using ⟨hconstant 3, hn⟩)
  have hes : AllEverywhere twins.TidySum es := by
    simp only [es, allEverywhere_cons, allEverywhere_nil, and_true]
    exact ⟨hrecurrence _ _ _ (hconstant 1), hpair, hrecurrence _ _ _ hn,
      hrecurrence _ _ _ (hconstant 4)⟩
  obtain ⟨⟨e, he, htidy⟩ | ⟨he, -⟩, hself⟩ := twins.sum_canonical es hes
  · rw [hsum] at he
    obtain rfl := Except.ok.inj he
    exact ⟨hsum, htidy, hself rs hsum⟩
  · rw [hsum] at he
    cases he

end GridAccess
