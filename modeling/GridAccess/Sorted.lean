set_option autoImplicit false

/-!
# Sorted lists

Sets and tables as lists in increasing order of their keys, so that what is read off them does not
depend on the order in which they were filled.
-/

namespace GridAccess.Sorted

variable {κ α : Type} [DecidableEq κ] [LT κ] [DecidableLT κ]

/-- The set with one more member. -/
def insert (k : κ) : List κ → List κ
  | [] => [k]
  | j :: rest =>
    if k = j then j :: rest
    else if k < j then k :: j :: rest
    else j :: insert k rest

/-- The table with the entry of a key changed, or made if there was none. -/
def alter (k : κ) (f : Option α → α) : List (κ × α) → List (κ × α)
  | [] => [(k, f none)]
  | (j, a) :: rest =>
    if k = j then (j, f (some a)) :: rest
    else if k < j then (k, f none) :: (j, a) :: rest
    else (j, a) :: alter k f rest

omit [LT κ] [DecidableLT κ] in
/-- The entry of a key. -/
def find? (k : κ) : List (κ × α) → Option α
  | [] => none
  | (j, a) :: rest => if k = j then some a else find? k rest

theorem mem_insert_iff (k x : κ) (s : List κ) : x ∈ insert k s ↔ x = k ∨ x ∈ s := by
  induction s with
  | nil => simp [insert]
  | cons j rest ih =>
    rw [insert]
    split
    · rename_i h
      subst h
      simp
    · split
      · simp
      · simp only [List.mem_cons, ih]
        exact or_left_comm

end GridAccess.Sorted
