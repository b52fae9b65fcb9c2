import GridAccess.Evolution.Basic
import Mathlib.Data.BitVec
import Mathlib.Data.Nat.Choose.Basic
import Mathlib.Tactic

set_option autoImplicit false

/-!
# The value of an evolution

An evolution has a value once the things it speaks about have values: the values that are not
looked into, the sizes and alignments of types, and for each loop the number of rounds it has run.
All arithmetic is that of 64-bit words. A recurrence with the operands `a₀, a₁, …` of a loop that
has run `n` rounds is `a₀ * (n choose 0) + a₁ * (n choose 1) + …`.

Properties of all the nodes of an evolution are stated with `Everywhere`. What a valuation gives
to things that do not occur in an evolution does not matter for its value (`eval_congr`).
-/

namespace GridAccess

namespace Evolution

/-! ## The nodes of an evolution -/

/-- The evolutions directly below an evolution. -/
def operands : Evolution → List Evolution
  | sum es | product es | smax es | umax es => es
  | quotient a b => [a, b]
  | recurrence a es _ => a :: es
  | zext e | sext e | trunc e => [e]
  | _ => []

theorem sizeOf_lt_of_mem_operands {e c : Evolution} (h : c ∈ e.operands) :
    SizeOf.sizeOf c < SizeOf.sizeOf e := by
  have hlist : ∀ es : List Evolution, c ∈ es → SizeOf.sizeOf c < SizeOf.sizeOf es :=
    fun es => List.sizeOf_lt_of_mem
  cases e with
  | sum es | product es | smax es | umax es =>
    have := hlist es h
    simp
    omega
  | quotient a b =>
    simp only [operands, List.mem_cons, List.not_mem_nil, or_false] at h
    rcases h with rfl | rfl
    · simp
      omega
    · simp
  | recurrence a es l =>
    rcases List.mem_cons.1 h with rfl | h
    · simp
      omega
    · have := hlist es h
      simp
      omega
  | zext e | sext e | trunc e =>
    obtain rfl := List.mem_singleton.1 h
    simp
  | constant _ | sizeOf _ | alignOf _ | unknown _ | indeterminate => simp [operands] at h

/-- Induction over evolutions, from the operands of a node to the node. -/
theorem induction_operands {motive : Evolution → Prop}
    (node : ∀ e, (∀ c ∈ e.operands, motive c) → motive e) (e : Evolution) : motive e :=
  node e fun c _ => induction_operands node c
termination_by SizeOf.sizeOf e
decreasing_by exact sizeOf_lt_of_mem_operands ‹_›

/-- Every node of an evolution has a property. -/
inductive Everywhere (P : Evolution → Prop) : Evolution → Prop
  | node {e : Evolution} (top : P e) (rest : ∀ c ∈ e.operands, Everywhere P c) : Everywhere P e

namespace Everywhere

variable {P Q : Evolution → Prop} {e c : Evolution}

theorem top (h : e.Everywhere P) : P e := by
  cases h with
  | node top _ => exact top

theorem operand (h : e.Everywhere P) (hc : c ∈ e.operands) : c.Everywhere P := by
  cases h with
  | node _ rest => exact rest c hc

theorem leaf (h : P e) (hleaf : e.operands = []) : e.Everywhere P := .node h (by simp [hleaf])

theorem mono (hPQ : ∀ e, P e → Q e) (h : e.Everywhere P) : e.Everywhere Q := by
  induction h with
  | node top _ ih => exact .node (hPQ _ top) ih

theorem and (hP : e.Everywhere P) (hQ : e.Everywhere Q) :
    e.Everywhere fun n => P n ∧ Q n := by
  induction hP with
  | node top _ ih => exact .node ⟨top, hQ.top⟩ fun c hc => ih c hc (hQ.operand hc)

end Everywhere

theorem everywhere_of_forall {P : Evolution → Prop} (h : ∀ e, P e) (e : Evolution) :
    e.Everywhere P :=
  induction_operands (fun e ih => .node (h e) ih) e

theorem everywhere_iff {P : Evolution → Prop} {e : Evolution} :
    e.Everywhere P ↔ P e ∧ ∀ c ∈ e.operands, c.Everywhere P :=
  ⟨fun h => ⟨h.top, fun _ => h.operand⟩, fun h => .node h.1 h.2⟩

end Evolution

/-! ## Words -/

namespace Word

/-- The number a word is compared by. -/
def key (signed : Bool) (w : Word) : Int := if signed then w.toInt else w.toNat

/-- The greater of two words. -/
def greater (signed : Bool) (x y : Word) : Word := if key signed x ≤ key signed y then y else x

/-- The greatest of some words; zero if there are none. -/
def greatest (signed : Bool) : List Word → Word
  | [] => 0
  | w :: ws => ws.foldl (greater signed) w

/-- The sum of words, each times one of the binomial coefficients `n choose i`,
`n choose (i + 1)`, …. -/
def newton (n : Nat) : (i : Nat) → List Word → Word
  | _, [] => 0
  | i, w :: ws => w * BitVec.ofNat 64 (n.choose i) + newton n (i + 1) ws

end Word

/-! ## Values -/

/-- What the leaves of evolutions stand for: the words of values, sizes and alignments, the rounds
each loop has run, and the quotients by zero. -/
structure Valuation where
  value : Value → Word
  size : Ty → Word
  align : Ty → Word
  rounds : Nat → Nat
  byZero : Word → Word

namespace Valuation

/-- The unsigned quotient of two words. -/
def divide (ρ : Valuation) (x y : Word) : Word := if y = 0 then ρ.byZero x else x / y

mutual

/-- The value of an evolution. One that is not known is given the value zero. -/
def eval (ρ : Valuation) : Evolution → Word
  | .constant w => w
  | .sizeOf t => ρ.size t
  | .alignOf t => ρ.align t
  | .unknown v => ρ.value v
  | .indeterminate => 0
  | .sum es => (ρ.evalAll es).sum
  | .product es => (ρ.evalAll es).prod
  | .quotient a b => ρ.divide (ρ.eval a) (ρ.eval b)
  | .smax es => Word.greatest true (ρ.evalAll es)
  | .umax es => Word.greatest false (ρ.evalAll es)
  | .recurrence a es l => Word.newton (ρ.rounds l) 0 (ρ.eval a :: ρ.evalAll es)
  | .zext e => ρ.eval e
  | .sext e => ρ.eval e
  | .trunc e => ρ.eval e

/-- The values of evolutions. -/
def evalAll (ρ : Valuation) : List Evolution → List Word
  | [] => []
  | e :: es => ρ.eval e :: ρ.evalAll es

end

variable (ρ : Valuation)

theorem evalAll_eq_map (es : List Evolution) : ρ.evalAll es = es.map ρ.eval := by
  induction es with
  | nil => rfl
  | cons e es ih => rw [evalAll, ih, List.map_cons]

@[simp] theorem eval_constant (w : Word) : ρ.eval (.constant w) = w := rfl

@[simp] theorem eval_unknown (v : Value) : ρ.eval (.unknown v) = ρ.value v := rfl

@[simp] theorem eval_sizeOf (t : Ty) : ρ.eval (.sizeOf t) = ρ.size t := rfl

@[simp] theorem eval_zero : ρ.eval .zero = 0 := rfl

@[simp] theorem eval_sum (es : List Evolution) : ρ.eval (.sum es) = (es.map ρ.eval).sum := by
  rw [eval, evalAll_eq_map]

@[simp] theorem eval_product (es : List Evolution) :
    ρ.eval (.product es) = (es.map ρ.eval).prod := by
  rw [eval, evalAll_eq_map]

@[simp] theorem eval_quotient (a b : Evolution) :
    ρ.eval (.quotient a b) = ρ.divide (ρ.eval a) (ρ.eval b) := rfl

@[simp] theorem eval_smax (es : List Evolution) :
    ρ.eval (.smax es) = Word.greatest true (es.map ρ.eval) := by
  rw [eval, evalAll_eq_map]

@[simp] theorem eval_umax (es : List Evolution) :
    ρ.eval (.umax es) = Word.greatest false (es.map ρ.eval) := by
  rw [eval, evalAll_eq_map]

@[simp] theorem eval_recurrence (a : Evolution) (es : List Evolution) (l : Nat) :
    ρ.eval (.recurrence a es l) = ρ.eval a + Word.newton (ρ.rounds l) 1 (es.map ρ.eval) := by
  rw [eval, evalAll_eq_map, Word.newton, Nat.choose_zero_right]
  simp

@[simp] theorem eval_zext (e : Evolution) : ρ.eval (.zext e) = ρ.eval e := rfl

@[simp] theorem eval_sext (e : Evolution) : ρ.eval (.sext e) = ρ.eval e := rfl

@[simp] theorem eval_trunc (e : Evolution) : ρ.eval (.trunc e) = ρ.eval e := rfl

/-- Two valuations give the same to what a node itself speaks about. -/
def AgreeAt (ρ σ : Valuation) : Evolution → Prop
  | .unknown v => ρ.value v = σ.value v
  | .sizeOf t => ρ.size t = σ.size t
  | .alignOf t => ρ.align t = σ.align t
  | .recurrence _ _ l => ρ.rounds l = σ.rounds l
  | .quotient _ _ => ρ.byZero = σ.byZero
  | _ => True

variable {ρ} in
/-- The value of an evolution depends on what occurs in it. -/
theorem eval_congr {σ : Valuation} {e : Evolution} (h : e.Everywhere (AgreeAt ρ σ)) :
    ρ.eval e = σ.eval e := by
  induction h with
  | @node e top _ ih =>
    cases e with
    | sum es | product es | smax es | umax es =>
      have hes : es.map ρ.eval = es.map σ.eval := List.map_congr_left ih
      simp [hes]
    | quotient a b =>
      have ha := ih a (by simp [Evolution.operands])
      have hb := ih b (by simp [Evolution.operands])
      have hzero : ρ.byZero = σ.byZero := top
      simp [ha, hb, divide, hzero]
    | recurrence a es l =>
      have ha := ih a List.mem_cons_self
      have hes : es.map ρ.eval = es.map σ.eval :=
        List.map_congr_left fun c hc => ih c (List.mem_cons_of_mem a hc)
      have hl : ρ.rounds l = σ.rounds l := top
      simp [ha, hes, hl]
    | zext e | sext e | trunc e => simpa using ih e (List.mem_singleton_self e)
    | constant _ | indeterminate => rfl
    | sizeOf _ | alignOf _ | unknown _ => exact top

end Valuation

end GridAccess
