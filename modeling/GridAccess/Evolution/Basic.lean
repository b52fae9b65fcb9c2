import GridAccess.IR.Ty
import GridAccess.IR.Value

set_option autoImplicit false

/-!
# Evolutions

An evolution says how a value comes about: from constants, from values that are not looked into,
by sums, products, quotients and maxima, and by how far loops have run. All of it is arithmetic
on 64-bit words. A recurrence `recurrence a [b, c] l` is `a + b * n + c * (n choose 2)` after `n`
rounds of loop `l`; with a single step it is affine.
-/

namespace GridAccess

/-- A symbolic value. -/
inductive Evolution where
  | constant (w : Word)
  /-- The size of a type in bytes. -/
  | sizeOf (t : Ty)
  /-- The alignment of a type in bytes. -/
  | alignOf (t : Ty)
  /-- A value that is not looked into. -/
  | unknown (v : Value)
  /-- No evolution is known. -/
  | indeterminate
  | sum (terms : List Evolution)
  | product (factors : List Evolution)
  /-- The unsigned quotient. -/
  | quotient (num den : Evolution)
  /-- The signed maximum. -/
  | smax (operands : List Evolution)
  /-- The unsigned maximum. -/
  | umax (operands : List Evolution)
  /-- A recurrence of a loop: its value at the start and its successive differences there. -/
  | recurrence (start : Evolution) (steps : List Evolution) (loop : Nat)
  | zext (e : Evolution)
  | sext (e : Evolution)
  | trunc (e : Evolution)
deriving Repr, Inhabited

namespace Evolution

/-! ## Equality -/

mutual

/-- Two evolutions are the same term. -/
def beq : Evolution → Evolution → Bool
  | constant w, constant x => w == x
  | sizeOf t, sizeOf u => t == u
  | alignOf t, alignOf u => t == u
  | unknown v, unknown w => v == w
  | indeterminate, indeterminate => true
  | sum es, sum fs => beqList es fs
  | product es, product fs => beqList es fs
  | quotient a b, quotient c d => beq a c && beq b d
  | smax es, smax fs => beqList es fs
  | umax es, umax fs => beqList es fs
  | recurrence a es l, recurrence b fs m => beq a b && beqList es fs && l == m
  | zext e, zext f => beq e f
  | sext e, sext f => beq e f
  | trunc e, trunc f => beq e f
  | _, _ => false

/-- Two lists of evolutions are the same, term by term. -/
def beqList : List Evolution → List Evolution → Bool
  | [], [] => true
  | e :: es, f :: fs => beq e f && beqList es fs
  | _, _ => false

end

mutual

theorem beq_true_iff : (e f : Evolution) → (beq e f = true ↔ e = f)
  | constant w, f => by cases f <;> simp [beq]
  | sizeOf t, f => by cases f <;> simp [beq]
  | alignOf t, f => by cases f <;> simp [beq]
  | unknown v, f => by cases f <;> simp [beq]
  | indeterminate, f => by cases f <;> simp [beq]
  | sum es, f => by cases f <;> simp [beq, beqList_true_iff es]
  | product es, f => by cases f <;> simp [beq, beqList_true_iff es]
  | quotient a b, f => by cases f <;> simp [beq, beq_true_iff a, beq_true_iff b]
  | smax es, f => by cases f <;> simp [beq, beqList_true_iff es]
  | umax es, f => by cases f <;> simp [beq, beqList_true_iff es]
  | recurrence a es l, f => by
    cases f <;> simp [beq, beq_true_iff a, beqList_true_iff es, and_assoc]
  | zext e, f => by cases f <;> simp [beq, beq_true_iff e]
  | sext e, f => by cases f <;> simp [beq, beq_true_iff e]
  | trunc e, f => by cases f <;> simp [beq, beq_true_iff e]

theorem beqList_true_iff : (es fs : List Evolution) → (beqList es fs = true ↔ es = fs)
  | [], fs => by cases fs <;> simp [beqList]
  | e :: es, fs => by cases fs <;> simp [beqList, beq_true_iff e, beqList_true_iff es]

end

instance : DecidableEq Evolution := fun e f => decidable_of_iff (beq e f = true) (beq_true_iff e f)

/-! ## Looking at an evolution -/

/-- The constant zero. -/
def zero : Evolution := constant 0

/-- The word of a constant. -/
def constant? : Evolution → Option Word
  | constant w => some w
  | _ => none

/-- No evolution is known. -/
def isIndeterminate : Evolution → Bool
  | indeterminate => true
  | _ => false

/-- The loop of a recurrence. -/
def loop? : Evolution → Option Nat
  | recurrence _ _ l => some l
  | _ => none

/-- The difference between two rounds of a recurrence with these steps: the only step of an affine
one, else a recurrence of the same loop. -/
def stepOf (steps : List Evolution) (loop : Nat) : Evolution :=
  match steps with
  | [] => zero
  | [s] => s
  | s :: rest => recurrence s rest loop

/-- The place of an evolution among operands: constants first, recurrences last. -/
def rank : Evolution → Nat
  | constant _ => 0
  | sizeOf _ => 1
  | alignOf _ => 2
  | unknown _ => 3
  | zext _ => 4
  | sext _ => 5
  | trunc _ => 6
  | sum _ => 7
  | product _ => 8
  | quotient _ _ => 9
  | smax _ => 10
  | umax _ => 11
  | recurrence _ _ _ => 12
  | indeterminate => 13

/-! ## Text -/

/-- The text of a value that is not looked into. -/
def unknownText : Value → String
  | .argument i => "%arg" ++ toString i
  | .instruction i => "%" ++ toString i
  | .constant c => c.text

mutual

/-- The text of an evolution. -/
def text : Evolution → String
  | constant w => w.text
  | sizeOf t => "sizeof(" ++ t.text ++ ")"
  | alignOf t => "alignof(" ++ t.text ++ ")"
  | unknown v => unknownText v
  | indeterminate => "***COULDNOTCOMPUTE***"
  | sum es => "(" ++ textList " + " es ++ ")"
  | product es => "(" ++ textList " * " es ++ ")"
  | quotient a b => "(" ++ a.text ++ " /u " ++ b.text ++ ")"
  | smax es => "(smax " ++ textList ", " es ++ ")"
  | umax es => "(umax " ++ textList ", " es ++ ")"
  | recurrence a es l =>
    "\x7b" ++ a.text ++ textSteps es ++ "\x7d<loop" ++ toString l ++ ">"
  | zext e => "(zext " ++ e.text ++ ")"
  | sext e => "(sext " ++ e.text ++ ")"
  | trunc e => "(trunc " ++ e.text ++ ")"

/-- The texts of operands with a separator between them. -/
def textList (sep : String) : List Evolution → String
  | [] => ""
  | [e] => e.text
  | e :: es => e.text ++ sep ++ textList sep es

/-- The texts of the steps of a recurrence, each after a sign. -/
def textSteps : List Evolution → String
  | [] => ""
  | e :: es => ",+," ++ e.text ++ textSteps es

end

/-! ## Size of the folding work -/

mutual

/-- How deep recurrences are nested in the terms and factors of an evolution, added up over them.
Folding never raises it. -/
def weight : Evolution → Nat
  | sum es => weights es
  | product es => weights es
  | recurrence a es _ => max a.weight (greatestWeight es) + 1
  | _ => 0

/-- The weights of operands, added up. -/
def weights : List Evolution → Nat
  | [] => 0
  | e :: es => e.weight + weights es

/-- The greatest weight of the steps of a recurrence. -/
def greatestWeight : List Evolution → Nat
  | [] => 0
  | e :: es => max e.weight (greatestWeight es)

end

end Evolution

end GridAccess
