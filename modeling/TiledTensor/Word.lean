import TiledTensor.Fault

/-!
# Arithmetic on machine words

Extents, offsets and counts are natural numbers below `Word.limit`. Each operation faults where
its result would leave that range, so a result that is returned is the exact one.
-/

namespace TiledTensor.Word

/-- Words are the natural numbers below `2 ^ 64`. -/
def limit : Nat := 0x10000000000000000

def add (a b : Nat) : Except Fault Nat :=
  if a + b < limit then .ok (a + b) else .error .overflow

def mul (a b : Nat) : Except Fault Nat :=
  if a * b < limit then .ok (a * b) else .error .overflow

/-- A difference leaves the range exactly when it would be negative. -/
def sub (a b : Nat) : Except Fault Nat :=
  if b ≤ a then .ok (a - b) else .error .overflow

def div (a b : Nat) : Except Fault Nat :=
  if b = 0 then .error .divisionByZero else .ok (a / b)

def mod (a b : Nat) : Except Fault Nat :=
  if b = 0 then .error .divisionByZero else .ok (a % b)

/-- Product from left to right, started at `acc`; a partial product may fault although a later
zero would make the whole one small. -/
def productFrom (acc : Nat) : List Nat → Except Fault Nat
  | [] => .ok acc
  | x :: xs => do productFrom (← mul acc x) xs

def product (xs : List Nat) : Except Fault Nat := productFrom 1 xs

/-- Sum of the products of two lists read in step, started at `acc`. -/
def dotFrom (acc : Nat) : List Nat → List Nat → Except Fault Nat
  | [], [] => .ok acc
  | x :: xs, y :: ys => do dotFrom (← add acc (← mul x y)) xs ys
  | _, _ => .error .unequalLengths

def dot (xs ys : List Nat) : Except Fault Nat := dotFrom 0 xs ys

/-- Sums of two lists read in step. -/
def addEach : List Nat → List Nat → Except Fault (List Nat)
  | [], [] => .ok []
  | x :: xs, y :: ys => do
    let z ← add x y
    return z :: (← addEach xs ys)
  | _, _ => .error .unequalLengths

/-- Products of two lists read in step. -/
def mulEach : List Nat → List Nat → Except Fault (List Nat)
  | [], [] => .ok []
  | x :: xs, y :: ys => do
    let z ← mul x y
    return z :: (← mulEach xs ys)
  | _, _ => .error .unequalLengths

theorem add_eq_ok_iff {a b c : Nat} : add a b = .ok c ↔ a + b < limit ∧ c = a + b := by
  by_cases h : a + b < limit <;> simp [add, h, eq_comm]

theorem mul_eq_ok_iff {a b c : Nat} : mul a b = .ok c ↔ a * b < limit ∧ c = a * b := by
  by_cases h : a * b < limit <;> simp [mul, h, eq_comm]

theorem sub_eq_ok_iff {a b c : Nat} : sub a b = .ok c ↔ b ≤ a ∧ c = a - b := by
  by_cases h : b ≤ a <;> simp [sub, h, eq_comm]

end TiledTensor.Word
