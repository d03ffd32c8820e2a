import Mathlib

/-!
# Calls that may panic

Go's remainder and its indexing of a slice are partial : a zero divisor and a position
outside the slice panic. `Go α` is the outcome of a call that returns or panics, with the
partial operations as functions into it, and `Returns` says that a call returned.

A loop that collects is a `keep`, with `keep_ok` as its rule : if every round returns what a
total test says, the loop returns what the total test keeps.
-/

namespace Panics

/-- Why a call panics. -/
inductive Panic
  | divideByZero
  | indexOutOfRange (index : Int) (length : Nat)
  /-- A call of `panic`. -/
  | raised (text : String)
deriving DecidableEq

/-- The outcome of a call. -/
abbrev Go (α : Type) := Except Panic α

variable {α β : Type}

/-- The call returned. -/
def Returns (x : Go α) : Prop :=
  ∃ a, x = .ok a

@[simp] theorem returns_ok (a : α) : Returns (.ok a : Go α) :=
  ⟨a, rfl⟩

@[simp] theorem not_returns_error (p : Panic) : ¬Returns (.error p : Go α) := by
  rintro ⟨a, h⟩
  cases h

@[simp] theorem ok_bind (a : α) (f : α → Go β) : ((.ok a : Go α) >>= f) = f a :=
  rfl

@[simp] theorem error_bind (p : Panic) (f : α → Go β) :
    ((.error p : Go α) >>= f) = .error p :=
  rfl

@[simp] theorem pure_eq_ok (a : α) : (pure a : Go α) = .ok a :=
  rfl

/-- A call and what follows it return if both do. -/
theorem returns_bind {x : Go α} {f : α → Go β} :
    Returns (x >>= f) ↔ ∃ a, x = .ok a ∧ Returns (f a) := by
  cases x with
  | error | ok => simp

theorem returns_map {x : Go α} {f : α → β} : Returns (f <$> x) ↔ Returns x := by
  cases x with
  | error p => exact iff_of_false (not_returns_error p) (not_returns_error p)
  | ok a => exact iff_of_true (returns_ok (f a)) (returns_ok a)

/-! ## Partial operations -/

/-- The remainder, with the sign of the dividend. -/
def rem (a b : Int) : Go Int :=
  if b = 0 then .error .divideByZero else .ok (a.tmod b)

/-- The element at a position. -/
def get (l : List α) (i : Int) : Go α :=
  if h : 0 ≤ i ∧ i < l.length then .ok (l.get ⟨i.toNat, by omega⟩)
  else .error (.indexOutOfRange i l.length)

def set (l : List α) (i : Int) (a : α) : Go (List α) :=
  if 0 ≤ i ∧ i < l.length then .ok (l.set i.toNat a)
  else .error (.indexOutOfRange i l.length)

/-- On natural numbers the remainder is theirs. -/
theorem rem_natCast {b : Nat} (a : Nat) (h : b ≠ 0) : rem a b = .ok ((a % b : Nat) : Int) := by
  rw [rem, if_neg (by exact_mod_cast h), Int.tmod_eq_emod_of_nonneg (Int.natCast_nonneg a)]
  rfl

/-- A position that is in the list gives its element, -/
theorem get_natCast {l : List α} {i : Nat} {a : α} (h : l[i]? = some a) :
    get l i = .ok a := by
  obtain ⟨hi, rfl⟩ := List.getElem?_eq_some_iff.mp h
  rw [get, dif_pos ⟨Int.natCast_nonneg i, by exact_mod_cast hi⟩]
  rfl

/-- and any other panics. -/
theorem returns_get_natCast {l : List α} {i : Nat} : Returns (get l i) ↔ i < l.length := by
  constructor
  · intro h
    by_contra hi
    rw [get, dif_neg (by omega)] at h
    exact not_returns_error _ h
  · intro hi
    exact ⟨_, get_natCast (List.getElem?_eq_getElem hi)⟩

theorem set_natCast {l : List α} {i : Nat} (a : α) (h : i < l.length) :
    set l i a = .ok (l.set i a) := by
  rw [set, if_pos ⟨Int.natCast_nonneg i, by exact_mod_cast h⟩]
  rfl

/-! ## Loops -/

/-- The elements that pass a test that may panic. -/
def keep (test : α → Go Bool) : List α → Go (List α)
  | [] => .ok []
  | a :: l => do
    let passes ← test a
    let rest ← keep test l
    return if passes then a :: rest else rest

/-- If the test panics on no element, neither does the loop. -/
theorem keep_ok {test : α → Go Bool} {p : α → Bool} : ∀ {l : List α},
    (∀ a ∈ l, test a = .ok (p a)) → keep test l = .ok (l.filter p)
  | [], _ => rfl
  | a :: l, h => by
    rw [keep, h a List.mem_cons_self, ok_bind,
      keep_ok fun b hb => h b (List.mem_cons_of_mem _ hb), ok_bind, List.filter_cons]
    rfl

end Panics
