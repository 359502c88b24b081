import Mathlib

/-! Kernel code that can stop: a fault replaces the result of the call. -/
namespace Quest

/-- What can stop the modelled kernel code.  `diverges` is reported by a loop
whose fuel ran out. -/
inductive Fault where
  | panic (message : String)
  | nullDereference
  | outOfBounds
  | pageFault
  | diverges
  deriving DecidableEq, Repr

def deref {α : Type} : Option α → Except Fault α
  | none => .error .nullDereference
  | some x => .ok x

@[simp] theorem deref_some {α : Type} (x : α) : deref (some x) = .ok x := rfl

theorem deref_eq_ok {α : Type} {pointer : Option α} {x : α} :
    deref pointer = .ok x ↔ pointer = some x := by
  cases pointer with
  | none => simp [deref]
  | some y => simp

def terminated {α : Type} : Option α → Except Fault α
  | none => .error .diverges
  | some x => .ok x

@[simp] theorem terminated_some {α : Type} (x : α) : terminated (some x) = .ok x := rfl

theorem ok_bind {α β : Type} (x : α) (f : α → Except Fault β) : (Except.ok x >>= f) = f x := rfl

theorem bind_eq_ok {α β : Type} {x : Except Fault α} {f : α → Except Fault β} {y : β} :
    (x >>= f) = .ok y ↔ ∃ a, x = .ok a ∧ f a = .ok y := by
  cases x with
  | error fault => simp [bind, Except.bind]
  | ok a => simp [bind, Except.bind]

theorem map_eq_ok {α β : Type} {f : α → β} {x : Except Fault α} {y : β} :
    f <$> x = .ok y ↔ ∃ a, x = .ok a ∧ f a = y := by
  cases x with
  | error fault => simp [Functor.map, Except.map]
  | ok a => simp [Functor.map, Except.map]

def toInt (x : Nat) : Int := if x < 2 ^ 31 then x else (x : Int) - 2 ^ 32

def wrap (x : Int) : Int := x.bmod (2 ^ 32)

theorem wrap_eq {x : Int} (h : -2 ^ 31 ≤ x) (h' : x < 2 ^ 31) : wrap x = x :=
  Int.bmod_eq_of_le (by omega) (by omega)

theorem wrap_le {x : Int} (h : 0 ≤ x) : wrap x ≤ x := by
  rw [wrap, Int.bmod_def]
  split <;> omega

theorem wrap_wrap_add (a b : Int) : wrap (wrap a + b) = wrap (a + b) := Int.bmod_add_bmod ..

theorem wrap_emod (x : Int) : wrap x % 2 ^ 32 = x % 2 ^ 32 := Int.bmod_emod

/-! Strings and the arguments of a call with variable arguments. -/

/-- The character at `i`; the NUL behind a string is the last one that may be read. -/
def charAt (s : List UInt8) (i : Nat) : Except Fault UInt8 :=
  match s[i]? with
  | some c => .ok c
  | none => if i = s.length then .ok 0 else .error .outOfBounds

theorem charAt_cons {s rest : List UInt8} {c : UInt8} {i : Nat} (h : s.drop i = c :: rest) :
    charAt s i = .ok c ∧ s.drop (i + 1) = rest := by
  have hc : s[i]? = some c := by
    rw [← List.head?_drop, h, List.head?_cons]
  refine ⟨by rw [charAt, hc], ?_⟩
  rw [← List.drop_drop, h, List.drop_succ_cons, List.drop_zero]

theorem charAt_length (s : List UInt8) : charAt s s.length = .ok 0 := by
  rw [charAt, List.getElem?_eq_none (Nat.le_refl _)]
  exact if_pos rfl

theorem charAt_beyond {s : List UInt8} {i : Nat} (h : s.length < i) :
    charAt s i = .error .outOfBounds := by
  rw [charAt, List.getElem?_eq_none (Nat.le_of_lt h)]
  exact if_neg (Nat.ne_of_gt h)

def nextArg : List (BitVec 32) → Except Fault (BitVec 32 × List (BitVec 32))
  | [] => .error .outOfBounds
  | arg :: args => .ok (arg, args)

end Quest
