import Mathlib.Data.BitVec
import Mathlib.Data.Fintype.EquivFin
import Mathlib.Data.Finite.Prod
import StableCoin.Outcome

/-!
# The platform

What the contract uses of its host: account addresses, the persistent
database types, the ways a call can abort, the call context, and the
effects of a call - storage writes, event logs, the share of the
transaction fee the contract offers to pay, and external calls.

Database reads return Java references, so they are `Option`s here and
`deref` is where the code uses one as a value.
-/

namespace StableCoin

open Reentrancy

/-! ## Addresses -/

/-- An account: 20 bytes behind a prefix that says whether it is a
contract. -/
structure Address where
  isContract : Bool
  body : BitVec 160
deriving DecidableEq, Repr

namespace Address

/-- `hx` or `cx` and forty hexadecimal digits. -/
def toString (a : Address) : String :=
  (if a.isContract then "cx" else "hx") ++ a.body.toHex

instance : Finite Address :=
  have : Finite (BitVec 160) := .of_equiv _ BitVec.equivFin.toEquiv.symm
  Finite.of_injective (fun a : Address => (a.isContract, a.body)) fun a b h => by
    cases a
    cases b
    simpa using h

-- Only sums over all accounts use this: nothing evaluates the enumeration.
noncomputable instance : Fintype Address := Fintype.ofFinite Address

end Address

/-- `new Address(new byte[21])`. -/
def EOA_ZERO : Address := ⟨false, 0⟩

/-! ## Databases -/

/-- A persistent cell; `none` is a cell that was never written. -/
abbrev VarDB (α : Type) := Option α

/-- A persistent map; `none` where nothing was ever written. -/
abbrev DictDB (κ ν : Type) := κ → Option ν

/-- A persistent map of maps. -/
abbrev BranchDB (κ : Type) (δ : Type) := κ → δ

/-- A persistent array. -/
abbrev ArrayDB (α : Type) := List α

namespace DictDB

variable {κ ν : Type}

def getOrDefault (d : DictDB κ ν) (k : κ) (v : ν) : ν := (d k).getD v

def set [DecidableEq κ] (d : DictDB κ ν) (k : κ) (v : ν) : DictDB κ ν :=
  Function.update d k (some v)

@[simp] theorem set_self [DecidableEq κ] (d : DictDB κ ν) (k : κ) (v : ν) :
    d.set k v k = some v := Function.update_self ..

theorem set_of_ne [DecidableEq κ] (d : DictDB κ ν) {k k' : κ} (h : k' ≠ k)
    (v : ν) : d.set k v k' = d k' := Function.update_of_ne h ..

/-- A write changes only what it writes to. -/
theorem eq_of_set_ne [DecidableEq κ] {d : DictDB κ ν} {k k' : κ} {v : ν}
    (h : d.set k v k' ≠ d k') : k' = k := by
  by_contra hne
  exact h (set_of_ne d hne v)

@[simp] theorem getOrDefault_set_self [DecidableEq κ] (d : DictDB κ ν) (k : κ)
    (v v' : ν) : (d.set k v).getOrDefault k v' = v := by
  simp [getOrDefault]

theorem getOrDefault_set_of_ne [DecidableEq κ] (d : DictDB κ ν) {k k' : κ}
    (h : k' ≠ k) (v v' : ν) :
    (d.set k v).getOrDefault k' v' = d.getOrDefault k' v' := by
  simp [getOrDefault, set_of_ne d h]

end DictDB

namespace BranchDB

variable {κ δ : Type}

/-- Write to the map at `k`. -/
def update [DecidableEq κ] (d : BranchDB κ δ) (k : κ) (f : δ → δ) :
    BranchDB κ δ := Function.update d k (f (d k))

@[simp] theorem update_self [DecidableEq κ] (d : BranchDB κ δ) (k : κ)
    (f : δ → δ) : d.update k f k = f (d k) := Function.update_self ..

theorem update_of_ne [DecidableEq κ] (d : BranchDB κ δ) {k k' : κ}
    (h : k' ≠ k) (f : δ → δ) : d.update k f k' = d k' :=
  Function.update_of_ne h ..

/-- Writing to one map keeps what holds of all. -/
theorem forall_update [DecidableEq κ] {P : δ → Prop} {d : BranchDB κ δ} {k : κ}
    {f : δ → δ} (h : ∀ k', P (d k')) (hk : P (f (d k))) (k' : κ) :
    P (d.update k f k') := by
  by_cases hkk : k' = k
  · subst hkk
    rw [update_self]
    exact hk
  · rw [update_of_ne d hkk]
    exact h k'

end BranchDB

namespace ArrayDB

variable {α : Type}

def size (xs : ArrayDB α) : Nat := xs.length

def get (xs : ArrayDB α) (i : Nat) : Option α := xs[i]?

def add (xs : ArrayDB α) (x : α) : ArrayDB α := xs ++ [x]

def set (xs : ArrayDB α) (i : Nat) (x : α) : ArrayDB α := List.set xs i x

/-- The last element and the array without it. -/
def pop (xs : ArrayDB α) : Option (α × ArrayDB α) :=
  xs.getLast?.map fun x => (x, xs.dropLast)

end ArrayDB

/-- `BigInteger.intValue`: the low 32 bits, as a signed number. -/
def intValue (n : Int) : Int := (BitVec.ofInt 32 n).toInt

/-! ## Calls and their effects -/

abbrev Bytes := List UInt8

def getBytes (s : String) : Bytes := s.toUTF8.toList

/-- Why a call aborted: a `require` that failed, a null reference used as
a value, or `pop` on an empty array. -/
inductive Abort where
  | revert (message : String)
  | nullPointer
  | emptyArray
deriving DecidableEq, Repr

/-- Who called, and in which block. -/
structure Context where
  caller : Address
  blockHeight : Int

/-- The external call `tokenFallback(_from, _value, _data)` on `target`. -/
structure Fallback where
  target : Address
  src : Address
  value : Int
  data : Bytes

end StableCoin
