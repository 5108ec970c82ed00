import Mathlib.Tactic.Ring
import StableCoin.Platform

/-!
# Python values

What the governance contract uses of its language: the exceptions it can
raise, the values `json_loads` gives and `json_dumps` takes with the ways
the code reads them, and hexadecimal.

A document stands for its JSON text: nothing here depends on how the text
is laid out. An access to a value of another shape raises `TypeError`, as
it does in the code.
-/

namespace Python

open StableCoin (Bytes)

inductive Exception where
  | keyError
  | typeError
  | valueError
  | attributeError
  | overflowError
  | unboundLocalError
deriving DecidableEq, Repr

section

variable {ε α β : Type}

@[simp] theorem ok_bind (a : α) (f : α → Except ε β) : (Except.ok a >>= f) = f a := rfl

@[simp] theorem error_bind (e : ε) (f : α → Except ε β) :
    ((Except.error e : Except ε α) >>= f) = .error e := rfl

/-- A computation in two parts succeeds when both do. -/
theorem bind_eq_ok {x : Except ε α} {f : α → Except ε β} {b : β} :
    (x >>= f) = .ok b ↔ ∃ a, x = .ok a ∧ f a = .ok b := by
  cases x <;> simp

theorem map_eq_ok {x : Except ε α} {f : α → β} {b : β} :
    f <$> x = .ok b ↔ ∃ a, x = .ok a ∧ f a = b := by
  cases x <;> simp

theorem pure_eq_ok (a : α) : (pure a : Except ε α) = .ok a := rfl

end

/-! ## Documents -/

inductive Json where
  | null
  | bool (b : Bool)
  | int (n : Int)
  | float (bits : BitVec 64)
  | str (s : String)
  | list (xs : List Json)
  | dict (items : List (String × Json))
deriving Repr

namespace Json

/-- `value[key]`. -/
def getItem (value : Json) (key : String) : Except Exception Json :=
  match value with
  | .dict items =>
      match items.lookup key with
      | some v => .ok v
      | none => .error .keyError
  | _ => .error .typeError

def asInt : Json → Except Exception Int
  | .int n => .ok n
  | _ => .error .typeError

def asStr : Json → Except Exception String
  | .str s => .ok s
  | _ => .error .typeError

def asList : Json → Except Exception (List Json)
  | .list xs => .ok xs
  | _ => .error .typeError

/-- `value.items()`. -/
def items : Json → Except Exception (List (String × Json))
  | .dict items => .ok items
  | _ => .error .attributeError

/-- `isinstance(value, str)`. -/
def isStr : Json → Bool
  | .str _ => true
  | _ => false

/-- The argument for the parameter `name` in a call with `**value`. -/
def argument (value : Json) (name : String) : Except Exception Json :=
  match value with
  | .dict items =>
      match items.lookup name with
      | some v => .ok v
      | none => .error .typeError
  | _ => .error .typeError

/-- In a call with `**value`, every key has to be one of the parameters. -/
def onlyKeys (names : List String) : Json → Except Exception Unit
  | .dict items =>
      if items.all fun item => names.contains item.1 then .ok ()
      else .error .typeError
  | _ => .error .typeError

/-- The double is no number, other than the one that Python reads. -/
def otherNaN (bits : BitVec 64) : Bool :=
  0x7ff0000000000000 < (bits &&& 0x7fffffffffffffff).toNat && bits != 0x7ff8000000000000

/-- What a text can stand for: no key of a dictionary comes twice, and there
is one `NaN`. -/
inductive Valid : Json → Prop
  | null : Valid .null
  | bool (b : Bool) : Valid (.bool b)
  | int (n : Int) : Valid (.int n)
  | float {bits : BitVec 64} (h : otherNaN bits = false) : Valid (.float bits)
  | str (s : String) : Valid (.str s)
  | list {xs : List Json} (h : ∀ x ∈ xs, Valid x) : Valid (.list xs)
  | dict {items : List (String × Json)} (hkeys : (items.map Prod.fst).Nodup)
      (h : ∀ item ∈ items, Valid item.2) : Valid (.dict items)

section

variable {key key' : String} {v : Json} {items : List (String × Json)}

@[simp] theorem getItem_self : (dict ((key, v) :: items)).getItem key = .ok v := by
  simp [getItem]

@[simp] theorem getItem_of_ne (h : key ≠ key') :
    (dict ((key', v) :: items)).getItem key = (dict items).getItem key := by
  simp [getItem, List.lookup_cons, beq_false_of_ne h]

@[simp] theorem argument_self : (dict ((key, v) :: items)).argument key = .ok v := by
  simp [argument]

@[simp] theorem argument_of_ne (h : key ≠ key') :
    (dict ((key', v) :: items)).argument key = (dict items).argument key := by
  simp [argument, List.lookup_cons, beq_false_of_ne h]

end

end Json

/-! ## Hexadecimal -/

def hexDigit (n : Nat) : Char := Nat.digitChar n

def isSpace (c : Char) : Bool := c == ' ' || (9 ≤ c.toNat && c.toNat ≤ 13)

def hexValue (c : Char) : Option Nat :=
  if '0' ≤ c ∧ c ≤ '9' then some (c.toNat - '0'.toNat)
  else if 'a' ≤ c ∧ c ≤ 'f' then some (c.toNat - 'a'.toNat + 10)
  else if 'A' ≤ c ∧ c ≤ 'F' then some (c.toNat - 'A'.toNat + 10)
  else none

def hexChars (bs : Bytes) : List Char :=
  bs.flatMap fun b => [hexDigit (b.toNat / 16), hexDigit (b.toNat % 16)]

/-- `bytes.hex(bs)`. -/
def bytesHex (bs : Bytes) : String := String.ofList (hexChars bs)

/-- Space between two bytes is skipped. -/
def fromHexChars : List Char → Option Bytes
  | [] => some []
  | [c] => if isSpace c then some [] else none
  | c :: d :: cs =>
      if isSpace c then fromHexChars (d :: cs)
      else match hexValue c, hexValue d with
        | some x, some y => (fromHexChars cs).map (UInt8.ofNat (16 * x + y) :: ·)
        | _, _ => none

/-- `bytes.fromhex(s)`. -/
def bytesFromHex (s : String) : Except Exception Bytes :=
  match fromHexChars s.toList with
  | some bs => .ok bs
  | none => .error .valueError

/-- The last `n` hexadecimal digits of `x`. -/
def hexDigits : Nat → Nat → List Char
  | 0, _ => []
  | n + 1, x => hexDigit (x / 16 ^ n % 16) :: hexDigits n x

/-- The number with these hexadecimal digits. -/
def readHex (cs : List Char) : Nat :=
  cs.foldl (fun n c => 16 * n + (hexValue c).getD 0) 0

/-- `hex(n)`. -/
def hex (n : Int) : String :=
  (if n < 0 then "-0x" else "0x") ++ String.ofList (Nat.toDigits 16 n.natAbs)

theorem length_hexDigits (n x : Nat) : (hexDigits n x).length = n := by
  induction n with
  | zero => rfl
  | succ n ih => simp [hexDigits, ih]

theorem hexValue_hexDigit : ∀ n < 16, hexValue (hexDigit n) = some n := by
  decide

theorem isSpace_hexDigit : ∀ n < 16, isSpace (hexDigit n) = false := by
  decide

theorem fromHexChars_hexChars (bs : Bytes) : fromHexChars (hexChars bs) = some bs := by
  induction bs with
  | nil => rfl
  | cons b bs ih =>
      have hb := b.toNat_lt
      have hhigh : b.toNat / 16 < 16 := by omega
      have hlow : b.toNat % 16 < 16 := by omega
      have hbyte : 16 * (b.toNat / 16) + b.toNat % 16 = b.toNat := Nat.div_add_mod ..
      rw [hexChars] at ih
      simp [hexChars, fromHexChars, hexValue_hexDigit _ hhigh, hexValue_hexDigit _ hlow,
        isSpace_hexDigit _ hhigh, ih, hbyte]

/-- What `hex` writes, `fromhex` reads. -/
@[simp] theorem bytesFromHex_bytesHex (bs : Bytes) : bytesFromHex (bytesHex bs) = .ok bs := by
  simp [bytesFromHex, bytesHex, fromHexChars_hexChars]

theorem readHex_hexDigits (n x : Nat) : readHex (hexDigits n x) = x % 16 ^ n := by
  have hfold : ∀ m, (hexDigits n x).foldl (fun m c => 16 * m + (hexValue c).getD 0) m
      = 16 ^ n * m + x % 16 ^ n := by
    induction n with
    | zero => simp [hexDigits, Nat.mod_one]
    | succ n ih =>
        intro m
        have hvalue := hexValue_hexDigit (x / 16 ^ n % 16) (Nat.mod_lt _ (by decide))
        rw [hexDigits, List.foldl_cons, hvalue, Option.getD_some, ih, pow_succ, Nat.mod_mul]
        ring
  rw [readHex, hfold, mul_zero, zero_add]

end Python
