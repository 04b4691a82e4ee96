import Mathlib

/-!
# What a listener makes of a path

`request_listen` tells three kinds of requests apart by the path: `sscanf(path, "/%d/", &priority)`
returns `1` as soon as the number after the slash is read, whatever follows it.

* **`scanPriority`** — the value stored by that `sscanf`, when it returns `1`.
* **`classify`** — the branch taken by the listener.
-/

namespace OperatingSystems.Proxy

/-- `isspace` in the C locale. -/
def isSpace (c : Char) : Bool :=
  c = ' ' || (9 ≤ c.toNat && c.toNat ≤ 13)

/-- The value of a string of decimal digits. -/
def digitsValue (digits : List Char) : ℤ :=
  digits.foldl (fun v c => 10 * v + ((c.toNat : ℤ) - '0'.toNat)) 0

/-- The leading digits of the text, if there are any. -/
def scanDigits (text : List Char) : Option ℤ :=
  match text.takeWhile Char.isDigit with
  | [] => none
  | digits => some (digitsValue digits)

/-- What `%d` stores for an integer: `strtol` clamps to `long`, the assignment keeps 32 bits. -/
def storeInt (v : ℤ) : ℤ :=
  Int.bmod (max (-2 ^ 63) (min (2 ^ 63 - 1) v)) (2 ^ 32)

/-- `%d`: white space, an optional sign, digits. -/
def scanInt (text : List Char) : Option ℤ :=
  match text.dropWhile isSpace with
  | '-' :: rest => (scanDigits rest).map fun v => storeInt (-v)
  | '+' :: rest => (scanDigits rest).map storeInt
  | rest => (scanDigits rest).map storeInt

/-- `sscanf(path, "/%d/", &request_priority)`; `none` is any result but `1`. -/
def scanPriority : List Char → Option ℤ
  | '/' :: rest => scanInt rest
  | _ => none

/-- `GETJOBCMD`. -/
def getJobPath : List Char := ['/', 'G', 'e', 't', 'J', 'o', 'b']

/-- The three kinds of requests. -/
inductive RequestKind
  | worker (priority : ℤ)
  | getJob
  | unknown
deriving DecidableEq

/-- The branch that `request_listen` takes. -/
def classify (path : List Char) : RequestKind :=
  match scanPriority path with
  | some priority => .worker priority
  | none => if path = getJobPath then .getJob else .unknown

/-- A priority is read with its sign, and what follows the number does not matter. -/
example : classify ['/', '-', '1', '2', 'x'] = .worker (-12) := by decide

/-- What `%d` stores is an `int`. -/
theorem storeInt_range (v : ℤ) : -2 ^ 31 ≤ storeInt v ∧ storeInt v < 2 ^ 31 := by
  have h₁ := Int.le_bmod (x := max (-2 ^ 63) (min (2 ^ 63 - 1) v)) (m := 2 ^ 32) (by decide)
  have h₂ := Int.bmod_lt (x := max (-2 ^ 63) (min (2 ^ 63 - 1) v)) (m := 2 ^ 32) (by decide)
  rw [storeInt]
  omega

end OperatingSystems.Proxy
