import NeonWrt.Lib.CString

/-!
# Values of ucode scripts

The values that ucode scripts get from JSON, and what a script sees of them: the
type of a value and what it reads along a path of keys and indices. A missing key
reads null, so an object with a null under a key and one without the key are the
same to a script that reads them.
-/

namespace NeonWrt.Lib

/-- A value of ucode. A double is kept as its bits. -/
inductive UcodeValue
  | null
  | bool (b : Bool)
  | int (n : ℤ)
  | double (bits : UInt64)
  | string (s : Bytes)
  | array (items : List UcodeValue)
  | object (members : List (Bytes × UcodeValue))

/-- The bits of a double that is not a number. -/
def isNaN (bits : UInt64) : Bool := 0x7FF0000000000000 < bits &&& 0x7FFFFFFFFFFFFFFF

/-- The bits of a double without the sign of a zero. -/
def plainZero (bits : UInt64) : UInt64 := if bits = 0x8000000000000000 then 0 else bits

/-- `==` on doubles. -/
def doubleEq (a b : UInt64) : Bool := !isNaN a && !isNaN b && plainZero a == plainZero b

namespace UcodeValue

/-- Truth of a value in a condition. -/
def truthy : UcodeValue → Bool
  | null => false
  | bool b => b
  | int n => n ≠ 0
  | double bits => !isNaN bits && plainZero bits ≠ 0
  | string s => s ≠ []
  | _ => true

/-- The value under a key of the members of an object. -/
def member (members : List (Bytes × UcodeValue)) (key : Bytes) : UcodeValue :=
  ((members.find? (·.1 = key)).map (·.2)).getD null

/-- A key of an object or an index of an array. -/
inductive Selector
  | key (k : Bytes)
  | item (i : ℕ)

/-- What a selector reads. -/
def get : Selector → UcodeValue → UcodeValue
  | .key k, object members => member members k
  | .item i, array items => items[i]?.getD null
  | _, _ => null

/-- What a script sees of a value without reading inside it. -/
inductive Shape
  | null
  | bool (b : Bool)
  | int (n : ℤ)
  | double (bits : UInt64)
  | string (s : Bytes)
  | array (length : ℕ)
  | object
  deriving DecidableEq

def shape : UcodeValue → Shape
  | null => .null
  | bool b => .bool b
  | int n => .int n
  | double bits => .double (plainZero bits)
  | string s => .string s
  | array items => .array items.length
  | object _ => .object

/-- What a script sees at the end of a path. -/
def reads (v : UcodeValue) : List Selector → Shape
  | [] => v.shape
  | s :: path => (v.get s).reads path

/-- No path tells the two values apart. -/
def SameReads (a b : UcodeValue) : Prop := ∀ path, a.reads path = b.reads path

theorem SameReads.refl (a : UcodeValue) : SameReads a a := fun _ => rfl

theorem SameReads.trans {a b c : UcodeValue} (hab : SameReads a b) (hbc : SameReads b c) :
    SameReads a c :=
  fun path => (hab path).trans (hbc path)

/-- A relation between values that look alike, and whose parts are related again,
relates only values that read the same. -/
theorem SameReads.of_bisimulation {R : UcodeValue → UcodeValue → Prop}
    (hshape : ∀ {a b}, R a b → a.shape = b.shape)
    (hget : ∀ {a b}, R a b → ∀ s, R (a.get s) (b.get s)) {a b : UcodeValue} (h : R a b) :
    SameReads a b := by
  intro path
  induction path generalizing a b with
  | nil => exact hshape h
  | cons s path ih => exact ih (hget h s)

/-- A member reads what its entry holds, and a key without an entry reads null. -/
theorem member_eq_null {members : List (Bytes × UcodeValue)} {key : Bytes}
    (h : key ∉ members.map (·.1)) : member members key = null := by
  have hnone : members.find? (·.1 = key) = none := by
    rw [List.find?_eq_none]
    intro m hm heq
    exact h (List.mem_map.mpr ⟨m, hm, by simpa using heq⟩)
  rw [member, hnone]
  rfl

@[simp] theorem member_nil (key : Bytes) : member [] key = null := rfl

theorem member_cons (m : Bytes × UcodeValue) (members : List (Bytes × UcodeValue)) (key : Bytes) :
    member (m :: members) key = if m.1 = key then m.2 else member members key := by
  rw [member, List.find?_cons]
  by_cases h : m.1 = key
  · simp [h]
  · simp [h, member]

end UcodeValue

end NeonWrt.Lib
