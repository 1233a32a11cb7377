import Curs3d.Core.Types

/-!
# JSON values

What `serde_json` makes of a text, and writes as one: the tree, with the fields of an object in the order of
the text. Numbers are the integers; nothing here reads a fraction. The text itself is `serde_json`'s: its
two functions are a parameter (`SerdeJson`).
-/

set_option autoImplicit false

namespace Curs3d

inductive Json where
  | null
  | bool (b : Bool)
  | number (n : Int)
  | string (t : Text)
  | array (elements : List Json)
  | object (fields : List (String × Json))

/-- `serde_json::to_string` and `serde_json::from_slice`, up to the tree. -/
structure SerdeJson where
  toString : Json → Text
  fromSlice : Text → Option Json

namespace Json

/-! ## Reading, as the derived `Deserialize` does -/

def readText : Json → Option Text
  | string t => some t
  | _ => none

def readU8 : Json → Option UInt8
  | number n => if 0 ≤ n ∧ n < 256 then some (UInt8.ofNat n.toNat) else none
  | _ => none

def readU64 : Json → Option Nat
  | number n => if 0 ≤ n ∧ n < 18446744073709551616 then some n.toNat else none
  | _ => none

def readI64 : Json → Option Int
  | number n => if -9223372036854775808 ≤ n ∧ n < 9223372036854775808 then some n else none
  | _ => none

/-- `Vec<u8>`: an array of numbers. -/
def readBytes : Json → Option Bytes
  | array elements => elements.mapM readU8
  | _ => none

def readOption {α : Type} (read : Json → Option α) : Json → Option (Option α)
  | null => some none
  | v => (read v).map some

/-- A field that must be there. A field that is there twice is an error. -/
def required {α : Type} (fields : List (String × Json)) (name : String) (read : Json → Option α) :
    Option α :=
  match fields.filter fun field => field.1 = name with
  | [field] => read field.2
  | _ => none

/-- A field under `#[serde(default)]`, or of type `Option`. -/
def withDefault {α : Type} (fields : List (String × Json)) (name : String) (read : Json → Option α)
    (byDefault : α) : Option α :=
  match fields.filter fun field => field.1 = name with
  | [] => some byDefault
  | [field] => read field.2
  | _ => none

/-! ## Writing, as the derived `Serialize` does -/

def ofBytes (b : Bytes) : Json := array (b.map fun x => number x.toNat)

def ofOption {α : Type} (write : α → Json) : Option α → Json
  | none => null
  | some a => write a

/-! ## What is written is read back -/

@[simp] theorem readU8_number (x : UInt8) : readU8 (number x.toNat) = some x := by
  have hx := x.toNat_lt
  simp [readU8, hx]

@[simp] theorem readBytes_ofBytes (b : Bytes) : readBytes (ofBytes b) = some b := by
  simp only [readBytes, ofBytes]
  induction b with
  | nil => rfl
  | cons x b ih => rw [List.map_cons, List.mapM_cons, readU8_number, ih]; rfl

theorem readU64_number {n : Nat} (h : n < 18446744073709551616) : readU64 (number n) = some n := by
  simp only [readU64]
  rw [if_pos ⟨Int.natCast_nonneg n, by exact_mod_cast h⟩, Int.toNat_natCast]

theorem readI64_number {i : Int} (h : -9223372036854775808 ≤ i) (h' : i < 9223372036854775808) :
    readI64 (number i) = some i := if_pos ⟨h, h'⟩

end Json
end Curs3d
