/-
# JSON documents

A document as a value: an object is a list of fields, and writing a field
replaces the field of that name or appends a new one. `pretty` is the text of a
document in several lines, the fields of an object by name.
-/

import Mathlib.Data.Int.Notation
import Mathlib.Data.Nat.Notation
import Mathlib.Tactic.Cases

namespace SocketTrail.Foundation

inductive Json
  | null
  | bool (b : Bool)
  | num (n : ℤ)
  | str (s : String)
  | arr (items : List Json)
  | obj (fields : List (String × Json))

namespace Json

/-- Write one field of a list of fields. -/
def put (key : String) (value : Json) : List (String × Json) → List (String × Json)
  | [] => [(key, value)]
  | field :: rest =>
      if field.1 = key then (key, value) :: rest else field :: put key value rest

/-- Write one field of an object; other documents have no fields to write. -/
def set (doc : Json) (key : String) (value : Json) : Json :=
  match doc with
  | .obj fields => .obj (put key value fields)
  | doc => doc

/-- The first field of that name. -/
def find (key : String) : List (String × Json) → Option Json
  | [] => none
  | field :: rest => if field.1 = key then some field.2 else find key rest

/-- Read one field of an object. -/
def get (doc : Json) (key : String) : Option Json :=
  match doc with
  | .obj fields => find key fields
  | _ => none

/-- The document is an object. -/
def IsObj : Json → Prop
  | .obj _ => True
  | _ => False

def ofOption {α : Type*} (encode : α → Json) : Option α → Json
  | none => .null
  | some a => encode a

/-! ## Text -/

/-- A character inside a string. -/
def escape (c : Char) : String :=
  match c.toNat with
  | 8 => "\\b"
  | 9 => "\\t"
  | 10 => "\\n"
  | 12 => "\\f"
  | 13 => "\\r"
  | 34 => "\\\""
  | 92 => "\\\\"
  | n =>
      if n < 32 then
        "\\u00" ++ String.singleton (Nat.digitChar (n / 16)) ++
          String.singleton (Nat.digitChar (n % 16))
      else String.singleton c

/-- A string with its quotes. -/
def quote (s : String) : String := "\"" ++ String.join (s.toList.map escape) ++ "\""

/-- A new line with its indentation. -/
def newLine (indent : ℕ) : String := "\n" ++ String.join (List.replicate indent "  ")

/-- The parts of an array or an object, each on a line of its own. -/
def block (first last : String) (indent : ℕ) (parts : List String) : String :=
  if parts.isEmpty then first ++ last
  else
    first ++ newLine (indent + 1) ++ (("," ++ newLine (indent + 1)).intercalate parts) ++
      newLine indent ++ last

mutual

/-- The text of a document. -/
def pretty (indent : ℕ) : Json → String
  | .null => "null"
  | .bool b => if b then "true" else "false"
  | .num n => toString n
  | .str s => quote s
  | .arr items => block "[" "]" indent (prettyItems (indent + 1) items)
  | .obj fields =>
      let sorted := (prettyFields (indent + 1) fields).mergeSort fun a b => a.1 ≤ b.1
      block "\x7b" "\x7d" indent (sorted.map fun field => quote field.1 ++ ": " ++ field.2)

/-- The texts of the items of an array. -/
def prettyItems (indent : ℕ) : List Json → List String
  | [] => []
  | item :: rest => item.pretty indent :: prettyItems indent rest

/-- The texts of the values of an object. -/
def prettyFields (indent : ℕ) : List (String × Json) → List (String × String)
  | [] => []
  | (key, value) :: rest => (key, value.pretty indent) :: prettyFields indent rest

end

/-! ## Reading what was written -/

theorem isObj_set {doc : Json} (key : String) (value : Json) (h : doc.IsObj) :
    (doc.set key value).IsObj := by
  cases doc with
  | obj fields => trivial
  | _ => exact h.elim

theorem find_put_self (key : String) (value : Json) (fields : List (String × Json)) :
    find key (put key value fields) = some value := by
  induction fields with
  | nil => simp [put, find]
  | cons field rest ih =>
      by_cases h : field.1 = key
      · simp [put, find, h]
      · simp [put, find, h, ih]

theorem find_put_ne {key other : String} (hne : other ≠ key) (value : Json)
    (fields : List (String × Json)) : find other (put key value fields) = find other fields := by
  induction fields with
  | nil => simp [put, find, Ne.symm hne]
  | cons field rest ih =>
      by_cases h : field.1 = key
      · subst h
        simp [put, find, Ne.symm hne]
      · simp [put, find, h, ih]

/-- A field that was written is read back. -/
theorem get_set_self {doc : Json} (h : doc.IsObj) (key : String) (value : Json) :
    (doc.set key value).get key = some value := by
  cases doc with
  | obj fields => exact find_put_self key value fields
  | _ => exact h.elim

/-- Writing a field leaves the others as they are. -/
theorem get_set_ne (doc : Json) {key other : String} (hne : other ≠ key) (value : Json) :
    (doc.set key value).get other = doc.get other := by
  cases doc with
  | obj fields => exact find_put_ne hne value fields
  | _ => rfl

end Json

end SocketTrail.Foundation
