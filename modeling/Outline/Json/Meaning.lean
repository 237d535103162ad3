import Outline.Json.Form

/-!
# The value of a JSON form

A form stands for a value when its numerals and strings do and when its arrays and objects are not
nested too deeply. Of members with the same key the last one counts.
-/

namespace Outline.Json

/-- How deeply arrays and objects may be nested in a text. -/
def maxDepth : Nat := 127

mutual

/-- The value of a form in which `depth` more levels of arrays and objects are allowed. -/
def Form.value? (depth : Nat) : Form → Option Json
  | .null => some .null
  | .bool b => some (.bool b)
  | .numeral n => n.value?
  | .str pieces => (decodeText? pieces).map .str
  | .arr items =>
    match depth with
    | 0 => none
    | depth + 1 => (itemValues? depth items).map .arr
  | .obj members =>
    match depth with
    | 0 => none
    | depth + 1 => (memberValues? depth members).map mkObject

def itemValues? (depth : Nat) : List Form → Option (List Json)
  | [] => some []
  | f :: rest => do
    let v ← f.value? depth
    let vs ← itemValues? depth rest
    return v :: vs

def memberValues? (depth : Nat) : List (List Piece × Form) → Option (List (String × Json))
  | [] => some []
  | (pieces, f) :: rest => do
    let key ← decodeText? pieces
    let v ← f.value? depth
    let vs ← memberValues? depth rest
    return (key, v) :: vs

end

/-- The value of a text. -/
def ofText? (s : String) : Option Json := do
  (← readText? s).value? maxDepth

end Outline.Json
