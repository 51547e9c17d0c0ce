import SuwappuDb.Lib.Utf8

/-!
# JSON values

A program takes its JSON values from a library: `JsonApi` has the operations on them, and
`JsonApi.Lawful` says how what is made is read again. `Json.api` is a library that does this
(`Json.api_lawful`).
-/

/-- A library of JSON values. -/
structure JsonApi where
  Value : Type
  /-- A field of an object. -/
  get : Value → List Byte → Option Value
  asStr : Value → Option Text
  asArray : Value → Option (List Value)
  asU64 : Value → Option (Fin (2 ^ 64))
  display : Value → String
  string : Text → Value
  int : Int → Value
  array : List Value → Value
  object : List (List Byte × Value) → Value

/-- What was made is read again. -/
structure JsonApi.Lawful (json : JsonApi) : Prop where
  asStr_string : ∀ text, json.asStr (json.string text) = some text
  get_object : ∀ {fields : List (List Byte × json.Value)}, (fields.map Prod.fst).Nodup →
    ∀ key, json.get (json.object fields) key = fields.lookup key

/-- The values as trees. -/
inductive Json where
  | null
  | bool (b : Bool)
  | int (n : Int)
  | string (text : Text)
  | array (items : List Json)
  | object (fields : List (List Byte × Json))

namespace Json

def get : Json → List Byte → Option Json
  | object fields, key => fields.lookup key
  | _, _ => none

def asStr : Json → Option Text
  | string text => some text
  | _ => none

def asArray : Json → Option (List Json)
  | array items => some items
  | _ => none

def asU64 : Json → Option (Fin (2 ^ 64))
  | int n => if 0 ≤ n ∧ n < 2 ^ 64 then some (Fin.ofNat (2 ^ 64) n.toNat) else none
  | _ => none

/-- The library of these values, with any way to display them. -/
def api (display : Json → String) : JsonApi :=
  { Value := Json, get, asStr, asArray, asU64, display, string, int, array, object }

theorem api_lawful (display : Json → String) : (api display).Lawful where
  asStr_string _ := rfl
  get_object _ _ := rfl

end Json
