/-!
JSON values as a data format of its own; texts of it are not read or written here.
-/
namespace BuildScript

inductive Json where
  | null
  | bool (b : Bool)
  | integer (n : Int)
  /-- A number written with a fraction or an exponent: `mantissa` times ten to the `exponent`. It is
  no integer, whatever its value; minus zero is one of these as well. -/
  | decimal (mantissa exponent : Int)
  | string (text : String)
  | array (items : List Json)
  /-- Names are unique; their order means nothing. -/
  | object (fields : List (String × Json))
deriving Repr, Inhabited

namespace Json

/-- A field of a record. One that is optional may be left out, which means the same as `null`. -/
structure Field where
  name : String
  optional : Bool

/-- The values of the fields of an object, in the order asked for; further fields are ignored. -/
def fields? (fields : List Field) : Json → Option (List Json)
  | object entries =>
    fields.mapM fun f =>
      match entries.lookup f.name with
      | some value => some value
      | none => if f.optional then some null else none
  | _ => none

/-- The values of the fields of a record, which is an object or an array of exactly its fields. -/
def record? (fields : List Field) : Json → Option (List Json)
  | array items => if items.length = fields.length then some items else none
  | value => value.fields? fields

def string? : Json → Option String
  | string text => some text
  | _ => none

def array? : Json → Option (List Json)
  | array items => some items
  | _ => none

def natural? : Json → Option Nat
  | integer n => if 0 ≤ n ∧ n.toNat < 0x1_0000_0000_0000_0000 then some n.toNat else none
  | _ => none

def nullable? {α : Type} (read : Json → Option α) : Json → Option (Option α)
  | null => some none
  | value => (read value).map some

/-- The name of a variant without content: alone, or with `null` for the content. -/
def variantName? : Json → Option String
  | string name => some name
  | object [(name, null)] => some name
  | _ => none

def ofNat (n : Nat) : Json := integer n

def ofOption {α : Type} (write : α → Json) : Option α → Json
  | none => null
  | some a => write a

end Json
end BuildScript
