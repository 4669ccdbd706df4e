import Mathlib.Data.String.Basic
import Foundation.Lib.GoMap
import Foundation.Lib.GoStd
import Foundation.Lib.Binary64

/-! The open values of the `extension` package. An object is a map; inside a value its
fields are listed by ascending key, so that equal maps are equal values. Copies made
only to avoid sharing are the identity here. -/

namespace Foundation.Extension

inductive Value where
  | null
  | string (s : String)
  | bool (b : Bool)
  | int (i : ℤ)
  | uint (u : ℕ)
  | float (f : Binary64)
  | bytes (b : List UInt8)
  | list (items : List Value)
  | object (fields : List (String × Value))
deriving Repr

abbrev Object := GoMap String Value

namespace Value

def stringValue : Value → Option String
  | .string s => some s
  | _ => none

end Value

def Object.ofFields (fields : List (String × Value)) : Object :=
  fields.foldl (fun o field => o.insert field.1 field.2) ∅

def Value.objectValue : Value → Option Object
  | .object fields => some (Object.ofFields fields)
  | _ => none

end Foundation.Extension
