namespace SchemaDiff

-- A value of the JSON data format. The fields of an object keep their order.
inductive Json
  | null
  | bool (value : Bool)
  | number (value : Nat)
  | string (value : String)
  | array (items : List Json)
  | object (fields : List (String × Json))

namespace Json

def ofOption {α : Type} (toJson : α → Json) : Option α → Json
  | some a => toJson a
  | none => null

def ofList {α : Type} (toJson : α → Json) (items : List α) : Json :=
  array (items.map toJson)

-- One of several alternatives, with the value that it carries.
def tagged (tag : String) (value : Json) : Json :=
  object [(tag, value)]

end Json

end SchemaDiff
