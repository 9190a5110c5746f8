import SchemaDiff.Migration.Schema

namespace SchemaDiff.Migration

inductive DiffError
  -- Not a failure: there is nothing to do.
  | noDifference
  | notSupported (refusal : Refusal)
deriving DecidableEq, Repr

namespace DiffError

def message : DiffError → String
  | noDifference => "no difference between the schemas"
  | notSupported refusal => refusal.message

end DiffError

def dropAll (d : Dialect) (before : Script) : List Step :=
  objectRefusals before.reverse ++
    (objects before.reverse).map (.emit <| ·.dropStatement d id) ++
    [.note (.droppingSchema before.length)]

-- Without a schema there are no objects. Such a schema is not the same as an empty one: what is
-- created from it need not be compared, and is taken over as it is written.
def steps (d : Dialect) (options : Options) : Option Script → Option Script → List Step
  | none, none => []
  | none, some after => after.map .emit
  | some before, none => dropAll d before
  | some before, some after =>
      if before.identity = after.identity then []
      else SchemaPair.steps ⟨d, options, before, after⟩

-- The statements that turn the schema `before` into the schema `after`.
def diff (d : Dialect) (options : Options) (before after : Option Script) :
    Except DiffError Script :=
  match Step.result (steps d options before after) with
  | .error refusal => .error (.notSupported refusal)
  | .ok [] => .error .noDifference
  | .ok statements => .ok statements

-- What is reported while `diff` runs.
def log (d : Dialect) (options : Options) (before after : Option Script) : List Event :=
  Step.events (steps d options before after) ++
    match diff d options before after with
    | .ok statements => [.complete d statements.length]
    | .error _ => []

end SchemaDiff.Migration
