import SchemaDiff.Json
import SchemaDiff.Statement

namespace SchemaDiff

-- The tree of a script as JSON. An alternative without a value is its name, one with a value is
-- an object with the name as its only field.

namespace Ident

def toJson (i : Ident) : Json :=
  .object [
    ("name", .string i.name),
    ("quotation_mark", .ofOption (fun q => .string q.toString) i.quote),
    ("raw", .string i.raw)]

end Ident

namespace ObjectName

def toJson (n : ObjectName) : Json :=
  .object [("schema", .ofOption Ident.toJson n.schema), ("name", n.name.toJson)]

end ObjectName

namespace ColumnIdent

def toJson (c : ColumnIdent) : Json :=
  let order := match c.order with
    | .ascending => "Asc"
    | .descending => "Desc"
  .object [("ident", c.ident.toJson), ("order", .string order)]

end ColumnIdent

namespace Expr

def toJson (e : Expr) : Json :=
  .object [("tokens", .ofList Ident.toJson e.tokens)]

def defaultJson (e : Expr) : Json :=
  .object [("value", e.toJson)]

end Expr

namespace DataType

def toJson (t : DataType) : Json :=
  let suffix := if t.suffixes.isEmpty then .null else .string (" ".intercalate t.suffixes)
  .object [
    ("name", .string t.name),
    ("params", .ofList Ident.toJson t.params),
    ("suffix", suffix),
    ("array_dims", .number t.arrayDims)]

end DataType

namespace Column

def toJson (c : Column) : Json :=
  .object [
    ("name", c.name.toJson),
    ("data_type", c.dataType.toJson),
    ("not_null", .bool c.notNull),
    ("default", .ofOption Expr.defaultJson c.default),
    ("auto_increment", .bool c.autoIncrement)]

end Column

namespace ReferentialAction

def toJson : ReferentialAction → Json
  | noAction => .string "NoAction"
  | restrict => .string "Restrict"
  | cascade => .string "Cascade"
  | setNull => .string "SetNull"
  | setDefault => .string "SetDefault"

end ReferentialAction

namespace Constraint

def toJson (c : Constraint) : Json :=
  let name := ("name", c.name.toJson)
  let columnsJson (columns : List ColumnIdent) :=
    ("columns", Json.ofList ColumnIdent.toJson columns)
  match c.rule with
  | .primaryKey columns => .tagged "PrimaryKey" (.object [name, columnsJson columns])
  | .foreignKey columns target =>
      .tagged "ForeignKey" (.object [
        name,
        columnsJson columns,
        ("ref_table", target.table.toJson),
        ("ref_columns", .ofList ColumnIdent.toJson target.columns),
        ("on_delete", .ofOption ReferentialAction.toJson target.onDelete),
        ("on_update", .ofOption ReferentialAction.toJson target.onUpdate)])
  | .unique columns => .tagged "Unique" (.object [name, columnsJson columns])
  | .check body => .tagged "Check" (.object [name, ("expr", body.toJson)])
  | .index isUnique columns =>
      .tagged "Index" (.object [name, ("unique", .bool isUnique), columnsJson columns])

end Constraint

namespace TableOption

def toJson (o : TableOption) : Json :=
  .object [("name", .string o.name), ("value", o.value.toJson), ("equals", .bool o.equals)]

end TableOption

namespace CreateTable

def toJson (t : CreateTable) : Json :=
  .object [
    ("if_not_exists", .bool t.ifNotExists),
    ("name", t.name.toJson),
    ("columns", .ofList Column.toJson t.columns),
    ("constraints", .ofList Constraint.toJson t.constraints),
    ("options", .ofList TableOption.toJson t.options)]

end CreateTable

namespace CreateIndex

def toJson (i : CreateIndex) : Json :=
  .object [
    ("unique", .bool i.unique),
    ("if_not_exists", .bool i.ifNotExists),
    ("name", i.name.toJson),
    ("table", i.table.toJson),
    ("using", .ofOption Ident.toJson i.method),
    ("columns", .ofList ColumnIdent.toJson i.columns),
    ("predicate", .ofOption Expr.toJson i.predicate)]

end CreateIndex

namespace ColumnChange

def toJson : ColumnChange → Json
  | setDataType dataType => .tagged "SetDataType" dataType.toJson
  | setDefault value => .tagged "SetDefault" value.defaultJson
  | dropDefault => .string "DropDefault"
  | setNotNull => .string "SetNotNull"
  | dropNotNull => .string "DropNotNull"

end ColumnChange

namespace TableChange

def renameJson (tag : String) (old new : Ident) : Json :=
  .tagged tag (.object [("from", old.toJson), ("to", new.toJson)])

def toJson : TableChange → Json
  | renameTable new => .tagged "RenameTable" (.object [("to", new.toJson)])
  | renameColumn old new => renameJson "RenameColumn" old new
  | renameConstraint old new => renameJson "RenameConstraint" old new
  | addColumn column => .tagged "AddColumn" column.toJson
  | dropColumn name => .tagged "DropColumn" (.object [("name", name.toJson)])
  | alterColumn name change =>
      .tagged "AlterColumn" (.object [("name", name.toJson), ("action", change.toJson)])
  | modifyColumn column => .tagged "ModifyColumn" column.toJson
  | addConstraint constraint notValid =>
      .tagged "AddConstraint"
        (.object [("constraint", constraint.toJson), ("not_valid", .bool notValid)])
  | dropConstraint name => .tagged "DropConstraint" (.object [("name", name.toJson)])

end TableChange

namespace Statement

def toJson : Statement → Json
  | createTable table => .tagged "CreateTable" table.toJson
  | dropTable ifExists name =>
      .tagged "DropTable" (.object [("if_exists", .bool ifExists), ("name", name.toJson)])
  | alterTable name change =>
      .tagged "AlterTable" (.object [("name", name.toJson), ("action", change.toJson)])
  | createIndex index => .tagged "CreateIndex" index.toJson
  | dropIndex ifExists name table =>
      .tagged "DropIndex" (.object [
        ("if_exists", .bool ifExists),
        ("name", name.toJson),
        ("table", .ofOption ObjectName.toJson table)])

end Statement

namespace Script

def toJson (s : Script) : Json :=
  .object [("statements", .ofList Statement.toJson s)]

end Script

end SchemaDiff
