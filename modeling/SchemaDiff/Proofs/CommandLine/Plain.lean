import SchemaDiff.Proofs.CommandLine.Flags

namespace SchemaDiff.CommandLine

-- A library for plain command lines: files, and flags with a long name that nothing or their value
-- is attached to. Whatever else there is on a command line is refused.
namespace Plain

def accepts (arg : String) : Bool :=
  arg == "--not-valid" ||
    ["--rename-table", "--rename-column", "--output"].any (attached? · arg |>.isSome) ||
    (arg.toList.head? != some '-' && arg != "fmt" && arg != "help")

def files (args : List String) : List String :=
  args.filter (·.toList.head? != some '-')

-- Only the rename flags may be given twice, and there are two files at most.
def fits (args : List String) : Bool :=
  args.all accepts && args.count "--not-valid" ≤ 1 && (valuesOf "--output" args).length ≤ 1 &&
    (files args).length ≤ 2

def readValues {α : Type} (parse : String → Except String α) :
    List String → Except Stop (List α)
  | [] => .ok []
  | value :: rest =>
      match parse value, readValues parse rest with
      | .ok a, .ok as => .ok (a :: as)
      | .error e, _ => .error (.usage ("error: " ++ e ++ "\n"))
      | _, .error stop => .error stop

def readArguments (parsers : ValueParsers) (envDialect : Option String) (args : List String) :
    Except Stop Arguments :=
  match fits args, readValues parsers.tableRename (valuesOf "--rename-table" (flagsOf args)),
    readValues parsers.columnRename (valuesOf "--rename-column" (flagsOf args)) with
  | true, .ok tableRenames, .ok columnRenames =>
      .ok {
        dialect := envDialect.getD "postgres"
        notValid := (flagsOf args).contains "--not-valid"
        tableRenames := tableRenames
        columnRenames := columnRenames
        format := .sql
        output := (valuesOf "--output" (flagsOf args)).head?
        verbose := false
        before := (files args)[0]?
        after := (files args)[1]?
        command := none }
  | false, _, _ => .error (.usage "error: unexpected argument\n")
  | _, .error stop, _ | _, _, .error stop => .error stop

def logText : LogValue → String
  | .string s => "\"" ++ s ++ "\""
  | .plain s => s
  | .count n => toString n

def logLine (e : LogEntry) : String :=
  let level := match e.level with
    | .debug => "DEBUG"
    | .info => " INFO"
    | .warn => " WARN"
  level ++ " " ++ e.message ++
    String.join (e.fields.map fun (name, value) => " " ++ name ++ "=" ++ logText value) ++ "\n"

def library : Library where
  readArguments := readArguments
  printJson
    | .null => .ok "null"
    | _ => .error "cannot print this value"
  writeLog level entries :=
    String.join ((entries.filter fun e => level == .debug || e.level != .debug).map logLine)
  describeError message cause := message ++ cause.elim "" ("\n\nCaused by:\n    " ++ ·)

theorem readValues_eq_ok {α : Type} {parse : String → Except String α} {values : List String}
    {as : List α} (h : readValues parse values = .ok as) : as.map .ok = values.map parse := by
  induction values generalizing as with
  | nil =>
      cases h
      rfl
  | cons value values ih =>
      rw [readValues] at h
      split at h
      · rename_i hvalue hrest
        cases h
        rw [List.map_cons, List.map_cons, hvalue, ih hrest]
      · cases h
      · cases h

theorem readArguments_eq_ok {parsers : ValueParsers} {envDialect : Option String}
    {args : List String} {a : Arguments} (h : readArguments parsers envDialect args = .ok a) :
    a.notValid = (flagsOf args).contains "--not-valid" ∧
      readValues parsers.tableRename (valuesOf "--rename-table" (flagsOf args)) =
        .ok a.tableRenames ∧
      readValues parsers.columnRename (valuesOf "--rename-column" (flagsOf args)) =
        .ok a.columnRenames := by
  unfold readArguments at h
  split at h
  · rename_i htables hcolumns
    cases h
    exact ⟨rfl, htables, hcolumns⟩
  · cases h
  · cases h
  · cases h

theorem lawful_library : library.Lawful where
  notValid h _ := by
    rw [(readArguments_eq_ok h).1]
    simp
  tableRenames h _ := readValues_eq_ok (readArguments_eq_ok h).2.1
  columnRenames h _ := readValues_eq_ok (readArguments_eq_ok h).2.2

end Plain

end SchemaDiff.CommandLine
