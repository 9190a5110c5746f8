import SchemaDiff.CommandLine
import SchemaDiff.Proofs.CommandLine.Plain
import SchemaDiff.Proofs.Migration.Unhinted

namespace SchemaDiff.CommandLine

open SchemaDiff.Migration (DiffError)

-- What stands in the files behind a run.
def Disk.after (disk : Disk) (o : Outcome) (path : String) : Except String String :=
  match o.written with
  | some (target, text) => if path = target then .ok text else disk.read path
  | none => disk.read path

-- These files and no others. All files can be written.
def Disk.holding (files : List (String × String)) : Disk where
  read path := (files.lookup path).elim (.error "No such file or directory (os error 2)") .ok
  refusesWrite _ := none

-- The schema that a path stands for.
inductive Holds (disk : Disk) (d : Dialect) : String → Option Script → Prop
  | dash : Holds disk d "-" none
  | file {path source : String} {schema : Script} (hpath : path ≠ "-")
      (hread : disk.read path = .ok source) (hparse : Script.parse d source = .ok schema) :
      Holds disk d path (some schema)

-- The text of a schema in a format.
inductive Rendered (lib : Library) (s : Script) : OutputFormat → String → Prop
  | sql : Rendered lib s .sql s.sql
  | json {text : String} (h : lib.printJson s.toJson = .ok text) :
      Rendered lib s .json (text ++ "\n")

-- The text for the outcome of a comparison. A refusal has none.
inductive DiffText (lib : Library) (format : OutputFormat) :
    Except DiffError Script → String → Prop
  | migration {m : Script} {text : String} (h : Rendered lib m format text) :
      DiffText lib format (.ok m) text
  | noDifference : DiffText lib format (.error .noDifference) ""

-- The command line names these two schemas.
def Names (disk : Disk) (a : Arguments) (d : Dialect) (before after : Option Script) : Prop :=
  ∃ first second, a.before = some first ∧ a.after = some second ∧ Holds disk d first before ∧
    Holds disk d second after

-- The command line asks for a comparison of these two schemas.
structure Compares (disk : Disk) (a : Arguments) (d : Dialect) (before after : Option Script) :
    Prop where
  command : a.command = none
  dialect : Dialect.ofName? a.dialect = some d
  names : Names disk a d before after

-- The text that the command line asks for.
inductive Result (lib : Library) (disk : Disk) (a : Arguments) : String → Prop
  | formatted {d : Dialect} {file source text : String} {schema : Script}
      (hcommand : a.command = some (.fmt file)) (hdialect : Dialect.ofName? a.dialect = some d)
      (hread : disk.read file = .ok source) (hparse : Script.parse d source = .ok schema)
      (htext : Rendered lib schema a.format text) : Result lib disk a text
  | compared {d : Dialect} {before after : Option Script} {text : String}
      (h : Compares disk a d before after)
      (htext : DiffText lib a.format (Migration.diff d a.migrationOptions before after) text) :
      Result lib disk a text

section Result

variable {lib : Library} {disk : Disk} {a : Arguments} {d : Dialect} {text : String}

theorem Result.dialect (h : Result lib disk a text) : ∃ d, Dialect.ofName? a.dialect = some d := by
  cases h with
  | formatted _ hdialect => exact ⟨_, hdialect⟩
  | compared h => exact ⟨_, h.dialect⟩

theorem result_iff_of_compare (hdialect : Dialect.ofName? a.dialect = some d)
    (hcommand : a.command = none) : Result lib disk a text ↔ ∃ before after,
      Names disk a d before after ∧
        DiffText lib a.format (Migration.diff d a.migrationOptions before after) text := by
  constructor
  · rintro (⟨h, -⟩ | ⟨h, htext⟩)
    · rw [hcommand] at h
      cases h
    · obtain rfl : d = _ := Option.some.inj (hdialect.symm.trans h.dialect)
      exact ⟨_, _, h.names, htext⟩
  · rintro ⟨before, after, hnames, htext⟩
    exact .compared ⟨hcommand, hdialect, hnames⟩ htext

theorem result_iff_of_fmt {file : String} (hdialect : Dialect.ofName? a.dialect = some d)
    (hcommand : a.command = some (.fmt file)) : Result lib disk a text ↔ ∃ schema,
      (∃ source, disk.read file = .ok source ∧ Script.parse d source = .ok schema) ∧
        Rendered lib schema a.format text := by
  constructor
  · rintro (⟨h, h', hread, hparse, htext⟩ | ⟨h, -⟩)
    · cases hcommand.symm.trans h
      cases hdialect.symm.trans h'
      exact ⟨_, ⟨_, hread, hparse⟩, htext⟩
    · rw [h.command] at hcommand
      cases hcommand
  · rintro ⟨schema, ⟨source, hread, hparse⟩, htext⟩
    exact .formatted hcommand hdialect hread hparse htext

end Result

namespace Run

variable {α β : Type} {lib : Library} {disk : Disk} {d : Dialect} {notices : List Notice}

-- The run succeeds with this value, whatever it has told by then.
def Gives (r : Run α) (notices : List Notice) (a : α) : Prop :=
  ∃ notices', r notices = .ok a notices'

theorem gives_pure {a b : α} : Gives (pure a) notices b ↔ a = b := by
  constructor
  · rintro ⟨_, h⟩
    cases h
    rfl
  · rintro rfl
    exact ⟨notices, rfl⟩

theorem not_gives_throw {f : Failure} {a : α} : ¬Gives (throw f) notices a := by
  rintro ⟨_, h⟩
  cases h

theorem gives_bind {r : Run α} {q : α → Run β} {b : β} {P Q : α → Prop}
    (hr : ∀ a, Gives r notices a ↔ P a) (hq : ∀ a notices, Gives (q a) notices b ↔ Q a) :
    Gives (r >>= q) notices b ↔ ∃ a, P a ∧ Q a := by
  have hbind : (r >>= q) notices = EStateM.bind r q notices := rfl
  simp only [← hr]
  unfold Gives at *
  rw [hbind, EStateM.bind]
  cases hr : r notices with
  | ok a between => simp [hq a between]
  | error f between => simp

theorem gives_tell {n : Notice} {r : Run α} {a : α} :
    Gives (do tell n; r) notices a ↔ Gives r (notices ++ [n]) a :=
  Iff.rfl

theorem gives_forM {events : List α} {f : α → Notice} {u : Unit} :
    Gives (events.forM (tell <| f ·)) notices u := by
  induction events generalizing notices with
  | nil => exact ⟨notices, rfl⟩
  | cons e events ih =>
      obtain ⟨notices', h⟩ : Gives (events.forM (tell <| f ·)) (notices ++ [f e]) u := ih
      exact ⟨notices', h⟩

theorem gives_readSchema {path : String} {schema : Script} :
    Gives (readSchema disk d path) notices schema ↔
      ∃ source, disk.read path = .ok source ∧ Script.parse d source = .ok schema := by
  unfold readSchema
  cases hread : disk.read path with
  | error cause => simp [not_gives_throw]
  | ok source =>
      dsimp only
      cases hparse : Script.parse d source with
      | error e => simp [not_gives_throw, hparse]
      | ok script =>
          dsimp only
          rw [gives_tell, gives_pure]
          simp [hparse]

theorem gives_readOptional {path : String} {schema : Option Script} :
    Gives (readOptional disk d path) notices schema ↔ Holds disk d path schema := by
  unfold readOptional
  by_cases hpath : path = "-"
  · subst hpath
    rw [if_pos (by simp), gives_pure]
    constructor
    · rintro rfl
      exact .dash
    · rintro (_ | ⟨hpath, -, -⟩)
      · rfl
      · exact absurd rfl hpath
  · rw [if_neg (by simpa using hpath), gives_bind (fun _ => gives_readSchema) fun _ _ => gives_pure]
    constructor
    · rintro ⟨script, ⟨source, hread, hparse⟩, rfl⟩
      exact .file hpath hread hparse
    · rintro (_ | ⟨-, hread, hparse⟩)
      · exact absurd rfl hpath
      · exact ⟨_, ⟨_, hread, hparse⟩, rfl⟩

theorem gives_render {format : OutputFormat} {s : Script} {text : String} :
    Gives (render lib format s) notices text ↔ Rendered lib s format text := by
  cases format with
  | sql =>
      refine gives_pure.trans ⟨?_, ?_⟩
      · rintro rfl
        exact .sql
      · rintro ⟨⟩
        rfl
  | json =>
      unfold render
      cases hprint : lib.printJson s.toJson with
      | error cause =>
          refine iff_of_false not_gives_throw ?_
          rintro (_ | h)
          rw [hprint] at h
          cases h
      | ok text' =>
          refine gives_pure.trans ⟨?_, ?_⟩
          · rintro rfl
            exact .json hprint
          · rintro (_ | h)
            cases hprint.symm.trans h
            rfl

theorem gives_diffText {format : OutputFormat} {result : Except DiffError Script} {text : String} :
    Gives (match result with
      | .ok migration => do
          tell (.migrationGenerated migration.length)
          render lib format migration
      | .error .noDifference => do
          tell .noDifference
          return ""
      | .error e => throw (.refused e)) notices text ↔ DiffText lib format result text := by
  cases result with
  | ok migration =>
      rw [gives_tell, gives_render]
      constructor
      · exact .migration
      · rintro ⟨h⟩
        exact h
  | error e =>
      cases e with
      | noDifference =>
          rw [gives_tell, gives_pure]
          constructor
          · rintro rfl
            exact .noDifference
          · rintro ⟨⟩
            rfl
      | notSupported refusal =>
          refine iff_of_false not_gives_throw ?_
          rintro ⟨⟩

theorem gives_compare {a : Arguments} {text : String} :
    Gives (compare lib disk d a) notices text ↔ ∃ before after, Names disk a d before after ∧
      DiffText lib a.format (Migration.diff d a.migrationOptions before after) text := by
  unfold compare
  split
  · rename_i first second hfirst hsecond
    refine .trans (gives_bind (fun _ => gives_readOptional) fun before _ =>
      gives_bind (fun _ => gives_readOptional) fun after _ =>
        gives_bind (fun _ => iff_of_true gives_forM trivial) fun _ _ => gives_diffText) ?_
    constructor
    · rintro ⟨before, hbefore, after, hafter, -, -, htext⟩
      exact ⟨before, after, ⟨first, second, hfirst, hsecond, hbefore, hafter⟩, htext⟩
    · rintro ⟨before, after, ⟨_, _, hfirst', hsecond', hbefore, hafter⟩, htext⟩
      cases hfirst.symm.trans hfirst'
      cases hsecond.symm.trans hsecond'
      exact ⟨before, hbefore, after, hafter, (), trivial, htext⟩
  · rename_i hmissing
    refine iff_of_false not_gives_throw ?_
    rintro ⟨_, _, ⟨first, second, hfirst, hsecond, -⟩, -⟩
    exact hmissing first second hfirst hsecond

theorem gives_text {a : Arguments} {text : String} :
    Gives (Run.text lib disk a) notices text ↔ Result lib disk a text := by
  cases hdialect : Dialect.ofName? a.dialect with
  | none =>
      simp only [Run.text, hdialect]
      refine iff_of_false not_gives_throw fun h => ?_
      obtain ⟨d, hd⟩ := h.dialect
      rw [hdialect] at hd
      cases hd
  | some d =>
      simp only [Run.text, hdialect]
      rw [gives_tell]
      cases hcommand : a.command with
      | none => exact gives_compare.trans (result_iff_of_compare hdialect hcommand).symm
      | some command =>
          cases command with
          | fmt file =>
              exact (gives_bind (fun _ => gives_readSchema) fun _ _ => gives_render).trans
                (result_iff_of_fmt hdialect hcommand).symm

end Run

-- The text goes to the standard output or to a file that can be written.
def Placed (disk : Disk) (text : String) (out : String × Option (String × String)) :
    Option String → Prop
  | none => (text, none) = out
  | some path => disk.refusesWrite path = none ∧ ("", some (path, text)) = out

theorem Run.gives_output {lib : Library} {disk : Disk} {a : Arguments} {notices : List Notice}
    {out : String × Option (String × String)} : Gives (Run.output lib disk a) notices out ↔
      ∃ text, Result lib disk a text ∧ Placed disk text out a.output := by
  refine .trans (gives_bind (fun _ => gives_text) fun text _ => ?_) Iff.rfl
  cases a.output with
  | none => exact gives_pure
  | some path =>
      dsimp only
      cases hrefuses : disk.refusesWrite path with
      | none =>
          refine gives_pure.trans ?_
          simp [Placed, hrefuses]
      | some cause => exact iff_of_false not_gives_throw (by simp [Placed, hrefuses])

section Results

variable {lib : Library} {disk : Disk} {a : Arguments} {d d' : Dialect}
  {before before' after after' : Option Script} {text : String}

theorem Holds.unique {path : String} {schema schema' : Option Script} (h : Holds disk d path schema)
    (h' : Holds disk d path schema') : schema = schema' := by
  cases h with
  | dash =>
      cases h' with
      | dash => rfl
      | file hpath => exact absurd rfl hpath
  | file hpath hread hparse =>
      cases h' with
      | dash => exact absurd rfl hpath
      | file _ hread' hparse' =>
          cases hread.symm.trans hread'
          cases hparse.symm.trans hparse'
          rfl

theorem Compares.unique (h : Compares disk a d before after)
    (h' : Compares disk a d' before' after') : d = d' ∧ before = before' ∧ after = after' := by
  obtain rfl : d = d' := Option.some.inj (h.dialect.symm.trans h'.dialect)
  obtain ⟨first, second, hfirst, hsecond, hbefore, hafter⟩ := h.names
  obtain ⟨first', second', hfirst', hsecond', hbefore', hafter'⟩ := h'.names
  cases hfirst.symm.trans hfirst'
  cases hsecond.symm.trans hsecond'
  exact ⟨rfl, hbefore.unique hbefore', hafter.unique hafter'⟩

-- A migration is never empty, and neither is its text.
theorem Rendered.ne_empty {m : Script} {format : OutputFormat} (h : Rendered lib m format text)
    (hm : m ≠ []) : text ≠ "" := by
  intro hempty
  have hlist := congrArg String.toList hempty
  cases h with
  | sql =>
      obtain ⟨s, rest, rfl⟩ := List.exists_cons_of_ne_nil hm
      simp [Script.sql, Statement.sql] at hlist
  | json h => simp at hlist

theorem DiffText.eq_empty_iff {format : OutputFormat} {options : Migration.Options}
    (h : DiffText lib format (Migration.diff d options before after) text) :
    text = "" ↔ Migration.diff d options before after = .error .noDifference := by
  generalize hdiff : Migration.diff d options before after = r at h
  cases h with
  | migration h => simp [h.ne_empty (Migration.diff_eq_ok hdiff).2.2]
  | noDifference => simp

theorem Result.eq_empty_iff (h : Compares disk a d before after) (ht : Result lib disk a text) :
    text = "" ↔ Migration.diff d a.migrationOptions before after = .error .noDifference := by
  cases ht with
  | formatted hcommand =>
      rw [h.command] at hcommand
      cases hcommand
  | compared h' htext =>
      obtain ⟨rfl, rfl, rfl⟩ := h.unique h'
      exact htext.eq_empty_iff

end Results

-- Where the text of a successful run is found, and that nothing else has changed.
def Delivers (disk : Disk) (o : Outcome) (text : String) : Option String → Prop
  | none => o.stdout = text ∧ ∀ path, disk.after o path = disk.read path
  | some target => o.stdout = "" ∧ disk.after o target = .ok text ∧
      ∀ path, path ≠ target → disk.after o path = disk.read path

structure AllOrNothing (lib : Library) (disk : Disk) (envDialect : Option String)
    (args : List String) : Prop where
  failed : (run lib disk envDialect args).code ≠ 0 → (run lib disk envDialect args).stdout = "" ∧
    ∀ path, disk.after (run lib disk envDialect args) path = disk.read path
  succeeded : (run lib disk envDialect args).code = 0 → ∃ a text,
    lib.readArguments valueParsers envDialect args = .ok a ∧ Result lib disk a text ∧
      Delivers disk (run lib disk envDialect args) text a.output
  -- A result is kept back only if it cannot be written.
  complete : ∀ a text, lib.readArguments valueParsers envDialect args = .ok a →
    Result lib disk a text → (∀ path, a.output = some path → disk.refusesWrite path = none) →
      (run lib disk envDialect args).code = 0
  requested : ∀ a, lib.readArguments valueParsers envDialect args = .ok a → a.command = none →
    Requested args a.migrationOptions
  empty : ∀ a d before after text, Compares disk a d before after → Result lib disk a text →
    (text = "" ↔ Migration.diff d a.migrationOptions before after = .error .noDifference)

section Runs

variable {lib : Library} {disk : Disk} {envDialect : Option String} {args : List String}

-- Either something is wrong and nothing is written, or the run has a result. There is no third way.
theorem run_cases (disk : Disk)
    (hhelp : ∀ text, lib.readArguments valueParsers envDialect args ≠ .error (.help text))
    (hversion : ∀ text, lib.readArguments valueParsers envDialect args ≠ .error (.version text)) :
    (∃ code log, code ≠ 0 ∧ run lib disk envDialect args = ⟨code, "", log, none⟩ ∧
      ∀ a out, lib.readArguments valueParsers envDialect args = .ok a →
        ¬Run.Gives (Run.output lib disk a) [] out) ∨
    ∃ a out log, lib.readArguments valueParsers envDialect args = .ok a ∧
      Run.Gives (Run.output lib disk a) [] out ∧
      run lib disk envDialect args = ⟨0, out.1, log, out.2⟩ := by
  unfold run
  cases hread : lib.readArguments valueParsers envDialect args with
  | error stop =>
      cases stop with
      | help text => exact absurd hread (hhelp text)
      | version text => exact absurd hread (hversion text)
      | usage text => exact .inl ⟨2, text, by decide, rfl, fun _ _ h => nomatch h⟩
  | ok a =>
      dsimp only
      cases hout : Run.output lib disk a [] with
      | ok out notices => exact .inr ⟨a, out, _, rfl, ⟨notices, hout⟩, rfl⟩
      | error failure notices =>
          refine .inl ⟨1, _, by decide, rfl, ?_⟩
          rintro _ out ⟨⟩ ⟨notices', h⟩
          rw [hout] at h
          cases h

-- A result is found where it was placed, and nothing else has changed.
theorem Placed.delivers {out : String × Option (String × String)} {text : String}
    {output : Option String} (h : Placed disk text out output) (log : String) :
    Delivers disk ⟨0, out.1, log, out.2⟩ text output := by
  cases output with
  | none =>
      cases h
      exact ⟨rfl, fun _ => rfl⟩
  | some target =>
      obtain ⟨-, rfl⟩ := h
      exact ⟨rfl, if_pos rfl, fun _ hpath => if_neg hpath⟩

-- Unless help is asked for, only a result makes a run successful.
theorem run_allOrNothing (hlib : lib.Lawful) (disk : Disk)
    (hhelp : ∀ text, lib.readArguments valueParsers envDialect args ≠ .error (.help text))
    (hversion : ∀ text, lib.readArguments valueParsers envDialect args ≠ .error (.version text)) :
    AllOrNothing lib disk envDialect args where
  failed := by
    intro hcode
    obtain ⟨code, log, -, hrun, -⟩ | ⟨a, out, log, -, -, hrun⟩ := run_cases disk hhelp hversion
    · rw [hrun]
      exact ⟨rfl, fun _ => rfl⟩
    · rw [hrun] at hcode
      exact absurd rfl hcode
  succeeded := by
    intro hcode
    obtain ⟨code, log, hne, hrun, -⟩ | ⟨a, out, log, hread, hgives, hrun⟩ :=
      run_cases disk hhelp hversion
    · rw [hrun] at hcode
      exact absurd hcode hne
    · obtain ⟨text, hresult, hout⟩ := Run.gives_output.mp hgives
      rw [hrun]
      exact ⟨a, text, hread, hresult, hout.delivers log⟩
  complete := by
    intro a text hread hresult hwritable
    obtain ⟨code, log, -, -, hnone⟩ | ⟨_, _, log, -, -, hrun⟩ := run_cases disk hhelp hversion
    · cases houtput : a.output with
      | none =>
          refine absurd (Run.gives_output.mpr ⟨text, hresult, ?_⟩) (hnone a (text, none) hread)
          rw [houtput, Placed]
      | some path =>
          refine absurd (Run.gives_output.mpr ⟨text, hresult, ?_⟩)
            (hnone a ("", some (path, text)) hread)
          rw [houtput]
          exact ⟨hwritable path houtput, rfl⟩
    · rw [hrun]
  requested _ := hlib.requested
  empty _ _ _ _ _ h := Result.eq_empty_iff h

end Runs

theorem run_allOrNothing_rename :
    let disk := Disk.holding
      [("old.sql", "CREATE TABLE a (x INT);"), ("new.sql", "CREATE TABLE b (x INT);")]
    let renamed := ["--rename-table=a=b", "--output=out.sql", "old.sql", "new.sql"]
    let missing := ["--output=out.sql", "old.sql", "gone.sql"]
    (AllOrNothing Plain.library disk none renamed ∧
      disk.after (run Plain.library disk none renamed) "out.sql" =
        .ok "ALTER TABLE a RENAME TO b;\n" ∧
      ∃ a text, Plain.library.readArguments valueParsers none renamed = .ok a ∧
        Result Plain.library disk a text ∧
        Delivers disk (run Plain.library disk none renamed) text a.output) ∧
    (run Plain.library disk none missing).code = 1 ∧
      disk.after (run Plain.library disk none missing) "out.sql" = disk.read "out.sql" := by
  intro disk renamed missing
  have hread : ∀ args ∈ [renamed, missing],
      (Plain.library.readArguments valueParsers none args).isOk = true := by
    decide +kernel
  have hstop : ∀ args ∈ [renamed, missing], ∀ stop,
      Plain.library.readArguments valueParsers none args ≠ .error stop := by
    intro args hargs stop herror
    have hok := hread args hargs
    rw [herror] at hok
    cases hok
  have hrenamed : AllOrNothing Plain.library disk none renamed :=
    run_allOrNothing Plain.lawful_library disk
      (fun _ => hstop _ (by simp) _) (fun _ => hstop _ (by simp) _)
  have hmissing : AllOrNothing Plain.library disk none missing :=
    run_allOrNothing Plain.lawful_library disk
      (fun _ => hstop _ (by simp) _) (fun _ => hstop _ (by simp) _)
  have hwritten : (run Plain.library disk none renamed).written =
      some ("out.sql", "ALTER TABLE a RENAME TO b;\n") := by
    decide +kernel
  have hcode : (run Plain.library disk none missing).code = 1 := by decide +kernel
  refine ⟨⟨hrenamed, ?_, hrenamed.succeeded (by decide +kernel)⟩, hcode, ?_⟩
  · rw [Disk.after, hwritten]
    rfl
  · exact (hmissing.failed (by rw [hcode]; decide)).2 "out.sql"

end SchemaDiff.CommandLine
