/-
TOML documents as trees of tables, and the rules by which statements may add to a table. A table
remembers how it came about, because that decides what may still be added: one that a longer header
implied may get a header of its own, one that dotted keys made may get more dotted keys, and one in
braces is closed. Numbers are checked but not kept.
-/
import ModelStream.Toml.Moment

namespace ModelStream

inductive Toml.Form
  /-- By a longer header. -/
  | implied
  /-- By a header of its own. -/
  | headed
  /-- By dotted keys. -/
  | dotted
  /-- In braces. -/
  | closed
  deriving Repr, DecidableEq

inductive Toml
  | text (s : String)
  | flag (b : Bool)
  /-- A number, of which the value is not kept. -/
  | number
  | moment (m : Toml.Moment)
  | list (items : List Toml)
  | table (form : Toml.Form) (entries : List (String × Toml))
  /-- The tables of a repeated header, newest first. -/
  | tables (newest : List (String × Toml)) (older : List Toml)

namespace Toml

abbrev Entries := List (String × Toml)

/-- The one entry name of a moment that is taken for a table. -/
def Moment.entryName : String := "$__toml_private_datetime"

/-- The entries of a value that can be taken for a table: a table itself, or a moment, whose one
entry is its text. -/
def entries? : Toml → Option Entries
  | .table _ entries => some entries
  | .moment m => some [(Moment.entryName, .text m.toText)]
  | _ => none

/-- Replaces the value of a key, or adds the key at the end. -/
def enter (key : String) (value : Toml) : Entries → Entries
  | [] => [(key, value)]
  | (k, v) :: rest => if k = key then (key, value) :: rest else (k, v) :: enter key value rest

abbrev Change := Form → Entries → Option (Form × Entries)

/-- Goes down a path from a table and changes the table at its end. Tables that are missing on the
way are made; `dotted` says whether dotted keys or a header lead the way. Dotted keys do not go
through a table that has a header. -/
def descend (dotted : Bool) (change : Change) : List String → Change
  | [], form, entries => change form entries
  | key :: path, form, entries => do
    let child ← match entries.lookup key with
      | none => do
        let (f, es) ← descend dotted change path (if dotted then .dotted else .implied) []
        pure (Toml.table f es)
      | some (.table f es) => do
        guard (f != .closed && ! (dotted && f == .headed))
        let (f, es) ← descend dotted change path f es
        pure (Toml.table f es)
      | some (.tables newest older) => do
        let (_, es) ← descend dotted change path .headed newest
        pure (Toml.tables es older)
      | some _ => none
    return (form, enter key child entries)

/-- Adds a key to a table; the dotted path before the key leads to the table only through tables
that dotted keys made. -/
def add (path : List String) (key : String) (value : Toml) : Change :=
  descend true (fun form entries => do
    guard (path.isEmpty != (form == .dotted))
    guard (entries.lookup key).isNone
    return (form, enter key value entries)) path

/-- The header of a table: it is new, or a longer header has implied it. -/
def openTable (path : List String) (key : String) : Change :=
  descend false (fun form entries =>
    match entries.lookup key with
    | none => some (form, enter key (.table .headed []) entries)
    | some (.table .implied es) => some (form, enter key (.table .headed es) entries)
    | some _ => none) path

def openNext (path : List String) (key : String) : Change :=
  descend false (fun form entries =>
    match entries.lookup key with
    | none => some (form, enter key (.tables [] []) entries)
    | some (.tables newest older) => some (form, enter key (.tables [] (.table .headed newest :: older)) entries)
    | some _ => none) path

def addBelow (header path : List String) (key : String) (value : Toml) : Change :=
  descend false (add path key value) header

end Toml

end ModelStream
