import MethodCompiler.Assoc

/-!
# TOML documents

A document is a table whose members are values and tables. A table remembers how
it came to be, because that decides whether later text may add to it: a header
opens a table once, dotted keys open tables of their own, and an inline table is
closed as soon as it is read.
-/

namespace MethodCompiler

/-- How a table came to be. -/
inductive TableOrigin where
  /-- between braces -/
  | inline
  /-- by a header of its own -/
  | header
  /-- by a header further down -/
  | implied
  /-- by a dotted key -/
  | dotted
deriving DecidableEq, Repr

/-- A value of a document. -/
inductive Toml where
  | integer (n : Int)
  | float (x : Float)
  | string (s : String)
  | boolean (b : Bool)
  /-- a date, a time or both, as written -/
  | moment (text : String)
  | array (items : List Toml)
  | table (origin : TableOrigin) (members : List (String × Toml))
  /-- the tables of repeated headers in double brackets, the last one still open -/
  | tables (items : List (List (String × Toml)))

namespace Toml

/-- The members of a table in the order of the text. -/
abbrev Members := List (String × Toml)

/-- Changes the last item of a list, if there is one. -/
def modifyLast? (f : α → Option α) : List α → Option (List α)
  | [] => none
  | [a] => (f a).map fun a => [a]
  | a :: rest => (modifyLast? f rest).map (a :: ·)

/-- Changes the table that a header leads to, opening tables on the way. Of
repeated tables the last one is meant. -/
def modifyAt? (f : Members → Option Members) : List String → Members → Option Members
  | [], members => f members
  | key :: path, members =>
    let changed : Option Toml :=
      match members.lookup key with
      | none => (modifyAt? f path []).map (.table .implied)
      | some (.table .inline _) => none
      | some (.table origin inner) => (modifyAt? f path inner).map (.table origin)
      | some (.tables items) => (modifyLast? (modifyAt? f path) items).map .tables
      | some _ => none
    changed.map fun value => Assoc.insert key value members

/-- Opens the table of a header. -/
def openTable? (key : String) (members : Members) : Option Members :=
  match members.lookup key with
  | none => some (Assoc.insert key (.table .header []) members)
  | some (.table .implied inner) => some (Assoc.insert key (.table .header inner) members)
  | some _ => none

/-- Opens one more table of a header in double brackets. -/
def openNext? (key : String) (members : Members) : Option Members :=
  match members.lookup key with
  | none => some (Assoc.insert key (.tables [[]]) members)
  | some (.tables items) => some (Assoc.insert key (.tables (items ++ [[]])) members)
  | some _ => none

/-- Adds the value of a dotted key. The tables on its way are those of other
dotted keys; those of headers further down may only be passed through. -/
def insertDotted? (value : Toml) : List String → Members → Option Members
  | [], _ => none
  | [key], members =>
    match members.lookup key with
    | none => some (members ++ [(key, value)])
    | some _ => none
  | key :: path, members =>
    let passing := 2 ≤ path.length
    let changed : Option Toml :=
      match members.lookup key with
      | none => (insertDotted? value path []).map (.table .dotted)
      | some (.table .dotted inner) => (insertDotted? value path inner).map (.table .dotted)
      | some (.table .implied inner) =>
        if passing then (insertDotted? value path inner).map (.table .implied) else none
      | some (.tables items) =>
        if passing then (modifyLast? (insertDotted? value path) items).map .tables else none
      | some _ => none
    changed.map fun value => Assoc.insert key value members

end Toml

end MethodCompiler
