import CorpusIndex.Config.Toml.Scalar

/-!
# Reading TOML

A document is a list of key lines under table headers. Each table is opened once and each key bound
once; tables that came about through longer headers may still be opened, those that came about through
points in keys may only be extended in the same way.
-/
namespace CorpusIndex.Toml

/-- How a table came about. -/
inductive Origin where
  | opened
  | above
  | dotted
  deriving DecidableEq, Repr

/-- A document under construction. Values are closed, tables and arrays of tables are not. -/
inductive Item where
  | value (v : ConfigValue)
  | table (origin : Origin) (fields : List (String × Item))
  | tables (done : List Item)
  deriving Inhabited, Repr

abbrev Entries := List (String × Item)

def put (k : String) (v : Item) : Entries → Entries
  | [] => [(k, v)]
  | (j, w) :: rest => if j = k then (k, v) :: rest else (j, w) :: put k v rest

/-- Change the table under a chain of names by `f`, making tables on the way. -/
def within (dotted : Bool) (f : Origin → Entries → Option Entries) :
    (path : List String) → (here : Origin) → Entries → Option Entries
  | [], here, fields => f here fields
  | k :: rest, _, fields => do
    match fields.lookup k with
    | none =>
      let origin := if dotted then Origin.dotted else .above
      return put k (.table origin (← within dotted f rest origin [])) fields
    | some (.table origin inner) =>
      if dotted && origin == .opened then none
      else return put k (.table origin (← within dotted f rest origin inner)) fields
    | some (.tables done) =>
      match done.getLast? with
      | some (.table origin inner) =>
        return put k (.tables (done.dropLast ++ [.table origin (← within dotted f rest origin inner)]))
          fields
      | _ => none
    | some (.value _) => none

/-- Bind a key in a table. The last name has to be new, and names before it lead through tables that
came about in the same way. -/
def bind (names : List String) (v : ConfigValue) (here : Origin) (fields : Entries) : Option Entries :=
  match names.getLast? with
  | none => none
  | some last =>
    within true
      (fun origin inner =>
        if (origin == .dotted) == names.dropLast.isEmpty then none
        else if (inner.lookup last).isSome then none
        else some (put last (.value v) inner))
      names.dropLast here fields

/-- Open a table. -/
def openTable (names : List String) (fields : Entries) : Option Entries :=
  match names.getLast? with
  | none => none
  | some last =>
    within false
      (fun _ inner =>
        match inner.lookup last with
        | none => some (put last (.table .opened []) inner)
        | some (.table .above entries) => some (put last (.table .opened entries) inner)
        | _ => none)
      names.dropLast .opened fields

/-- Open the next table of an array of tables. -/
def openNext (names : List String) (fields : Entries) : Option Entries :=
  match names.getLast? with
  | none => none
  | some last =>
    within false
      (fun _ inner =>
        match inner.lookup last with
        | none => some (put last (.tables [.table .opened []]) inner)
        | some (.tables done) => some (put last (.tables (done ++ [.table .opened []])) inner)
        | _ => none)
      names.dropLast .opened fields

/-- Change the open table. -/
def inOpen (path : List String) (f : Origin → Entries → Option Entries) (fields : Entries) :
    Option Entries := within false f path .opened fields

mutual
/-- The value of an item. -/
def Item.close : Item → ConfigValue
  | .value v => v
  | .table _ fields => .table (closeFields fields)
  | .tables done => .list (closeAll done)
def closeFields : Entries → List (String × ConfigValue)
  | [] => []
  | (k, v) :: rest => (k, v.close) :: closeFields rest
def closeAll : List Item → List ConfigValue
  | [] => []
  | v :: rest => v.close :: closeAll rest
end

mutual
/-- A value. `fuel` bounds the number of parts, `depth` the nesting. -/
def value : (fuel depth : Nat) → Reader ConfigValue
  | 0, _, _ => none
  | fuel + 1, depth + 1, '[' :: s => (arrayRest fuel depth [] s).map (fun r => (.list r.1, r.2))
  | fuel + 1, depth + 1, '\x7b' :: s =>
    match skipBlanks s with
    | '\x7d' :: r => some (.table [], r)
    | _ => inlineRest fuel depth [] s
  | _ + 1, _, s => scalar s
/-- The items of an array after its opening bracket or a comma. -/
def arrayRest : (fuel depth : Nat) → (seen : List ConfigValue) → Reader (List ConfigValue)
  | 0, _, _, _ => none
  | fuel + 1, depth, seen, s =>
    match skipLines s.length s with
    | none => none
    | some (']' :: r) => some (seen.reverse, r)
    | some s =>
      match value fuel depth s with
      | none => none
      | some (v, r) =>
        match skipLines r.length r with
        | some (',' :: r) => arrayRest fuel depth (v :: seen) r
        | some (']' :: r) => some ((v :: seen).reverse, r)
        | _ => none
/-- The keys of an inline table after its opening brace or a comma. -/
def inlineRest : (fuel depth : Nat) → (seen : Entries) → Reader ConfigValue
  | 0, _, _, _ => none
  | fuel + 1, depth, seen, s =>
    match key s with
    | some (names, '=' :: r) =>
      match value fuel depth (skipBlanks r) with
      | none => none
      | some (v, r) =>
        match bind names v .opened seen with
        | none => none
        | some seen =>
          match skipBlanks r with
          | ',' :: r => inlineRest fuel depth seen r
          | '\x7d' :: r => some (.table (closeFields seen), r)
          | _ => none
    | _ => none
end

/-- The next line, after nothing but blanks and a comment. -/
def endOfLine? (s : List Char) : Option (List Char) := do
  match ← skipComment? (skipBlanks s) with
  | [] => some []
  | s => lineEnd? s

/-- Lines after one another. `path` leads to the open table; `fuel` bounds the number of lines. -/
def lines : (fuel : Nat) → (path : List String) → Entries → List Char → Option Entries
  | 0, _, fields, _ => some fields
  | fuel + 1, path, fields, s => do
    match skipBlanks s with
    | [] => some fields
    | '[' :: '[' :: r =>
      let (names, r) ← key r
      match r with
      | ']' :: ']' :: r => lines fuel names (← openNext names fields) (← endOfLine? r)
      | _ => none
    | '[' :: r =>
      let (names, r) ← key r
      match r with
      | ']' :: r => lines fuel names (← openTable names fields) (← endOfLine? r)
      | _ => none
    | s =>
      match endOfLine? s with
      | some r => lines fuel path fields r
      | none =>
        let (names, r) ← key s
        match r with
        | '=' :: r =>
          let r := skipBlanks r
          let (v, r) ← value (r.length + 1) maxDepth r
          lines fuel path (← inOpen path (bind names v) fields) (← endOfLine? r)
        | _ => none

/-- The table a document stands for. A byte order mark may stand in front of it. -/
def parse? (text : String) : Option ConfigValue := do
  let s := match text.toList with
    | '\uFEFF' :: s => s
    | s => s
  return .table (closeFields (← lines (s.length + 1) [] [] s))

end CorpusIndex.Toml
