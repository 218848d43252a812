import Settle.Db.Calls

/-!
# Schemas and the stored format

The schema of `src/schema/ast.rs`, and `src/storage/format.rs`: the format version of a store and
the stored layout of each table, reducer and materialized view.

A layout is stored as JSON text. serde_json is a parameter of the model (`SerdeJson`): it writes the
text of a value, reads a text as a JSON object and gives the fields of that object by name.
-/

namespace Settle

open Std

/-! ## Schemas -/

structure ColumnDef where
  name : String
  columnType : ColumnType
deriving DecidableEq

structure TableDef where
  name : String
  columns : List ColumnDef
  /-- rows are stored and fed to the reducers and MVs, with no change records -/
  virtualTable : Bool
deriving DecidableEq

structure StateField where
  name : String
  /-- of the value of each entry, for a MAP field -/
  columnType : ColumnType
  default : String
  map : Bool
deriving DecidableEq

inductive ReducerBody where
  | lua (script : String)
  | external (id : String)
deriving DecidableEq

structure ReducerDef where
  name : String
  source : String
  groupBy : List String
  state : List StateField
  body : ReducerBody
  requires : List String
deriving DecidableEq

structure ModuleDef where
  name : String
  script : String
deriving DecidableEq

structure Schema where
  tables : List TableDef
  modules : List ModuleDef
  reducers : List ReducerDef
  materializedViews : List MVDef
deriving DecidableEq

/-- `Display` of a column type. -/
def ColumnType.text : ColumnType → String
  | .uint64 => "UInt64"
  | .int64 => "Int64"
  | .float64 => "Float64"
  | .uint256 => "Uint256"
  | .string => "String"
  | .dateTime => "DateTime"
  | .boolean => "Boolean"
  | .bytes => "Bytes"
  | .base58 => "Base58"
  | .json => "JSON"

/-- The type as the schema writes it. -/
def StateField.typeName (f : StateField) : String :=
  if f.map then "Map(String, " ++ f.columnType.text ++ ")" else f.columnType.text

/-! ## JSON -/

/-- A JSON value, as far as layouts have them. -/
inductive Json where
  | null
  | num (n : Nat)
  | str (s : String)
  | arr (items : List Json)
  | obj (fields : List (String × Json))

/-- The printer and the parser of serde_json. -/
class SerdeJson where
  /-- `to_text` of a layout: `serde_json::to_string` -/
  text : Json → String
  /-- the values of the fields of an object -/
  Value : Type
  decEq : DecidableEq Value
  /-- `from_slice` of an object: its fields, by name -/
  parseObject : String → Option (BTreeMap String Value)

instance [SerdeJson] : DecidableEq SerdeJson.Value := SerdeJson.decEq

/-! ## Layouts -/

/-- What decides how the stored data of one object reads back. -/
structure Layout where
  /-- tables, reducers and MVs have separate key spaces in storage -/
  keySpace : String
  kind : String
  name : String
  text : String
deriving DecidableEq

/-- `TypedName`. -/
def typedName (name columnType : String) : Json :=
  .obj [("name", .str name), ("type", .str columnType)]

/-- `SelectLayout`. -/
def selectLayout : SelectExpr → Json
  | .column column => .obj [("column", .str column)]
  | .agg func column =>
    .obj [("agg", .obj [("func", .str func.name), ("column", (column.map Json.str).getD .null)])]
  | .windowFunc column seconds =>
    .obj [("window", .obj [("column", .str column), ("seconds", .num seconds.toNat)])]

/-- `TableLayout`. -/
def tableJson (d : TableDef) : Json :=
  .obj [("columns", .arr (d.columns.map fun c => typedName c.name c.columnType.text))]

/-- `ReducerLayout`. -/
def reducerJson (d : ReducerDef) : Json :=
  .obj [("source", .str d.source), ("group_by", .arr (d.groupBy.map Json.str)),
    ("state", .arr (d.state.map fun f => typedName f.name f.typeName))]

/-- `SlidingLayout`. -/
def slidingJson (w : SlidingWindowDef) : Json :=
  .obj [("seconds", .num w.intervalSeconds.toNat), ("time_column", .str w.timeColumn)]

/-- `MvLayout`: no GROUP BY, which names the key items of `select`. -/
def mvJson (d : MVDef) : Json :=
  .obj [("source", .str d.source), ("select", .arr (d.select.map fun item => selectLayout item.expr)),
    ("sliding_window", (d.slidingWindow.map slidingJson).getD .null)]

def tableLayout [SerdeJson] (d : TableDef) : Layout where
  keySpace := "table"
  kind := "table"
  name := d.name
  text := SerdeJson.text (tableJson d)

def reducerLayout [SerdeJson] (d : ReducerDef) : Layout where
  keySpace := "reducer"
  kind := "reducer"
  name := d.name
  text := SerdeJson.text (reducerJson d)

def mvLayout [SerdeJson] (d : MVDef) : Layout where
  keySpace := "mv"
  kind := "materialized view"
  name := d.name
  text := SerdeJson.text (mvJson d)

/-- The layouts of the objects of a schema. -/
def Schema.layouts [SerdeJson] (schema : Schema) : List Layout :=
  schema.tables.map tableLayout ++ schema.reducers.map reducerLayout ++
    schema.materializedViews.map mvLayout

/-! ## The format check -/

/-- The version of what is stored and how. -/
def formatVersion : Nat := 1

def metaFormatVersion : String := "format_version"

/-- Meta writes of what storage lacks: the format version, layouts of new objects. -/
abbrev Stamp := List (String × Datum)

def checkVersion : Datum → Except Error Unit
  | .number version =>
    if version = formatVersion then .ok ()
    else
      let writer := if formatVersion < version then "a newer" else "an older"
      .error (.incompatibleStorage ("the database has format version " ++ toString version ++ ", " ++
        writer ++ " Settle version wrote it; this version reads only format version " ++
        toString formatVersion ++ ". Rebuild the database from the source data"))
  | _ => .error (.storage "corrupt format_version metadata")

namespace Layout

def metaKey (l : Layout) : String := "layout:" ++ l.keySpace ++ ":" ++ l.name

variable [SerdeJson]

/-- A view layout from before GROUP BY left it: this layout with a `group_by` field. -/
def isStoredWithGroupBy (l : Layout) (stored : String) : Bool :=
  if l.keySpace ≠ "mv" then false
  else
    match SerdeJson.parseObject stored with
    | none => false
    | some fields =>
      if fields.contains "group_by" then
        match SerdeJson.parseObject l.text with
        | some current => decide ((fields.erase "group_by").toList = current.toList)
        | none => false
      else false

/-- The error of a layout that does not match the stored one. -/
def mismatch (l : Layout) (stored : String) : Error :=
  .incompatibleStorage (l.kind ++ " '" ++ l.name ++
    "' does not match the layout of its stored data, which it would read wrong. Stored: " ++ stored ++
    ". Schema: " ++ l.text ++ ". Keep the stored layout, give the " ++ l.kind ++
    " a new name, or rebuild the database from the source data")

/-- The meta write that stores this layout, if storage has none yet. -/
def check (l : Layout) (store : Store) : Except Error Stamp :=
  match store.metas[l.metaKey]? with
  | none => .ok [(l.metaKey, .text l.text)]
  | some (.text stored) =>
    if stored = l.text || l.isStoredWithGroupBy stored then .ok []
    else .error (l.mismatch stored)
  -- no other payload is the text of a layout
  | some _ => .error (l.mismatch "")

end Layout

/-- The loop of `check` over the layouts. -/
def checkLayouts [SerdeJson] (store : Store) : List Layout → Except Error Stamp
  | [] => .ok []
  | l :: rest => do
    let stamp ← l.check store
    let stamps ← checkLayouts store rest
    .ok (stamp ++ stamps)

/-- `format::check`: the stored format version and the stored layout of each object in the
schema. Only a database without data may lack the version. -/
def formatCheck [SerdeJson] (store : Store) (schema : Schema) (hasData : Bool) :
    Except Error Stamp := do
  let version ← match store.metas[metaFormatVersion]? with
    | some version => do
      checkVersion version
      .ok []
    | none =>
      if hasData then
        .error (.incompatibleStorage ("the database has no format version: a Settle version " ++
          "before format versions wrote it. Rebuild the database from the source data"))
      else .ok [(metaFormatVersion, .number formatVersion)]
  let stamps ← checkLayouts store schema.layouts
  .ok (version ++ stamps)

end Settle
