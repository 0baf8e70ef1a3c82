import RecordCodec.Layout.Basic

/-!
# Schemas

A schema is a table of layouts, each under its own name, and a list of further
names for some of them.  The table is in the order in which the layouts were
settled, so the parts of a layout stand before it.
-/

namespace RecordCodec

/-- The greatest number of bytes that a record may have. -/
def layoutLimit : Nat := 64 * 1024 * 1024

/-- The layouts of all declared types. -/
structure Schema where
  /-- The layouts in the order in which they were settled. -/
  table : List Layout
  aliases : List (String × Layout)

namespace Schema

/-- The layout that a name or a further name stands for. -/
def find? (schema : Schema) (name : String) : Option Layout :=
  (schema.table.find? (fun layout => layout.name == name)).or (schema.aliases.lookup name)

def lookup (schema : Schema) (name : String) : Except Error Layout :=
  match schema.find? name with
  | some layout => .ok layout
  | none => .error (.unknownType name)

def position? (schema : Schema) (layout : Layout) : Option Nat :=
  schema.table.findIdx? (fun entry => entry.name == layout.name)

def addLayout (schema : Schema) (layout : Layout) : Schema :=
  ⟨schema.table ++ [layout], schema.aliases⟩

/-- The schema with one more name for a layout. -/
def addAlias (schema : Schema) (name : String) (layout : Layout) : Schema :=
  ⟨schema.table, schema.aliases ++ [(name, layout)]⟩

end Schema

end RecordCodec
