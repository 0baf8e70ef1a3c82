import RecordCodec.Proofs.Layout.Decidable
import RecordCodec.Proofs.Schema.Growth
import RecordCodec.Value.Basic

/-!
# Resolving gives well-formed layouts

The built-in types are well-formed, and so is what is put together from
well-formed layouts.  Hence every layout of a schema that is accepted is
well-formed.
-/

namespace RecordCodec

namespace Schema

variable {declarations : List Declaration} {schema : Schema}

/-- Every type of an accepted schema has a well-formed layout. -/
theorem wellFormed_of_find? (accepted : ofDeclarations declarations = .ok schema) {name : String}
    {layout : Layout} (found : schema.find? name = some layout) : layout.WellFormed := by
  refine holds_of_find? accepted (fun _ layout => layout.WellFormed) ?_ ?_ found
  · rintro ⟨name, layout⟩ member
    obtain ⟨-, scalar, -, rfl⟩ := mem_entries_builtIn.mp member
    exact .scalar
  · intro declaration _ parts layout references assembled
    refine Declaration.wellFormed_assemble assembled fun part member => ?_
    obtain ⟨_, -, wellFormed⟩ := exists_mem_of_forall₂ references.flip member
    exact wellFormed

end Schema

/-! A schema in which types of every sort occur, and one of its values. -/

namespace Sample

/-- Messages are tagged in front.  The shapes in a scene carry their tag in their head. -/
def declarations : List Declaration :=
  [.enumeration "Kind" "u8" [("Circle", 1), ("Label", 2)] false,
    .enumeration "Style" "u8" [("bold", 1), ("wide", 2), ("both", 3)] true,
    .record "Head" none [⟨"serial", "u16", none⟩, ⟨"kind", "Kind", none⟩],
    .record "Circle" none [⟨"head", "Head", none⟩, ⟨"radius", "f32", none⟩],
    .record "Label" none
      [⟨"head", "Head", none⟩, ⟨"style", "Style", none⟩, ⟨"text", "char", some 6⟩],
    .union "Shape" (.path ["head", "kind"]) none [.named "Circle", .named "Label"],
    .record "Empty" (some 0) [],
    .record "Scene" none
      [⟨"shift", "i16", none⟩, ⟨"mark", "char", none⟩, ⟨"shapes", "Shape", some 2⟩],
    .union "Message" (.key "content") (some "Kind")
      [.tagged "Empty" "Circle", .tagged "Scene" "Label"]]

/-- The schema of the declarations. -/
def schema : Schema :=
  (Schema.ofDeclarations declarations).toOption.getD ⟨[], []⟩

/-- The layout of a message. -/
def layout : Layout :=
  (schema.find? "Message").getD (.scalar "" .bool)

/-- A scene with both shapes.  Its fields are not in the declared order. -/
def message : Value :=
  .union "Message" "Label" ⟨"Scene",
    [⟨"shapes", .array
        [.union "Shape" "Circle" ⟨"Circle",
          [⟨"radius", .single 0x3fc00000⟩,
            ⟨"head", .record ⟨"Head", [⟨"kind", .constant "Circle"⟩, ⟨"serial", .signed 7⟩]⟩⟩]⟩,
        .union "Shape" "Label" ⟨"Label",
          [⟨"head", .record ⟨"Head", [⟨"serial", .unsigned 8⟩, ⟨"kind", .constant "Label"⟩]⟩⟩,
            ⟨"style", .flags ["bold", "wide", "both"]⟩, ⟨"text", .text "h\u00e9"⟩]⟩]⟩,
      ⟨"mark", .unsigned 200⟩, ⟨"shift", .signed (-2)⟩]⟩

theorem accepted : Schema.ofDeclarations declarations = .ok schema :=
  eq_ok_getD (by decide +kernel) _

theorem found : schema.find? "Message" = some layout :=
  eq_some_getD (by decide +kernel) _

/-- The width of the integers whose last byte has the index. -/
def width (last : Fin 8) : WordWidth :=
  ⟨last + 1, Nat.le_add_left 1 last, last.isLt⟩

/-- Both unions are tagged with a kind, in one byte. -/
def kinds : ConstantSet :=
  ⟨"Kind", width 0, [⟨"Circle", 1⟩, ⟨"Label", 2⟩]⟩

def styles : ConstantSet :=
  ⟨"Style", width 0, [⟨"bold", 1⟩, ⟨"wide", 2⟩, ⟨"both", 3⟩]⟩

def headLayout : Layout :=
  .record ⟨"Head",
    [⟨"serial", .scalar "u16" (.unsigned (width 1)), none, 0, 2⟩,
      ⟨"kind", .enumeration kinds, none, 2, 1⟩], 3⟩

/-- The kind of a shape is behind the serial number in its head. -/
def shapeLayout : Layout :=
  .union ⟨"Shape", .path ["head", "kind"] 2, .enumeration kinds,
    [⟨"Circle", 1, .record ⟨"Circle",
        [⟨"head", headLayout, none, 0, 3⟩, ⟨"radius", .scalar "f32" .single, none, 3, 4⟩], 7⟩⟩,
      ⟨"Label", 2, .record ⟨"Label",
        [⟨"head", headLayout, none, 0, 3⟩, ⟨"style", .flags styles, none, 3, 1⟩,
          ⟨"text", .scalar "char" .char, some 6, 4, 6⟩], 10⟩⟩]⟩

/-- A slot for a shape has room for a label, the longest shape. -/
def scene : RecordLayout :=
  ⟨"Scene",
    [⟨"shift", .scalar "i16" (.signed (width 1)), none, 0, 2⟩,
      ⟨"mark", .scalar "char" .char, none, 2, 1⟩,
      ⟨"shapes", shapeLayout, some 2, 3, 20⟩], 23⟩

theorem layout_eq : layout =
    .union ⟨"Message", .key "content", .enumeration kinds,
      [⟨"Circle", 1, .record ⟨"Empty", [], 0⟩⟩, ⟨"Label", 2, .record scene⟩]⟩ := by
  decide +kernel

end Sample

end RecordCodec
