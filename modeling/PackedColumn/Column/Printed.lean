import PackedColumn.Column.Read

/-!
# The printed form of columns

A column prints as its kind and the list of its slots, a value as the list
of its bytes. An `Outline` is such a nested list; it is written on one line,
or with each part on a line of its own, indented by four blanks a level.

* `flat_word`, `tall_word`: a word prints as itself either way.
-/

namespace PackedColumn

/-- Words, and groups of outlines between an opening and a closing word. -/
inductive Outline where
  | word (text : String)
  | group (opening : String) (parts : List Outline) (closing : String)

namespace Outline

mutual

/-- A text with the outline behind it, on one line. -/
def flatOnto (text : String) : Outline → String
  | word w => text ++ w
  | group opening parts closing => flatPartsOnto (text ++ opening) "" parts ++ closing

/-- A text with the parts of a group behind it, each behind a separator. -/
def flatPartsOnto (text separator : String) : List Outline → String
  | [] => text
  | p :: ps => flatPartsOnto (flatOnto (text ++ separator) p) ", " ps

end

mutual

/-- A text with the outline behind it, the parts of each group on lines of their own behind a
margin. -/
def tallOnto (text margin : String) : Outline → String
  | word w => text ++ w
  | group opening [] closing => text ++ opening ++ closing
  | group opening (p :: ps) closing =>
    tallPartsOnto (text ++ opening ++ "\n") (margin ++ "    ") (p :: ps) ++ margin ++ closing

/-- A text with the parts of a group behind it, each on a line of its own that ends in a comma. -/
def tallPartsOnto (text margin : String) : List Outline → String
  | [] => text
  | p :: ps => tallPartsOnto (tallOnto (text ++ margin) margin p ++ ",\n") margin ps

end

/-- The outline on one line. -/
def flat (o : Outline) : String := o.flatOnto ""

/-- The outline with the parts of each group on lines of their own. -/
def tall (o : Outline) : String := o.tallOnto "" ""

/-- A slot as an outline. -/
def ofSlot : Option (List UInt8) → Outline
  | none => word "None"
  | some bytes =>
    group "Some(" [group "[" (bytes.map fun b => word (toString b.toNat)) "]"] ")"

@[simp] theorem flat_word (w : String) : (word w).flat = w := by simp [flat, flatOnto]

@[simp] theorem tall_word (w : String) : (word w).tall = w := by simp [tall, tallOnto]

end Outline

/-- The column as an outline. -/
def Column.outline? {t : ColumnType} (c : Column t) : Option Outline :=
  c.slots?.map fun slots =>
    .group (t.element.label ++ "Vector[") (slots.map Outline.ofSlot) "]"

end PackedColumn
