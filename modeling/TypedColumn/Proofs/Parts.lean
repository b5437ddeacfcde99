import TypedColumn.Layout

namespace TypedColumn.Layout

inductive PartOf : Layout → Layout → Prop
  | self (l : Layout) : PartOf l l
  | nullable {part inner : Layout} (name : String) :
      PartOf part inner → PartOf part (.nullable name inner)
  | array {part element : Layout} (name : String) :
      PartOf part element → PartOf part (.array name element)
  | tuple {part l : Layout} {elements : List Layout} (name : String) :
      l ∈ elements → PartOf part l → PartOf part (.tuple name elements)
  | key {part key : Layout} (name : String) (value : Layout) :
      PartOf part key → PartOf part (.map name key value)
  | value {part value : Layout} (name : String) (key : Layout) :
      PartOf part value → PartOf part (.map name key value)
  | simpleAggregate {part inner : Layout} (name : String) :
      PartOf part inner → PartOf part (.simpleAggregate name inner)

end TypedColumn.Layout
