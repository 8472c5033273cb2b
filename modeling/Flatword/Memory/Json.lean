import Flatword.Json.Fields
import Flatword.Memory.Shape
import Flatword.Memory.Table
import Flatword.Source.Json

/-!
# Memory as JSON
-/

namespace Flatword

namespace Kind

def toJson (k : Kind) : Json := .str k.name

end Kind

namespace Offset

def toJson : Offset → Json
  | known words => .obj [("constant", .int words.toInt)]
  | stored address => .obj [("variable", .ofNat address)]

end Offset

namespace ArrayItem

def toJson (item : ArrayItem) : Json :=
  .obj [("kind", item.kind.toJson), ("declaration", item.type.toJson),
    ("typeDefinition", .str item.shape), ("totalSize", .ofNat item.totalSize)]

end ArrayItem

namespace Slot

def toJson (s : Slot) : Json :=
  .obj [("address", .ofOption .ofNat s.address), ("name", .str s.name),
    ("asmName", .str s.asmName), ("scope", .str s.scope), ("kind", s.kind.toJson),
    ("declaration", s.type.toJson), ("size", .ofNat s.size),
    ("hexContent", .ofOption .str s.content), ("isSet", .bool s.isSet),
    ("isDeclared", .bool s.isDeclared), ("toBeRegister", .bool s.wantsRegister),
    ("offset", .ofOption Offset.toJson s.offset), ("arrayItem", .ofOption ArrayItem.toJson s.item),
    ("typeDefinition", .ofOption .str s.shape)]

end Slot

namespace Table

def toJson (t : Table) : Json :=
  .obj [("slots", .arr (t.slots.map Slot.toJson)), ("next_address", .ofNat t.next)]

end Table

namespace ArrayShape

def toJson (s : ArrayShape) : Json :=
  .obj [("name", .str s.name), ("dimensions", .arr (s.dimensions.map (.ofNat ·.toNat))),
    ("multipliers", .arr (s.strides.map (.ofNat ·.toNat))), ("template", s.template.toJson)]

end ArrayShape

namespace StructShape

def toJson (s : StructShape) : Json :=
  .obj [("name", .str s.name), ("members", .arr (s.members.map Slot.toJson)),
    ("template", s.template.toJson)]

end StructShape

end Flatword
