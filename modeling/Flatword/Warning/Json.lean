import Flatword.Json.Fields
import Flatword.Warning

/-!
# Locations and warnings as JSON
-/

namespace Flatword

namespace Location

def toJson (l : Location) : Json :=
  .obj [("line", .ofLine l.line), ("column", .ofLine l.column)]

def ofJson? (j : Json) : Option Location :=
  match j.fields? ["line", "column"] with
  | some [line, column] => do
    return {
      line := ← Json.required Json.uint32? line
      column := ← Json.withDefault 0 Json.uint32? column }
  | _ => none

end Location

namespace Warning

def toJson (w : Warning) : Json :=
  .obj [("severity", .str "Warning"), ("message", .str w.message),
    ("location", w.location.toJson)]

end Warning

end Flatword
