import Flatword.Json.Fields
import Flatword.Json.Reader
import Flatword.Options

/-!
# Options as JSON
-/

namespace Flatword

namespace Options

def toJson (o : Options) : Json :=
  .obj [("optimizationLevel", .ofNat o.level), ("maxAuxVars", .ofNat o.registers),
    ("maxConstVars", .ofNat o.constants), ("verboseAssembly", .bool o.verbose)]

/-- Read options without a check of their ranges. -/
def ofJson? (j : Json) : Option Options :=
  match j.fields? ["optimizationLevel", "maxAuxVars", "maxConstVars", "verboseAssembly"] with
  | some [level, registers, constants, verbose] => do
    let absent : Options := {}
    return {
      level := ← Json.withDefault absent.level (Json.nat? 256) level
      registers := ← Json.withDefault absent.registers (Json.nat? wordLimit) registers
      constants := ← Json.withDefault absent.constants (Json.nat? wordLimit) constants
      verbose := ← Json.withDefault absent.verbose Json.bool? verbose }
  | _ => none

/-- Read options from a text and check their ranges. -/
def parse (text : String) : Except Failure Options :=
  match (Json.parse? text).bind ofJson? with
  | some o => do
    o.validate .nowhere
    return o
  | none => .error ⟨.nowhere, .malformedOptions "the text does not hold a record of options"⟩

end Options

end Flatword
