import RowGraph.Value
import RowGraph.Decimal.Notation
import RowGraph.Text.Quoted

/-!
# The text of a value

The form in which a value appears in messages: numbers in plain decimal notation, texts quoted,
vertices as `v[7]`.
-/

namespace RowGraph.Value

/-- The text of a value. -/
def text : Value → String
  | bool b => if b then "true" else "false"
  | int i => toString i.toInt
  | float x => NumberStyle.display.text x
  | string s => Text.quoted s
  | vertex v => "v[" ++ toString v.val.toNat ++ "]"

end RowGraph.Value
