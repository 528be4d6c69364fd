/-
Values as a host sees them after a program has run, and how they are
written.
-/
import WasmBackend.Double.Text
import WasmBackend.Word

namespace WasmBackend

inductive Value where
  | int (n : Word)
  | bool (b : Bool)
  | float (x : Double)
  | list (items : List Value)
  /-- The environment a function was made in, and the slot of its code. -/
  | closure (env index : Word)

namespace Value

mutual

def text : Value → String
  | int n => toString n.toInt
  | bool b => if b then "true" else "false"
  | float x => x.text "NaN"
  | list [] => "[]"
  | list (item :: items) => "[" ++ item.text ++ textAfter items ++ "]"
  | closure _ index => "<fun " ++ toString index.toInt ++ ">"
termination_by structural v => v

/-- Items that follow others. -/
def textAfter : List Value → String
  | [] => ""
  | item :: items => "; " ++ item.text ++ textAfter items
termination_by structural items => items

end

end Value

end WasmBackend
