import ScriptMachine.Decimal.Text
import ScriptMachine.Text.Quoted
import ScriptMachine.Value.Heap

/-!
# Text of values

Strings stand for themselves at the top and are quoted inside containers. A container that is met
inside itself is cut with a marker.
-/

namespace ScriptMachine

/-- A container of the heap. -/
inductive Container where
  | array (ref : Ref)
  | map (ref : Ref)
  | hash (ref : Ref)
deriving DecidableEq, Repr

namespace Key

/-- Text of a key; strings are quoted. -/
def text : Key → String
  | .int n => toString n.toInt
  | .float x => Decimal.floatText x
  | .bool b => if b then "true" else "false"
  | .str s => Text.quoted s

end Key

namespace Heap

/-- Texts joined by commas. -/
def commaList (parts : List String) : String := String.intercalate ", " parts

/-- Marker of a hash map inside itself. -/
def hashMarker : String := "\x7b...\x7d"

/-- Text of a value inside the containers `opened`; `fuel` bounds the nesting of containers still to
be opened. -/
def renderFrom (h : Heap) (fuel : Nat) (opened : List Container) (nested : Bool) (v : Value) :
    String :=
  match v with
  | .int n => toString n.toInt
  | .float x => Decimal.floatText x
  | .bool b => if b then "true" else "false"
  | .null => "null"
  | .str s => if nested then Text.quoted s else s
  | .array r =>
    if opened.contains (.array r) then "[...]"
    else
      match fuel with
      | 0 => "[...]"
      | fuel + 1 =>
        "[" ++ commaList ((h.array r).toList.map (h.renderFrom fuel (.array r :: opened) true))
          ++ "]"
  | .map r =>
    if opened.contains (.map r) then "[...]"
    else
      match fuel with
      | 0 => "[...]"
      | fuel + 1 =>
        "[" ++ commaList ((h.map r).toList.map fun e =>
          e.1.text ++ " => " ++ h.renderFrom fuel (.map r :: opened) true e.2) ++ "]"
  | .hash r =>
    if opened.contains (.hash r) then hashMarker
    else
      match fuel with
      | 0 => hashMarker
      | fuel + 1 =>
        "\x7b" ++ commaList ((h.hash r).toList.map fun e =>
          e.1.text ++ ": " ++ h.renderFrom fuel (.hash r :: opened) true e.2) ++ "\x7d"
  | .closure c => "<fn " ++ c.function.displayName ++ ">"
  | .function _ f => "<compiled fn " ++ f.displayName ++ ">"
  | .native _ name => "<native fn " ++ name ++ ">"
  | .cls c => "<class " ++ c.name ++ ">"
  | .object _ c => "<" ++ c.name ++ " instance>"
  | .channel _ capacity => "<channel " ++ Channel.capacityLabel capacity ++ ">"
  | .error message _ => "error: " ++ message
termination_by structural fuel

/-- Number of containers: no chain of open containers is longer. -/
def containerCount (h : Heap) : Nat := h.arrays.size + h.maps.size + h.hashes.size

/-- Text of a value. -/
def render (h : Heap) (v : Value) : String := h.renderFrom (h.containerCount + 1) [] false v

/-- Text of a value that names its kind, for inspection. -/
def inspect (h : Heap) (v : Value) : String :=
  match v with
  | .int _ => "Integer(" ++ h.render v ++ ")"
  | .float _ => "Float(" ++ h.render v ++ ")"
  | .bool _ => "Boolean(" ++ h.render v ++ ")"
  | .null => "Null"
  | .str s => "String(" ++ Text.quoted s ++ ")"
  | .array _ => "Array(" ++ h.render v ++ ")"
  | .map _ => "OrderedMap(" ++ h.render v ++ ")"
  | .hash _ => "HashMap(" ++ h.render v ++ ")"
  | .error message _ => "Error(" ++ Text.quoted message ++ ")"
  | v => h.render v

end Heap

end ScriptMachine
