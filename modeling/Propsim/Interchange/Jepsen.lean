import Propsim.Interchange.JsonReader

/-!
# Ingesting histories

`history.rs`: `from_jepsen` tells an EDN vector, a JSON array and line-delimited EDN apart, reads
the values and turns each into an entry.
-/

set_option autoImplicit false
set_option relaxedAutoImplicit false

namespace Propsim.Interchange

open Foundation

/-- Parses the keyword of a clock. -/
def clockFromKw (s : String) : Except Stop Clock :=
  if s = "virtual" then .ok .virtual
  else if s = "wall" then .ok .wall
  else fail ("unknown clock `:" ++ s ++ "`")

/-- The value of a field, whose key is a keyword or a string. -/
def getField (pairs : List (Value × Value)) (key : String) : Option Value :=
  pairs.findSome? fun (k, val) ↦
    match k with
    | .keyword name => if name = key then some val else none
    | .str name => if name = key then some val else none
    | _ => none

/-- An integer field, which may also arrive as a string. -/
def requireInt (v : Option Value) (field : String) : Except Stop Int64 :=
  match v with
  | some (.int i) => .ok i
  | some (.str s) =>
    match parseI64 s.toList with
    | some i => .ok i
    | none => fail ("`:" ++ field ++ "` is not an integer")
  | _ => fail ("missing or non-integer `:" ++ field ++ "`")

/-- The clock of an entry. A missing one is the wall clock. -/
def readClock (v : Option Value) : Except Stop Clock :=
  match v with
  | some (.keyword k) => clockFromKw k
  | some (.str k) => clockFromKw k
  | some _ => fail "`:clock` is not a keyword"
  | none => .ok .wall

/-- The kind that a name stands for. -/
def kindFromKw (k : String) : Except Stop OpKind :=
  match OpKind.fromKeyword k with
  | some kind => .ok kind
  | none => fail ("unknown :type `:" ++ k ++ "`")

/-- The kind of an entry. -/
def readKind (v : Option Value) : Except Stop OpKind :=
  match v with
  | some (.keyword k) => kindFromKw k
  | some (.str k) => kindFromKw k
  | _ => fail "missing or malformed `:type`"

/-- The function of an entry. -/
def readFunction (v : Option Value) : Except Stop Function :=
  match v with
  | some (.keyword k) => .ok ⟨k⟩
  | some (.str k) => .ok ⟨k⟩
  | _ => fail "missing or malformed `:f`"

/-- Parses one entry from a map. -/
def valueToEntry (v : Value) : Except Stop OpEntry :=
  match v with
  | .map pairs => do
    let index ← requireInt (getField pairs "index") "index"
    let nanos ← requireInt (getField pairs "time") "time"
    let clock ← readClock (getField pairs "clock")
    let kind ← readKind (getField pairs "type")
    let process ← requireInt (getField pairs "process") "process"
    let f ← readFunction (getField pairs "f")
    return ⟨index.toUInt64, ⟨nanos, clock⟩, kind, ⟨process.toUInt64⟩, f,
      (getField pairs "value").getD .nil⟩
  | _ => fail "op entry is not a map"

/-- JSON quotes the first key of the first object. -/
def looksLikeJson (s : List Char) : Bool :=
  match s.dropWhile (· ≠ '{') with
  | [] => false
  | _ :: rest => (trimStart rest).head? = some '"'

variable (floats : FloatText)

/-- The history of a vector of operation maps. -/
def historyOfValue (v : Value) : Except Stop History :=
  match v with
  | .list items => (items.mapM valueToEntry).map .mk
  | _ => fail "expected a vector of op maps"

/-- The entry of a line. -/
def lineToEntry (line : List Char) : Except Stop OpEntry := do
  let v ← Edn.parse floats line
  valueToEntry v

/-- The lines that are not blank. -/
def entryLines (s : List Char) : List (List Char) := (lines s).filter fun line ↦ trim line ≠ []

/-- A leading bracket or parenthesis. -/
def isSequence (trimmed : List Char) : Bool :=
  trimmed.head? = some '[' ∨ trimmed.head? = some '('

/-- Ingests a Jepsen history: one EDN or JSON sequence of operation maps, or an EDN map a line. -/
def fromJepsen (s : List Char) : Except Stop History :=
  let trimmed := trimStart s
  let isJson := looksLikeJson trimmed
  if isSequence trimmed then do
    let v ← if isJson then Json.parse floats trimmed else Edn.parse floats trimmed
    historyOfValue v
  else ((entryLines s).mapM (lineToEntry floats)).map .mk

end Propsim.Interchange
