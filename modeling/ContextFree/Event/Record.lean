import ContextFree.Event.Stamp
import ContextFree.Event.Value
import ContextFree.Grammar.Basic

/-! # Events

An event has a type and possibly data. Events about a grammar carry its size. An event is
written on one line: its type, its time stamp and, if there are any, its data.
-/

namespace ContextFree.Event

/-- Something that happened. -/
structure Record where
  type : String
  data : Option Value := none

/-- The size of a grammar. -/
def summary (g : Grammar) : List (String × Value) :=
  [("nonterminals", .nat g.productions.size), ("terminals", .nat g.terminals.size),
    ("rules", .nat g.size)]

namespace Record

/-- An event about a grammar: details with the key of a size take its place. -/
def ofGrammar (type : String) (g : Grammar) (details : List (String × Value)) : Record where
  type
  data := some (.object (Value.override (summary g) details))

/-- The data to write: null stands for none. -/
def written : Option Value → Option Value
  | some .null => none
  | data => data

/-- The line of an event, without its line end. -/
def line (stamp : Stamp) (e : Record) : String :=
  " ".intercalate ([e.type, stamp.text] ++ (written e.data).toList.map Value.write)

/-- The text of a list of events: one line for each. -/
def file (events : List (Stamp × Record)) : String :=
  String.join (events.map fun (stamp, e) => e.line stamp ++ "\n")

/-- The events of one type. -/
def ofType (type : String) (events : List Record) : List Record :=
  events.filter (·.type = type)

end Record

end ContextFree.Event
