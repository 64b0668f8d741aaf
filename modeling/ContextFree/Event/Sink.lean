import ContextFree.Event.Record

/-! # Where events go

Events may be dropped, kept in order, or written to a text.
-/

namespace ContextFree.Event

/-- A receiver of events. -/
inductive Sink where
  /-- Drops every event. -/
  | discard
  /-- Keeps the events in order. -/
  | memory (events : List Record)
  /-- Writes one line for each event. -/
  | file (text : String)
  /-- Has not been told what to do, and fails at every event. -/
  | unset

/-- Hands an event to a sink. -/
def Sink.log (stamp : Stamp) (e : Record) : Sink → Except Fault Sink
  | discard => .ok .discard
  | memory events => .ok (.memory (events ++ [e]))
  | file text => .ok (.file (text ++ e.line stamp ++ "\n"))
  | unset => .error .noKind

/-- The names that a detail cannot have. -/
def reservedNames : List String :=
  ["self", "event_type", "grammar"]

/-- Hands an event about a grammar to a sink. -/
def Sink.logGrammar (stamp : Stamp) (type : String) (g : Grammar)
    (details : List (String × Value)) (sink : Sink) : Except Fault Sink :=
  match details.find? fun (name, _) => reservedNames.contains name with
  | some (name, _) => .error (.detailTaken name)
  | none => sink.log stamp (.ofGrammar type g details)

end ContextFree.Event
