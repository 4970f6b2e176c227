import Lox.Run.Machine

/-!
# Transcripts

What the events of a run leave behind: the text it printed, the text of the errors it reported, and
the text of its trace. Every event is one line of its kind, and the order of events is kept.
-/

namespace Lox

namespace Event

def printed? : Event → Option String
  | printed text => some text
  | _ => none

def reported? : Event → Option Diagnostic
  | reported error => some error
  | _ => none

def traced? : Event → Option String
  | traced _ message => some message
  | _ => none

end Event

/-- Texts as lines, each with its end. -/
def linesOf (texts : List String) : String :=
  String.join (texts.map (· ++ "\n"))

def reportsOf (events : List Event) : List Diagnostic :=
  events.filterMap Event.reported?

def outputOf (events : List Event) : String :=
  linesOf (events.filterMap Event.printed?)

def errorsOf (coloured : Bool) (events : List Event) : String :=
  linesOf ((reportsOf events).map (·.report coloured))

def traceOf (events : List Event) : String :=
  linesOf (events.filterMap Event.traced?)

end Lox
