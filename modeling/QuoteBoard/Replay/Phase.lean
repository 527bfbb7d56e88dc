/-!
# Phases of a player

A player is stopped, is started through two short phases, plays, and either finishes or is stopped.
-/

namespace QuoteBoard

inductive Phase where
  | stopped
  | initializing
  | initialized
  | playing
  | finished
  | stopping
  deriving DecidableEq, Repr, Inhabited

namespace Phase

def label : Phase → String
  | stopped => "Stopped"
  | initializing => "Initializing"
  | initialized => "Initialized"
  | playing => "Playing"
  | finished => "Finished"
  | stopping => "Stopping"

def all : List Phase := [stopped, initializing, initialized, playing, finished, stopping]

def ofLabel? (s : String) : Option Phase := all.find? fun p => p.label = s

end Phase

inductive Command where
  | play
  | stop
  deriving DecidableEq, Repr, Inhabited

def Command.label : Command → String
  | play => "play"
  | stop => "stop"

end QuoteBoard
