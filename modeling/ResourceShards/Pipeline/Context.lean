import ResourceShards.Error

/-!
# ResourceShards.Pipeline.Context

**What the stages of a run share.** A context names the signal by which its run is cancelled and the
label that goes in front of every failure it reports. Contexts derived from another one share its
signal and add to its label.
-/

namespace ResourceShards

/-- The signals that exist, by number: whether each has been raised. -/
abbrev Signals := List Bool

namespace Signals

/-- One more signal, not raised, and its number. -/
def fresh (signals : Signals) : Nat × Signals :=
  (signals.length, signals ++ [false])

/-- Raises a signal; it stays raised. -/
def raise (signal : Nat) (signals : Signals) : Signals :=
  signals.set signal true

/-- Whether a signal has been raised. -/
def isRaised (signal : Nat) (signals : Signals) : Bool :=
  signals[signal]?.getD false

end Signals

/-- What a stage is given. -/
structure Context where
  /-- The number of the signal that cancels the run. -/
  signal : Nat
  /-- What goes in front of failures. -/
  label : String := ""
  deriving DecidableEq, Repr

namespace Context

/-- The context of a part of the run. -/
def labelled (c : Context) (label : String) : Context :=
  { c with label := c.label ++ label }

/-- A failure as the context reports it. -/
def error (c : Context) (e : Error) : Error :=
  e.withLabel c.label

end Context

end ResourceShards
