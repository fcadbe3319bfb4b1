import SharedLink.Fault
import SharedLink.Text.Numeral

/-!
# SharedLink.Scheduler.Settings

The settings of the planner: the largest set of parents that is tried in every
order, and the padding of reservations.

A setting is taken from an argument if there is one, else from a text if there is
one, else it has its default.  A text that is not needed is not read.
-/

namespace SharedLink

/-- The bound on parent sets, and the padding. -/
structure Settings where
  bound : Int
  padding : Quantity
deriving DecidableEq, Repr

namespace Settings

/-- Up to six parents, and a millionth of a unit. -/
def default : Settings := ⟨6, .double 1e-6⟩

/-- A bound from text. -/
def readBound (text : String) : Except Fault Int :=
  match Text.readInt text with
  | .ok n => .ok n
  | .error .malformed => .error (.notAnInteger text)
  | .error (.tooLong digits) => .error (.integerTooLong digits)

/-- A padding from text. -/
def readPadding (text : String) : Except Fault Quantity :=
  match Text.readDouble? text with
  | some x => .ok (.double x)
  | none => .error (.notANumber text)

/-- An argument, or what a text reads as, or a default. -/
def choose {α : Type} (given : Option α) (text : Option String) (read : String → Except Fault α)
    (default : α) : Except Fault α :=
  match given, text with
  | some a, _ => .ok a
  | none, some text => read text
  | none, none => .ok default

/-- Both settings, the bound first. -/
def resolve (bound : Option Int) (padding : Option Quantity)
    (boundText paddingText : Option String) : Except Fault Settings := do
  let bound ← choose bound boundText readBound default.bound
  let padding ← choose padding paddingText readPadding default.padding
  return ⟨bound, padding⟩

end Settings

end SharedLink
