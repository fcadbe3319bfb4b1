import SharedLink.Quantity
import SharedLink.Text.Quoted

/-!
# SharedLink.Fault

Everything that can go wrong, by cause.

`Fault.message` holds the wording.  A missing id is reported by the id alone,
and a number or place out of range by nothing but its cause.
-/

namespace SharedLink

/-- Why an operation fails. -/
inductive Fault where
  /-- an id was looked up that is not there -/
  | missing (id : Int)
  /-- a task with this id exists already -/
  | duplicateTask (id : Int)
  /-- a task would depend on itself -/
  | selfDependency (id : Int)
  /-- an id that is no task was given -/
  | unknownTask (id : Int)
  /-- a file cannot have fewer than no bytes -/
  | negativeSize (size : Quantity)
  /-- there is no such kind of file -/
  | noFileKind (written : String)
  /-- a host has to make progress -/
  | speedNotPositive (host : String) (speed : Quantity)
  /-- a host cannot transfer backwards -/
  | negativeBandwidth (host : String) (bandwidth : Quantity)
  /-- a parent that is no task -/
  | unknownParent (task parent : Int)
  /-- a parent that does not list the task as its child -/
  | oneSidedParent (task parent : Int)
  /-- a child that is no task -/
  | unknownChild (task child : Int)
  /-- a child that does not list the task as its parent -/
  | oneSidedChild (task child : Int)
  /-- the bound on parent sets is negative -/
  | negativeBound (bound : Int)
  /-- the padding of reservations is negative -/
  | negativePadding (padding : Quantity)
  /-- an interval that stops before it starts -/
  | reversedInterval (start stop : String)
  /-- a count of cores that is NaN -/
  | coresNotANumber
  /-- a number that is out of range -/
  | overflow
  /-- a rank that is too wide an integer -/
  | rankTooWide
  /-- a place before the first one -/
  | noSuchPlace
  /-- a task that has a rank already -/
  | alreadyPlanned (id : Int)
  /-- a planner gave something other than a plan -/
  | notAPlan
  /-- a plan that leaves tasks out -/
  | unplanned (names : List String)
  /-- a setting that is no integer -/
  | notAnInteger (text : String)
  /-- a setting with too many digits -/
  | integerTooLong (digits : Nat)
  /-- a setting that is no number -/
  | notANumber (text : String)
deriving DecidableEq, Repr

/-- The wording of a fault.  The text of a setting that is no integer is shown by
its first two hundred characters, quotes included. -/
def Fault.message : Fault → String
  | missing id => Decimal.ofInt id
  | duplicateTask id => "duplicate task id " ++ Decimal.ofInt id
  | selfDependency id => "task " ++ Decimal.ofInt id ++ " cannot depend on itself"
  | unknownTask id => "unknown task id " ++ Decimal.ofInt id
  | negativeSize size => "file size must be non-negative, got " ++ size.write
  | noFileKind written => written ++ " is not a valid FileType"
  | speedNotPositive host speed =>
    "host '" ++ host ++ "' speed must be positive, got " ++ speed.write
  | negativeBandwidth host bandwidth =>
    "host '" ++ host ++ "' bandwidth must be non-negative, got " ++ bandwidth.write
  | unknownParent task parent =>
    "task " ++ Decimal.ofInt task ++ " references unknown parent " ++ Decimal.ofInt parent
  | oneSidedParent task parent =>
    "task " ++ Decimal.ofInt task ++ " lists " ++ Decimal.ofInt parent
      ++ " as parent, but not vice versa"
  | unknownChild task child =>
    "task " ++ Decimal.ofInt task ++ " references unknown child " ++ Decimal.ofInt child
  | oneSidedChild task child =>
    "task " ++ Decimal.ofInt task ++ " lists " ++ Decimal.ofInt child
      ++ " as child, but not vice versa"
  | negativeBound bound => "max_permutations must be non-negative, got " ++ Decimal.ofInt bound
  | negativePadding padding => "epsilon must be non-negative, got " ++ padding.write
  | reversedInterval start stop => "interval end " ++ stop ++ " precedes its start " ++ start
  | coresNotANumber => "cannot convert float NaN to integer"
  | overflow | rankTooWide | noSuchPlace => ""
  | alreadyPlanned id => "task " ++ Decimal.ofInt id ++ " is already planned"
  | notAPlan => "'get_plan' must return a Plan"
  | unplanned names =>
    "some tasks are left unplanned by static algorithm: " ++ Text.quotedList names
  | notAnInteger text =>
    "invalid literal for int() with base 10: "
      ++ String.ofList ((Text.quoted text).toList.take 200)
  | integerTooLong digits =>
    "Exceeds the limit (4300 digits) for integer string conversion: value has "
      ++ Decimal.ofNat digits
      ++ " digits; use sys.set_int_max_str_digits() to increase the limit"
  | notANumber text => "could not convert string to float: " ++ Text.quoted text

end SharedLink
