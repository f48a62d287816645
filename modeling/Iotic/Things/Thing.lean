import Iotic.Strategies.Strategy

/-!
# Things

A thing belongs to `uvw_iot`; here it is what this repository asks of one: its
id, its type, and which of the objects added under the id it is. A thing that is
removed and found again is a new object under the same id.
-/

namespace Iotic.Things

/- The types the source tells apart; `other` stands for the remaining enumerators. -/
inductive ThingType
  | Unknown
  | SolarInverter
  | EvStation
  | Relay
  | other (n : ℕ)
  deriving DecidableEq, Repr

/- things/ThingStatus.h; any other `int` may be cast to it as well. -/
inductive ThingStatus
  | unknown
  | off
  | idle
  | waiting
  | charging
  | throttled
  | complete
  | error
  | service
  | other (n : ℤ)
  deriving DecidableEq, Repr

/- `static_cast<ThingStatus>(value)`. -/
def ThingStatus.ofInt : ℤ → ThingStatus
  | 0 => .unknown
  | 1 => .off
  | 2 => .idle
  | 3 => .waiting
  | 4 => .charging
  | 5 => .throttled
  | 6 => .complete
  | 7 => .error
  | 8 => .service
  | n => .other n

structure Thing where
  id : Name
  type : ThingType
  object : ℕ
  deriving DecidableEq, Repr

end Iotic.Things
