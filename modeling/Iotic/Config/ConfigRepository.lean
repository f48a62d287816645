import Iotic.Lib.Rounding
import Iotic.Strategies.Strategy

/-!
# Configuration values (ConfigRepository.cpp)

The parsed TOML file is a table of tables; every typed read falls back to a
default when the table, the key or a value of the right type is missing.
-/

namespace Iotic.Config

inductive TomlValue
  | string (s : Name)
  | integer (v : ℤ)
  | boolean (b : Bool)
  | integers (vs : List ℤ)
  deriving DecidableEq, Repr

namespace TomlValue

def string? : TomlValue → Option Name
  | .string s => some s
  | _ => none

/- Read as an `int`, of which the 64 bits of an integer are cast. -/
def int? : TomlValue → Option ℤ
  | .integer v => some (v.bmod (2 ^ 32))
  | _ => none

/- Read as a vector of `int`, each element of which is cast. -/
def ints? : TomlValue → Option (List ℤ)
  | .integers vs => some (vs.map fun v => v.bmod (2 ^ 32))
  | _ => none

end TomlValue

/-- `ConfigRepository::Key`; the file spells a key as its enumerator. -/
inductive Key
  | discovery_interval | thing_interval | time_constant | grid | pv
  | name | pinned | offset
  | on | off | debounce | priority | hysteresis_percent | hysteresis_absolute
  | power_thresholds | phase_limit_duration_minutes
  deriving DecidableEq, Repr

structure ConfigRepository where
  configTable : Name → Key → Option TomlValue

namespace ConfigRepository

/- The template `valueOr<T>`; `get` is the conversion `toml::get_or` tries. -/
def valueOr {α : Type*} (get : TomlValue → Option α) (c : ConfigRepository) (table : Name)
    (key : Key) (fallback : α) : α :=
  ((c.configTable table key).bind get).getD fallback

/- The overload without a table reads from "site". -/
def siteValueOr {α : Type*} (get : TomlValue → Option α) (c : ConfigRepository) (key : Key)
    (fallback : α) : α :=
  c.valueOr get "site".toList key fallback

/- A product beyond an `int` has no defined result; here it wraps. -/
def hysteresisFor (c : ConfigRepository) (power : ℤ) : ℤ :=
  let absolute := c.siteValueOr TomlValue.int? .hysteresis_absolute 200
  let product := (power * c.siteValueOr TomlValue.int? .hysteresis_percent 10).bmod (2 ^ 32)
  let relative := roundAway (product / 100)
  max absolute relative

/- In `std::chrono::minutes`. -/
def phaseLimitDuration (c : ConfigRepository) : ℤ :=
  c.siteValueOr TomlValue.int? .phase_limit_duration_minutes 120

end ConfigRepository
end Iotic.Config
