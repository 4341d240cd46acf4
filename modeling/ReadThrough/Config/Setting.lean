import ReadThrough.Config
import ReadThrough.Decimal.Numeral

/-! # Reading a Configuration

  A configuration is written as a record of named settings, or as a list of settings in a fixed
  order.

  - Settings that are missing take their defaults, and settings with unknown names are ignored.
  - A list may end early; the settings that it does not reach take their defaults.
  - A count is a natural number below 2^64; a ratio is any number.
  - A policy is written as its bare name, or as a record with that name as its only field, which
    holds the content: nothing for a plain policy, a record for one with a setting of its own.
-/

namespace ReadThrough

/-- A written setting. -/
inductive Setting where
  | null
  | flag (b : Bool)
  /-- A number written as a natural number below 2^64. -/
  | natural (n : Nat)
  /-- Any other number. -/
  | number (x : Float)
  | text (s : String)
  | list (items : List Setting)
  | record (fields : List (String × Setting))
  deriving Inhabited

/-- Why a configuration cannot be read. -/
inductive ConfigError where
  /-- The configuration is neither a record nor a list of at most seven items. -/
  | badForm
  /-- The setting of this name has a content of the wrong kind. -/
  | badSetting (name : String)
  deriving DecidableEq, Repr

namespace Setting

/-- The setting that a numeral stands for. -/
def ofNumeral (n : Decimal.Numeral) : Setting :=
  match n.natural? with
  | some k => natural k
  | none => number n.toFloat

/-- A count. -/
def natural? : Setting → Option Nat
  | natural n => some n
  | _ => none

/-- A ratio. -/
def ratio? : Setting → Option Float
  -- A count beyond 2^53 is rounded to the nearest number.
  | natural n => some n.toUInt64.toFloat
  | number x => some x
  | _ => none

/-- A choice among named alternatives: the name and its content, which is `null` for a bare
    name. -/
def choice? : Setting → Option (String × Setting)
  | text name => some (name, null)
  | record [(name, content)] => some (name, content)
  | _ => none

/-- The field of a record. -/
def field? (name : String) : Setting → Option Setting
  | record fields => fields.lookup name
  | _ => none

/-- A null policy. -/
def nullPolicy? (s : Setting) : Option NullPolicy :=
  match s.choice? with
  | some ("Cache", null) => some .keep
  | some ("Retry", content) => do
    let seconds ← content.field? "null_timeout_secs"
    return .retry (← seconds.natural?)
  | _ => none

/-- An idle policy. -/
def idlePolicy? (s : Setting) : Option IdlePolicy :=
  match s.choice? with
  | some ("Remove", null) => some .remove
  | some ("Detach", null) => some .detach
  | some ("ReachabilityAware", null) => some .reachability
  | _ => none

end Setting

namespace Config

/-- The names of the settings, in the order in which a list gives them. -/
def settingNames : List String :=
  ["max_capacity", "initial_capacity", "load_factor", "pending_timeout_secs",
   "max_load_concurrency", "null_policy", "idle_policy"]

/-- The settings of a written configuration by their names. -/
def namedSettings : Setting → Except ConfigError (List (String × Setting))
  | .record fields => .ok fields
  | .list items =>
    if items.length ≤ settingNames.length then .ok (settingNames.zip items) else .error .badForm
  | _ => .error .badForm

/-- The content of a named setting, or its default if the record does not have it. -/
def setting {α : Type} (fields : List (String × Setting)) (name : String)
    (read : Setting → Option α) (default : α) : Except ConfigError α :=
  match fields.lookup name with
  | none => .ok default
  | some s =>
    match read s with
    | some a => .ok a
    | none => .error (.badSetting name)

/-- Reads a configuration. -/
def ofSetting (s : Setting) : Except ConfigError Config := do
  let fields ← namedSettings s
  let d : Config := {}
  return {
    maxCapacity := ← setting fields "max_capacity" Setting.natural? d.maxCapacity
    initialCapacity := ← setting fields "initial_capacity" Setting.natural? d.initialCapacity
    loadFactor := ← setting fields "load_factor" Setting.ratio? d.loadFactor
    pendingTimeout := ← setting fields "pending_timeout_secs" Setting.natural? d.pendingTimeout
    loadLimit := ← setting fields "max_load_concurrency" Setting.natural? d.loadLimit
    nullPolicy := ← setting fields "null_policy" Setting.nullPolicy? d.nullPolicy
    idlePolicy := ← setting fields "idle_policy" Setting.idlePolicy? d.idlePolicy }

/-- The record of a configuration, with all settings written out. -/
def toSetting (c : Config) : Setting :=
  .record
    [("max_capacity", .natural c.maxCapacity),
     ("initial_capacity", .natural c.initialCapacity),
     ("load_factor", .number c.loadFactor),
     ("pending_timeout_secs", .natural c.pendingTimeout),
     ("max_load_concurrency", .natural c.loadLimit),
     ("null_policy",
        match c.nullPolicy with
        | .keep => .text "Cache"
        | .retry seconds => .record [("Retry", .record [("null_timeout_secs", .natural seconds)])]),
     ("idle_policy", .text c.idlePolicy.describe)]

end Config

end ReadThrough
