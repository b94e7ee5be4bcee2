import MessageBridge.Json.Node
import MessageBridge.Json.Printer
import MessageBridge.Settings.Basic

/-!
# Settings as records of fields

Settings are read from more than one kind of value: from JSON text, where every
field has to have its own type, and from the values that several layers of
settings are merged into, which are converted. A `Reading` says how the fields
and the simple values are got at; what the settings consist of is said once, for
all of them.
-/

namespace MessageBridge

/-- How to read records and simple values out of some kind of value. -/
structure Reading (ν : Type) where
  /-- The values of the named fields of a record. -/
  fields? : List String → ν → Option (List (Option ν))
  isNull : ν → Bool
  bool? : ν → Option Bool
  /-- A natural number up to a limit. -/
  natural? : Nat → ν → Option Nat
  float? : ν → Option Binary64
  text? : ν → Option String

/-- Settings in JSON text. -/
def Json.Node.reading : Reading Json.Node where
  fields? := fields?
  isNull := isNull
  bool? := bool?
  natural? := natural?
  float? := float?
  text? := text?

open Json (withDefault optional)

variable {ν : Type}

/-- A duration, which is always a text. -/
def Reading.duration? (r : Reading ν) (value : ν) : Option Duration :=
  (r.text? value).bind Duration.read?

def FileSettings.read (r : Reading ν) (value : ν) : Option FileSettings := do
  let default : FileSettings := {}
  match ← r.fields? ["config_location"] value with
  | [configLocation] =>
    return { configLocation := ← withDefault default.configLocation r.text? configLocation }
  | _ => none

def RetrySettings.read (r : Reading ν) (value : ν) : Option RetrySettings := do
  let default : RetrySettings := {}
  match ← r.fields? ["enabled", "max_attempts", "initial_interval", "multiplier",
      "max_interval"] value with
  | [enabled, maxAttempts, initialInterval, multiplier, maxInterval] =>
    return {
      enabled := ← withDefault default.enabled r.bool? enabled
      maxAttempts := ← withDefault default.maxAttempts (r.natural? Word.largestHalf) maxAttempts
      initialInterval := ← withDefault default.initialInterval r.duration? initialInterval
      multiplier := ← withDefault default.multiplier r.float? multiplier
      maxInterval := ← withDefault default.maxInterval r.duration? maxInterval }
  | _ => none

def ListenerSettings.read (r : Reading ν) (value : ν) : Option ListenerSettings := do
  let default : ListenerSettings := {}
  match ← r.fields? ["concurrency"] value with
  | [concurrency] =>
    return {
      concurrency := ← withDefault default.concurrency (r.natural? Word.largest) concurrency }
  | _ => none

def RabbitSettings.read (r : Reading ν) (value : ν) : Option RabbitSettings := do
  match ← r.fields? ["retry", "listener"] value with
  | [retry, listener] =>
    return {
      retry := ← withDefault {} (RetrySettings.read r) retry
      listener := ← withDefault {} (ListenerSettings.read r) listener }
  | _ => none

def PollerSettings.read (r : Reading ν) (value : ν) : Option PollerSettings := do
  let default : PollerSettings := {}
  match ← r.fields? ["wait_time", "max_messages", "fixed_delay", "idempotency_key"] value with
  | [waitTime, maxMessages, fixedDelay, idempotencyKey] =>
    return {
      waitTime := ← withDefault default.waitTime r.duration? waitTime
      maxMessages := ← withDefault default.maxMessages (r.natural? Word.largest) maxMessages
      fixedDelay := ← withDefault default.fixedDelay r.duration? fixedDelay
      idempotencyKey := ← optional r.isNull r.text? idempotencyKey }
  | _ => none

def LogSettings.read (r : Reading ν) (value : ν) : Option LogSettings := do
  let default : LogSettings := {}
  match ← r.fields? ["log_level", "log_format"] value with
  | [level, format] =>
    return {
      level := ← withDefault default.level r.text? level
      format := ← withDefault default.format r.text? format }
  | _ => none

def Settings.read (r : Reading ν) (value : ν) : Option Settings := do
  match ← r.fields? ["bridge", "rabbit", "poller", "observability"] value with
  | [bridge, rabbit, poller, observability] =>
    return {
      bridge := ← withDefault {} (FileSettings.read r) bridge
      rabbit := ← withDefault {} (RabbitSettings.read r) rabbit
      poller := ← withDefault {} (PollerSettings.read r) poller
      observability := ← withDefault {} (LogSettings.read r) observability }
  | _ => none

/-- The settings in a JSON text. -/
def Settings.ofText? (text : String) : Option Settings :=
  (Json.Node.ofText? text).bind (read Json.Node.reading)

/-- A floating-point number in JSON, where only finite ones can be written. -/
def Binary64.toJson (x : Binary64) : Json :=
  if x.isNaN || x.isInfinite then .null else .number (.float x)

def Duration.toJson (d : Duration) : Json :=
  .string d.text

def RetrySettings.toJson (s : RetrySettings) : Json :=
  .object [("enabled", .bool s.enabled), ("max_attempts", .number (.integer s.maxAttempts)),
    ("initial_interval", s.initialInterval.toJson), ("multiplier", s.multiplier.toJson),
    ("max_interval", s.maxInterval.toJson)]

def ListenerSettings.toJson (s : ListenerSettings) : Json :=
  .object [("concurrency", .number (.integer s.concurrency))]

def PollerSettings.toJson (s : PollerSettings) : Json :=
  .object
    ([("wait_time", s.waitTime.toJson), ("max_messages", .number (.integer s.maxMessages)),
      ("fixed_delay", s.fixedDelay.toJson)]
      ++ s.idempotencyKey.toList.map fun key => ("idempotency_key", .string key))

/-- Settings as a document with all fields. -/
def Settings.toJson (s : Settings) : Json :=
  .object
    [("bridge", .object [("config_location", .string s.bridge.configLocation)]),
      ("rabbit", .object [("retry", s.rabbit.retry.toJson),
        ("listener", s.rabbit.listener.toJson)]),
      ("poller", s.poller.toJson),
      ("observability", .object [("log_level", .string s.observability.level),
        ("log_format", .string s.observability.format)])]

end MessageBridge
