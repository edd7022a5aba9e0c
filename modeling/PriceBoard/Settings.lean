import PriceBoard.Decimal.Notation
import PriceBoard.Decimal.Reader
import PriceBoard.Feed.Config
import PriceBoard.Highlight.Curve
import PriceBoard.Text.Blank

/-!
# Settings

Settings are read from nine environment variables. A value that cannot be read
falls back to its default; one that can be read but is out of range is an error.
-/

namespace PriceBoard

open Time (Nanos)

/-! ## Variables -/

inductive Variable
  | tickInterval | updateFraction | seed | source | pulseSteps | pulseDuration
  | statusInterval | monitorInterval | shutdownGrace
deriving DecidableEq, Repr

namespace Variable

def name : Variable → String
  | .tickInterval => "FX_BOARD_TICK_INTERVAL_MS"
  | .updateFraction => "FX_BOARD_UPDATE_FRACTION"
  | .seed => "FX_BOARD_SEED"
  | .source => "FX_BOARD_SOURCE"
  | .pulseSteps => "FX_BOARD_PULSE_STEPS"
  | .pulseDuration => "FX_BOARD_PULSE_DURATION_MS"
  | .statusInterval => "FX_BOARD_STATUS_INTERVAL_MS"
  | .monitorInterval => "FX_BOARD_MONITOR_INTERVAL_SECS"
  | .shutdownGrace => "FX_BOARD_SHUTDOWN_GRACE_MS"

end Variable

abbrev Environment := String → Option String

/-- An unsigned number of so many bits: digits with an optional plus. -/
def readUnsigned? (bits : Nat) (text : List Char) : Option Nat :=
  let digits := match text with
    | '+' :: rest => rest
    | cs => cs
  if digits ≠ [] ∧ digits.all Decimal.isDigit ∧ Decimal.natOfDigits digits < Nat.pow 2 bits then
    some (Decimal.natOfDigits digits)
  else none

namespace Environment

def get? (env : Environment) (v : Variable) : Option String := env v.name

def natural? (env : Environment) (bits : Nat) (v : Variable) : Option Nat :=
  (env.get? v).bind fun s => readUnsigned? bits (Text.trim s.toList)

def real? (env : Environment) (v : Variable) : Option Float :=
  (env.get? v).bind fun s => Decimal.read? (Text.trim s.toList)

end Environment

/-! ## Settings -/

structure Settings where
  tickInterval : Nanos := Time.ofMillis 250
  updateFraction : Float := 0.2
  seed : Option Nat := none
  source : String := "MARKET_SIMULATOR"
  pulseSteps : Nat := 50
  pulseDuration : Nanos := Time.ofMillis 500
  statusInterval : Nanos := Time.ofSeconds 1
  monitorInterval : Nanos := Time.ofSeconds 10
  grace : Nanos := Time.ofSeconds 5

inductive SettingsFault
  | fraction (x : Float)
  | noSteps
  | noTickInterval
  | noStatusInterval
  | longStatusInterval (millis : Nat)
  | noMonitorInterval
  | blankSource

namespace Settings

def longestStatusInterval : Nanos := Time.ofSeconds 1

def read (env : Environment) : Settings :=
  let standard : Settings := {}
  { tickInterval := ((env.natural? 64 .tickInterval).map Time.ofMillis).getD standard.tickInterval
    updateFraction := (env.real? .updateFraction).getD standard.updateFraction
    seed := env.natural? 64 .seed
    source := (env.get? .source).getD standard.source
    pulseSteps := (env.natural? 32 .pulseSteps).getD standard.pulseSteps
    pulseDuration :=
      ((env.natural? 64 .pulseDuration).map Time.ofMillis).getD standard.pulseDuration
    statusInterval :=
      ((env.natural? 64 .statusInterval).map Time.ofMillis).getD standard.statusInterval
    monitorInterval :=
      ((env.natural? 64 .monitorInterval).map Time.ofSeconds).getD standard.monitorInterval
    grace := ((env.natural? 64 .shutdownGrace).map Time.ofMillis).getD standard.grace }

def fault? (s : Settings) : Option SettingsFault :=
  if ¬ (0 < s.updateFraction ∧ s.updateFraction ≤ 1) then some (.fraction s.updateFraction)
  else if s.pulseSteps = 0 then some .noSteps
  else if s.tickInterval = 0 then some .noTickInterval
  else if s.statusInterval = 0 then some .noStatusInterval
  else if longestStatusInterval < s.statusInterval then
    some (.longStatusInterval (s.statusInterval / 1000000))
  else if s.monitorInterval = 0 then some .noMonitorInterval
  else if Text.isBlankText s.source then some .blankSource
  else none

def load (env : Environment) : Except SettingsFault Settings :=
  let s := read env
  match s.fault? with
  | some fault => .error fault
  | none => .ok s

def curve (s : Settings) : Curve := .ofSteps s.pulseSteps s.pulseDuration

def feed (s : Settings) : FeedConfig where
  interval := s.tickInterval
  fraction := s.updateFraction
  source := s.source
  seed := s.seed

def same (s t : Settings) : Bool :=
  s.tickInterval == t.tickInterval && s.updateFraction == t.updateFraction && s.seed == t.seed &&
  s.source == t.source && s.pulseSteps == t.pulseSteps && s.pulseDuration == t.pulseDuration &&
  s.statusInterval == t.statusInterval && s.monitorInterval == t.monitorInterval &&
  s.grace == t.grace

instance : BEq Settings := ⟨same⟩

end Settings

/-! ## Faults -/

namespace SettingsFault

def blames : SettingsFault → Variable
  | .fraction _ => .updateFraction
  | .noSteps => .pulseSteps
  | .noTickInterval => .tickInterval
  | .noStatusInterval | .longStatusInterval _ => .statusInterval
  | .noMonitorInterval => .monitorInterval
  | .blankSource => .source

def value : SettingsFault → String
  | .fraction x => Decimal.plainText x
  | .longStatusInterval millis => toString millis
  | .blankSource => ""
  | .noSteps | .noTickInterval | .noStatusInterval | .noMonitorInterval => "0"

def reason : SettingsFault → String
  | .fraction _ => "must be in (0, 1]"
  | .noSteps => "must be at least 1"
  | .noTickInterval | .noStatusInterval | .noMonitorInterval => "must be positive"
  | .longStatusInterval _ => "must be at most 1000"
  | .blankSource => "cannot be empty"

def message (f : SettingsFault) : String :=
  s!"invalid value '{f.value}' for {f.blames.name}: {f.reason}"

end SettingsFault

/-! ## Trace export -/

structure TraceSettings where
  enabled : Bool := false
  endpoint : String := "http://localhost:4317"
  service : String := "fx-rate-board"
deriving DecidableEq, Repr

namespace TraceSettings

/-- The spellings of yes, whatever their case and blanks around them. No
character outside ASCII is a capital form of their letters. -/
def isYes (s : String) : Bool :=
  let word := (Text.trim s.toList).map Char.toLower
  word == "true".toList || word == "1".toList || word == "yes".toList

def load (env : Environment) : TraceSettings :=
  let standard : TraceSettings := {}
  { enabled := ((env "OTEL_ENABLED").map isYes).getD standard.enabled
    endpoint := (env "OTEL_EXPORTER_OTLP_ENDPOINT").getD standard.endpoint
    service := (env "OTEL_SERVICE_NAME").getD standard.service }

end TraceSettings

end PriceBoard
