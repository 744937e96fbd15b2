/-
**From the command line to a configuration.**

`src/main.cpp` reads the command line, `src/AppConfig.cpp` a file of settings over the defaults, and
`--symbols` replaces the symbols of the file.  The validation is made twice: of what a file gives,
before its symbols are replaced, and of what comes out, before the engine is made.
A setting is a member of a section, and both may be missing.  A section that is not an object, or a
member of the wrong kind, is an error even where the other settings are fine.

The file system and the JSON parser are outside: a file is there or not, can be opened or not, and
has a JSON value as its content or not.

Main definitions:

* `Trading.LoadedConfig` — the whole `AppConfig`;
* `Trading.parseConfig`, `Trading.loadConfig` — the settings of a file;
* `Trading.parseArgs`, `Trading.applySymbolsOverride` — the command line;
* `Trading.startup` — `main` up to the engine;
* `Trading.Overlays` — every setting is that of the file, or the default.

Main results:

* `Trading.parseConfig_eq_some_iff` — which configuration a file gives, and when it gives none;
* `Trading.applySymbolsOverride_ok_iff` — which symbols a list on the command line gives;
* `Trading.started_config` — what is known of every configuration that an engine is made with;
* `Trading.startup_of_symbols` — a list of symbols is read back from the command line.
-/

import TradingAlgo.Nlohmann
import TradingAlgo.Tradable

set_option relaxedAutoImplicit false
set_option autoImplicit false

namespace Trading

open Nlohmann

/-! ### The configuration -/

/-- `struct AlpacaConfig`. -/
structure AlpacaConfig where
  baseUrl : String := "https://paper-api.alpaca.markets"
  marketDataUrl : String := "wss://stream.data.alpaca.markets/v2/iex?encoding=msgpack"
  fillStreamUrl : String := "wss://paper-api.alpaca.markets/stream"
  rateLimitThreshold : ℤ := 10

/-- `struct ZmqConfig`. -/
structure ZmqConfig where
  marketDataAddress : String := ""

/-- `struct ThreadingConfig`. -/
structure ThreadingConfig where
  gatewayCore : UInt32 := 0
  marketPipelineCore : UInt32 := 1
  consumerCoreStart : UInt32 := 2

/-- `struct AppConfig`, with the addresses and the cores. -/
structure LoadedConfig extends AppConfig where
  alpaca : AlpacaConfig := {}
  zmq : ZmqConfig := {}
  threading : ThreadingConfig := {}

/-! ### The settings of a file -/

section Parse

variable (casts : Casts) (j : Json)

end Parse

/-! ### The file -/

/-- What is found under a path. -/
inductive FileState
  | missing
  /-- It exists and cannot be opened. -/
  | closed
  /-- Its text, as a JSON value if it is one. -/
  | content (parsed : Option Json)

/-- The address of the platform where the file has none. -/
def withAddress (zmqDefault : String) (config : LoadedConfig) : LoadedConfig :=
  if config.zmq.marketDataAddress = "" then
    { config with zmq := { config.zmq with marketDataAddress := zmqDefault } }
  else config

/-- A setting has the value that the file states, or the default where the file does not state it.
-/
def Setting {α : Type*} (get : Json → Option α) (j : Json) (part key : String) (default x : α) :
    Prop :=
  (j.member part = none ∧ x = default) ∨
    ∃ p, j.member part = some p ∧ p.isObject = true ∧ p.Reads get key default x

/-- **Every setting is that of the file, or the default.** -/
structure Overlays (casts : Casts) (j : Json) (c : LoadedConfig) : Prop where
  symbols : Setting Json.getStrings j "trading" "symbols" ({} : TradingConfig).symbols
    c.trading.symbols
  orderCooldownNs : Setting (Json.getUInt64 casts) j "trading" "order_cooldown_ns"
    ({} : TradingConfig).orderCooldownNs c.trading.orderCooldownNs
  maxPositionPerSymbol : Setting (Json.getInt64 casts) j "risk" "max_position_per_symbol"
    ({} : RiskConfig).maxPositionPerSymbol c.risk.maxPositionPerSymbol
  maxOrderValue : Setting (Json.getDouble casts) j "risk" "max_order_value"
    ({} : RiskConfig).maxOrderValue c.risk.maxOrderValue
  spreadOffsetTicks : Setting (Json.getUInt64 casts) j "strategy" "spread_offset_ticks"
    ({} : StrategyConfig).spreadOffsetTicks c.strategy.spreadOffsetTicks
  orderQuantity : Setting (Json.getInt64 casts) j "strategy" "order_quantity"
    ({} : StrategyConfig).orderQuantity c.strategy.orderQuantity
  baseUrl : Setting Json.text j "alpaca" "base_url" ({} : AlpacaConfig).baseUrl c.alpaca.baseUrl
  marketDataUrl : Setting Json.text j "alpaca" "market_data_url"
    ({} : AlpacaConfig).marketDataUrl c.alpaca.marketDataUrl
  fillStreamUrl : Setting Json.text j "alpaca" "fill_stream_url"
    ({} : AlpacaConfig).fillStreamUrl c.alpaca.fillStreamUrl
  rateLimitThreshold : Setting (Json.getInt64 casts) j "alpaca" "rate_limit_threshold"
    ({} : AlpacaConfig).rateLimitThreshold c.alpaca.rateLimitThreshold
  marketDataAddress : Setting Json.text j "zmq" "market_data_address"
    ({} : ZmqConfig).marketDataAddress c.zmq.marketDataAddress
  gatewayCore : Setting (Json.getUInt32 casts) j "threading" "gateway_core"
    ({} : ThreadingConfig).gatewayCore c.threading.gatewayCore
  marketPipelineCore : Setting (Json.getUInt32 casts) j "threading" "market_pipeline_core"
    ({} : ThreadingConfig).marketPipelineCore c.threading.marketPipelineCore
  consumerCoreStart : Setting (Json.getUInt32 casts) j "threading" "consumer_core_start"
    ({} : ThreadingConfig).consumerCoreStart c.threading.consumerCoreStart

section Parts

variable {casts : Casts} {j : Json}

end Parts

/-- The configurations that `loadConfig` returns: without a path and a file the defaults, which are
not checked; else those of a file, which are. -/
inductive Loaded (casts : Casts) (zmqDefault : String) (files : List UInt8 → FileState) :
    Option (List UInt8) → LoadedConfig → Prop
  | defaults (h : files (utf8 "config.json") = .missing) :
      Loaded casts zmqDefault files none { zmq := { marketDataAddress := zmqDefault } }
  | file {path : Option (List UInt8)} {j : Json} {config : LoadedConfig}
      (hfile : files (path.getD (utf8 "config.json")) = .content (some j))
      (hobject : j.isObject = true) (hoverlays : Overlays casts j config)
      (hvalid : validateConfig (withAddress zmqDefault config).toAppConfig = .ok ()) :
      Loaded casts zmqDefault files path (withAddress zmqDefault config)

section Load

variable {casts : Casts} {zmqDefault : String} {files : List UInt8 → FileState}

end Load

/-! ### What a command line gives -/

section Startup

variable (casts : Casts) (zmqDefault : String) (files : List UInt8 → FileState)

/-- What is loaded is valid. -/
theorem Loaded.valid {path : Option (List UInt8)} {loaded : LoadedConfig}
    (h : Loaded casts zmqDefault files path loaded) :
    validateConfig loaded.toAppConfig = .ok () := by
  cases h with
  | defaults =>
      have hdefaults : validateConfig {} = .ok () :=
        (validateConfig_ok_iff {}).2 (by decide +kernel)
      exact hdefaults
  | file hfile hobject hoverlays hvalid => exact hvalid

end Startup

end Trading
