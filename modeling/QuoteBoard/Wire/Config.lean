import QuoteBoard.Config
import QuoteBoard.Json.Fields
import QuoteBoard.Json.Reader

/-!
# Wire form of the configuration

A missing setting takes its default. `Config.parse` reads a document and checks it; a document that
does not read has no other fault.
-/

namespace QuoteBoard

open Json (Value)

namespace ReplayConfig

def toJson (c : ReplayConfig) : Value :=
  .ofFields [("pacing_interval_ms", .ofInt c.pacing.toNat),
    ("join_timeout_ms", .ofInt c.joinTimeout.toNat), ("chain_tasks", .bool c.chained),
    ("emit_latency_offset", .bool c.reportsLatency)]

def ofJson? (v : Value) : Option ReplayConfig := do
  let [pacing, joinTimeout, chained, reportsLatency] ←
    v.partialFields? ["pacing_interval_ms", "join_timeout_ms", "chain_tasks",
      "emit_latency_offset"] | none
  let d : ReplayConfig := {}
  return ⟨← Value.orDefault? Value.toUInt64? d.pacing pacing,
    ← Value.orDefault? Value.toUInt64? d.joinTimeout joinTimeout,
    ← Value.orDefault? Value.toBool? d.chained chained,
    ← Value.orDefault? Value.toBool? d.reportsLatency reportsLatency⟩

end ReplayConfig

namespace BoardConfig

def toJson (c : BoardConfig) : Value := .ofFields [("check_message_order", .bool c.checkOrder)]

def ofJson? (v : Value) : Option BoardConfig := do
  let [checkOrder] ← v.partialFields? ["check_message_order"] | none
  let d : BoardConfig := {}
  return ⟨← Value.orDefault? Value.toBool? d.checkOrder checkOrder⟩

end BoardConfig

namespace Config

def toJson (c : Config) : Value :=
  .ofFields [("replay", c.replay.toJson), ("dispatcher", c.board.toJson)]

def ofJson? (v : Value) : Option Config := do
  let [replay, board] ← v.partialFields? ["replay", "dispatcher"] | none
  return ⟨← Value.orDefault? ReplayConfig.ofJson? {} replay,
    ← Value.orDefault? BoardConfig.ofJson? {} board⟩

def parse (text : String) : Except ConfigError Config :=
  match (Json.parse? text).bind ofJson? with
  | none => .error .malformed
  | some c =>
    match c.fault? with
    | some e => .error e
    | none => .ok c

end Config

end QuoteBoard
