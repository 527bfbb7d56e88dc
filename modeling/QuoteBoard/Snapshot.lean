import QuoteBoard.Sha256
import QuoteBoard.View

/-!
# Snapshots

What a commit of a changed book publishes. The checksum is the SHA-256 of `Snapshot.content`: feed,
side and batch, then each level's item, price and size in rank order, then the price and size of the
last trade. Numbers are eight bytes, least significant first.
-/

namespace QuoteBoard

structure Snapshot where
  batch : BatchId
  full : Bool
  committedAt : Timestamp
  view : View
  deriving DecidableEq, Repr, Inhabited

namespace Snapshot

def depth (s : Snapshot) : Nat := s.view.levels.length

/-! ## Content -/

def textBytes (s : String) : List UInt8 := s.toList.flatMap String.utf8EncodeChar

def wordBytes (x : UInt64) : List UInt8 :=
  (List.range 8).map fun i => UInt8.ofNat (x.toNat / Nat.pow 256 i % 256)

def levelBytes (l : Level) : List UInt8 :=
  textBytes l.item.name ++ textBytes ":" ++ wordBytes l.price.ticks.toUInt64 ++ textBytes ":" ++
    wordBytes l.size.bits ++ textBytes "|"

def tradeBytes (t : LastTrade) : List UInt8 :=
  wordBytes t.price.ticks.toUInt64 ++ textBytes ":" ++ wordBytes t.size.bits

def content (s : Snapshot) : List UInt8 :=
  textBytes s.view.feed.label ++ textBytes "|" ++ textBytes s.view.side.label ++ textBytes "|" ++
    wordBytes s.batch.value ++ textBytes "---" ++
    s.view.levels.flatMap (fun r => levelBytes r.level) ++ textBytes "---" ++
    (s.view.trade.map tradeBytes).getD []

def checksum (s : Snapshot) : String := Sha256.hex s.content

def verify (s : Snapshot) (expected : String) : Bool := s.checksum == expected

end Snapshot

end QuoteBoard
