import QuoteBoard.Message

/-!
# Inconsistencies of a feed

What a venue may send that does not fit: consumers report it and go on.
-/

namespace QuoteBoard

inductive Inconsistency where
  | unknownItem (feed : Feed) (item : ItemId)
  | sideMismatch (feed : Feed) (expected received : Side)
  | foreignFeed (expected received : Feed)
  | batchWentBack (feed : Feed) (last received : BatchId)
  deriving DecidableEq, Repr

namespace Inconsistency

def message : Inconsistency → String
  | unknownItem f i => "delete for unknown item " ++ i.name ++ " on feed " ++ f.label
  | sideMismatch f e r =>
    r.label ++ " event delivered to the " ++ e.label ++ " side of feed " ++ f.label
  | foreignFeed e r => "event for feed " ++ r.label ++ " delivered to consumer of feed " ++ e.label
  | batchWentBack f l r =>
    "message id went backwards on feed " ++ f.label ++ ": last=" ++ l.label ++
      ", received=" ++ r.label

end Inconsistency

end QuoteBoard
