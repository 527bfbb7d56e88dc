/-!
# Identities

A feed is a name with a number; a batch id is shared by all messages of one atomic update of a
feed; an item id is the venue's own key of a quote; a track number orders the tracks of a replay.
The order of each is the order of its parts, texts by code point.
-/

namespace QuoteBoard

structure Feed where
  name : String
  number : UInt32
  deriving DecidableEq, Repr, Inhabited

namespace Feed

instance : Ord Feed where
  compare a b := (compare a.name b.name).then (compare a.number b.number)

def label (f : Feed) : String := f.name ++ "#" ++ toString f.number.toNat

end Feed

/-- The id of one atomic update batch on a feed. -/
structure BatchId where
  value : UInt64
  deriving DecidableEq, Repr, Inhabited

namespace BatchId

instance : Ord BatchId where
  compare a b := compare a.value b.value

instance : LT BatchId where
  lt a b := a.value < b.value

instance (a b : BatchId) : Decidable (a < b) :=
  inferInstanceAs (Decidable (a.value < b.value))

def next (b : BatchId) : BatchId :=
  if b.value = 0xFFFFFFFFFFFFFFFF then b else ⟨b.value + 1⟩

def label (b : BatchId) : String := toString b.value.toNat

end BatchId

structure ItemId where
  name : String
  deriving DecidableEq, Repr, Inhabited

instance : Ord ItemId where
  compare a b := compare a.name b.name

structure TrackNumber where
  value : UInt32
  deriving DecidableEq, Repr, Inhabited

namespace TrackNumber

instance : Ord TrackNumber where
  compare a b := compare a.value b.value

def label (n : TrackNumber) : String := toString n.value.toNat

end TrackNumber

/-- Nanoseconds of the source's clock since the Unix epoch. -/
abbrev Timestamp := Int64

end QuoteBoard
