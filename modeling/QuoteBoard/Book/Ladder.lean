import QuoteBoard.View
import Std.Data.TreeMap.Basic

/-!
# The full-depth book

Every level of one side, under its item and under its price. One price has one item: a quote at a
taken price evicts the item that held it, and a quote for a held item moves it.
-/

namespace QuoteBoard

structure Ladder where
  side : Side
  levels : Std.TreeMap ItemId Level
  owners : Std.TreeMap Price ItemId

namespace Ladder

def empty (s : Side) : Ladder := ⟨s, ∅, ∅⟩

def items (b : Ladder) : List ItemId :=
  match b.side with
  | .bid => b.owners.values.reverse
  | .offer => b.owners.values

/-- Takes an item off both indexes; none when it is not held. -/
def remove? (b : Ladder) (i : ItemId) : Option Ladder :=
  match b.levels[i]? with
  | none => none
  | some l =>
    some { b with
      levels := b.levels.erase i
      owners := if b.owners[l.price]? = some i then b.owners.erase l.price else b.owners }

/-- Puts a quote on both indexes; the item that held its price leaves. -/
def place (b : Ladder) (q : Quote) : Ladder :=
  let kept := match b.owners[q.price]? with
    | some evicted => b.levels.erase evicted
    | none => b.levels
  { b with levels := kept.insert q.item q.level, owners := b.owners.insert q.price q.item }

def quote (b : Ladder) (q : Quote) : Ladder := ((b.remove? q.item).getD b).place q

def clear (b : Ladder) : Ladder := empty b.side

def level (b : Ladder) (rank : Nat) : Option Level := b.items[rank]?.bind fun i => b.levels[i]?

def toList (b : Ladder) : List Level := b.items.filterMap fun i => b.levels[i]?

def depth (b : Ladder) : Nat := b.levels.size

end Ladder

end QuoteBoard
