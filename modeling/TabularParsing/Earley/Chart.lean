import TabularParsing.Earley.Item

/-!
# Charts of items

All items of a chart stand in one arena. Each input position has a state, the places of its items
in the order in which they were added. A state never holds two items that merge: the second one
takes the place of the first if it weighs more and is dropped otherwise.
-/
namespace TabularParsing.Earley

structure Chart (W : Type) where
  items : Array (Item W)
  states : Array (Array Nat)

/-- What can go wrong in a chart that was filled by hand, or in a run that was cut short. -/
inductive Fault where
  | missingState (k : Nat)
  | missingItem (place : Nat)
  /-- The dot cannot move past the end of a rule, nor stand behind it. -/
  | dotAtEnd
  /-- The run was cut off before it ended. -/
  | outOfSteps
  deriving DecidableEq, Inhabited

/-- What became of an item that was added. -/
inductive Insertion where
  | new
  /-- It took the place of a lighter item, at this position of the state. -/
  | improved (position : Nat)
  | kept
  deriving DecidableEq, Inhabited

namespace Chart

variable {W : Type}

/-- A chart with this many states and no items. -/
def empty (states : Nat) : Chart W := ⟨#[], Array.replicate states #[]⟩

def state (c : Chart W) (k : Nat) : Except Fault (Array Nat) :=
  match c.states[k]? with
  | some s => .ok s
  | none => .error (.missingState k)

def item (c : Chart W) (place : Nat) : Except Fault (Item W) :=
  match c.items[place]? with
  | some i => .ok i
  | none => .error (.missingItem place)

/-- The position in a state of an item that merges with the given one. -/
def find? (c : Chart W) (s : Array Nat) (i : Item W) : Option Nat :=
  s.findIdx? fun place => c.items[place]?.any fun j => j.merges i

/-- Puts an item behind the others of a state. -/
def push (c : Chart W) (k : Nat) (i : Item W) : Chart W :=
  ⟨c.items.push i, c.states.modify k fun s => s.push c.items.size⟩

/-- Adds an item to a state. An item that merges with it is replaced if it weighs less. -/
def add [LT W] [DecidableLT W] (c : Chart W) (k : Nat) (i : Item W) :
    Except Fault (Insertion × Chart W) := do
  let s ← c.state k
  match c.find? s i with
  | none => return (.new, c.push k i)
  | some position =>
    let place := s[position]?.getD 0
    let old ← c.item place
    if old.weight < i.weight then
      return (.improved position, ⟨c.items.setIfInBounds place i, c.states⟩)
    else return (.kept, c)

end Chart

end TabularParsing.Earley
