import Std.Data.TreeMap

/-!
# Rules in Chomsky normal form

A rule rewrites a symbol either to one word or to a pair of symbols. Rules are ordered by their
left-hand side, word rules before pair rules, then by the symbols on the right.
-/
namespace TabularParsing

inductive Rhs where
  | word (w : String)
  | pair (left right : String)
  deriving DecidableEq, Inhabited

structure Rule where
  lhs : String
  rhs : Rhs
  deriving DecidableEq, Inhabited

def Rhs.symbols : Rhs → List String
  | .word w => [w]
  | .pair left right => [left, right]

def Rhs.isPair : Rhs → Bool
  | .word _ => false
  | .pair _ _ => true

theorem Rhs.ext_symbols {r s : Rhs} (h : r.symbols = s.symbols) : r = s := by
  cases r <;> cases s <;> simp_all [symbols]

namespace Rule

def word (lhs w : String) : Rule := ⟨lhs, .word w⟩
def pair (lhs left right : String) : Rule := ⟨lhs, .pair left right⟩

def word? (r : Rule) : Option String :=
  match r.rhs with
  | .word w => some w
  | .pair _ _ => none

def children? (r : Rule) : Option (String × String) :=
  match r.rhs with
  | .word _ => none
  | .pair left right => some (left, right)

def isWord (r : Rule) : Bool := !r.rhs.isPair
def isPair (r : Rule) : Bool := r.rhs.isPair

def symbols (r : Rule) : List String := r.rhs.symbols

def order : Rule → Rule → Ordering :=
  compareLex (compareOn lhs) (compareLex (compareOn fun r => r.symbols.length) (compareOn symbols))

instance : Ord Rule := ⟨order⟩

instance : Std.TransOrd Rule :=
  inferInstanceAs (Std.TransCmp
    (compareLex (compareOn lhs) (compareLex (compareOn fun r => r.symbols.length)
      (compareOn symbols))))

instance : Std.LawfulEqOrd Rule where
  eq_of_compare {r s} h := by
    have h : (compare r.lhs s.lhs).then ((compare r.symbols.length s.symbols.length).then
        (compare r.symbols s.symbols)) = .eq := h
    rw [Ordering.then_eq_eq, Ordering.then_eq_eq, Std.LawfulEqCmp.compare_eq_iff_eq] at h
    obtain ⟨hlhs, -, hsymbols⟩ := h
    have hsymbols := Std.LawfulEqCmp.eq_of_compare hsymbols
    cases r; cases s
    simp only [mk.injEq]
    exact ⟨hlhs, Rhs.ext_symbols hsymbols⟩

end Rule

def Rhs.text : Rhs → String
  | .word w => w
  | .pair left right => left ++ " " ++ right

def Rule.text (r : Rule) : String := r.lhs ++ " -> " ++ r.rhs.text

end TabularParsing
