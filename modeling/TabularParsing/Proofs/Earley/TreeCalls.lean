import TabularParsing.Proofs.Fallible
import TabularParsing.Proofs.Earley.TreeEnds

/-!
# The calls that read a tree

All calls that read a tree share one path. A call puts its place behind the path, reads what is
below its item, leaving out the children on the path, and takes the last place off again. Here a
reading is spelled call by call, with the path handed on from each call to the next and no bound on
how deep calls may lie in each other. On a closed chart every item is still read, in just one way,
and what is read is its tree.

## Main definitions

* `Call`: a call with the path before and after it and the calls it makes.
* `Chart.Reads`, `Chart.ReadsBelow`: what a call does, and what it does below its item.

## Main statements

* `Chart.Reads.unique`: a call has one outcome at most.
* `Chart.Reads.after_eq`, `Chart.Reads.restored`: calls leave the path as they found it.
* `Chart.Reads.simple`: no way down through the calls passes a place twice.
* `Chart.Closed.exists_reading`: on a closed chart every item is read.
-/
namespace TabularParsing.Earley

/-- A call that reads the tree of the item at a place, with the path that it is given, the path
that it leaves behind and the calls that it makes itself. -/
inductive Call where
  | made (place : Nat) (before after : Array Nat) (calls : List Call)

namespace Call

def before : Call → Array Nat
  | made _ before _ _ => before

def after : Call → Array Nat
  | made _ _ after _ => after

mutual

/-- The call and all calls below it. -/
def all : Call → List Call
  | made place before after calls => made place before after calls :: allOf calls

def allOf : List Call → List Call
  | [] => []
  | call :: calls => all call ++ allOf calls

end

mutual

/-- The places on the ways from the call down to each of the calls below it, itself included. -/
def ways : Call → List (List Nat)
  | made place _ _ calls => [place] :: (waysOf calls).map (place :: ·)

def waysOf : List Call → List (List Nat)
  | [] => []
  | call :: calls => ways call ++ waysOf calls

end

end Call

namespace Chart

variable {W : Type}

mutual

/-- What a call at a place does with the path it is given: the calls it makes, the path it leaves
behind and the tree it returns. -/
inductive Reads (c : Chart W) (isCategory : String → Bool) :
    Nat → Array Nat → List Call → Array Nat → Tree W → Prop where
  | item {place : Nat} {i : Item W} {before path : Array Nat} {calls : List Call}
      {ts : List (Tree W)} : c.items[place]? = some i →
      i.dotted.dot ≤ i.dotted.rule.productions.length →
      ReadsBelow c isCategory (i.dotted.rule.productions.take i.dotted.dot) i.children i.origin
        (before.push place) calls path ts →
      Reads c isCategory place before calls path.pop
        (.node i.symbol i.weight ⟨i.origin, i.stop⟩ ts)

/-- One production after the other: a word is a leaf, every other production takes the next child,
which is called unless it is on the path. Where no child is left nothing more is read. -/
inductive ReadsBelow (c : Chart W) (isCategory : String → Bool) :
    List Production → List Nat → Nat → Array Nat → List Call → Array Nat → List (Tree W) →
      Prop where
  | nil {places : List Nat} {k : Nat} {path : Array Nat} :
      ReadsBelow c isCategory [] places k path [] path []
  | word {p : Production} {ps : List Production} {places : List Nat} {k : Nat}
      {before after : Array Nat} {calls : List Call} {ts : List (Tree W)} :
      p.isLiteral isCategory = true →
      ReadsBelow c isCategory ps places (k + 1) before calls after ts →
      ReadsBelow c isCategory (p :: ps) places k before calls after
        (.leaf p.symbol ⟨k, k + 1⟩ :: ts)
  | childless {p : Production} {ps : List Production} {k : Nat} {path : Array Nat} :
      p.isLiteral isCategory = false →
      ReadsBelow c isCategory (p :: ps) [] k path [] path []
  | onPath {p : Production} {ps : List Production} {q : Nat} {places : List Nat} {k : Nat}
      {before after : Array Nat} {child : Item W} {calls : List Call} {ts : List (Tree W)} :
      p.isLiteral isCategory = false → c.items[q]? = some child → q ∈ before →
      ReadsBelow c isCategory ps places child.stop before calls after ts →
      ReadsBelow c isCategory (p :: ps) (q :: places) k before calls after ts
  | call {p : Production} {ps : List Production} {q : Nat} {places : List Nat} {k : Nat}
      {before path after : Array Nat} {child : Item W} {below calls : List Call} {t : Tree W}
      {ts : List (Tree W)} :
      p.isLiteral isCategory = false → c.items[q]? = some child → q ∉ before →
      Reads c isCategory q before below path t →
      ReadsBelow c isCategory ps places child.stop path calls after ts →
      ReadsBelow c isCategory (p :: ps) (q :: places) k before (.made q before path below :: calls)
        after (t :: ts)

end

variable {c : Chart W} {isCategory : String → Bool}

/-! ## One outcome at most -/

mutual

/-- The production, the next child and the path decide what is done. -/
theorem Reads.unique {place : Nat} {before after : Array Nat} {calls : List Call} {t : Tree W} :
    c.Reads isCategory place before calls after t →
    ∀ {calls' : List Call} {after' : Array Nat} {t' : Tree W},
      c.Reads isCategory place before calls' after' t' → calls = calls' ∧ after = after' ∧ t = t'
  | .item hi _ hbelow, _, _, _, .item hi' _ hbelow' => by
    obtain rfl := Option.some.inj (hi.symm.trans hi')
    obtain ⟨rfl, rfl, rfl⟩ := ReadsBelow.unique hbelow hbelow'
    exact ⟨rfl, rfl, rfl⟩

theorem ReadsBelow.unique {ps : List Production} {places : List Nat} {k : Nat}
    {before after : Array Nat} {calls : List Call} {ts : List (Tree W)} :
    c.ReadsBelow isCategory ps places k before calls after ts →
    ∀ {calls' : List Call} {after' : Array Nat} {ts' : List (Tree W)},
      c.ReadsBelow isCategory ps places k before calls' after' ts' →
        calls = calls' ∧ after = after' ∧ ts = ts'
  | .nil, _, _, _, h' => by
    cases h'
    exact ⟨rfl, rfl, rfl⟩
  | .word hliteral hrest, _, _, _, h' => by
    cases h' with
    | word _ hrest' =>
      obtain ⟨rfl, rfl, rfl⟩ := ReadsBelow.unique hrest hrest'
      exact ⟨rfl, rfl, rfl⟩
    | childless hliteral' | onPath hliteral' | call hliteral' => grind
  | .childless hliteral, _, _, _, h' => by
    cases h' with
    | word hliteral' => grind
    | childless => exact ⟨rfl, rfl, rfl⟩
  | .onPath hliteral hchild hpath hrest, _, _, _, h' => by
    cases h' with
    | word hliteral' => grind
    | onPath _ hchild' _ hrest' =>
      obtain rfl := Option.some.inj (hchild.symm.trans hchild')
      exact ReadsBelow.unique hrest hrest'
    | call _ _ hnew => exact absurd hpath hnew
  | .call hliteral hchild hnew hcall hrest, _, _, _, h' => by
    cases h' with
    | word hliteral' => grind
    | onPath _ _ hpath => exact absurd hpath hnew
    | call _ hchild' _ hcall' hrest' =>
      obtain rfl := Option.some.inj (hchild.symm.trans hchild')
      obtain ⟨rfl, rfl, rfl⟩ := Reads.unique hcall hcall'
      obtain ⟨rfl, rfl, rfl⟩ := ReadsBelow.unique hrest hrest'
      exact ⟨rfl, rfl, rfl⟩

end

/-! ## The path -/

mutual

/-- A call takes off the path what it put there. -/
theorem Reads.after_eq {place : Nat} {before after : Array Nat} {calls : List Call} {t : Tree W} :
    c.Reads isCategory place before calls after t → after = before
  | .item _ _ hbelow => by rw [ReadsBelow.after_eq hbelow, Array.pop_push]

theorem ReadsBelow.after_eq {ps : List Production} {places : List Nat} {k : Nat}
    {before after : Array Nat} {calls : List Call} {ts : List (Tree W)} :
    c.ReadsBelow isCategory ps places k before calls after ts → after = before
  | .nil => rfl
  | .word _ hrest => ReadsBelow.after_eq hrest
  | .childless _ => rfl
  | .onPath _ _ _ hrest => ReadsBelow.after_eq hrest
  | .call _ _ _ hcall hrest => (ReadsBelow.after_eq hrest).trans (Reads.after_eq hcall)

end

mutual

/-- So do all calls below it. -/
theorem Reads.restored {place : Nat} {before after : Array Nat} {calls : List Call} {t : Tree W} :
    c.Reads isCategory place before calls after t →
    ∀ call ∈ Call.allOf calls, call.after = call.before
  | .item _ _ hbelow => ReadsBelow.restored hbelow

theorem ReadsBelow.restored {ps : List Production} {places : List Nat} {k : Nat}
    {before after : Array Nat} {calls : List Call} {ts : List (Tree W)} :
    c.ReadsBelow isCategory ps places k before calls after ts →
    ∀ call ∈ Call.allOf calls, call.after = call.before
  | .nil => by simp [Call.allOf]
  | .word _ hrest => ReadsBelow.restored hrest
  | .childless _ => by simp [Call.allOf]
  | .onPath _ _ _ hrest => ReadsBelow.restored hrest
  | .call _ _ _ hcall hrest => by
    have hbelow := Reads.restored hcall
    have hcalls := ReadsBelow.restored hrest
    intro call hmem
    simp only [Call.allOf, Call.all, List.cons_append, List.mem_cons, List.mem_append] at hmem
    rcases hmem with rfl | hmem | hmem
    · exact Reads.after_eq hcall
    · exact hbelow call hmem
    · exact hcalls call hmem

end

theorem Simple.push {path : Array Nat} {place : Nat} {i : Item W} (h : c.Simple path.toList)
    (hnew : place ∉ path) (hi : c.items[place]? = some i) :
    c.Simple (path.push place).toList := by
  have hlt := lt_size_of_getElem? hi
  obtain ⟨hnodup, hmem⟩ := h
  constructor <;> grind

mutual

/-- A way down from a call passes no place twice, nor one that is on the path already. -/
theorem Reads.simple {place : Nat} {before after : Array Nat} {calls : List Call} {t : Tree W}
    (hbefore : c.Simple before.toList) (hnew : place ∉ before) :
    c.Reads isCategory place before calls after t →
    ∀ way ∈ (Call.made place before after calls).ways, c.Simple (before.toList ++ way)
  | .item hi _ hbelow => by
    have hpath := hbefore.push hnew hi
    have hways := ReadsBelow.simple hpath hbelow
    intro way hway
    simp only [Call.ways, List.mem_cons, List.mem_map] at hway
    rcases hway with rfl | ⟨rest, hrest, rfl⟩
    · simpa using hpath
    · simpa using hways rest hrest

theorem ReadsBelow.simple {ps : List Production} {places : List Nat} {k : Nat}
    {before after : Array Nat} {calls : List Call} {ts : List (Tree W)}
    (hbefore : c.Simple before.toList) :
    c.ReadsBelow isCategory ps places k before calls after ts →
    ∀ way ∈ Call.waysOf calls, c.Simple (before.toList ++ way)
  | .nil => by simp [Call.waysOf]
  | .word _ hrest => ReadsBelow.simple hbefore hrest
  | .childless _ => by simp [Call.waysOf]
  | .onPath _ _ _ hrest => ReadsBelow.simple hbefore hrest
  | .call _ _ hnew hcall hrest => by
    -- The next child meets the path that this one met.
    have hafter := Reads.after_eq hcall
    have hbelow := Reads.simple hbefore hnew hcall
    have hcalls := ReadsBelow.simple (hafter ▸ hbefore) hrest
    intro way hway
    rcases List.mem_append.1 hway with hway | hway
    · exact hbelow way hway
    · exact hafter ▸ hcalls way hway

end

/-! ## Depth -/

mutual

/-- Some way down is as long as the tree is deep. -/
theorem Reads.exists_way {place : Nat} {before after : Array Nat} {calls : List Call}
    {t : Tree W} : c.Reads isCategory place before calls after t →
    ∃ way ∈ (Call.made place before after calls).ways, t.depth ≤ way.length
  | .item _ _ hbelow => by
    rcases ReadsBelow.depthAll_le hbelow with hdepth | ⟨way, hway, hdepth⟩
    · exact ⟨[place], by simp [Call.ways], hdepth⟩
    · exact ⟨place :: way, by simp [Call.ways, hway], hdepth⟩

/-- Leaves lie one deeper than the call they belong to, and need no way of their own. -/
theorem ReadsBelow.depthAll_le {ps : List Production} {places : List Nat} {k : Nat}
    {before after : Array Nat} {calls : List Call} {ts : List (Tree W)} :
    c.ReadsBelow isCategory ps places k before calls after ts →
    Tree.depthAll ts ≤ 1 ∨ ∃ way ∈ Call.waysOf calls, Tree.depthAll ts ≤ way.length + 1
  | .nil => .inl (by simp [Tree.depthAll])
  | .word _ hrest => by
    have hdepth := ReadsBelow.depthAll_le hrest
    simp only [Tree.depthAll, Tree.depth]
    grind
  | .childless _ => .inl (by simp [Tree.depthAll])
  | .onPath _ _ _ hrest => ReadsBelow.depthAll_le hrest
  | .call _ _ _ hcall hrest => by
    obtain ⟨way, hway, hdepth⟩ := Reads.exists_way hcall
    have hdepths := ReadsBelow.depthAll_le hrest
    simp only [Tree.depthAll, Call.waysOf, List.mem_append]
    grind

end

/-! ## Every item is read -/

section Program

variable {onPath : List Nat} {path : Array Nat}

/-- Where the children that are called are read, so is all that lies below their parent. -/
theorem exists_readsBelow {subtree : Nat → Except Fault (Tree W)} {ps : List Production}
    {places : List Nat} {k : Nat} {ts : List (Tree W)} (hpath : ∀ q, q ∈ onPath ↔ q ∈ path)
    (hsubtree : ∀ {q t}, subtree q = .ok t → ∃ calls, c.Reads isCategory q path calls path t)
    (h : childTrees c isCategory onPath subtree ps places k = .ok ts) :
    ∃ calls, c.ReadsBelow isCategory ps places k path calls path ts := by
  fun_induction childTrees c isCategory onPath subtree ps places k generalizing ts with
  | case1 =>
    cases h
    exact ⟨[], .nil⟩
  | case2 places k p ps hliteral ih =>
    obtain ⟨rest, hrest, h⟩ := exists_of_bind_ok h
    cases h
    obtain ⟨calls, hcalls⟩ := ih hrest
    exact ⟨calls, .word hliteral hcalls⟩
  | case3 k p ps hliteral =>
    cases h
    exact ⟨[], .childless (Bool.eq_false_iff.2 hliteral)⟩
  | case4 k p ps hliteral q places ih =>
    have hliteral := Bool.eq_false_iff.2 hliteral
    obtain ⟨child, hchild, h⟩ := exists_of_bind_ok h
    have hitem := item_eq_ok_iff.1 hchild
    split at h
    case isTrue hmem =>
      obtain ⟨calls, hcalls⟩ := ih child h
      exact ⟨calls, .onPath hliteral hitem ((hpath q).1 hmem) hcalls⟩
    case isFalse hmem =>
      obtain ⟨t, ht, h⟩ := exists_of_bind_ok h
      obtain ⟨rest, hrest, h⟩ := exists_of_bind_ok h
      cases h
      obtain ⟨below, hbelow⟩ := hsubtree ht
      obtain ⟨calls, hcalls⟩ := ih child hrest
      exact ⟨_, .call hliteral hitem (mt (hpath q).2 hmem) hbelow hcalls⟩

/-- A tree that is found within some depth is read, whatever the depth was. -/
theorem exists_reads {n place : Nat} {t : Tree W} (hpath : ∀ q, q ∈ onPath ↔ q ∈ path)
    (h : treeWithin c isCategory n onPath place = .ok t) :
    ∃ calls, c.Reads isCategory place path calls path t := by
  induction n generalizing onPath path place t with
  | zero => cases h
  | succ n ih =>
    obtain ⟨i, hi, h⟩ := exists_of_bind_ok h
    split at h
    case isTrue => cases h
    case isFalse hdot =>
      obtain ⟨ts, hts, h⟩ := exists_of_bind_ok h
      cases h
      have hpushed : ∀ q, q ∈ place :: onPath ↔ q ∈ path.push place := by grind
      obtain ⟨calls, hcalls⟩ := exists_readsBelow hpushed (ih hpushed) hts
      have hreads := Reads.item (item_eq_ok_iff.1 hi) (Nat.not_lt.1 hdot) hcalls
      rw [Array.pop_push] at hreads
      exact ⟨calls, hreads⟩

end Program

/-- How the item at a place is read: by which calls, and as which tree. -/
structure Reading (c : Chart W) (g : WeightedGrammar W) (place : Nat) (calls : List Call)
    (t : Tree W) : Prop where
  /-- The first call, given the empty path, ends in this way and in no other. -/
  reads_iff {calls' : List Call} {after : Array Nat} {t' : Tree W} :
    c.Reads g.isCategory place #[] calls' after t' ↔ calls' = calls ∧ after = #[] ∧ t' = t
  tree_eq : c.tree g place = .ok t
  /-- No item is read twice on a way from the first call down to a last one. -/
  nodup : ∀ way ∈ (Call.made place #[] #[] calls).ways, way.Nodup
  /-- The tree is no deeper than the arena is large. -/
  depth_le : t.depth ≤ c.items.size
  /-- Every call leaves the path as it found it. -/
  restored : ∀ call ∈ (Call.made place #[] #[] calls).all, call.after = call.before

/-- On a closed chart every item is read, whatever lies below what. -/
theorem Closed.exists_reading (hc : c.Closed) (g : WeightedGrammar W) {place : Nat}
    (hplace : place < c.items.size) : ∃ calls t, c.Reading g place calls t := by
  obtain ⟨t, ht⟩ := hc.exists_tree g (Array.getElem?_eq_getElem hplace)
  obtain ⟨calls, hreads⟩ : ∃ calls, c.Reads g.isCategory place #[] calls #[] t :=
    exists_reads (by simp) ht
  have hsimple := hreads.simple simple_nil (Array.not_mem_empty place)
  refine ⟨calls, t, ?_⟩
  constructor
  case reads_iff =>
    intro calls' after t'
    constructor
    · intro hreads'
      obtain ⟨rfl, rfl, rfl⟩ := hreads.unique hreads'
      exact ⟨rfl, rfl, rfl⟩
    · rintro ⟨rfl, rfl, rfl⟩
      exact hreads
  case tree_eq => exact ht
  case nodup =>
    intro way hway
    exact (hsimple way hway).1
  case depth_le =>
    obtain ⟨way, hway, hdepth⟩ := hreads.exists_way
    exact hdepth.trans (hsimple way hway).length_le
  case restored =>
    intro call hmem
    rw [Call.all] at hmem
    rcases List.mem_cons.1 hmem with rfl | hmem
    · rfl
    · exact hreads.restored call hmem

/-- The items 0 and 1 lie below each other, and item 0 lies below item 2 twice. -/
def tangle : Chart Nat where
  items := #[
    ⟨⟨⟨"A", [.nonterminal "B"], 1⟩, 1⟩, 0, 1, .completion, [1], 1, false⟩,
    ⟨⟨⟨"B", [.nonterminal "A"], 1⟩, 1⟩, 0, 1, .completion, [0], 1, false⟩,
    ⟨⟨⟨"S", [.nonterminal "A", .nonterminal "A", .terminal "x"], 1⟩, 3⟩, 0, 2, .completion, [0, 0],
      1, false⟩]
  states := #[#[], #[0, 1], #[2]]

theorem closed_tangle : tangle.Closed := by decide

theorem exists_reading_tangle : tangle.Closed ∧ 2 < tangle.items.size ∧
    (∃ calls t, tangle.Reading (.empty "S") 2 calls t) ∧
    tangle.tree (.empty "S") 2 = .ok (.node "S" 1 ⟨0, 2⟩ [
      .node "A" 1 ⟨0, 1⟩ [.node "B" 1 ⟨0, 1⟩ []],
      .node "A" 1 ⟨0, 1⟩ [.node "B" 1 ⟨0, 1⟩ []],
      .leaf "x" ⟨1, 2⟩]) :=
  ⟨closed_tangle, by decide, closed_tangle.exists_reading _ (by decide), rfl⟩

end Chart

end TabularParsing.Earley
