import TabularParsing.Proofs.Agreement.Charts
import TabularParsing.Proofs.Double.Sums
import TabularParsing.Proofs.Segment

/-!
# Trees that backpointers spell

Every cell of a filled chart points to a word that a rule of its symbol allows, or to two filled
cells that part its span, so following backpointers ends at the words. The tree below a filled cell
is a derivation of the cell's symbol over its span, and there is no tree below any other cell.

## Main definitions

* `Follows`: backpointers that follow a rule.
* `Tree.Licensed`: trees in which every local branch is licensed by a rule.
* `SpanMap.Founded`: maps whose backpointers can be followed to the words.

## Main statements

* `SpanMap.founded_of_follows`: it is enough that every backpointer follows a rule.
* `Grammar.charts_founded`: both charts of a sentence.
-/
namespace TabularParsing

variable {α β W : Type}

/-- A backpointer of a cell follows a rule of the cell's symbol: to the word at the position of the
cell, or to two stored cells that part the cell's span. -/
inductive Follows (g : Grammar) (tokens : List String) (stored : Constituent → Bool) :
    Constituent → Backpointer → Prop where
  | leaf {lhs w : String} {i a : Nat} : g.index? lhs = some a → tokens[i]? = some w →
      .word lhs w ∈ g.rules → Follows g tokens stored ⟨i + 1, i + 1, a⟩ (.leaf (i + 1))
  | split {lhs left right : String} {first mid last a b c : Nat} : g.index? lhs = some a →
      g.index? left = some b → g.index? right = some c → .pair lhs left right ∈ g.rules →
      first ≤ mid → mid < last → stored ⟨first, mid, b⟩ = true →
      stored ⟨mid + 1, last, c⟩ = true →
      Follows g tokens stored ⟨first, last, a⟩ (.split ⟨first, mid, b⟩ ⟨mid + 1, last, c⟩)

/-! ## Derivations -/

/-- The words of a part of the input as leaves. -/
def leavesOver (tokens : List String) (i k : Nat) : List (String × Extent) :=
  ((segment tokens i k).zipIdx i).map fun q => (q.1, ⟨q.2, q.2 + 1⟩)

theorem leavesOver_append {tokens : List String} {i m k : Nat} (him : i ≤ m) (hmk : m ≤ k)
    (hm : m ≤ tokens.length) :
    leavesOver tokens i m ++ leavesOver tokens m k = leavesOver tokens i k := by
  have hlength : i + (segment tokens i m).length = m := by
    rw [length_segment hm]
    omega
  simp only [leavesOver]
  rw [← List.map_append, ← segment_append tokens him hmk, List.zipIdx_append, hlength]

namespace Tree

/-- A derivation of a symbol over a part of the input: a word rule above its word, or a pair rule
above derivations of its two symbols, the second from where the first stops. -/
inductive Licensed (g : Grammar) (tokens : List String) : String → Nat → Nat → Tree W → Prop where
  | word {lhs w : String} {i : Nat} {p : W} : tokens[i]? = some w → .word lhs w ∈ g.rules →
      Licensed g tokens lhs i (i + 1) (.node lhs p ⟨i, i + 1⟩ [.leaf w ⟨i, i + 1⟩])
  | pair {lhs left right : String} {i m k : Nat} {p : W} {t u : Tree W} :
      .pair lhs left right ∈ g.rules → Licensed g tokens left i m t →
      Licensed g tokens right m k u → Licensed g tokens lhs i k (.node lhs p ⟨i, k⟩ [t, u])

namespace Licensed

variable {g : Grammar} {tokens : List String} {symbol : String} {i k : Nat} {t : Tree W}

theorem label_eq (h : Licensed g tokens symbol i k t) : t.label = symbol := by
  cases h <;> rfl

theorem extent_eq (h : Licensed g tokens symbol i k t) : t.extent = ⟨i, k⟩ := by
  cases h <;> rfl

theorem bounds (h : Licensed g tokens symbol i k t) : i < k ∧ k ≤ tokens.length := by
  induction h with
  | word hw _ =>
    obtain ⟨hi, -⟩ := List.getElem?_eq_some_iff.1 hw
    exact ⟨Nat.lt_succ_self _, hi⟩
  | pair _ _ _ ihleft ihright => exact ⟨ihleft.1.trans ihright.1, ihright.2⟩

/-- The leaves are the words. -/
theorem leaves_eq (h : Licensed g tokens symbol i k t) : t.leaves = leavesOver tokens i k := by
  induction h with
  | word hw _ => rw [leavesOver, segment_succ hw]; rfl
  | pair _ hleft hright ihleft ihright =>
    rw [← leavesOver_append hleft.bounds.1.le hright.bounds.1.le hleft.bounds.2, ← ihleft,
      ← ihright]
    simp [leaves, leavesAll]

end Licensed

end Tree

/-! ## Following backpointers -/

namespace SpanMap

variable {view : CellView α W} {g : Grammar} {tokens : List String} {t : SpanMap α}

/-- Every backpointer follows a rule. Following them ends, and gives a tree exactly at the cells
that are set; the tree derives the symbol of the cell over its span. -/
structure Founded (view : CellView α W) (g : Grammar) (tokens : List String) (t : SpanMap α) :
    Prop where
  follows : ∀ {k : Constituent} {x : α}, t.get? k = some x →
    Follows g tokens t.contains k (view.origin x)
  /-- A path of backpointers is no longer than the span. -/
  ends : ∀ (k : Constituent) {n : Nat}, k.last - k.first < n →
    t.treeWithin view g.nonterminals tokens n k = t.tree view g tokens k
  isSome_tree : ∀ k : Constituent, (t.tree view g tokens k).isSome = t.contains k
  tree : ∀ {k : Constituent} {d : Tree W}, t.tree view g tokens k = some d →
    ∃ symbol, g.index? symbol = some k.symbol ∧ d.label = symbol ∧
      d.extent = ⟨k.first - 1, k.last⟩ ∧ d.Licensed g tokens symbol (k.first - 1) k.last ∧
      d.leaves = leavesOver tokens (k.first - 1) k.last

theorem treeWithin_of_get?_eq_none {k : Constituent} (h : t.get? k = none) (n : Nat) :
    t.treeWithin view g.nonterminals tokens n k = none := by
  cases n with
  | zero => rfl
  | succ n => simp [treeWithin, h]

/-- What lies below a cell that is set. -/
theorem treeWithin_succ {k : Constituent} {x : α} {s : String} (hx : t.get? k = some x)
    (hs : g.index? s = some k.symbol) (n : Nat) :
    t.treeWithin view g.nonterminals tokens (n + 1) k =
      (childTrees tokens (t.treeWithin view g.nonterminals tokens n) (view.origin x)).map fun ds =>
        .node s (view.weight x) ⟨k.first - 1, k.last⟩ ds := by
  have hsymbol : g.nonterminals[k.symbol]? = some s := Grammar.index?_eq_some_iff.1 hs
  simp only [treeWithin, hx, hsymbol, Option.bind_eq_bind, Option.bind_some, Option.pure_def]
  exact Option.map_eq_bind.symm

/-- The tree below a cell that is set, by induction on the length of the span. -/
theorem exists_treeWithin (h : ∀ {k : Constituent} {x : α}, t.get? k = some x →
    Follows g tokens t.contains k (view.origin x)) {k : Constituent}
    (hk : t.contains k = true) :
    ∃ d symbol, g.index? symbol = some k.symbol ∧
      d.Licensed g tokens symbol (k.first - 1) k.last ∧
      ∀ n, k.last - k.first < n → t.treeWithin view g.nonterminals tokens n k = some d := by
  induction hn : k.last - k.first using Nat.strongRecOn generalizing k with
  | ind n ih =>
    obtain ⟨x, hx⟩ := Option.isSome_iff_exists.1 hk
    have hfollows := h hx
    generalize horigin : view.origin x = b at hfollows
    cases hfollows with
    | @leaf lhs w i a ha hw hr =>
      refine ⟨.node lhs (view.weight x) ⟨i, i + 1⟩ [.leaf w ⟨i, i + 1⟩], lhs, ha, .word hw hr,
        fun m hm => ?_⟩
      obtain ⟨m, rfl⟩ := Nat.exists_eq_succ_of_ne_zero (Nat.ne_zero_of_lt hm)
      rw [treeWithin_succ hx ha, horigin]
      simp [childTrees, hw]
    | @split lhs left right first mid last a b c ha hb hc hr hmid hmid' hleft hright =>
      simp only at hn
      obtain ⟨d, s, hs, hd, hdtree⟩ := ih _ (by simp only; omega) hleft rfl
      obtain ⟨e, s', hs', he, hetree⟩ := ih _ (by simp only; omega) hright rfl
      obtain rfl := Grammar.index?_inj hs hb
      obtain rfl := Grammar.index?_inj hs' hc
      refine ⟨.node lhs (view.weight x) ⟨first - 1, last⟩ [d, e], lhs, ha, .pair hr hd he,
        fun m hm => ?_⟩
      obtain ⟨m, rfl⟩ := Nat.exists_eq_succ_of_ne_zero (Nat.ne_zero_of_lt hm)
      rw [treeWithin_succ hx ha, horigin]
      have hdm := hdtree m (by simp only; omega)
      have hem := hetree m (by simp only; omega)
      simp [childTrees, hdm, hem]

/-- A map has more cells than a span has words. -/
theorem width_lt_size {k : Constituent} (hk : k.Valid t.len t.symbols) :
    k.last - k.first < t.cells.size + 1 := by
  obtain ⟨hfirst, hle, hlast, hsymbol⟩ := hk
  have hsize := t.size_cells
  have hlen : t.len ≤ t.len * t.len := Nat.le_mul_self _
  have hcells : t.len * t.len ≤ t.len * t.len * t.symbols :=
    Nat.le_mul_of_pos_right _ (by omega)
  omega

/-- It is enough that every backpointer follows a rule. -/
theorem founded_of_follows (h : ∀ {k : Constituent} {x : α}, t.get? k = some x →
    Follows g tokens t.contains k (view.origin x)) : t.Founded view g tokens := by
  have htree {k : Constituent} (hk : t.contains k = true) :
      ∃ d symbol, g.index? symbol = some k.symbol ∧
        d.Licensed g tokens symbol (k.first - 1) k.last ∧
        t.tree view g tokens k = some d ∧
        ∀ n, k.last - k.first < n → t.treeWithin view g.nonterminals tokens n k = some d := by
    obtain ⟨x, hx⟩ := Option.isSome_iff_exists.1 hk
    obtain ⟨d, symbol, hs, hd, hwithin⟩ := exists_treeWithin h hk
    exact ⟨d, symbol, hs, hd, hwithin _ (width_lt_size (valid_of_get? hx)), hwithin⟩
  have hnone {k : Constituent} (hk : t.contains k = false) (n : Nat) :
      t.treeWithin view g.nonterminals tokens n k = none :=
    treeWithin_of_get?_eq_none (Option.isNone_iff_eq_none.1 (Option.isSome_eq_false_iff.1 hk)) n
  refine ⟨h, fun k n hn => ?_, fun k => ?_, fun {k d} hd => ?_⟩
  · cases hk : t.contains k with
    | false => rw [hnone hk, tree, hnone hk]
    | true =>
      obtain ⟨d, -, -, -, hd, hwithin⟩ := htree hk
      rw [hwithin n hn, hd]
  · cases hk : t.contains k with
    | false => rw [tree, hnone hk]; rfl
    | true =>
      obtain ⟨d, -, -, -, hd, -⟩ := htree hk
      rw [hd]; rfl
  · cases hk : t.contains k with
    | false => rw [tree, hnone hk] at hd; cases hd
    | true =>
      obtain ⟨e, symbol, hs, he, hetree, -⟩ := htree hk
      obtain rfl := Option.some.inj (hd.symm.trans hetree)
      exact ⟨symbol, hs, he.label_eq, he.extent_eq, he, he.leaves_eq⟩

end SpanMap

/-! ## The two charts -/

/-- A policy that keeps how a value came about. -/
structure CellPolicy.Traces (policy : CellPolicy α β) (origin : α → Backpointer) : Prop where
  leaf : ∀ {note : β} {position : Nat} {x : α}, policy.leaf note position = some x →
    origin x = .leaf position
  split : ∀ {note : β} {k l : Constituent} {y z x : α}, policy.split note k y l z = some x →
    origin x = .split k l

namespace Grammar

variable {g : Grammar} {policy : CellPolicy α β} {note : Rule → β} {tokens : List String}

theorem follows_of_get?_chart {origin : α → Backpointer} (h : policy.Traces origin)
    {k : Constituent} {x : α} (hx : (g.chart policy note tokens).get? k = some x) :
    Follows g tokens (g.chart policy note tokens).contains k (origin x) := by
  obtain ⟨first, last, a⟩ := k
  have hvalid := Admits.valid_of_get?_chart hx
  obtain ⟨lhs, ha⟩ := exists_symbol hvalid.2.2.2
  rcases Admits.offered_of_get?_chart ha hx with ⟨w, rfl, hw, hr, hx⟩ | ⟨hlt, mid, n, hoffer⟩
  · have hfirst : 0 < first := hvalid.1
    obtain ⟨i, rfl⟩ : ∃ i, first = i + 1 := ⟨first - 1, by omega⟩
    rw [h.leaf hx]
    exact .leaf ha hw hr
  · obtain ⟨hr, hb, hc, hmid, hmid', hy, hz, hx⟩ := hoffer
    rw [h.split hx]
    exact .split ha hb hc (mem_rules_of_getElem? hr) hmid hmid' (by simp [SpanMap.contains, hy])
      (by simp [SpanMap.contains, hz])

theorem founded_chart {view : CellView α W} (h : policy.Traces view.origin) (g : Grammar)
    (note : Rule → β) (tokens : List String) :
    (g.chart policy note tokens).Founded view g tokens :=
  SpanMap.founded_of_follows fun hx => follows_of_get?_chart h hx

theorem traces_firstProof : firstProof.Traces id where
  leaf h := (Option.some.inj h).symm
  split h := (Option.some.inj h).symm

theorem traces_bestScore {L : Type} [Add L] [LT L] [DecidableLT L] (never : L) :
    (bestScore never).Traces BestCell.origin where
  leaf h := by
    simp only [bestScore] at h
    split at h
    · exact Option.some.inj h ▸ rfl
    · cases h
  split h := by
    simp only [bestScore] at h
    split at h
    · exact Option.some.inj h ▸ rfl
    · cases h

/-- A sentence has a score exactly if the cell of the whole sentence is set. -/
theorem derivable_scored (g : Grammar) (weights : RuleWeights Float) (tokens : List String)
    (start : String) :
    (g.scored naturalScale weights tokens).derivable naturalScale g start =
      (g.index? start).any fun s =>
        (g.bestChart naturalScale weights tokens).contains ⟨1, tokens.length, s⟩ := by
  have hnever : (naturalScale.never != naturalScale.never) = false := by decide
  cases hs : g.index? start with
  | none => simpa [ScoredParse.derivable, ScoredParse.score, hs] using hnever
  | some s =>
    cases hx : (g.bestChart naturalScale weights tokens).get? ⟨1, tokens.length, s⟩ with
    | none =>
      simpa [ScoredParse.derivable, ScoredParse.score, hs, scored, ScoredParse.cellScore, hx,
        SpanMap.contains] using hnever
    | some x =>
      have hscore : (x.score != naturalScale.never) = true :=
        Double.bne_never_of_lt (never_lt_score_of_get? hx)
      simpa [ScoredParse.derivable, ScoredParse.score, hs, scored, ScoredParse.cellScore, hx,
        SpanMap.contains] using hscore

/-- Both charts of a sentence, the one of first proofs and the one of best scores, have
backpointers that follow rules to the words, whatever the weights. Following them ends at every
cell, gives a tree exactly at the cells that are set, and this tree is a derivation of the cell's
symbol over its span. So a sentence has a tree exactly if it is recognized, and exactly if it has a
score; and the tree of the best chart is the best derivation. -/
theorem charts_founded (g : Grammar) (weights : RuleWeights Float) (tokens : List String) :
    (g.proofChart tokens).Founded (proofView : CellView Backpointer Float) g tokens ∧
      (g.bestChart naturalScale weights tokens).Founded (bestView naturalScale) g tokens ∧
      ∀ start : String,
        (g.firstTree start tokens : Option (Tree Float)).isSome = g.recognizes start tokens ∧
        (g.scored naturalScale weights tokens).tree naturalScale g start =
          (g.scored naturalScale weights tokens).bestDerivation naturalScale g start ∧
        ((g.scored naturalScale weights tokens).tree naturalScale g start).isSome =
          (g.scored naturalScale weights tokens).derivable naturalScale g start := by
  have hproof : (g.proofChart tokens).Founded (proofView : CellView Backpointer Float) g tokens :=
    founded_chart traces_firstProof g _ tokens
  have hbest : (g.bestChart naturalScale weights tokens).Founded (bestView naturalScale) g tokens :=
    founded_chart (traces_bestScore _) g _ tokens
  refine ⟨hproof, hbest, fun start => ?_⟩
  have hsome : ((g.scored naturalScale weights tokens).tree naturalScale g start).isSome =
      (g.scored naturalScale weights tokens).derivable naturalScale g start := by
    rw [derivable_scored, ScoredParse.tree]
    cases hs : g.index? start with
    | none => rfl
    | some s => exact hbest.isSome_tree _
  refine ⟨?_, ?_, hsome⟩
  · rw [firstTree, recognizes]
    cases hs : g.index? start with
    | none => rfl
    | some s => exact hproof.isSome_tree _
  · rw [ScoredParse.bestDerivation]
    split
    · rfl
    · rename_i hderivable
      rw [Bool.not_eq_true, ← hsome] at hderivable
      exact Option.isNone_iff_eq_none.1 (Option.isSome_eq_false_iff.1 hderivable)

end Grammar

end TabularParsing
