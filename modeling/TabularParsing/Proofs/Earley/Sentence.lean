import TabularParsing.Proofs.Earley.Leaves
import TabularParsing.Proofs.Earley.Termination
import TabularParsing.Proofs.Text.ReadGrammar

/-!
# Trees of sentences

A sentence that is accepted by a grammar read from text has a tree whose leaves are its words, each
at its position. Words that are spelled like a category of the lexicon are missing among them.

## Main statement

* `Parse.leaves_ofText`
-/
namespace TabularParsing.Earley.Parse

/-- By a grammar that is read from text every sentence is parsed, and an accepted one has a tree.
The leaves of the tree are the words of the sentence that are not spelled like a category, each at
its position, so all its words if none of them is. -/
theorem leaves_ofText {text : String} {g : WeightedGrammar Float}
    (htext : WeightedGrammar.ofText text = .ok g) (tokens : List String) :
    (∀ limit, turnBound g tokens ≤ limit → ∃ p, ofTokens limit g tokens = .ok p) ∧
    ∀ limit p, ofTokens limit g tokens = .ok p → p.accepts = true →
      ∃ t, p.tree? = .ok (some t) ∧
        t.leaves = (tokens.zipIdx.filter fun q => !g.isCategory q.1).map
          (fun q => (q.1, ⟨q.2, q.2 + 1⟩)) ∧
        ((∀ w ∈ tokens, g.isCategory w = false) →
          t.leaves = tokens.zipIdx.map fun q => (q.1, ⟨q.2, q.2 + 1⟩)) := by
  have hu := Double.unitProducts_double
  have hcons := (WeightedGrammar.classified_of_ofText htext).consistent
  have hw := WeightedGrammar.weightsIn_of_ofText htext
  have hstart : (Production.ofSymbol g.start).isLiteral g.isCategory = false := by
    rw [WeightedGrammar.start_of_ofText htext]
    rfl
  constructor
  · intro limit hlimit
    obtain ⟨c, hp, -⟩ :=
      exists_ofTokens hu.ranking hw (fillChart_ne_outOfSteps hu hw hlimit)
    exact ⟨_, hp⟩
  · intro limit p hp haccepts
    obtain ⟨c, rfl, hreach, -⟩ := exists_saturated hu.ranking hw hp
    obtain ⟨place, i, t, hi, -, horigin, hstop, hat, ht⟩ :=
      exists_tree? hu hw hcons hreach hstart haccepts
    have hleaves := hreach.leaves_eq hcons hi hat
    rw [horigin, hstop] at hleaves
    refine ⟨t, ht, ?_, fun hnone => hleaves.trans (wordLeaves_full hnone)⟩
    rw [hleaves, wordLeaves, segment_full]

/-- Words of the lexicon and literal ones, by way of a unit cycle. -/
theorem leaves_ofText_barks :
    ∃ g, WeightedGrammar.ofText
        "S -> NP verb\nNP -> NP\nNP -> the noun 0.5\nnoun -> dog\nverb -> barks 0.25\n" = .ok g ∧
      ∃ p, ofTokens 20 g ["the", "dog", "barks"] = .ok p ∧ p.accepts = true ∧
        ∃ t, p.tree? = .ok (some t) ∧
          t.leaves = [("the", ⟨0, 1⟩), ("dog", ⟨1, 2⟩), ("barks", ⟨2, 3⟩)] := by
  have hrun : ((WeightedGrammar.ofText
      "S -> NP verb\nNP -> NP\nNP -> the noun 0.5\nnoun -> dog\nverb -> barks 0.25\n").toOption.any
        fun g => ["the", "dog", "barks"].all (fun w => !g.isCategory w) &&
          (ofTokens 20 g ["the", "dog", "barks"]).toOption.any fun p => p.accepts) = true := by
    decide +kernel
  simp only [Option.any_eq_true, Bool.and_eq_true, toOption_eq_some_iff] at hrun
  obtain ⟨g, hg, hnone, p, hp, haccepts⟩ := hrun
  obtain ⟨t, ht, -, hleaves⟩ := (leaves_ofText hg _).2 20 p hp haccepts
  refine ⟨g, hg, p, hp, haccepts, t, ht, hleaves fun w hw => ?_⟩
  simpa using List.all_eq_true.1 hnone w hw

/-- A noun that is spelled like its category is missing from the tree. -/
theorem leaves_ofText_ne_namesake :
    ∃ g, WeightedGrammar.ofText "S -> noun\nnoun -> noun\n" = .ok g ∧
      ∃ p, ofTokens 20 g ["noun"] = .ok p ∧ p.accepts = true ∧
        ∃ t, p.tree? = .ok (some t) ∧ t.leaves ≠ [("noun", ⟨0, 1⟩)] := by
  have hrun : ((WeightedGrammar.ofText "S -> noun\nnoun -> noun\n").toOption.any fun g =>
      (ofTokens 20 g ["noun"]).toOption.any fun p => p.accepts &&
        p.tree?.toOption.any fun t => t.any fun t => t.leaves == []) = true := by decide +kernel
  simp only [Option.any_eq_true, Bool.and_eq_true, beq_iff_eq, toOption_eq_some_iff] at hrun
  obtain ⟨g, hg, p, hp, haccepts, _, ht, t, rfl, hleaves⟩ := hrun
  refine ⟨g, hg, p, hp, haccepts, t, ht, ?_⟩
  rw [hleaves]
  exact (List.cons_ne_nil _ _).symm

end TabularParsing.Earley.Parse
