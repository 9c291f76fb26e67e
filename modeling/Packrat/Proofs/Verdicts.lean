import Packrat.Proofs.Compiled
import Packrat.Proofs.Matching

/-!
# What comes of a text

* `Grammar.parse?_of_misses`   where a name does not match, parsing ends with an error;
* `Grammar.parse?_of_finds`    where it matches, parsing ends with the tree, unless the text goes on.
-/

namespace Packrat

namespace Grammar
variable {τ : Type} {grammar : Grammar τ} {ignorables : List Pattern} {name : String} {i : Nat}
  {s : String} {q : Place} {t : Tree τ}

theorem parse?_of_misses (hindex : grammar.compile.ruleIndex? name = some i)
    (hignorables : grammar.ignorablesFor {} = ignorables)
    (h : grammar.Misses ignorables name (Place.first s.toList)) :
    ∃ e, ∀ outcome, (∃ limit, grammar.compile.parse? limit name s {} = some outcome) ↔
      outcome = .error e := by
  obtain ⟨f, hf⟩ := h 0
  have hreads : Reads grammar (grammar.ignorablesFor {}) name (Reader.first s.toList) none
      ⟨Place.first s.toList, f⟩ := by
    rw [hignorables]
    exact hf
  exact ⟨_, grammar.compile_parse? hindex hreads⟩

theorem parse?_of_finds (hindex : grammar.compile.ruleIndex? name = some i)
    (hignorables : grammar.ignorablesFor {} = ignorables)
    (h : grammar.Finds ignorables name (Place.first s.toList) (.kept t) q)
    (outcome : Except ParseError (Tree τ)) :
    (∃ limit, grammar.compile.parse? limit name s {} = some outcome) ↔
      outcome = if (skipAll ignorables q).rest = [] then .ok t else
        .error (.trailingInput (positionOf s.toList (skipAll ignorables q).offset)
          (previewAt s.toList (skipAll ignorables q).offset)) := by
  obtain ⟨f, hf⟩ := h 0
  have hreads : Reads grammar (grammar.ignorablesFor {}) name (Reader.first s.toList)
      (some (.kept t)) ⟨q, f⟩ := by
    rw [hignorables]
    exact hf
  rw [grammar.compile_parse? hindex hreads, Grammar.seenOf, hignorables]
  simp only [Reader.atEnd, Reader.significantOffset, List.isEmpty_iff]
  split <;> rfl

end Grammar

end Packrat
