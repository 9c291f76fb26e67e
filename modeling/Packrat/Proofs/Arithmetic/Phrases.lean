import Packrat.Language.Arithmetic
import Packrat.Proofs.Likeness
import Packrat.Text.DecimalDigit
import Packrat.Text.WhiteSpace

/-!
# Arithmetic expressions by their grammar

The grammar of arithmetic expressions as a set of productions over tokens, without any order among
them and without a word about how a text is read.

* `Arithmetic.Operator`, `Arithmetic.Level`   the operators, and the levels of precedence: `sum`,
                        `diff`, `prod` and `quot` are the lists with `plus`, `minus`, `times` and
                        `divided`, and below them are the atoms;
* `Arithmetic.Lexeme`   a token, and `Arithmetic.Numeral` the numbers among them;
* `Arithmetic.Spells`   a text spells tokens, with white space before them;
* `Arithmetic.Phrase`   tokens are derived on a level, and the tree of the derivation;
* `Arithmetic.Expresses`   a text is an arithmetic expression with that tree.
-/

namespace Packrat

namespace Arithmetic

/-- the operators that join operands to a list -/
inductive Operator where
  | plus
  | minus
  | times
  | divided
deriving DecidableEq

/-- a level of precedence: lists with one operator, or atoms -/
inductive Level where
  | list (op : Operator)
  | atom

namespace Operator

/-- how the operator is written -/
def symbol : Operator → Char
  | plus => '+'
  | minus => '-'
  | times => '*'
  | divided => '/'

/-- the tag of a list with the operator -/
def tag : Operator → Arithmetic
  | plus => .add
  | minus => .sub
  | times => .mul
  | divided => .div

/-- the level of its operands -/
def operand : Operator → Level
  | plus => .list minus
  | minus => .list times
  | times => .list divided
  | divided => .atom

end Operator

/-- a token -/
inductive Lexeme where
  | number (text : List Char)
  | operator (op : Operator)
  | opening
  | closing

/-- the text of a number: digits, and maybe a point and more digits -/
inductive Numeral : List Char → Prop
  | whole {cs : List Char} : cs ≠ [] → (∀ c ∈ cs, isDecimalDigit c = true) → Numeral cs
  | decimal {cs ds : List Char} : cs ≠ [] → (∀ c ∈ cs, isDecimalDigit c = true) → ds ≠ [] →
      (∀ c ∈ ds, isDecimalDigit c = true) → Numeral (cs ++ '.' :: ds)

/-- the token is written like this -/
inductive Lexeme.Written : Lexeme → List Char → Prop
  | number {text : List Char} : Numeral text → Written (.number text) text
  | operator (op : Operator) : Written (.operator op) [op.symbol]
  | opening : Written .opening ['(']
  | closing : Written .closing [')']

/-- the text consists of the tokens, each with white space before it -/
inductive Spells : List Lexeme → List Char → Prop
  | nil : Spells [] []
  | cons {x : Lexeme} {xs : List Lexeme} {blank token rest : List Char} :
      (∀ c ∈ blank, isWhiteSpace c = true) → x.Written token → Spells xs rest →
      Spells (x :: xs) (blank ++ token ++ rest)

theorem Spells.append {xs ys : List Lexeme} {s t : List Char} (hx : Spells xs s)
    (hy : Spells ys t) : Spells (xs ++ ys) (s ++ t) := by
  induction hx with
  | nil => exact hy
  | cons hblank hwritten _ ih =>
    rw [List.append_assoc]
    exact .cons hblank hwritten ih

theorem Spells.split {xs ys : List Lexeme} {s : List Char} (h : Spells (xs ++ ys) s) :
    ∃ t u, s = t ++ u ∧ Spells xs t ∧ Spells ys u := by
  induction xs generalizing s with
  | nil => exact ⟨[], s, rfl, .nil, h⟩
  | cons x xs ih =>
    cases h with
    | cons hblank hwritten hrest =>
      obtain ⟨t, u, rfl, ht, hu⟩ := ih hrest
      exact ⟨_, u, (List.append_assoc _ _ _).symm, .cons hblank hwritten ht, hu⟩

/-! ## productions -/

mutual

/-- the tokens are derived on the level, with that tree; where a number was found does not matter -/
inductive Phrase : Level → List Lexeme → Tree Arithmetic → Prop
  | number {text : List Char} {span : Span} :
      Phrase .atom [.number text] (.leaf (some .number) (String.ofList text) span)
  | group {xs : List Lexeme} {t : Tree Arithmetic} : Phrase (.list .plus) xs t →
      Phrase .atom (.opening :: (xs ++ [.closing])) t
  | negated {xs : List Lexeme} {t : Tree Arithmetic} : Phrase .atom xs t →
      Phrase .atom (.operator .minus :: xs) (.branch (some .neg) [t])
  /-- a single operand -/
  | one {op : Operator} {xs : List Lexeme} {t : Tree Arithmetic} : Phrase op.operand xs t →
      Phrase (.list op) xs t
  /-- several operands are the children of one node -/
  | several {op : Operator} {xs ys : List Lexeme} {t u : Tree Arithmetic}
      {ts : List (Tree Arithmetic)} : Phrase op.operand xs t → Tails op ys (u :: ts) →
      Phrase (.list op) (xs ++ ys) (.branch (some op.tag) (t :: u :: ts))

/-- the tokens are operands with the operator before each -/
inductive Tails : Operator → List Lexeme → List (Tree Arithmetic) → Prop
  | nil {op : Operator} : Tails op [] []
  | cons {op : Operator} {xs ys : List Lexeme} {t : Tree Arithmetic}
      {ts : List (Tree Arithmetic)} : Phrase op.operand xs t → Tails op ys ts →
      Tails op (.operator op :: (xs ++ ys)) (t :: ts)

end

/-- the text is an arithmetic expression with that tree: it spells the tokens of a sum, and white
space may follow them -/
def Expresses (text : List Char) (t : Tree Arithmetic) : Prop :=
  ∃ xs body blank, text = body ++ blank ∧ Spells xs body ∧ (∀ c ∈ blank, isWhiteSpace c = true) ∧
    Phrase (.list .plus) xs t

/-- a phrase has a tag, so it shows up in the tree around it as it is -/
theorem Phrase.spliced {l : Level} {xs : List Lexeme} {t : Tree Arithmetic} (h : Phrase l xs t) :
    t.spliced = [t] := by
  match h with
  | .number => rfl
  | .group h => exact h.spliced
  | .negated _ => rfl
  | .one h => exact h.spliced
  | .several _ _ => rfl

/-! What is derived does not depend on spans. -/

mutual

theorem Phrase.congr {l : Level} {xs : List Lexeme} {t u : Tree Arithmetic} (h : Phrase l xs t)
    (hu : t.bare = u.bare) : Phrase l xs u := by
  match h with
  | .number =>
    obtain ⟨span, rfl⟩ := Tree.bare_eq_leaf hu
    exact .number
  | .group h => exact .group (h.congr hu)
  | .negated h =>
    obtain ⟨us, rfl, hmap⟩ := Tree.bare_eq_branch hu
    obtain ⟨v, vs, rfl, hv, hvs⟩ := Tree.map_bare_eq_cons hmap
    obtain rfl : vs = [] := List.map_eq_nil_iff.mp hvs.symm
    exact .negated (h.congr hv)
  | .one h => exact .one (h.congr hu)
  | .several h htails =>
    obtain ⟨us, rfl, hmap⟩ := Tree.bare_eq_branch hu
    obtain ⟨v, vs, rfl, hv, hvs⟩ := Tree.map_bare_eq_cons hmap
    obtain ⟨w, ws, rfl, -, -⟩ := Tree.map_bare_eq_cons hvs
    exact .several (h.congr hv) (htails.congr hvs)

theorem Tails.congr {op : Operator} {xs : List Lexeme} {ts us : List (Tree Arithmetic)}
    (h : Tails op xs ts) (hu : ts.map Tree.bare = us.map Tree.bare) : Tails op xs us := by
  match h with
  | .nil =>
    obtain rfl : us = [] := List.map_eq_nil_iff.mp hu.symm
    exact .nil
  | .cons h htails =>
    obtain ⟨v, vs, rfl, hv, hvs⟩ := Tree.map_bare_eq_cons hu
    exact .cons (h.congr hv) (htails.congr hvs)

end

theorem Expresses.congr {text : List Char} {t u : Tree Arithmetic} (h : Expresses text t)
    (hu : t.bare = u.bare) : Expresses text u := by
  obtain ⟨xs, body, blank, htext, hspells, hblank, hphrase⟩ := h
  exact ⟨xs, body, blank, htext, hspells, hblank, hphrase.congr hu⟩

end Arithmetic

end Packrat
