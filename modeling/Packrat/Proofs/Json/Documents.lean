import Packrat.Language.Json
import Packrat.Proofs.Likeness
import Packrat.Text.DecimalDigit
import Packrat.Text.WhiteSpace

/-!
# JSON documents by their grammar

The grammar of JSON documents as a set of productions over texts, without any order among them and
without a word about how a text is read.

* `Json.Quotable`, `Json.Numeral`   what stands between quotation marks, and the numbers;
* `Json.Spaced`         a token with white space before it;
* `Json.Container`      objects and arrays, and `Json.Kind` what they hold: properties and values;
* `Json.Phrase`         a text is derived as a value or a property, with that tree;
* `Json.Tails`          a text is derived as further items of a container, with a comma before each;
* `Json.Document`       a text is a JSON document with that tree.
-/

namespace Packrat

namespace Json

/-! ## tokens -/

/-- what may stand between quotation marks: a backslash goes with the character after it, which ends
no line -/
inductive Quotable : List Char → Prop
  | nil : Quotable []
  | plain {c : Char} {cs : List Char} : c ≠ '"' → c ≠ '\\' → Quotable cs → Quotable (c :: cs)
  | escaped {c : Char} {cs : List Char} : c ≠ '\n' → Quotable cs → Quotable ('\\' :: c :: cs)

def Digits (cs : List Char) : Prop := cs ≠ [] ∧ ∀ c ∈ cs, isDecimalDigit c = true

/-- a whole number has no zero in front -/
inductive Whole : List Char → Prop
  | zero : Whole ['0']
  | nonzero {c : Char} {cs : List Char} : '1' ≤ c → c ≤ '9' → (∀ d ∈ cs, isDecimalDigit d = true) →
      Whole (c :: cs)

inductive Fraction : List Char → Prop
  | none : Fraction []
  | some {ds : List Char} : Digits ds → Fraction ('.' :: ds)

inductive Exponent : List Char → Prop
  | none : Exponent []
  | some {e : Char} {sign ds : List Char} : e = 'e' ∨ e = 'E' →
      sign = [] ∨ sign = ['+'] ∨ sign = ['-'] → Digits ds → Exponent (e :: (sign ++ ds))

inductive Numeral : List Char → Prop
  | mk {sign whole fraction exponent : List Char} : sign = [] ∨ sign = ['-'] → Whole whole →
      Fraction fraction → Exponent exponent → Numeral (sign ++ (whole ++ (fraction ++ exponent)))

/-- the three words -/
inductive Word where
  | trueWord
  | falseWord
  | nullWord
deriving DecidableEq

namespace Word

def text : Word → List Char
  | .trueWord => ['t', 'r', 'u', 'e']
  | .falseWord => ['f', 'a', 'l', 's', 'e']
  | .nullWord => ['n', 'u', 'l', 'l']

def tag : Word → JsonTag
  | .trueWord => .trueWord
  | .falseWord => .falseWord
  | .nullWord => .nullWord

end Word

/-- the text is the token, with white space before it -/
def Spaced (token text : List Char) : Prop :=
  ∃ blank, (∀ c ∈ blank, isWhiteSpace c = true) ∧ text = blank ++ token

/-! ## productions -/

/-- what is derived: values, and the properties of objects -/
inductive Kind where
  | value
  | property

inductive Container where
  | object
  | array

namespace Container

def opening : Container → Char
  | object => '\x7b'
  | array => '['

def closing : Container → Char
  | object => '\x7d'
  | array => ']'

def tag : Container → JsonTag
  | object => .object
  | array => .array

/-- what the container holds -/
def item : Container → Kind
  | object => .property
  | array => .value

end Container

/-- the text is a string, and the tree holds what stands between its quotation marks; where it was
found does not matter -/
inductive Quotation : List Char → Tree JsonTag → Prop
  | mk {text body : List Char} {span : Span} : Quotable body → Spaced ('"' :: (body ++ ['"'])) text →
      Quotation text (.leaf (some .string) (String.ofList body) span)

mutual

/-- the text is derived as a value or a property, with that tree -/
inductive Phrase : Kind → List Char → Tree JsonTag → Prop
  | string {text : List Char} {t : Tree JsonTag} : Quotation text t → Phrase .value text t
  | number {text token : List Char} {span : Span} : Numeral token → Spaced token text →
      Phrase .value text (.leaf (some .number) (String.ofList token) span)
  | word {text : List Char} (x : Word) : Spaced x.text text → Phrase .value text (.keyword x.tag)
  | empty (c : Container) {opening closing : List Char} : Spaced [c.opening] opening →
      Spaced [c.closing] closing → Phrase .value (opening ++ closing) (.branch (some c.tag) [])
  | filled (c : Container) {opening first others closing : List Char} {t : Tree JsonTag}
      {ts : List (Tree JsonTag)} : Spaced [c.opening] opening → Phrase c.item first t →
      Tails c.item others ts → Spaced [c.closing] closing →
      Phrase .value (opening ++ (first ++ (others ++ closing))) (.branch (some c.tag) (t :: ts))
  | property {key colon text : List Char} {t u : Tree JsonTag} : Quotation key t →
      Spaced [':'] colon → Phrase .value text u →
      Phrase .property (key ++ (colon ++ text)) (.branch (some .property) [t, u])

/-- the text is derived as items of that kind, with a comma before each -/
inductive Tails : Kind → List Char → List (Tree JsonTag) → Prop
  | nil {k : Kind} : Tails k [] []
  | cons {k : Kind} {comma text others : List Char} {t : Tree JsonTag} {ts : List (Tree JsonTag)} :
      Spaced [','] comma → Phrase k text t → Tails k others ts →
      Tails k (comma ++ (text ++ others)) (t :: ts)

end

/-- the text is a JSON document with that tree: a value, and white space may follow it -/
def Document (text : List Char) (t : Tree JsonTag) : Prop :=
  ∃ body blank, text = body ++ blank ∧ (∀ c ∈ blank, isWhiteSpace c = true) ∧ Phrase .value body t

/-- a phrase has a tag, so it shows up in the tree around it as it is -/
theorem Quotation.spliced {text : List Char} {t : Tree JsonTag} (h : Quotation text t) :
    t.spliced = [t] := by
  cases h with
  | mk _ _ => rfl

theorem Phrase.spliced {k : Kind} {text : List Char} {t : Tree JsonTag} (h : Phrase k text t) :
    t.spliced = [t] := by
  cases h with
  | string h => exact h.spliced
  | number _ _ => rfl
  | word _ _ => rfl
  | empty _ _ _ => rfl
  | filled _ _ _ _ _ => rfl
  | property _ _ _ => rfl

/-! What is derived does not depend on spans. -/

theorem Quotation.congr {text : List Char} {t u : Tree JsonTag} (h : Quotation text t)
    (hu : t.bare = u.bare) : Quotation text u := by
  cases h with
  | mk hbody htext =>
    obtain ⟨span, rfl⟩ := Tree.bare_eq_leaf hu
    exact .mk hbody htext

mutual

theorem Phrase.congr {k : Kind} {text : List Char} {t u : Tree JsonTag} (h : Phrase k text t)
    (hu : t.bare = u.bare) : Phrase k text u := by
  match h with
  | .string h => exact .string (h.congr hu)
  | .number hnumeral htext =>
    obtain ⟨span, rfl⟩ := Tree.bare_eq_leaf hu
    exact .number hnumeral htext
  | .word x htext =>
    obtain ⟨us, rfl, hmap⟩ := Tree.bare_eq_branch hu
    obtain rfl : us = [] := List.map_eq_nil_iff.mp hmap.symm
    exact .word x htext
  | .empty c hopening hclosing =>
    obtain ⟨us, rfl, hmap⟩ := Tree.bare_eq_branch hu
    obtain rfl : us = [] := List.map_eq_nil_iff.mp hmap.symm
    exact .empty c hopening hclosing
  | .filled c hopening h htails hclosing =>
    obtain ⟨us, rfl, hmap⟩ := Tree.bare_eq_branch hu
    obtain ⟨v, vs, rfl, hv, hvs⟩ := Tree.map_bare_eq_cons hmap
    exact .filled c hopening (h.congr hv) (htails.congr hvs) hclosing
  | .property hkey hcolon h =>
    obtain ⟨us, rfl, hmap⟩ := Tree.bare_eq_branch hu
    obtain ⟨v, vs, rfl, hv, hvs⟩ := Tree.map_bare_eq_cons hmap
    obtain ⟨w, ws, rfl, hw, hws⟩ := Tree.map_bare_eq_cons hvs
    obtain rfl : ws = [] := List.map_eq_nil_iff.mp hws.symm
    exact .property (hkey.congr hv) hcolon (h.congr hw)

theorem Tails.congr {k : Kind} {text : List Char} {ts us : List (Tree JsonTag)}
    (h : Tails k text ts) (hu : ts.map Tree.bare = us.map Tree.bare) : Tails k text us := by
  match h with
  | .nil =>
    obtain rfl : us = [] := List.map_eq_nil_iff.mp hu.symm
    exact .nil
  | .cons hcomma h htails =>
    obtain ⟨v, vs, rfl, hv, hvs⟩ := Tree.map_bare_eq_cons hu
    exact .cons hcomma (h.congr hv) (htails.congr hvs)

end

theorem Document.congr {text : List Char} {t u : Tree JsonTag} (h : Document text t)
    (hu : t.bare = u.bare) : Document text u := by
  obtain ⟨body, blank, htext, hblank, hphrase⟩ := h
  exact ⟨body, blank, htext, hblank, hphrase.congr hu⟩

end Json

end Packrat
