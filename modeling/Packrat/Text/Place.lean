/-!
# Places in a text

Texts are measured in bytes of UTF-8, and read as lists of characters.

* `byteLength`       the number of bytes of a text;
* `takeBytes`        the characters that start within the first `n` bytes;
* `Span`             a stretch of a text, by the offsets of its two ends;
* `Place`            a point between two characters: its offset, and the text that follows;
* `Place.textTo`     the text between two places.

A place carries the rest of the text, so going back to an earlier place costs nothing.
-/

namespace Packrat

/-- the number of bytes that `text` takes in UTF-8 -/
def byteLength (text : List Char) : Nat :=
  text.foldl (fun n c => n + c.utf8Size) 0

theorem foldl_utf8Size (text : List Char) (n : Nat) :
    text.foldl (fun n c => n + c.utf8Size) n = n + byteLength text := by
  induction text generalizing n with
  | nil => rfl
  | cons c text ih =>
    show text.foldl _ (n + c.utf8Size) = n + text.foldl _ (0 + c.utf8Size)
    rw [ih, ih]
    omega

@[simp] theorem byteLength_nil : byteLength [] = 0 := rfl

@[simp] theorem byteLength_cons (c : Char) (text : List Char) :
    byteLength (c :: text) = c.utf8Size + byteLength text := by
  show text.foldl _ (0 + c.utf8Size) = _
  rw [foldl_utf8Size]
  omega

@[simp] theorem byteLength_append (s t : List Char) :
    byteLength (s ++ t) = byteLength s + byteLength t := by
  induction s with
  | nil => simp
  | cons c s ih => rw [List.cons_append, byteLength_cons, byteLength_cons, ih]; omega

/-- the characters of the text that start within its first `n` bytes -/
def takeBytes : Nat → List Char → List Char
  | _, [] => []
  | n, c :: rest => if n = 0 then [] else c :: takeBytes (n - c.utf8Size) rest

@[simp] theorem takeBytes_nil (n : Nat) : takeBytes n [] = [] := by cases n <;> rfl

/-- a text is what its own bytes hold -/
theorem takeBytes_append (s t : List Char) : takeBytes (byteLength s) (s ++ t) = s := by
  induction s with
  | nil => cases t <;> simp [takeBytes]
  | cons c s ih =>
    have hc : 0 < c.utf8Size := c.utf8Size_pos
    have hn : ¬ (c.utf8Size + byteLength s = 0) := by omega
    have hs : c.utf8Size + byteLength s - c.utf8Size = byteLength s := by omega
    rw [byteLength_cons, List.cons_append, takeBytes, if_neg hn, hs, ih]

/-- a stretch of a text, from the byte at `start` up to the byte before `stop` -/
structure Span where
  start : Nat
  stop : Nat
deriving DecidableEq

/-- a point of a text: how many bytes precede it, and the characters that follow -/
structure Place where
  offset : Nat
  rest : List Char
deriving DecidableEq

namespace Place

def first (text : List Char) : Place := ⟨0, text⟩

def past (p : Place) (c : Char) (rest : List Char) : Place := ⟨p.offset + c.utf8Size, rest⟩

def spanTo (p q : Place) : Span := ⟨p.offset, q.offset⟩

def textTo (p q : Place) : String := String.ofList (takeBytes (q.offset - p.offset) p.rest)

end Place

end Packrat
