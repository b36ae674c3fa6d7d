/-!
Ways to write a name that consists of words. A name is first split into its words: at underscores,
hyphens and blanks, which are dropped, and where the kind of character changes inside it. The words
are then shaped and joined. Letters and digits are those of ASCII.
-/

namespace Octagon

/-- A way to write a name. -/
inductive WordCase where
  | upper | lower | title | toggle | alternating
  | snake | upperSnake
  | kebab | upperKebab | train
  | flat | upperFlat
  | camel | upperCamel
  deriving DecidableEq

namespace WordCase

/-! ### Splitting -/

/-- Whether the character stands between words. -/
def isSeparator (c : Char) : Bool := c == '_' || c == '-' || c == ' '

/-- Whether a word ends between `a` and `b`, where `next` follows `b`. Of several capitals before a
small letter the last one begins a word. -/
def breaks (a b : Char) (next : Option Char) : Bool :=
  isSeparator a || isSeparator b
    || (a.isLower && b.isUpper)
    || (a.isUpper && b.isDigit) || (a.isDigit && b.isUpper)
    || (a.isLower && b.isDigit) || (a.isDigit && b.isLower)
    || (a.isUpper && b.isUpper && next.any Char.isLower)

/-- The words of a name, in order. -/
def words (name : List Char) : List (List Char) :=
  let followed := name.zip (name.tail.map some ++ [none])
  let pieces := followed.splitBy fun (a, _) (b, next) => !breaks a b next
  (pieces.map fun piece => piece.map Prod.fst).filter fun piece => !piece.any isSeparator

/-! ### Shaping -/

/-- All letters large. -/
def uppercase (word : List Char) : List Char := word.map Char.toUpper

/-- All letters small. -/
def lowercase (word : List Char) : List Char := word.map Char.toLower

/-- The first character large and the others small. -/
def capitalized : List Char → List Char
  | [] => []
  | c :: rest => c.toUpper :: lowercase rest

/-- The first character small and the others large. -/
def toggled : List Char → List Char
  | [] => []
  | c :: rest => c.toLower :: uppercase rest

/-- Letters large and small in turn, the first one as `large` says; what is no letter is kept and
does not count. -/
def alternate (large : Bool) : List Char → List Char
  | [] => []
  | c :: rest =>
    if c.isAlpha then (if large then c.toUpper else c.toLower) :: alternate (!large) rest
    else c :: alternate large rest

/-- What stands between two words. -/
def joint : WordCase → List Char
  | upper | lower | title | toggle | alternating => [' ']
  | snake | upperSnake => ['_']
  | kebab | upperKebab | train => ['-']
  | flat | upperFlat | camel | upperCamel => []

/-- The words as they are written. Alternation runs on from one word to the next, so it is left to
`apply`. -/
def shape : WordCase → List (List Char) → List (List Char)
  | upper | upperSnake | upperKebab | upperFlat => List.map uppercase
  | lower | alternating | snake | kebab | flat => List.map lowercase
  | title | train | upperCamel => List.map capitalized
  | toggle => List.map toggled
  | camel => fun
    | [] => []
    | first :: rest => lowercase first :: rest.map capitalized

/-- The name written in this way. -/
def apply (style : WordCase) (name : String) : String :=
  let joined := style.joint.intercalate (style.shape (words name.toList))
  String.ofList (if style = alternating then alternate false joined else joined)

end WordCase

end Octagon
