namespace EagerLisp

/-- The region that a character of a program text lies in. What stands before it decides: a quote
opens a quoted stretch that the next quote closes, and outside one a semicolon opens a comment that
the next newline closes. -/
inductive Region where
  | code
  | quoted
  | comment
deriving DecidableEq

namespace Region

def after : Region → Char → Region
  | .code, c => if c = '"' then .quoted else if c = ';' then .comment else .code
  | .quoted, c => if c = '"' then .code else .quoted
  | .comment, c => if c = '\n' then .code else .comment

/-- The region that a character itself belongs to: the marks that open and close a region are
part of it. -/
def holding : Region → Char → Region
  | .code, c => Region.code.after c
  | region, _ => region

/-- Splits a text at the first character that lies in code and ends the stretch at hand. -/
def splitAt (ends : Char → Bool) (region : Region) (text : List Char) : List Char × List Char :=
  walk region [] text
where
  walk : Region → List Char → List Char → List Char × List Char
    | _, taken, [] => (taken.reverse, [])
    | region, taken, c :: rest =>
      if region = .code && ends c then (taken.reverse, c :: rest)
      else walk (region.after c) (c :: taken) rest

variable {ends : Char → Bool}

theorem walk_eq (region : Region) (taken text : List Char) :
    splitAt.walk ends region taken text =
      (taken.reverse ++ (splitAt.walk ends region [] text).1,
        (splitAt.walk ends region [] text).2) := by
  induction text generalizing region taken with
  | nil => simp [splitAt.walk]
  | cons c rest ih =>
    unfold splitAt.walk
    split
    · simp
    · rw [ih, ih _ [c]]
      simp

@[simp] theorem splitAt_nil (region : Region) : splitAt ends region [] = ([], []) := rfl

theorem splitAt_cons (region : Region) (c : Char) (rest : List Char) :
    splitAt ends region (c :: rest) =
      if region = .code && ends c then ([], c :: rest)
      else (c :: (splitAt ends (region.after c) rest).1,
        (splitAt ends (region.after c) rest).2) := by
  simp only [splitAt, splitAt.walk, List.reverse_nil]
  split
  · rfl
  · rw [walk_eq]
    simp

theorem splitAt_append (region : Region) (text : List Char) :
    (splitAt ends region text).1 ++ (splitAt ends region text).2 = text := by
  induction text generalizing region with
  | nil => rfl
  | cons c rest ih =>
    rw [splitAt_cons]
    split
    · rfl
    · simp [ih]

theorem splitAt_rest_length_le (region : Region) (text : List Char) :
    (splitAt ends region text).2.length ≤ text.length := by
  have whole := congrArg List.length (@splitAt_append ends region text)
  simp only [List.length_append] at whole
  omega

end Region

/-- The ranges of the code points of white space, both ends included. -/
def whiteSpaceRanges : List (Nat × Nat) :=
  [(0x9, 0xD), (0x20, 0x20), (0x85, 0x85), (0xA0, 0xA0), (0x1680, 0x1680), (0x2000, 0x200A),
    (0x2028, 0x2029), (0x202F, 0x202F), (0x205F, 0x205F), (0x3000, 0x3000)]

def isWhiteSpace (c : Char) : Bool :=
  whiteSpaceRanges.any fun (first, last) => first ≤ c.toNat && c.toNat ≤ last

def trimEnd (text : List Char) : List Char :=
  (text.reverse.dropWhile isWhiteSpace).reverse

def trim (text : List Char) : List Char :=
  trimEnd (text.dropWhile isWhiteSpace)

end EagerLisp
