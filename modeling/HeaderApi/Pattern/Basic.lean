import HeaderApi.Pattern.Casing
import HeaderApi.Text.Blank
import HeaderApi.Text.Digit
import HeaderApi.Text.Word

/-!
# Patterns

The regular expressions of replacement rules: what a pattern is made of, which characters its
parts accept, and how many characters it takes.
-/

namespace HeaderApi

open Text

namespace Pattern

/-- The sorts of characters that a pattern can ask for. -/
inductive Category where
  | word
  | digit
  | blank
  deriving DecidableEq, Repr, Inhabited

/-- Whether a character is of a sort.  Outside of ASCII there may be none of them. -/
def Category.contains (category : Category) (ascii : Bool) (c : Char) : Bool :=
  if ascii then
    match category with
    | .word => c.isAlphanum || c = '_'
    | .digit => c.isDigit
    | .blank => c = ' ' || (9 ≤ c.toNat && c.toNat ≤ 13)
  else
    match category with
    | .word => isWord c
    | .digit => isDigit c
    | .blank => isBlank c

/-- A part of a character class. -/
inductive ClassItem where
  | range (low high : Nat)
  | category (sort : Category) (ascii negated : Bool)
  deriving DecidableEq, Repr, Inhabited

/-- Whether a part of a class accepts a character. -/
def ClassItem.accepts (casing : Casing) (c : Char) : ClassItem → Bool
  | .range low high => (casing.variants c.toNat).any fun n => low ≤ n && n ≤ high
  | .category sort ascii negated => sort.contains ascii c != negated

end Pattern

/-- A pattern.  Its characters are code points, also those of which no text is made. -/
inductive Pattern where
  | empty
  | char (casing : Casing) (code : Nat)
  /-- Any character, or any but a line feed. -/
  | any (lineFeeds : Bool)
  | set (casing : Casing) (negated : Bool) (items : List Pattern.ClassItem)
  /-- The beginning of the text, or of a line. -/
  | start (ofLine : Bool)
  /-- The end of the text or the place before a line feed that ends it, or the end of a line. -/
  | finish (ofLine : Bool)
  /-- The end of the text. -/
  | textEnd
  /-- A place between a word character and another one, or any other place; the place in an empty
  text is neither. -/
  | boundary (ascii negated : Bool)
  | seq (first second : Pattern)
  | alt (first second : Pattern)
  /-- A group whose text is kept. -/
  | group (index : Nat) (body : Pattern)
  /-- From `least` to `most` times, as often as possible or as seldom as possible. -/
  | loop (body : Pattern) (least : Nat) (most : Option Nat) (greedy : Bool)
  /-- The first way in which the body matches, and no other. -/
  | atomic (body : Pattern)
  /-- What follows. -/
  | ahead (negated : Bool) (body : Pattern)
  /-- What stands before; the width is that of the body. -/
  | behind (negated : Bool) (width : Nat) (body : Pattern)
  /-- The text of an earlier group. -/
  | again (casing : Casing) (index : Nat)
  /-- One of two patterns: the first if a group has a text. -/
  | choice (index : Nat) (present absent : Pattern)
  deriving Inhabited

namespace Pattern

/-- The numbers of characters that the matches of a pattern take. -/
structure Width where
  least : Nat
  /-- There may be no greatest number. -/
  most : Option Nat
  deriving DecidableEq, Repr, Inhabited

namespace Width

/-- The width of a pattern with one number of characters. -/
def exactly (n : Nat) : Width := ⟨n, some n⟩

/-- The width of one pattern and another behind it. -/
def add (a b : Width) : Width where
  least := a.least + b.least
  most := do return (← a.most) + (← b.most)

/-- The width of one of two patterns. -/
def either (a b : Width) : Width where
  least := min a.least b.least
  most := do return max (← a.most) (← b.most)

/-- The width of a pattern that is repeated. -/
def times (w : Width) (least : Nat) (most : Option Nat) : Width where
  least := w.least * least
  most := if w.most = some 0 || most = some 0 then some 0 else do return (← w.most) * (← most)

/-- The only number of characters, if there is one. -/
def only? (w : Width) : Option Nat := if w.most = some w.least then some w.least else none

end Width

/-- The width of a pattern, given those of the groups that it refers to. -/
def width (groups : List (Nat × Width)) : Pattern → Width
  | .empty | .start _ | .finish _ | .textEnd | .boundary _ _ | .ahead _ _ | .behind _ _ _ =>
    .exactly 0
  | .char _ _ | .any _ | .set _ _ _ => .exactly 1
  | .seq a b => (a.width groups).add (b.width groups)
  | .alt a b => (a.width groups).either (b.width groups)
  | .group _ body => body.width groups
  | .atomic body => body.width groups
  | .loop body least most _ => (body.width groups).times least most
  | .again _ index => (groups.lookup index).getD (.exactly 0)
  | .choice _ present absent => (present.width groups).either (absent.width groups)

end Pattern

end HeaderApi
