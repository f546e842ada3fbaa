import HeaderApi.Pattern.Basic

/-!
# Matching

A pattern is matched by trying its alternatives in order.  What comes after a part is given as a
continuation, and a part is tried again in its next way when the continuation fails.
-/

namespace HeaderApi.Pattern

open Text

/-- Where a match stands: the text before in reverse, the text after, and the texts of the groups,
the latest first. -/
structure Place where
  before : List Char
  after : List Char
  groups : List (Nat × List Char)
  deriving DecidableEq, Repr, Inhabited

/-- A match goes on from a place, or fails. -/
abbrev Continuation := Place → Option Place

/-- The text of a group. -/
def Place.group? (place : Place) (index : Nat) : Option (List Char) := place.groups.lookup index

/-- Takes the next character if it is accepted. -/
def Place.take (accepts : Char → Bool) (k : Continuation) (place : Place) : Option Place :=
  match place.after with
  | c :: rest =>
    if accepts c then k { place with before := c :: place.before, after := rest } else none
  | [] => none

/-- The text between two places of one match. -/
def Place.textFrom (place first : Place) : List Char :=
  (place.before.take (place.before.length - first.before.length)).reverse

/-- Whether two places of one match are the same place of the text. -/
def Place.samePosition (a b : Place) : Bool := a.after.length = b.after.length

/-- Whether a place is the beginning of the text, or of a line. -/
def Place.isStart (place : Place) (ofLine : Bool) : Bool :=
  place.before = [] || (ofLine && place.before.head? = some '\n')

/-- Whether a place is the end of the text or before a line feed that ends it, or the end of a
line. -/
def Place.isFinish (place : Place) (ofLine : Bool) : Bool :=
  place.after = [] || place.after = ['\n'] || (ofLine && place.after.head? = some '\n')

/-- Whether a place lies between a word character and another one. -/
def Place.isBoundary (place : Place) (ascii : Bool) : Bool :=
  let isWordAt (c : Option Char) := c.any (Category.word.contains ascii)
  isWordAt place.before.head? != isWordAt place.after.head?

/-- Whether a place lies in a text without characters. -/
def Place.isInEmpty (place : Place) : Bool := place.before = [] && place.after = []

/-- Takes the given characters. -/
def Place.takeAll (casing : Casing) : List Char → Continuation → Place → Option Place
  | [], k, place => k place
  | c :: cs, k, place =>
    place.take (fun d => casing.lower c.toNat = casing.lower d.toNat) (takeAll casing cs k)

/-- A part that has to match a number of times. -/
def times (body : Continuation → Place → Option Place) : Nat → Continuation → Place → Option Place
  | 0, k, place => k place
  | n + 1, k, place => body (times body n k) place

/-- A part that may match up to a number of times.  A turn that takes no character is the last. -/
def upTo (body : Continuation → Place → Option Place) (greedy : Bool) :
    Nat → Continuation → Place → Option Place
  | 0, k, place => k place
  | n + 1, k, place =>
    let turn (_ : Unit) := body
      (fun next => if next.samePosition place then k next else upTo body greedy n k next) place
    if greedy then (turn ()).orElse fun _ => k place else (k place).orElse turn

/-- Matches a pattern and goes on with a continuation. -/
def run : Pattern → Continuation → Place → Option Place
  | .empty, k, place => k place
  | .char casing code, k, place => place.take (fun c => casing.same code c.toNat) k
  | .any lineFeeds, k, place => place.take (fun c => lineFeeds || c ≠ '\n') k
  | .set casing negated items, k, place =>
    place.take (fun c => items.any (·.accepts casing c) != negated) k
  | .start ofLine, k, place => if place.isStart ofLine then k place else none
  | .finish ofLine, k, place => if place.isFinish ofLine then k place else none
  | .textEnd, k, place => if place.after = [] then k place else none
  | .boundary ascii negated, k, place =>
    if !place.isInEmpty && place.isBoundary ascii != negated then k place else none
  | .seq a b, k, place => run a (fun next => run b k next) place
  | .alt a b, k, place => (run a k place).orElse fun _ => run b k place
  | .group index body, k, place =>
    run body
      (fun next => k { next with groups := (index, next.textFrom place) :: next.groups }) place
  | .loop body least most greedy, k, place =>
    times (fun k' p => run body k' p) least
      (fun next =>
        let limit := match most with
          | some n => n - least
          | none => next.after.length + 1
        upTo (fun k' p => run body k' p) greedy limit k next)
      place
  | .atomic body, k, place =>
    match run body some place with
    | some next => k next
    | none => none
  | .ahead negated body, k, place =>
    match run body some place with
    | some next => if negated then none else k { place with groups := next.groups }
    | none => if negated then k place else none
  | .behind negated width body, k, place =>
    let found :=
      if place.before.length < width then none
      else
        run body (fun next => if next.samePosition place then some next else none)
          { place with
            before := place.before.drop width
            after := (place.before.take width).reverse ++ place.after }
    match found with
    | some next => if negated then none else k { place with groups := next.groups }
    | none => if negated then k place else none
  | .again casing index, k, place =>
    match place.group? index with
    | some cs => place.takeAll casing cs k
    | none => none
  | .choice index present absent, k, place =>
    if (place.group? index).isSome then run present k place else run absent k place

end HeaderApi.Pattern
