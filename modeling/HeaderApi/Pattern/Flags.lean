import HeaderApi.Pattern.Casing
import HeaderApi.Pattern.Token

/-!
# Flags

What the letters of a flag group change: in the whole pattern, when the group stands in front of
it, or in the group alone.
-/

namespace HeaderApi.Pattern

/-- How a pattern is read. -/
structure Flags where
  ignoreCase : Bool := false
  /-- Lines have a beginning and an end of their own. -/
  multiLine : Bool := false
  /-- A dot stands for a line feed too. -/
  dotAll : Bool := false
  /-- Blanks and comments are passed over. -/
  verbose : Bool := false
  /-- The sorts of characters and the comparison of letters are those of ASCII. -/
  ascii : Bool := false
  deriving DecidableEq, Repr, Inhabited

namespace Flags

open Token

/-- How letters are compared. -/
def casing (flags : Flags) : Casing :=
  if flags.ignoreCase then if flags.ascii then .ascii else .full else .exact

/-- The letters of flags. -/
def isLetter (c : Char) : Bool := "aimsux".toList.contains c

/-- Letters that may be turned off. -/
def isSwitch (c : Char) : Bool := "imsx".toList.contains c

/-- Whether letters may stand together: the characters are those of ASCII or of every script. -/
def areCompatible (letters : List Char) : Bool := !(letters.contains 'a' && letters.contains 'u')

/-- Flags with some letters turned on and others turned off. -/
def change (flags : Flags) (on off : List Char) : Flags where
  ignoreCase := (flags.ignoreCase || on.contains 'i') && !off.contains 'i'
  multiLine := (flags.multiLine || on.contains 'm') && !off.contains 'm'
  dotAll := (flags.dotAll || on.contains 's') && !off.contains 's'
  verbose := (flags.verbose || on.contains 'x') && !off.contains 'x'
  ascii := (flags.ascii && !on.contains 'u') || on.contains 'a'

/-! ## Blanks and comments -/

/-- White space that a verbose pattern may hold. -/
def isSpace (c : Char) : Bool := c = ' ' || (9 ≤ c.toNat && c.toNat ≤ 13)

/-- What follows a blank, or a comment up to the end of its line, where these do not count. -/
def skipped? (verbose : Bool) : List Token → Option (List Token)
  | .plain c :: rest =>
    if verbose && isSpace c then some rest
    else if verbose && c = '#' then some ((rest.dropWhile (· ≠ .plain '\n')).drop 1)
    else none
  | _ => none

/-- What follows a comment in parentheses, behind its opening mark. -/
def afterComment? (tokens : List Token) : Option (List Token) := (until? ')' tokens).map Prod.snd

/-! ## Flag groups -/

/-- The flags of a group behind its question mark, and what follows the colon. -/
def ofGroup? (flags : Flags) (tokens : List Token) : Option (Flags × List Token) :=
  match takePlain isLetter tokens.length tokens with
  | (on, .plain ':' :: rest) => if areCompatible on then some (flags.change on [], rest) else none
  | (on, .plain '-' :: rest) =>
    match takePlain isSwitch rest.length rest with
    | (off, .plain ':' :: tail) =>
      if off ≠ [] && areCompatible on && off.all (!on.contains ·) then
        some (flags.change on off, tail)
      else none
    | _ => none
  | _ => none

/-- The letters of a group for the whole pattern, behind its question mark, and what follows. -/
def globalLetters? (tokens : List Token) : Option (List Char × List Token) :=
  match takePlain isLetter tokens.length tokens with
  | (on, .plain ')' :: rest) => if on ≠ [] && areCompatible on then some (on, rest) else none
  | _ => none

/-- The letters of the groups for the whole pattern that stand in front of it, and the pattern.
Comments and, once they do not count, blanks may stand between the groups. -/
def leading? : Nat → List Char → List Token → Option (List Char × List Token)
  | 0, _, _ => none
  | fuel + 1, letters, tokens =>
    match tokens with
    | .plain '(' :: .plain '?' :: .plain '#' :: rest => do
      leading? fuel letters (← afterComment? rest)
    | .plain '(' :: .plain '?' :: rest =>
      match globalLetters? rest with
      | some (on, tail) => leading? fuel (letters ++ on) tail
      | none => some (letters, tokens)
    | _ =>
      match skipped? (letters.contains 'x') tokens with
      | some rest => leading? fuel letters rest
      | none => some (letters, tokens)

/-- The flags of a whole pattern, and the pattern behind the groups that set them. -/
def ofPattern? (tokens : List Token) : Option (Flags × List Token) := do
  let (letters, rest) ← leading? (tokens.length + 1) [] tokens
  if areCompatible letters then some (({} : Flags).change letters [], rest) else none

end Flags

end HeaderApi.Pattern
