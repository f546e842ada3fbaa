import HeaderApi.Pattern.Matcher
import HeaderApi.Pattern.Parser

/-!
# Replacement

A replacement rule replaces every match of a pattern by a template, in which the texts of groups
are filled in.
-/

namespace HeaderApi

open Text Pattern

/-! ## Templates -/

/-- A piece of a template. -/
inductive TemplatePiece where
  | char (c : Char)
  | group (index : Nat)
  deriving DecidableEq, Repr, Inhabited

namespace Regex

open Token

/-- The group that a name or number in a template stands for. -/
def templateGroup? (regex : Regex) (name : List Char) : Option TemplatePiece := do
  let index ← groupIndex? regex.names name
  if index ≤ regex.groups then some (.group index) else none

/-- The pieces of an escape in a template, and the rest. -/
def templateEscape? (regex : Regex) (c : Char) (rest : List Token) :
    Option (List TemplatePiece × List Token) :=
  if c = 'g' then
    match rest with
    | .plain '<' :: rest => do
      let (name, tail) ← name? '>' rest
      return ([← regex.templateGroup? name], tail)
    | _ => none
  else if isNumeral c then
    if isOctalEscape c rest then
      (octalCode? c rest).map fun (code, tail) => ([.char (Char.ofNat code)], tail)
    else
      let (index, tail) := shortNumber c rest
      if index ≤ regex.groups then some ([.group index], tail) else none
  else
    match if c = 'b' then some '\x08' else controlEscape? c with
    | some d => some ([.char d], rest)
    | none => if c.isAlpha then none else some ([.char '\\', .char c], rest)

/-- The pieces of a template, read from those of its text. -/
def templatePieces? (regex : Regex) : Nat → List Token → Option (List TemplatePiece)
  | _, [] => some []
  | 0, _ => none
  | fuel + 1, .plain c :: rest => (templatePieces? regex fuel rest).map (.char c :: ·)
  | fuel + 1, .escape c :: rest => do
    let (pieces, rest) ← regex.templateEscape? c rest
    let later ← templatePieces? regex fuel rest
    return pieces ++ later

/-- The pieces of a template for a pattern. -/
def template? (regex : Regex) (text : List Char) : Option (List TemplatePiece) := do
  let tokens ← Token.ofText? text
  regex.templatePieces? tokens.length tokens

/-! ## Matching -/

/-- The match of a pattern at a place: where it ends.  With `advance` it takes a character. -/
def matchAt (regex : Regex) (advance : Bool) (place : Place) : Option Place :=
  Pattern.run regex.pattern
    (fun next => if advance && next.samePosition place then none else some next) place

/-- The text of a match from a place to its end, filled into a template. -/
def fill (template : List TemplatePiece) (first last : Place) : List Char :=
  template.flatMap fun
    | .char c => [c]
    | .group index =>
      if index = 0 then last.textFrom first else (last.group? index).getD []

/-- What is written at a place where a match may begin, and the number of characters taken.  A
match of no character may be followed by another match at the same place. -/
def replaceHere (regex : Regex) (template : List TemplatePiece) (place : Place) :
    List Char × Nat :=
  match regex.matchAt false place with
  | none => ([], 0)
  | some last =>
    if last.samePosition place then
      match regex.matchAt true place with
      | none => (fill template place last, 0)
      | some longer =>
        (fill template place last ++ fill template place longer,
          place.after.length - longer.after.length)
    else (fill template place last, place.after.length - last.after.length)

/-- Replaces the matches in the rest of a text, after skipping some characters. -/
def replaceFrom (regex : Regex) (template : List TemplatePiece) :
    List Char → Nat → List Char → List Char
  | before, 0, [] => (regex.replaceHere template ⟨before, [], []⟩).1
  | _, _ + 1, [] => []
  | before, skip + 1, c :: rest => replaceFrom regex template (c :: before) skip rest
  | before, 0, c :: rest =>
    match regex.replaceHere template ⟨before, c :: rest, []⟩ with
    | (written, 0) => written ++ c :: replaceFrom regex template (c :: before) 0 rest
    | (written, taken + 1) => written ++ replaceFrom regex template (c :: before) taken rest

/-- Replaces all matches of a pattern in a text. -/
def replaceAll (regex : Regex) (template : List TemplatePiece) (text : List Char) : List Char :=
  regex.replaceFrom template [] 0 text

end Regex

/-! ## Rules -/

/-- A rule that replaces the matches of a pattern by a template. -/
structure Replacement where
  pattern : String
  template : String
  deriving DecidableEq, Repr, Inhabited

/-- A rule that can not be applied. -/
inductive PatternError where
  | pattern (text : String)
  | template (text : String)
  deriving DecidableEq, Repr, Inhabited

namespace Replacement

/-- Applies a rule.  Pattern and template are read when the rule is applied, whether or not there
is a match. -/
def apply [CharacterNames] (rule : Replacement) (text : List Char) :
    Except PatternError (List Char) :=
  match Regex.parse? rule.pattern.toList with
  | none => .error (.pattern rule.pattern)
  | some regex =>
    match regex.template? rule.template.toList with
    | none => .error (.template rule.template)
    | some template => .ok (regex.replaceAll template text)

/-- Applies rules in turn. -/
def applyAll [CharacterNames] : List Replacement → List Char → Except PatternError (List Char)
  | [], text => .ok text
  | rule :: rules, text => do applyAll rules (← rule.apply text)

@[simp] theorem applyAll_nil [CharacterNames] (text : List Char) :
    applyAll [] text = .ok text := rfl

end Replacement

end HeaderApi
