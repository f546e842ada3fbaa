import HeaderApi.Pattern.Basic
import HeaderApi.Pattern.Flags

/-!
# Reading patterns

The text of a pattern: alternatives of sequences of parts, each of which may be repeated.  The
flags in force are part of what is read.
-/

namespace HeaderApi

open Text

/-- A pattern with what is known of its groups. -/
structure Regex where
  pattern : Pattern
  /-- The number of groups. -/
  groups : Nat
  names : List (List Char × Nat)
  deriving Inhabited

namespace Pattern.Parser

open Token

/-- What is known of the groups met so far. -/
structure State where
  count : Nat := 0
  names : List (List Char × Nat) := []
  /-- The widths of the groups that are closed. -/
  widths : List (Nat × Width) := []
  /-- Inside of what stands before a place: the number of groups in front of it. -/
  beforeBehind : Option Nat := none
  /-- The greatest number by which a condition refers to a group. -/
  wanted : Nat := 0
  deriving Inhabited

/-- Whether a group may be referred to: it is closed, and it does not stand inside of what stands
before a place together with the reference. -/
def State.isClosed (state : State) (index : Nat) : Bool :=
  (state.widths.lookup index).isSome && state.beforeBehind.all (index ≤ ·)

/-- What can be repeated, and what can not. -/
inductive Role where
  | part
  | repetition
  | place
  deriving DecidableEq, Repr, Inhabited

/-- A part of a sequence. -/
structure Item where
  pattern : Pattern
  role : Role
  deriving Inhabited

/-- The pattern of a sequence of parts, the last one first. -/
def sequence (items : List Item) : Pattern :=
  items.foldl (fun rest item => .seq item.pattern rest) .empty

/-! ## Escapes -/

/-- The sort of characters of a letter escape. -/
def categoryEscape? (ascii : Bool) : Char → Option ClassItem
  | 'd' => some (.category .digit ascii false)
  | 'D' => some (.category .digit ascii true)
  | 's' => some (.category .blank ascii false)
  | 'S' => some (.category .blank ascii true)
  | 'w' => some (.category .word ascii false)
  | 'W' => some (.category .word ascii true)
  | _ => none

/-- The place that a letter escape asks for. -/
def placeEscape? (ascii : Bool) : Char → Option Pattern
  | 'A' => some (.start false)
  | 'Z' => some .textEnd
  | 'b' => some (.boundary ascii false)
  | 'B' => some (.boundary ascii true)
  | _ => none

/-- A reference to a group that may be referred to. -/
def reference? (flags : Flags) (state : State) (index : Nat) : Option Pattern :=
  if state.isClosed index then some (.again flags.casing index) else none

/-- An escape outside of a class, and the rest. -/
def escape? [CharacterNames] (flags : Flags) (state : State) (c : Char) (rest : List Token) :
    Option (Item × List Token) :=
  match placeEscape? flags.ascii c, categoryEscape? flags.ascii c with
  | some place, _ => some (⟨place, .place⟩, rest)
  | none, some item => some (⟨.set flags.casing false [item], .part⟩, rest)
  | none, none =>
    if isNumeral c && !isOctalEscape c rest then
      let (index, tail) := shortNumber c rest
      (reference? flags state index).map fun pattern => (⟨pattern, .part⟩, tail)
    else
      (if isNumeral c then octalCode? c rest else codeEscape? c rest).map fun (code, tail) =>
        (⟨.char flags.casing code, .part⟩, tail)

/-! ## Classes -/

/-- One code point or sort of characters inside a class, and the rest. -/
def classAtom? [CharacterNames] (ascii : Bool) :
    List Token → Option ((Nat ⊕ ClassItem) × List Token)
  | [] => none
  | .plain c :: rest => some (.inl c.toNat, rest)
  | .escape c :: rest =>
    match categoryEscape? ascii c with
    | some item => some (.inr item, rest)
    | none =>
      (if c = 'b' then some (0x08, rest)
        else if isOctal c then octalCode? c rest
        else if isNumeral c then none
        else codeEscape? c rest).map fun (code, tail) => (.inl code, tail)

/-- The item of one code point or sort of characters. -/
def itemOf : Nat ⊕ ClassItem → ClassItem
  | .inl code => .range code code
  | .inr item => item

/-- The parts of a class up to its closing bracket, and the rest.  The flag tells that a closing
bracket would be the first character. -/
def classItems? [CharacterNames] (ascii : Bool) :
    Nat → Bool → List Token → Option (List ClassItem × List Token)
  | 0, _, _ => none
  | fuel + 1, isFirst, tokens =>
    if tokens.head? = some (.plain ']') && !isFirst then some ([], tokens.drop 1)
    else do
      let (low, rest) ← classAtom? ascii tokens
      match rest with
      | .plain '-' :: .plain ']' :: tail =>
        return ([itemOf low, .range '-'.toNat '-'.toNat], tail)
      | .plain '-' :: rest => do
        let (high, rest) ← classAtom? ascii rest
        match low, high with
        | .inl low, .inl high =>
          if high < low then none
          else do
            let (items, tail) ← classItems? ascii fuel false rest
            return (.range low high :: items, tail)
        | _, _ => none
      | _ => do
        let (items, tail) ← classItems? ascii fuel false rest
        return (itemOf low :: items, tail)

/-- A class behind its opening bracket, and the rest. -/
def class? [CharacterNames] (flags : Flags) (tokens : List Token) :
    Option (Pattern × List Token) :=
  let (negated, tokens) := match tokens with
    | .plain '^' :: rest => (true, rest)
    | _ => (false, tokens)
  (classItems? flags.ascii (tokens.length + 1) true tokens).map fun (items, tail) =>
    (.set flags.casing negated items, tail)

/-! ## Repetition -/

/-- Numbers of turns from here on are too large. -/
def repetitionLimit : Nat := 0xFFFFFFFF

/-- The bounds of a repetition in braces, and the rest; `none` when the brace is a character. -/
def bounds? (tokens : List Token) : Option (Option Nat × Option Nat × List Token) :=
  let value (ds : List Char) := if ds = [] then none else some (number 10 ds)
  let (low, rest) := takePlain isNumeral tokens.length tokens
  match rest with
  | .plain '\x7d' :: tail => if low = [] then none else some (value low, value low, tail)
  | .plain ',' :: rest =>
    match takePlain isNumeral rest.length rest with
    | (high, .plain '\x7d' :: tail) => some (value low, value high, tail)
    | _ => none
  | _ => none

/-- The least and greatest number of turns that a repetition mark asks for, and the rest;
`none` when there is no mark. -/
def mark? : List Token → Option (Nat × Option Nat × List Token)
  | .plain '*' :: rest => some (0, none, rest)
  | .plain '+' :: rest => some (1, none, rest)
  | .plain '?' :: rest => some (0, some 1, rest)
  | .plain '\x7b' :: rest => (bounds? rest).map fun (low, high, tail) => (low.getD 0, high, tail)
  | _ => none

/-- Whether there can be so many turns. -/
def areTurns (least : Nat) (most : Option Nat) : Bool :=
  least < repetitionLimit && most.all fun n => n < repetitionLimit && least ≤ n

/-- The repetition of a part, by the mark behind the number of turns, and the rest. -/
def repetition (body : Pattern) (least : Nat) (most : Option Nat) :
    List Token → Pattern × List Token
  | .plain '?' :: tail => (.loop body least most false, tail)
  | .plain '+' :: tail => (.atomic (.loop body least most true), tail)
  | tokens => (.loop body least most true, tokens)

/-- The last part with its repetition in its place. -/
def repeated? (least : Nat) (most : Option Nat) (rest : List Token) :
    List Item → Option (List Item × List Token)
  | ⟨body, .part⟩ :: items =>
    if areTurns least most then
      let (pattern, rest) := repetition body least most rest
      some (⟨pattern, .repetition⟩ :: items, rest)
    else none
  | _ => none

/-! ## Groups -/

/-- The sort of a group. -/
inductive GroupKind where
  | capture (name : Option (List Char))
  | plain
  | atomic
  | ahead (negated : Bool)
  | behind (negated : Bool)

/-- What an opening parenthesis begins. -/
inductive Opening where
  | comment
  | group (kind : GroupKind) (flags : Flags)
  /-- A reference to a group by its name. -/
  | reference (index : Nat)
  /-- One of two patterns: the first if a group has a text. -/
  | condition (index : Nat) (state : State)

/-- What a condition on the group with a name or a number begins. -/
def condition? (state : State) (name : List Char) : Option Opening := do
  let index ← groupIndex? state.names name
  let state :=
    if isUnicodeIdentifier name then state else { state with wanted := max state.wanted index }
  if index = 0 || (state.beforeBehind.isSome && !state.isClosed index) then none
  else some (.condition index state)

/-- What an opening parenthesis begins, and the rest. -/
def opening? (flags : Flags) (state : State) : List Token → Option (Opening × List Token)
  | .plain '?' :: .plain '#' :: rest => (Flags.afterComment? rest).map fun tail => (.comment, tail)
  | .plain '?' :: .plain ':' :: rest => some (.group .plain flags, rest)
  | .plain '?' :: .plain '>' :: rest => some (.group .atomic flags, rest)
  | .plain '?' :: .plain '=' :: rest => some (.group (.ahead false) flags, rest)
  | .plain '?' :: .plain '!' :: rest => some (.group (.ahead true) flags, rest)
  | .plain '?' :: .plain '<' :: .plain '=' :: rest => some (.group (.behind false) flags, rest)
  | .plain '?' :: .plain '<' :: .plain '!' :: rest => some (.group (.behind true) flags, rest)
  | .plain '?' :: .plain 'P' :: .plain '<' :: rest => do
    let (name, tail) ← name? '>' rest
    if isUnicodeIdentifier name then some (.group (.capture (some name)) flags, tail) else none
  | .plain '?' :: .plain 'P' :: .plain '=' :: rest => do
    let (name, tail) ← name? ')' rest
    let index ← if isUnicodeIdentifier name then state.names.lookup name else none
    return (.reference index, tail)
  | .plain '?' :: .plain '(' :: rest => do
    let (name, tail) ← name? ')' rest
    return (← condition? state name, tail)
  | .plain '?' :: rest => (flags.ofGroup? rest).map fun (inner, tail) => (.group .plain inner, tail)
  | rest => some (.group (.capture none) flags, rest)

/-- The state inside a new group. -/
def State.enter? (state : State) : GroupKind → Option State
  | .capture none => some { state with count := state.count + 1 }
  | .capture (some name) =>
    if (state.names.lookup name).isSome then none
    else some { state with
      count := state.count + 1, names := (name, state.count + 1) :: state.names }
  | .behind _ => some { state with beforeBehind := state.beforeBehind <|> some state.count }
  | _ => some state

/-- The state behind a group, given the ones in front of it and at the end of its body. -/
def State.leave (outer inner : State) (kind : GroupKind) (body : Pattern) : State :=
  match kind with
  | .capture _ =>
    { inner with widths := (outer.count + 1, body.width inner.widths) :: inner.widths }
  | .behind _ => { inner with beforeBehind := outer.beforeBehind }
  | _ => inner

/-- A group around its body.  What stands before a place has one width. -/
def groupPattern? (kind : GroupKind) (outer inner : State) (body : Pattern) : Option Pattern :=
  match kind with
  | .capture _ => some (.group (outer.count + 1) body)
  | .plain => some body
  | .atomic => some (.atomic body)
  | .ahead negated => some (.ahead negated body)
  | .behind negated => do
    let width ← (body.width inner.widths).only?
    if width ≤ repetitionLimit then some (.behind negated width body) else none

/-! ## Patterns -/

/-- What is read next in a sequence of parts. -/
inductive Step where
  /-- The sequence ends here. -/
  | finish
  /-- Nothing or one part more, or a repetition of the last one: the parts behind it and the
  rest. -/
  | next (items : List Item) (rest : List Token)
  /-- A group with its flags. -/
  | group (kind : GroupKind) (inner : Flags) (rest : List Token)
  /-- One of two patterns: the first if a group has a text. -/
  | condition (index : Nat) (state : State) (rest : List Token)

/-- What is read next in a sequence of parts, behind those that are read already. -/
def step? [CharacterNames] (flags : Flags) (state : State) (items : List Item)
    (tokens : List Token) : Option Step :=
  match Flags.skipped? flags.verbose tokens, mark? tokens with
  | some rest, _ => some (.next items rest)
  | none, some (least, most, rest) =>
    (repeated? least most rest items).map fun (items, rest) => .next items rest
  | none, none =>
    match tokens with
    | [] => some .finish
    | .plain '|' :: _ => some .finish
    | .plain ')' :: _ => some .finish
    | .plain '.' :: rest => some (.next (⟨.any flags.dotAll, .part⟩ :: items) rest)
    | .plain '^' :: rest => some (.next (⟨.start flags.multiLine, .place⟩ :: items) rest)
    | .plain '$' :: rest => some (.next (⟨.finish flags.multiLine, .place⟩ :: items) rest)
    | .plain '[' :: rest =>
      (class? flags rest).map fun (pattern, rest) => .next (⟨pattern, .part⟩ :: items) rest
    | .escape c :: rest =>
      (escape? flags state c rest).map fun (item, rest) => .next (item :: items) rest
    | .plain '(' :: rest =>
      (opening? flags state rest).bind fun (opening, rest) =>
        match opening with
        | .comment => some (.next items rest)
        | .reference index =>
          (reference? flags state index).map fun pattern =>
            .next (⟨pattern, .part⟩ :: items) rest
        | .condition index state => some (.condition index state rest)
        | .group kind inner => some (.group kind inner rest)
    | .plain c :: rest => some (.next (⟨.char flags.casing c.toNat, .part⟩ :: items) rest)

/-- What follows a closing parenthesis. -/
def afterClosing? : List Token → Option (List Token)
  | .plain ')' :: rest => some rest
  | _ => none

/-- What a reader finds behind a bar; nothing, where there is no bar. -/
def afterBar? (read? : State → List Token → Option (Pattern × State × List Token))
    (state : State) (tokens : List Token) : Option (Pattern × State × List Token) :=
  match tokens with
  | .plain '|' :: rest => read? state rest
  | _ => some (.empty, state, tokens)

mutual

/-- Alternatives up to a closing parenthesis or the end. -/
def alternatives? [CharacterNames] :
    Nat → Flags → State → List Token → Option (Pattern × State × List Token)
  | 0, _, _, _ => none
  | fuel + 1, flags, state, tokens => do
    let (first, state, rest) ← parts? fuel flags state [] tokens
    match rest with
    | .plain '|' :: rest => do
      let (others, state, rest) ← alternatives? fuel flags state rest
      return (.alt first others, state, rest)
    | _ => return (first, state, rest)

/-- The parts of a sequence up to a bar, a closing parenthesis or the end, behind those that are
read already, the last one first. -/
def parts? [CharacterNames] :
    Nat → Flags → State → List Item → List Token → Option (Pattern × State × List Token)
  | 0, _, _, _, _ => none
  | fuel + 1, flags, state, items, tokens => do
    match ← step? flags state items tokens with
    | .finish => return (sequence items, state, tokens)
    | .next items rest => parts? fuel flags state items rest
    | .group kind inner rest => do
      let (body, left, rest) ← alternatives? fuel inner (← state.enter? kind) rest
      let pattern ← groupPattern? kind state left body
      let rest ← afterClosing? rest
      parts? fuel flags (state.leave left kind body) (⟨pattern, .part⟩ :: items) rest
    | .condition index state rest => do
      let (present, state, rest) ← parts? fuel flags state [] rest
      let (absent, state, rest) ← afterBar? (parts? fuel flags · [] ·) state rest
      let rest ← afterClosing? rest
      parts? fuel flags state (⟨.choice index present absent, .part⟩ :: items) rest

end

end Pattern.Parser

open Pattern in
/-- The pattern that a text writes.  Every group by whose number a condition refers to it is a
group of the pattern. -/
def Regex.parse? [CharacterNames] (text : List Char) : Option Regex := do
  let tokens ← Token.ofText? text
  let (flags, tokens) ← Flags.ofPattern? tokens
  let (pattern, state, rest) ← Parser.alternatives? (2 * tokens.length + 2) flags {} tokens
  if rest = [] && state.wanted ≤ state.count then some ⟨pattern, state.count, state.names⟩ else none

end HeaderApi
