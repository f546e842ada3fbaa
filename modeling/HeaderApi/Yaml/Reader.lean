import HeaderApi.Yaml.Scalar

/-!
# Reading YAML

A reader for texts that hold one document of block and flow lists and tables with plain, quoted
and block scalars.  Anchors, tags, directives and keys that are not scalars are refused.
-/

namespace HeaderApi.Yaml

/-- A scalar on its own or as a key. -/
inductive Scalar where
  | plain (cs : List Char)
  | quoted (cs : List Char)
  deriving DecidableEq, Repr, Inhabited

namespace Scalar

/-- The value of a scalar; one that stands for an operation has none. -/
def value? : Scalar → Option Value
  | .quoted cs => some (.text (String.ofList cs))
  | .plain cs =>
    if Plain.isReserved cs then none
    else some ((Plain.value? cs).getD (.text (String.ofList cs)))

/-- The value of a scalar as a key. -/
def key? : Scalar → Option Value
  | .plain ['='] => some (.text "=")
  | s => s.value?

/-- The scalar at a place in a block whose column is `parent`, and the place behind it. -/
def read? (flow : Bool) (parent : Int) (p : Place) : Option (Scalar × Place) :=
  if p.rest.head? = some '\'' || p.rest.head? = some '"' then
    (Quoted.text p).map fun (cs, q) => (.quoted cs, q)
  else if Plain.starts flow p.rest then
    let (cs, q) := Plain.text flow parent p
    some (.plain cs, q)
  else none

end Scalar

/-- The longest key. -/
def keyLimit : Nat := 1024

/-- The place behind the colon that makes a key of what stands between two places.  A key stands
on one line. -/
def keyEnd? (flow : Bool) (p q : Place) : Option Place :=
  let r := q.skip
  let isColon := if flow then r.rest.head? = some ':' else r.atIndicator ':'
  if isColon && r.line = p.line && p.rest.length - r.rest.length ≤ keyLimit then
    some (r.pastIndicator false)
  else none

/-! ## Flow collections -/

mutual

/-- A value inside a flow collection.  The fuel bounds the number of nested reads. -/
def flowValue : Nat → Place → Option (Value × Place)
  | 0, _ => none
  | fuel + 1, p =>
    if p.atMarker then none
    else
      match p.rest with
      | '[' :: _ => (flowItems fuel (p.pastIndicator false)).map fun (items, q) => (.list items, q)
      | '\x7b' :: _ =>
        (flowFields fuel (p.pastIndicator false)).map fun (pairs, q) => (.ofPairs pairs, q)
      | _ => do
        let (scalar, q) ← Scalar.read? true 0 p
        return (← scalar.value?, q)

/-- The value behind a key; it may be left out. -/
def flowContent : Nat → Place → Option (Value × Place)
  | 0, _ => none
  | fuel + 1, p =>
    match p.skip.rest with
    | ',' :: _ | ']' :: _ | '\x7d' :: _ => some (.null, p.skip)
    | _ => flowValue fuel p.skip

/-- The items of a list up to its closing bracket.  A key and its value are a table. -/
def flowItems : Nat → Place → Option (List Value × Place)
  | 0, _ => none
  | fuel + 1, p =>
    let p := p.skip
    if p.rest.head? = some ']' then some ([], p.pastIndicator false)
    else do
      let (item, q) ← flowItem fuel p
      let q := q.skip
      match q.rest with
      | ',' :: _ => do
        let (items, r) ← flowItems fuel (q.pastIndicator false)
        return (item :: items, r)
      | ']' :: _ => return ([item], q.pastIndicator false)
      | _ => none

/-- One item of a list. -/
def flowItem : Nat → Place → Option (Value × Place)
  | 0, _ => none
  | fuel + 1, p =>
    match p.rest with
    | '[' :: _ | '\x7b' :: _ => do
      let (value, q) ← flowValue fuel p
      if (keyEnd? true p q).isSome then none else return (value, q)
    | _ =>
      if p.atMarker then none
      else do
        let (scalar, q) ← Scalar.read? true 0 p
        match keyEnd? true p q with
        | some r => do
          let (value, r) ← flowContent fuel r
          return (.ofPairs [(← scalar.key?, value)], r)
        | none => return (← scalar.value?, q)

/-- The fields of a table up to its closing brace.  A key without a colon has no value. -/
def flowFields : Nat → Place → Option (List (Value × Value) × Place)
  | 0, _ => none
  | fuel + 1, p =>
    let p := p.skip
    if p.rest.head? = some '\x7d' then some ([], p.pastIndicator false)
    else if p.atMarker then none
    else do
      let (scalar, q) ← Scalar.read? true 0 p
      let key ← scalar.key?
      let (value, q) ← match keyEnd? true p q with
        | some r => flowContent fuel r
        | none => some (.null, q)
      let q := q.skip
      match q.rest with
      | ',' :: _ => do
        let (pairs, r) ← flowFields fuel (q.pastIndicator false)
        return ((key, value) :: pairs, r)
      | '\x7d' :: _ => return ([(key, value)], q.pastIndicator false)
      | _ => none

end

/-! ## Block collections -/

/-- What follows an entry of a block at a column. -/
inductive Next where
  | entry
  | done
  | misplaced
  deriving DecidableEq, Repr, Inhabited

/-- Whether another entry of the block at a column follows. -/
def Place.next (column : Nat) (p : Place) : Next :=
  if p.atEnd then .done
  else if !p.fresh then .misplaced
  else if p.column < column then .done
  else if p.column = column then .entry
  else .misplaced

/-- The key at a place and the place behind its colon.  The key may be left out. -/
def blockKey (p : Place) : Option (Value × Place) :=
  if p.atIndicator ':' then some (.null, p.pastIndicator true)
  else do
    let (scalar, q) ← Scalar.read? false p.column p
    return (← scalar.key?, ← keyEnd? false p q)

mutual

/-- The value at a place that lies deeper than the column `parent` of the block around it. -/
def blockValue : Nat → Int → Place → Option (Value × Place)
  | 0, _, _ => none
  | fuel + 1, parent, p =>
    if p.atIndicator '-' then
      if p.fresh then (blockItems fuel p.column false p).map fun (items, q) => (.list items, q)
      else none
    else if p.atIndicator ':' then blockTable fuel p
    else
      match p.rest with
      | '|' :: _ | '>' :: _ =>
        (Block.text parent p).map fun (cs, q) => (.text (String.ofList cs), q)
      | '[' :: _ | '\x7b' :: _ => do
        let (value, q) ← flowValue fuel p
        if (keyEnd? false p q).isSome then none else return (value, q)
      | _ => do
        let (scalar, q) ← Scalar.read? false parent p
        if (keyEnd? false p q).isSome then blockTable fuel p
        else return (← scalar.value?, q)

/-- The table that begins at a place. -/
def blockTable : Nat → Place → Option (Value × Place)
  | 0, _ => none
  | fuel + 1, p =>
    if p.fresh then (blockFields fuel p.column p).map fun (pairs, q) => (.ofPairs pairs, q)
    else none

/-- The items of a list at a column.  A list that stands at the column of the key in front of it
also ends where the next key begins. -/
def blockItems : Nat → Nat → Bool → Place → Option (List Value × Place)
  | 0, _, _, _ => none
  | fuel + 1, column, underKey, p => do
    let q := (p.pastIndicator true).skip
    let (item, q) ← if q.atEnd || q.column ≤ column then some (.null, q)
      else blockValue fuel column q
    let q := q.skip
    match q.next column with
    | .done => return ([item], q)
    | .misplaced => none
    | .entry =>
      if q.atIndicator '-' then do
        let (items, r) ← blockItems fuel column underKey q
        return (item :: items, r)
      else if underKey then return ([item], q)
      else none

/-- The fields of a table at a column. -/
def blockFields : Nat → Nat → Place → Option (List (Value × Value) × Place)
  | 0, _, _ => none
  | fuel + 1, column, p => do
    let (key, q) ← blockKey p
    let (value, q) ← blockContent fuel column q.skip
    let q := q.skip
    match q.next column with
    | .done => return ([(key, value)], q)
    | .misplaced => none
    | .entry => do
      let (pairs, r) ← blockFields fuel column q
      return ((key, value) :: pairs, r)

/-- The value behind a key at a column: something deeper, a list at the same column, or
nothing. -/
def blockContent : Nat → Nat → Place → Option (Value × Place)
  | 0, _, _ => none
  | fuel + 1, column, p =>
    if p.atEnd then some (.null, p)
    else if column < p.column then blockValue fuel column p
    else if p.column = column && p.atIndicator '-' then
      (blockItems fuel column true p).map fun (items, q) => (.list items, q)
    else some (.null, p)

end

/-! ## Documents -/

/-- The place behind a marker. -/
def Place.pastMarker (p : Place) : Place := p.past (p.rest.take 3) (p.rest.drop 3)

/-- Whether nothing but marks of the document's end follow.  The fuel bounds their number. -/
def isFinished : Nat → Place → Bool
  | 0, _ => false
  | fuel + 1, p =>
    let p := p.skip
    p.rest = [] || (p.atMarker && p.rest.head? = some '.' && isFinished fuel p.pastMarker)

/-- The content of a document that begins at a place, and the place behind it. -/
def document (fuel : Nat) (p : Place) : Option (Value × Place) :=
  if p.atMarker then
    if p.rest.head? = some '-' then
      let q := p.pastMarker.skip
      if q.atEnd then some (.null, q) else blockValue fuel (-1) q
    else none
  else blockValue fuel (-1) p

/-- The value of a text that holds at most one document; without one it is null. -/
def parse? (text : List Char) : Option Value :=
  if text.all isAllowed then
    let p := (Place.start text).skip
    if p.rest = [] then some .null
    else
      match document (3 * text.length + 3) p with
      | some (value, q) => if isFinished (text.length + 1) q then some value else none
      | none => none
  else none

end HeaderApi.Yaml
