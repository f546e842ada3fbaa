import HeaderApi.Proofs.BracketSearch
import HeaderApi.Proofs.MatchingBraces
import HeaderApi.Proofs.StatementReaders

/-!
# Statements with a braced body

Records and functions are the statements with a braced body.  Their tokens tell from which lines
the body was read.
-/

namespace HeaderApi

open Text Source

namespace Member

/-- What follows the parameters of a function is passed over. -/
theorem exists_functionTail_of_readFunction {head : Head} {parameters : Line}
    {rest left : List Line} {statement : Statement}
    (h : readFunction head parameters rest = .ok (statement, left)) :
    ∃ list below, Block.enclosed '(' ')' 1 parameters rest = some (list, below) ∧
      Block.functionTail below list.trailer below = .ok left := by
  rw [readFunction] at h
  obtain ⟨⟨list, below⟩, hlist, h⟩ := exists_ok_of_bind h
  obtain ⟨left', htail, h⟩ := exists_ok_of_bind h
  cases h
  exact ⟨list, below, Block.exists_parenthesized hlist, htail⟩

end Member

namespace Record

/-- The body of a record lies between the first opening brace of its line and the last closing brace
of the line where the block ends. -/
theorem exists_block_of_readBody {opening : Opening} {base : List Char} {here rest left : List Line}
    {raw : Line} {number : Int} {statement : Statement}
    (h : readBody opening base here raw number rest = .ok (statement, left)) :
    ∃ inside passed inner tail, Block.openBraces here raw rest = .ok (inside, passed, left) ∧
      cutAtLast '\x7d' (passed.getLast?.getD inside) = some (inner, tail) ∧
      statement = .record ⟨opening.kind, String.ofList (finalName opening tail), String.ofList base,
        (bodyFrom inner passed number).1, (bodyFrom inner passed number).2⟩ := by
  rw [readBody] at h
  obtain ⟨⟨inside, passed, left'⟩, hopen, h⟩ := exists_ok_of_bind h
  dsimp only at h
  split at h
  · cases h
  · rename_i inner tail hcut
    cases h
    exact ⟨inside, passed, inner, tail, hopen, hcut, rfl⟩

/-- A record is read from the line that opens its body: the line of the statement, or the one that
the search finds. -/
theorem exists_readBody_of_read {opening : Opening} {raw : Line} {number : Int}
    {rest left : List Line} {head : RecordHead}
    (h : read opening raw number rest = .ok (.record head, left)) :
    (opening.opens = true ∧
      readBody opening opening.base rest raw number rest = .ok (.record head, left)) ∨
    opening.opens = false ∧ ∃ line here,
      findBody opening.name opening.base rest 0 rest = .ok (some line, here) ∧
      readBody opening line.base here line.raw (number + 1 + line.offset) line.rest =
        .ok (.record head, left) := by
  rw [read] at h
  split at h
  · rename_i hopens
    exact .inl ⟨hopens, h⟩
  · rename_i hopens
    obtain ⟨⟨found, here⟩, hfind, h⟩ := exists_ok_of_bind h
    cases found with
    | none => cases h
    | some line => exact .inr ⟨Bool.eq_false_iff.2 hopens, line, here, hfind, h⟩

end Record

namespace Token

variable {mode : Mode} {c : Cursor} {next : Advance}

/-- A function token comes from the parameters that its line opens and what follows them. -/
theorem exists_functionTail_of_step {function : FunctionHead} (h : step mode c = .ok next)
    (hfunction : next.token.statement = .function function) :
    ∃ raw rest head parameters list below left, skipBlankLines c.rest = raw :: rest ∧
      Member.head? (Member.dropAttributes (trim raw)) = some head ∧
      trimStart head.rest = '(' :: parameters ∧
      Block.enclosed '(' ')' 1 parameters rest = some (list, below) ∧
      Block.functionTail below list.trailer below = .ok left ∧ next.StopsAt c left := by
  obtain ⟨raw, rest, left, hskip, horigin, hstops⟩ :=
    exists_origin_of_step h (by rw [hfunction]; rfl)
  rw [hfunction] at horigin
  cases horigin with
  | function _ hmember hparameters hread =>
    obtain ⟨list, below, hlist, htail⟩ := Member.exists_functionTail_of_readFunction hread
    exact ⟨raw, rest, _, _, list, below, left, hskip, hmember, hparameters, hlist, htail, hstops⟩

/-- A record token comes from an opening line and the body that it or a later line begins. -/
theorem exists_record_of_step {head : RecordHead} (h : step mode c = .ok next)
    (hrecord : next.token.statement = .record head) :
    ∃ raw rest opening left, skipBlankLines c.rest = raw :: rest ∧
      Record.opening? (trim raw) = some opening ∧
      Record.read opening raw (c.moveTo (raw :: rest)).line rest = .ok (.record head, left) ∧
      next.StopsAt c left := by
  obtain ⟨raw, rest, left, hskip, horigin, hstops⟩ :=
    exists_origin_of_step h (by rw [hrecord]; rfl)
  rw [hrecord] at horigin
  cases horigin with
  | record hopening hread => exact ⟨raw, rest, _, left, hskip, hopening, hread, hstops⟩

end Token

end HeaderApi
