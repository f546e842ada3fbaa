import HeaderApi.Header.Builder
import HeaderApi.Proofs.Texts

/-!
# What readers leave

A reader takes lines from the front of the lines behind the current one and leaves an end of
them.  When it fails, the source lacks something: no mark that a reader looks up is missing.  The
body of a record lies between the current line and the lines that are left, and it is smaller than
what was read.
-/

namespace HeaderApi

open Text Source

/-! ## Outcomes of readers -/

/-- A result with the given property, or a malformation of the source. -/
def Yields {α : Type} (P : α → Prop) : Except Fault α → Prop
  | .ok a => P a
  | .error fault => fault.cause.isOfSource = true

namespace Yields

variable {α β : Type} {P : α → Prop} {Q : β → Prop} {x : Except Fault α}

theorem imp {P' : α → Prop} (h : Yields P x) (himp : ∀ a, P a → P' a) : Yields P' x := by
  cases x with
  | error fault => exact h
  | ok a => exact himp a h

/-- A step behind a result yields what it yields for every such result. -/
theorem bind {f : α → Except Fault β} (h : Yields P x) (hf : ∀ a, P a → Yields Q (f a)) :
    Yields Q (x >>= f) := by
  cases x with
  | error fault => exact h
  | ok a => exact hf a h

/-- What is made of a result has a property that follows from that of the result. -/
theorem map {f : α → β} (h : Yields P x) (hf : ∀ a, P a → Q (f a)) : Yields Q (x.map f) := by
  cases x with
  | error fault => exact h
  | ok a => exact hf a h

end Yields

/-! ## Characters of trimmed text and of code -/

/-- The characters of a trimmed text come from the text. -/
theorem Text.mem_of_mem_trim {c : Char} {cs : List Char} (h : c ∈ trim cs) : c ∈ cs := by
  obtain ⟨tail, htail, -⟩ := dropEndWhile_append isBlank (trimStart cs)
  have hstart : c ∈ trimStart cs := by
    rw [htail]
    exact List.mem_append_left tail h
  exact (List.dropWhile_suffix isBlank).subset hstart

/-- Code is made of characters of the line. -/
theorem Source.mem_of_mem_stripFrom {c : Char} (region : Region) (cs : List Char)
    (h : c ∈ (stripFrom region cs).1) : c ∈ cs := by
  fun_induction stripFrom region cs <;> grind

theorem Source.mem_of_mem_strip {c : Char} {line : List Char} {inComment : Bool}
    (h : c ∈ (strip line inComment).1) : c ∈ line :=
  mem_of_mem_stripFrom _ line h

/-- A cut at the last mark splits the text there. -/
theorem Text.cutAtLast_eq_some {mark : Char} {cs before rest : List Char}
    (h : cutAtLast mark cs = some (before, rest)) : cs = before ++ mark :: rest := by
  obtain ⟨⟨first, last⟩, hcut, heq⟩ := Option.map_eq_some_iff.1 h
  obtain ⟨hsplit, -⟩ := cutAt_eq_some_iff.1 hcut
  obtain ⟨rfl, rfl⟩ := Prod.mk.inj heq
  rw [← List.reverse_inj, hsplit]
  simp

/-- A mark that stands in a text can be cut at. -/
theorem Text.exists_cutAt {mark : Char} {cs : List Char} (h : mark ∈ cs) :
    ∃ before rest, cutAt mark cs = some (before, rest) := by
  induction cs with
  | nil => simp at h
  | cons c cs ih =>
    by_cases hc : c = mark
    · exact ⟨[], cs, by simp [cutAt, hc]⟩
    · have hmem : mark ∈ cs := by
        rcases List.mem_cons.1 h with h | h
        · exact absurd h.symm hc
        · exact h
      obtain ⟨before, rest, hcut⟩ := ih hmem
      exact ⟨c :: before, rest, by simp [cutAt, hc, hcut]⟩

/-- A text with a mark can be cut at the last one. -/
theorem Text.exists_cutAtLast {mark : Char} {cs : List Char} (h : mark ∈ cs) :
    ∃ before rest, cutAtLast mark cs = some (before, rest) := by
  obtain ⟨before, rest, hcut⟩ := exists_cutAt (List.mem_reverse.2 h)
  exact ⟨rest.reverse, before.reverse, by simp [cutAtLast, hcut]⟩

/-- A character at the beginning is in the text. -/
theorem Text.mem_of_startsWith {c : Char} {cs : List Char} (h : startsWith [c] cs = true) :
    c ∈ cs := by
  obtain ⟨rest, rfl⟩ := startsWith_iff.1 h
  exact List.mem_cons_self

theorem Text.mem_of_endsWith {c : Char} {cs : List Char} (h : endsWith [c] cs = true) : c ∈ cs :=
  List.mem_reverse.1 (mem_of_startsWith h)

theorem Text.suffix_of_after? {opening cs rest : List Char} (h : after? opening cs = some rest) :
    rest <:+ cs :=
  ⟨opening, (after?_eq_some_iff.1 h).symm⟩

/-- What follows blanks is an end of the text. -/
theorem Text.suffix_of_afterBlanks? {cs rest : List Char} (h : afterBlanks? cs = some rest) :
    rest <:+ cs := by
  cases cs with
  | nil => cases h
  | cons c cs =>
    rw [afterBlanks?] at h
    split at h
    · obtain rfl := Option.some.inj h
      exact (List.dropWhile_suffix isBlank).trans (List.suffix_cons c cs)
    · cases h

/-! ## Lines of comments and directives -/

/-- Line comments leave an end of the lines. -/
theorem Comment.takeLineComments_suffix (isDoc : Bool) (rest : List Line) :
    (takeLineComments isDoc rest).2 <:+ rest := by
  induction rest with
  | nil => exact List.suffix_rfl
  | cons raw rest ih =>
    rw [takeLineComments]
    split
    · exact List.suffix_rfl
    · exact ih.trans (List.suffix_cons raw rest)

/-- The texts of a block comment leave an end of the lines. -/
theorem Comment.blockTexts_yields (text : Line) (rest : List Line) :
    Yields (fun r => r.2 <:+ rest) (blockTexts text rest) := by
  induction rest generalizing text with
  | nil =>
    rw [blockTexts]
    split
    · exact List.suffix_rfl
    · exact rfl
  | cons next rest ih =>
    rw [blockTexts]
    split
    · exact List.suffix_rfl
    · exact (ih next).map fun r hr => hr.trans (List.suffix_cons next rest)

/-- A directive leaves an end of the lines. -/
theorem Directive.continuation_suffix (line : Line) (rest : List Line) :
    (continuation line rest).2 <:+ rest := by
  induction rest generalizing line with
  | nil => exact List.suffix_rfl
  | cons raw rest ih =>
    rw [continuation]
    split
    · exact (ih (trim raw)).trans (List.suffix_cons raw rest)
    · exact List.suffix_rfl

/-! ## Bracketed lists -/

/-- What brackets enclose leaves an end of the lines. -/
theorem Block.enclosed_suffix {opening closing : Char} {depth : Int} {text : Line}
    {rest left : List Line} {list : Block.Enclosed}
    (h : Block.enclosed opening closing depth text rest = some (list, left)) : left <:+ rest := by
  induction rest generalizing depth text list with
  | nil =>
    rw [Block.enclosed] at h
    split at h
    · obtain ⟨-, rfl⟩ := Prod.mk.inj (Option.some.inj h)
      exact List.suffix_rfl
    · cases h
  | cons next rest ih =>
    rw [Block.enclosed] at h
    split at h
    · obtain ⟨-, rfl⟩ := Prod.mk.inj (Option.some.inj h)
      exact List.suffix_rfl
    · obtain ⟨⟨later, left'⟩, hlater, heq⟩ := Option.map_eq_some_iff.1 h
      obtain ⟨-, rfl⟩ := Prod.mk.inj heq
      exact (ih hlater).trans (List.suffix_cons next rest)

/-- A list in parentheses leaves an end of the lines. -/
theorem Block.parenthesized_yields (text : Line) (rest : List Line) :
    Yields (fun r => r.2 <:+ rest) (Block.parenthesized text rest) := by
  rw [Block.parenthesized]
  split
  · rename_i r hr
    exact Block.enclosed_suffix hr
  · exact rfl

/-! ## Braced bodies -/

/-- Code that brings the brace depth to zero has a closing brace. -/
theorem Block.mem_of_braceDepth_eq_none {depth : Int} {code : List Char}
    (h : Block.braceDepth depth code = none) : '\x7d' ∈ code := by
  fun_induction Block.braceDepth depth code <;> simp_all

/-- A braced block ends on a line with a closing brace, and its further lines are those before the
lines left. -/
theorem Block.braces_spec {depth : Int} {inComment : Bool} {text : Line}
    {rest passed left : List Line}
    (h : Block.braces depth inComment text rest = some (passed, left)) :
    rest = passed ++ left ∧ '\x7d' ∈ passed.getLast?.getD text := by
  induction rest generalizing depth inComment text passed with
  | nil =>
    rw [Block.braces] at h
    split at h
    · rename_i hnone
      obtain ⟨rfl, rfl⟩ := Prod.mk.inj (Option.some.inj h)
      exact ⟨rfl, mem_of_mem_strip (Block.mem_of_braceDepth_eq_none hnone)⟩
    · cases h
  | cons next rest ih =>
    rw [Block.braces] at h
    split at h
    · rename_i hnone
      obtain ⟨rfl, rfl⟩ := Prod.mk.inj (Option.some.inj h)
      exact ⟨rfl, mem_of_mem_strip (Block.mem_of_braceDepth_eq_none hnone)⟩
    · obtain ⟨⟨later, left'⟩, hlater, heq⟩ := Option.map_eq_some_iff.1 h
      obtain ⟨rfl, rfl⟩ := Prod.mk.inj heq
      obtain ⟨hrest, hmem⟩ := ih hlater
      refine ⟨by rw [hrest, List.cons_append], ?_⟩
      rw [List.getLast?_cons, Option.getD_some]
      exact hmem

/-- What passing over the block of a text with an opening brace gives: the text behind its first
opening brace, the further lines of the block, and the lines left. -/
structure Block.Passed (text : Line) (rest : List Line) (r : Line × List Line × List Line) :
    Prop where
  text_eq : ∃ before, text = before ++ '\x7b' :: r.1
  rest_eq : rest = r.2.1 ++ r.2.2
  closes : '\x7d' ∈ r.2.1.getLast?.getD r.1

/-- A block that is open on a line passes some of the lines and ends with a closing brace. -/
theorem Block.openBraces_yields {here : List Line} {text : Line} (rest : List Line)
    (h : '\x7b' ∈ text) : Yields (Block.Passed text rest) (Block.openBraces here text rest) := by
  obtain ⟨before, inside, hcut⟩ := exists_cutAt h
  rw [Block.openBraces, hcut]
  dsimp only
  split
  · rename_i passed left hbraces
    obtain ⟨hrest, hmem⟩ := Block.braces_spec hbraces
    refine ⟨⟨before, (cutAt_eq_some_iff.1 hcut).1⟩, hrest, ?_⟩
    -- the brace that opens the block is no closing one
    cases hlast : passed.getLast? with
    | none =>
      rw [hlast] at hmem
      exact (List.mem_cons.1 hmem).resolve_left (by decide)
    | some line => rwa [hlast] at hmem
  · exact rfl

/-- A block leaves an end of the lines. -/
theorem Block.afterBraces_yields {here : List Line} {text : Line} {rest : List Line}
    (h : '\x7b' ∈ text) :
    Yields (fun left => left <:+ rest) (Block.afterBraces here text rest) := by
  rw [Block.afterBraces]
  refine (Block.openBraces_yields rest h).map ?_
  rintro ⟨inside, passed, left⟩ ⟨-, hrest, -⟩
  exact ⟨passed, hrest.symm⟩

/-! ## What follows a function's parameters -/

/-- A line that opens a body has an opening brace. -/
theorem Block.mem_of_opensBody {text : Line} (h : Block.opensBody text = true) :
    '\x7b' ∈ text := by
  rcases Bool.or_eq_true_iff.1 h with h | h
  · exact mem_of_startsWith h
  · exact mem_of_endsWith h

/-- The brace of an initializer stands on its line, and an end of the lines is left. -/
theorem Block.initializerBrace_spec {text line : Line} {rest left : List Line}
    (h : Block.initializerBrace text rest = some (line, left)) : '\x7b' ∈ line ∧ left <:+ rest := by
  induction rest generalizing text with
  | nil =>
    rw [Block.initializerBrace] at h
    split at h
    · rename_i hopens
      obtain ⟨rfl, rfl⟩ := Prod.mk.inj (Option.some.inj h)
      exact ⟨Block.mem_of_opensBody hopens, List.suffix_rfl⟩
    · cases h
  | cons next rest ih =>
    rw [Block.initializerBrace] at h
    split at h
    · rename_i hopens
      obtain ⟨rfl, rfl⟩ := Prod.mk.inj (Option.some.inj h)
      exact ⟨Block.mem_of_opensBody hopens, List.suffix_rfl⟩
    · obtain ⟨hmem, hleft⟩ := ih h
      exact ⟨hmem, hleft.trans (List.suffix_cons next rest)⟩

/-- What follows a function's parameters ends inside the lines from `here` on. -/
theorem Block.functionTail_yields (here : List Line) (text : Line) (rest : List Line)
    (hrest : rest <:+ here) :
    Yields (fun left => left <:+ here) (Block.functionTail here text rest) := by
  induction rest generalizing here text with
  | nil =>
    rw [Block.functionTail]
    split
    · rename_i hbrace
      exact Block.afterBraces_yields (List.contains_iff_mem.1 hbrace)
    · exact List.suffix_rfl
  | cons raw rest ih =>
    have htail : rest <:+ here := (List.suffix_cons raw rest).trans hrest
    rw [Block.functionTail]
    split
    · rename_i hbrace
      exact Block.afterBraces_yields (List.contains_iff_mem.1 hbrace)
    · split
      · exact List.suffix_rfl
      · dsimp only
        split
        · exact ih here text htail
        -- the next line decides: a body, an initializer list, a qualifier, or another declaration
        · split
          · rename_i hopens
            exact (Block.afterBraces_yields (mem_of_startsWith hopens)).imp
              fun left hleft => hleft.trans htail
          · split
            · split
              · rename_i line left hline
                obtain ⟨hmem, hleft⟩ := Block.initializerBrace_spec hline
                exact (Block.afterBraces_yields hmem).imp
                  fun left' hleft' => (hleft'.trans hleft).trans htail
              · exact rfl
            · split
              · exact (ih rest _ List.suffix_rfl).imp fun left hleft => hleft.trans htail
              · exact List.suffix_rfl

/-! ## Statements that are passed over -/

/-- A statement leaves an end of the lines. -/
theorem Block.statement_yields (depth : Int) (text : List Char) (rest : List Line) :
    Yields (fun left => left <:+ rest) (Block.statement depth text rest) := by
  induction rest generalizing depth text with
  | nil =>
    rw [Block.statement]
    split
    · exact List.suffix_rfl
    · exact rfl
  | cons next rest ih =>
    rw [Block.statement]
    split
    · exact List.suffix_rfl
    · exact (ih _ _).imp fun left hleft => hleft.trans (List.suffix_cons next rest)

/-- An initializer leaves an end of the lines. -/
theorem Block.initializer_yields (depth : Int) (inComment : Bool) (rest : List Line) :
    Yields (fun r => r.2 <:+ rest) (Block.initializer depth inComment rest) := by
  induction rest generalizing depth inComment with
  | nil => exact rfl
  | cons next rest ih =>
    rw [Block.initializer]
    dsimp only
    split
    · exact List.suffix_cons next rest
    · exact (ih _ _).map fun r hr => hr.trans (List.suffix_cons next rest)

/-! ## The size of lines -/

namespace Header

@[simp] theorem weight_nil : weight [] = 0 := rfl

@[simp] theorem weight_cons (line : Line) (lines : List Line) :
    weight (line :: lines) = line.length + 1 + weight lines := by
  rw [weight, List.flatMap_cons, List.length_append, List.length_append, List.length_singleton,
    ← weight]

@[simp] theorem weight_append (first second : List Line) :
    weight (first ++ second) = weight first + weight second := by
  simp [weight]

/-- Lines without the last one weigh no more. -/
theorem weight_dropLast_le (lines : List Line) : weight lines.dropLast ≤ weight lines := by
  rcases List.eq_nil_or_concat lines with rfl | ⟨init, last, rfl⟩
  · exact Nat.le_refl _
  · rw [List.concat_eq_append, List.dropLast_concat, weight_append]
    omega

/-- An end of some lines weighs no more than they do. -/
theorem weight_le_of_suffix {left rest : List Line} (h : left <:+ rest) :
    weight left ≤ weight rest := by
  obtain ⟨taken, rfl⟩ := h
  rw [weight_append]
  omega

end Header

/-! ## Bodies of records -/

/-- The body of a record lies between the line `raw`, which has the given number, and the lines
that are left of those behind it, and it is smaller than `raw` and the lines behind it. -/
structure RecordHead.Within (raw : Line) (number : Int) (rest left : List Line)
    (head : RecordHead) : Prop where
  begin_ge : number ≤ head.bodyBegin
  end_le : head.bodyBegin + head.body.length + left.length ≤ number + 1 + rest.length
  lighter : Header.weight head.body < Header.weight (raw :: rest)

/-- A body that begins behind some further lines. -/
theorem RecordHead.Within.behind {raw line : Line} {number : Int} {skipped rest left : List Line}
    {head : RecordHead} (h : head.Within line (number + 1 + skipped.length) rest left) :
    head.Within raw number (skipped ++ line :: rest) left := by
  obtain ⟨hbegin, hend, hlight⟩ := h
  refine ⟨by omega, ?_, ?_⟩
  · simp only [List.length_append, List.length_cons]
    omega
  · simp only [Header.weight_cons, Header.weight_append] at hlight ⊢
    omega

/-- A statement and the lines left after it fit the lines from which they were read. -/
structure Statement.Fits (raw : Line) (number : Int) (rest : List Line) (statement : Statement)
    (left : List Line) : Prop where
  suffix : left <:+ rest
  ne_eof : statement ≠ .eof
  within : ∀ head, statement = .record head → head.Within raw number rest left

section Fits

variable {raw : Line} {number : Int} {rest left : List Line}

/-- A statement that is no record fits as soon as it leaves an end of the lines. -/
theorem Statement.Fits.plain {statement : Statement} (hleft : left <:+ rest)
    (heof : statement ≠ .eof) (hrecord : ∀ head, statement ≠ .record head) :
    statement.Fits raw number rest left :=
  ⟨hleft, heof, fun head h => absurd h (hrecord head)⟩

/-! ## Records -/

/-- The body of a record lies between its braces, and weighs less than its lines. -/
theorem Record.bodyFrom_within {kind : RecordKind} {name base : String} {before inside inner : Line}
    {tail : List Char} {passed : List Line}
    (hraw : raw = before ++ '\x7b' :: inside) (hrest : rest = passed ++ left)
    (hcut : passed.getLast?.getD inside = inner ++ '\x7d' :: tail) :
    (⟨kind, name, base, (Record.bodyFrom inner passed number).1,
      (Record.bodyFrom inner passed number).2⟩ : RecordHead).Within raw number rest left := by
  cases passed with
  | nil =>
    -- the body is a piece of the opening line, which has its two braces besides
    have hinside : inside = inner ++ '\x7d' :: tail := hcut
    have hlength : inner.length + 2 ≤ raw.length := by
      rw [hraw, hinside]
      simp only [List.length_append, List.length_cons]
      omega
    rw [List.nil_append] at hrest
    subst hrest
    unfold Record.bodyFrom
    refine ⟨Int.le_refl _, ?_, ?_⟩
    · dsimp only
      split
      · simp only [List.length_nil]
        omega
      · simp only [List.length_singleton]
        omega
    · dsimp only
      split
      · simp only [Header.weight_nil, Header.weight_cons]
        omega
      · simp only [Header.weight_nil, Header.weight_cons]
        omega
  | cons line lines =>
    -- the body is whole lines, and the opening line is not among them
    have hlight := Header.weight_dropLast_le (line :: lines)
    subst hrest
    unfold Record.bodyFrom
    refine ⟨by dsimp only; omega, ?_, ?_⟩
    · simp only [List.length_dropLast, List.length_cons, List.length_append]
      omega
    · simp only [Header.weight_cons, Header.weight_append] at hlight ⊢
      omega

/-- The body that a line with an opening brace begins. -/
theorem Record.readBody_yields (opening : Record.Opening) (base : List Char) (here : List Line)
    (hbrace : '\x7b' ∈ raw) :
    Yields (fun r => r.1.Fits raw number rest r.2)
      (Record.readBody opening base here raw number rest) := by
  rw [Record.readBody]
  refine (Block.openBraces_yields rest hbrace).bind ?_
  rintro ⟨inside, passed, left⟩ ⟨⟨before, hraw⟩, hrest, hcloses⟩
  dsimp only at hraw hrest hcloses ⊢
  obtain ⟨inner, tail, hcut⟩ := exists_cutAtLast hcloses
  rw [hcut]
  refine ⟨⟨passed, hrest.symm⟩, nofun, ?_⟩
  rintro head ⟨⟩
  exact Record.bodyFrom_within hraw hrest (cutAtLast_eq_some hcut)

/-- The search for the line that opens a body: the lines left when it ends, and the line, which
stands behind the lines skipped since the search had passed `offset` lines. -/
structure Record.Found (here : List Line) (offset : Nat) (rest : List Line)
    (r : Option Record.BodyLine × List Line) : Prop where
  suffix : r.2 <:+ here
  line : ∀ line, r.1 = some line → '\x7b' ∈ line.raw ∧
    ∃ skipped, rest = skipped ++ line.raw :: line.rest ∧ line.offset = offset + skipped.length

/-- One more line is skipped. -/
theorem Record.Found.cons {here here' : List Line} {offset : Nat} {line : Line}
    {r : Option Record.BodyLine × List Line} (h : Record.Found here' (offset + 1) rest r)
    (hhere : here' <:+ here) : Record.Found here offset (line :: rest) r := by
  refine ⟨h.suffix.trans hhere, fun found hfound => ?_⟩
  obtain ⟨hbrace, skipped, hrest, hoffset⟩ := h.line found hfound
  refine ⟨hbrace, line :: skipped, by rw [hrest, List.cons_append], ?_⟩
  rw [List.length_cons]
  omega

/-- The line that opens a body is one of the lines, counted from the first. -/
theorem Record.findBody_yields (name base : List Char) (here : List Line) (offset : Nat)
    (hrest : rest <:+ here) :
    Yields (Record.Found here offset rest) (Record.findBody name base here offset rest) := by
  -- Behind the line of a base the search gives up at the lines that follow it, not at `here`.
  induction rest generalizing base here offset with
  | nil => exact rfl
  | cons line rest ih =>
    have htail : rest <:+ here := (List.suffix_cons line rest).trans hrest
    rw [Record.findBody]
    dsimp only
    split
    · exact (ih base here (offset + 1) htail).imp fun r hr => hr.cons List.suffix_rfl
    · split
      · split
        · rename_i hends
          refine ⟨htail, ?_⟩
          rintro found ⟨⟩
          exact ⟨mem_of_mem_trim (mem_of_endsWith hends), [], rfl, rfl⟩
        · exact (ih _ rest (offset + 1) List.suffix_rfl).imp fun r hr => hr.cons htail
      · split
        · rename_i hstarts
          refine ⟨List.suffix_rfl, ?_⟩
          rintro found ⟨⟩
          exact ⟨mem_of_mem_trim (mem_of_startsWith hstarts), [], rfl, rfl⟩
        · exact ⟨List.suffix_rfl, nofun⟩

/-! The body of a record begins on its opening line exactly when that line has an opening brace. -/

section Opening

variable {cs behind later name name' base : List Char} {opens : Bool}

/-- A brace behind a base opens the body, and nothing else does. -/
theorem Record.mem_iff_of_baseClause? (h : Record.baseClause? cs = some (base, opens)) :
    '\x7b' ∈ cs ↔ opens = true := by
  unfold Record.baseClause? at h
  dsimp only at h
  split at h
  · cases h
  · rename_i hdrop _
    cases h
    refine iff_of_false (fun hmem => ?_) nofun
    exact absurd (List.dropWhile_eq_nil_iff.1 hdrop _ hmem) (by decide)
  · rename_i hdrop _
    split at h
    · cases h
    · cases h
      have hmem : '\x7b' ∈ cs.dropWhile fun c => c ≠ '\x7b' && c ≠ ';' := by
        rw [hdrop]
        exact List.mem_cons_self
      exact iff_of_true ((List.dropWhile_suffix _).subset hmem) rfl
  · cases h

/-- The text behind a colon is part of the text. -/
theorem Record.mem_of_colonSplits {split : List Char × List Char}
    (h : split ∈ Record.colonSplits cs) {c : Char} (hc : c ∈ split.2) : c ∈ cs := by
  induction cs generalizing split with
  | nil => simp [Record.colonSplits] at h
  | cons d cs ih =>
    rw [Record.colonSplits] at h
    have hlater : split ∈ (Record.colonSplits cs).map (fun split => (d :: split.1, split.2)) →
        c ∈ d :: cs := by
      intro hmap
      obtain ⟨later, hmem, rfl⟩ := List.mem_map.1 hmap
      exact List.mem_cons_of_mem d (ih hmem hc)
    split at h
    · rcases List.mem_append.1 h with h | h
      · exact hlater h
      · rw [List.mem_singleton.1 h] at hc
        exact List.mem_cons_of_mem d hc
    · exact hlater h

/-- A brace behind the name of a record opens the body, and nothing else does. -/
theorem Record.mem_iff_of_tail? (hname : '\x7b' ∉ name)
    (h : Record.tail? name behind = some (name', base, opens)) :
    '\x7b' ∈ behind ↔ opens = true := by
  unfold Record.tail? at h
  dsimp only at h
  split at h
  · rename_i result hplain
    cases h
    -- the name was taken whole, so the brace stands behind it
    have hstart : '\x7b' ∈ behind ↔ '\x7b' ∈ trimStart behind :=
      ⟨fun hmem => mem_trimStart_of_mem hmem (by decide),
        fun hmem => (List.dropWhile_suffix isBlank).subset hmem⟩
    rw [hstart]
    split at hplain
    · rename_i hnil
      cases hplain
      rw [hnil]
      exact iff_of_false nofun nofun
    · rename_i tail htail
      rw [htail, List.mem_cons, or_iff_right (by decide)]
      exact Record.mem_iff_of_baseClause? hplain
    · rename_i tail htail
      split at hplain
      · cases hplain
      · cases hplain
        rw [htail]
        exact iff_of_true List.mem_cons_self rfl
    · cases hplain
  · obtain ⟨split, hsplit, hclause⟩ := List.exists_of_findSome?_eq_some h
    obtain ⟨⟨base', opens'⟩, hbase, heq⟩ := Option.map_eq_some_iff.1 hclause
    cases heq
    rw [← Record.mem_iff_of_baseClause? hbase, List.mem_append,
      or_iff_right fun hmem => hname (Record.mem_of_colonSplits hsplit hmem)]

/-- A text that ends in another one, with no opening brace in front of it. -/
def Record.LeadsTo (cs behind : List Char) : Prop := ∃ front, '\x7b' ∉ front ∧ cs = front ++ behind

theorem Record.LeadsTo.refl : Record.LeadsTo cs cs := ⟨[], nofun, rfl⟩

theorem Record.LeadsTo.trans (h : Record.LeadsTo cs behind) (h' : Record.LeadsTo behind later) :
    Record.LeadsTo cs later := by
  obtain ⟨front, hfront, rfl⟩ := h
  obtain ⟨front', hfront', rfl⟩ := h'
  refine ⟨front ++ front', fun hmem => ?_, (List.append_assoc ..).symm⟩
  exact (List.mem_append.1 hmem).elim hfront hfront'

theorem Record.LeadsTo.mem_iff (h : Record.LeadsTo cs behind) :
    '\x7b' ∈ cs ↔ '\x7b' ∈ behind := by
  obtain ⟨front, hfront, rfl⟩ := h
  rw [List.mem_append, or_iff_right hfront]

theorem Record.leadsTo_of_after? {word : List Char} (hword : '\x7b' ∉ word)
    (h : after? word cs = some behind) : Record.LeadsTo cs behind :=
  ⟨word, hword, after?_eq_some_iff.1 h⟩

theorem Record.leadsTo_of_allBlank {gap : List Char} (hgap : allBlank gap = true)
    (h : cs = gap ++ behind) : Record.LeadsTo cs behind :=
  ⟨gap, fun hmem => absurd (List.all_eq_true.1 hgap _ hmem) (by decide), h⟩

/-- A gap leads to what follows it. -/
theorem Record.leadsTo_of_afterBlanks? (h : afterBlanks? cs = some behind) :
    Record.LeadsTo cs behind := by
  obtain ⟨gap, hsplit, hgap, -⟩ := exists_of_afterBlanks? h
  exact Record.leadsTo_of_allBlank hgap hsplit

/-- The keyword of a record leads to what follows it. -/
theorem Record.leadsTo_of_keyword? {kind : RecordKind}
    (h : Record.keyword? cs = some (kind, behind)) : Record.LeadsTo cs behind := by
  unfold Record.keyword? at h
  simp only [Option.orElse_eq_orElse, Option.orElse_eq_or, Option.or_eq_some_iff,
    Option.map_eq_some_iff, Prod.mk.injEq] at h
  rcases h with ⟨_, h, -, rfl⟩ | ⟨-, ⟨_, h, -, rfl⟩ | ⟨-, ⟨_, h, -, rfl⟩ | ⟨-, _, h, -, rfl⟩⟩⟩
  · exact Record.leadsTo_of_after? (by decide) h
  · exact Record.leadsTo_of_after? (by decide) h
  · exact Record.leadsTo_of_after? (by decide) h
  · exact Record.leadsTo_of_after? (by decide) h

/-- A second keyword leads to what follows it. -/
theorem Record.leadsTo_of_secondKeyword? (h : Record.secondKeyword? cs = some behind) :
    Record.LeadsTo cs behind := by
  simp only [Record.secondKeyword?, Option.bind_eq_bind, Option.bind_eq_some_iff,
    Option.orElse_eq_orElse, Option.orElse_eq_or, Option.or_eq_some_iff] at h
  obtain ⟨text, htext, rest, hrest, h⟩ := h
  have hkeyword : Record.LeadsTo text rest := by
    rcases hrest with hrest | ⟨-, hrest⟩
    · exact Record.leadsTo_of_after? (by decide) hrest
    · exact Record.leadsTo_of_after? (by decide) hrest
  split at h
  · cases h
    exact (Record.leadsTo_of_afterBlanks? htext).trans hkeyword
  · cases h

/-- Behind the keywords of an opening line stand the name, the base and the body. -/
theorem Record.exists_tail_of_opening? {line : Line} {opening : Record.Opening}
    (h : Record.opening? line = some opening) :
    ∃ text, Record.LeadsTo line text ∧
      Record.tail? (text.takeWhile Record.isNameChar) (text.dropWhile Record.isNameChar) =
        some (opening.name, opening.base, opening.opens) := by
  simp only [Record.opening?, Option.bind_eq_bind, Option.bind_eq_some_iff] at h
  obtain ⟨⟨kind, behind⟩, hkeyword, h⟩ := h
  dsimp only at h
  split at h
  · cases h
  simp only [Option.bind_eq_some_iff] at h
  obtain ⟨⟨name, base, opens⟩, htail, h⟩ := h
  cases h
  refine ⟨_, ?_, htail⟩
  have hdefined : Record.LeadsTo line
      ((after? "typedef".toList line >>= afterBlanks?).getD line) := by
    cases hd : after? "typedef".toList line >>= afterBlanks? with
    | none => exact .refl
    | some text =>
      obtain ⟨text', htext', htext⟩ := Option.bind_eq_some_iff.1 hd
      exact (Record.leadsTo_of_after? (by decide) htext').trans
        (Record.leadsTo_of_afterBlanks? htext)
  have hsecond : Record.LeadsTo behind ((Record.secondKeyword? behind).getD behind) := by
    cases hs : Record.secondKeyword? behind with
    | none => exact .refl
    | some text => exact Record.leadsTo_of_secondKeyword? hs
  refine ((hdefined.trans (Record.leadsTo_of_keyword? hkeyword)).trans hsecond).trans ?_
  exact Record.leadsTo_of_allBlank List.all_takeWhile List.takeWhile_append_dropWhile.symm

/-- The line of a record has a brace exactly when it opens the body. -/
theorem Record.mem_iff_of_opening? {line : Line} {opening : Record.Opening}
    (h : Record.opening? line = some opening) : '\x7b' ∈ line ↔ opening.opens = true := by
  obtain ⟨text, hline, htail⟩ := Record.exists_tail_of_opening? h
  have hname : '\x7b' ∉ text.takeWhile Record.isNameChar :=
    fun hmem => absurd (List.all_eq_true.1 List.all_takeWhile _ hmem) (by decide)
  rw [hline.mem_iff, ← Record.mem_iff_of_tail? hname htail]
  conv_lhs => rw [← List.takeWhile_append_dropWhile (p := Record.isNameChar) (l := text)]
  rw [List.mem_append, or_iff_right hname]

end Opening

/-- A record is read from the line that opens it, or from a later line that begins its body. -/
theorem Record.read_yields {opening : Record.Opening}
    (hopening : Record.opening? (trim raw) = some opening) :
    Yields (fun r => r.1.Fits raw number rest r.2) (Record.read opening raw number rest) := by
  rw [Record.read]
  split
  · rename_i hopens
    exact Record.readBody_yields opening opening.base rest
      (mem_of_mem_trim ((Record.mem_iff_of_opening? hopening).2 hopens))
  · refine (Record.findBody_yields opening.name opening.base rest 0 List.suffix_rfl).bind ?_
    rintro ⟨found, here⟩ ⟨hsuffix, hline⟩
    cases found with
    | none => exact .plain hsuffix nofun nofun
    | some line =>
      obtain ⟨hbrace, skipped, hrest, hoffset⟩ := hline line rfl
      rw [Nat.zero_add] at hoffset
      -- the body fits the line that begins it, and that line stands behind the skipped ones
      refine (Record.readBody_yields opening line.base here hbrace).imp ?_
      rintro ⟨statement, left⟩ ⟨hleft, heof, hwithin⟩
      refine ⟨?_, heof, fun head hhead => ?_⟩
      · rw [hrest]
        exact (hleft.trans (List.suffix_cons line.raw line.rest)).trans (List.suffix_append _ _)
      · rw [hrest]
        apply RecordHead.Within.behind
        rw [← hoffset]
        exact hwithin head hhead

/-! ## Comments and directives -/

/-- A run of line comments fits the lines that it takes. -/
theorem Comment.readLines_fits (line : Line) :
    (Comment.readLines line rest).1.Fits raw number rest (Comment.readLines line rest).2 := by
  have hleft := Comment.takeLineComments_suffix (Comment.isDocLine line) rest
  rw [Comment.readLines]
  dsimp only
  split
  · exact .plain hleft nofun nofun
  · exact .plain hleft nofun nofun

/-- A block comment fits the lines that it takes. -/
theorem Comment.readBlock_yields (line : Line) :
    Yields (fun r => r.1.Fits raw number rest r.2) (Comment.readBlock line rest) := by
  rw [Comment.readBlock]
  split
  · refine (Comment.blockTexts_yields _ rest).map fun r hr => ?_
    exact .plain hr nofun nofun
  · refine (Comment.blockTexts_yields _ rest).map fun r hr => ?_
    exact .plain hr nofun nofun

/-- A directive fits the lines that it takes. -/
theorem Directive.read_fits (line : Line) :
    (Directive.read line rest).1.Fits raw number rest (Directive.read line rest).2 := by
  have hleft := Directive.continuation_suffix line rest
  rw [Directive.read]
  dsimp only
  split
  · split
    · exact .plain hleft nofun nofun
    · exact .plain hleft nofun nofun
  · exact .plain hleft nofun nofun

/-! ## Names for types -/

/-- A function pointer fits the lines that it takes. -/
theorem Alias.readPointer_yields (head : Alias.PointerHead) :
    Yields (fun r => r.1.Fits raw number rest r.2) (Alias.readPointer head rest) := by
  rw [Alias.readPointer]
  refine (Block.parenthesized_yields head.parameters rest).bind ?_
  rintro ⟨list, left⟩ hleft
  dsimp only
  split
  · exact .plain hleft nofun nofun
  · refine (Block.statement_yields 0 _ left).bind fun left' hleft' => ?_
    exact Statement.Fits.plain (hleft'.trans hleft) nofun nofun

/-- The parts of an alias leave an end of the lines. -/
theorem Alias.usingParts_yields (rest : List Line) :
    Yields (fun r => r.2 <:+ rest) (Alias.usingParts rest) := by
  induction rest with
  | nil => exact rfl
  | cons next rest ih =>
    rw [Alias.usingParts]
    dsimp only
    split
    · exact List.suffix_cons next rest
    · exact ih.map fun r hr => hr.trans (List.suffix_cons next rest)

/-- An alias fits the lines that it takes. -/
theorem Alias.readUsing_yields (line : Line) :
    Yields (fun r => r.1.Fits raw number rest r.2) (Alias.readUsing line rest) := by
  rw [Alias.readUsing]
  split
  · exact .plain List.suffix_rfl nofun nofun
  · split
    · exact .plain List.suffix_rfl nofun nofun
    · dsimp only
      split
      · exact .plain List.suffix_rfl nofun nofun
      · refine (Alias.usingParts_yields rest).bind fun r hr => ?_
        exact Statement.Fits.plain hr nofun nofun

/-- A type definition fits its one line. -/
theorem Alias.definition?_fits {line : Line} {statement : Statement}
    (h : Alias.definition? line = some statement) : statement.Fits raw number rest rest := by
  simp only [Alias.definition?, Option.bind_eq_bind, Option.bind_eq_some_iff] at h
  obtain ⟨⟨blanks, text⟩, -, extent, -, h⟩ := h
  split at h
  · obtain rfl := Option.some.inj h
    exact .plain List.suffix_rfl nofun nofun
  · cases h

/-- A forward declaration fits its one line. -/
theorem Alias.forward?_fits {line : Line} {statement : Statement}
    (h : Alias.forward? line = some statement) : statement.Fits raw number rest rest := by
  simp only [Alias.forward?, Option.bind_eq_bind, Option.bind_eq_some_iff] at h
  obtain ⟨behind, -, text, -, h⟩ := h
  split at h
  · obtain rfl := Option.some.inj h
    exact .plain List.suffix_rfl nofun nofun
  · cases h

/-! ## Functions and variables -/

/-- A function fits the lines that it takes. -/
theorem Member.readFunction_yields (head : Member.Head) (parameters : Line) :
    Yields (fun r => r.1.Fits raw number rest r.2) (Member.readFunction head parameters rest) := by
  rw [Member.readFunction]
  refine (Block.parenthesized_yields parameters rest).bind ?_
  rintro ⟨list, left⟩ hleft
  refine (Block.functionTail_yields left list.trailer left List.suffix_rfl).bind ?_
  intro left' hleft'
  exact .plain (hleft'.trans hleft) nofun nofun

/-- A variable fits the lines that it takes. -/
theorem Member.readVariable_yields (member : Line) (head : Member.Head) :
    Yields (fun r => r.1.Fits raw number rest r.2) (Member.readVariable member head rest) := by
  rw [Member.readVariable]
  dsimp only
  split
  · exact .plain List.suffix_rfl nofun nofun
  · split
    · exact .plain List.suffix_rfl nofun nofun
    · refine Yields.bind (P := fun r => r.2 <:+ rest) ?_ fun r hr => ?_
      · exact (Block.initializer_yields (Block.braceBalance (code head.rest)) false rest).map
          fun r hr => hr
      · exact Statement.Fits.plain hr nofun nofun

/-- A member fits the lines that it takes. -/
theorem Member.read_yields (line : Line) :
    Yields (fun r => r.1.Fits raw number rest r.2.2) (Member.read line rest) := by
  rw [Member.read]
  dsimp only
  split
  · exact .plain List.suffix_rfl nofun nofun
  · rename_i head _
    refine Yields.map (P := fun r => r.1.Fits raw number rest r.2) ?_ fun r hr => hr
    split
    · exact Member.readFunction_yields head _
    · exact Member.readVariable_yields _ head

/-! ## Statements -/

namespace Token

/-- A template fits the lines that it takes. -/
theorem readTemplate_yields (text : Line) (scopes : List Scope) :
    Yields (fun r => r.statement.Fits raw number rest r.rest) (readTemplate text scopes rest) := by
  rw [readTemplate]
  split
  · rename_i list left henclosed
    exact .plain (Block.enclosed_suffix henclosed) nofun nofun
  · exact rfl

/-- A declaration fits the lines that it takes. -/
theorem readDeclaration_yields (raw : Line) (number : Int) (scopes : List Scope)
    (rest : List Line) :
    Yields (fun r => r.statement.Fits raw number rest r.rest)
      (readDeclaration raw (trim raw) number scopes rest) := by
  have hrecord : ∀ opening : Record.Opening,
      (if Record.mayHaveBody (trim raw) then Record.opening? (trim raw) else none) = some opening →
      Yields (fun r => r.1.Fits raw number rest r.2) (Record.read opening raw number rest) := by
    intro opening h
    split at h
    · exact Record.read_yields h
    · cases h
  rw [readDeclaration]
  dsimp only
  split
  · exact (Alias.readPointer_yields _).map fun r hr => hr
  · split
    · rename_i opening hopening
      exact (hrecord opening (Option.filter_eq_some_iff.1 hopening).1).map fun r hr => hr
    · split
      · rename_i statement hstatement
        exact Alias.definition?_fits hstatement
      · split
        · exact (Alias.readUsing_yields _).map fun r hr => hr
        · split
          · rename_i statement hstatement
            exact Alias.forward?_fits hstatement
          · split
            · rename_i opening hopening
              exact (hrecord opening hopening).map fun r hr => hr
            · exact (Member.read_yields _).map fun r hr => hr

/-- The end of a scope takes no further line. -/
theorem readScopeEnd_fits (scopes : List Scope) :
    (readScopeEnd scopes rest).statement.Fits raw number rest (readScopeEnd scopes rest).rest := by
  unfold readScopeEnd
  split
  · exact .plain List.suffix_rfl nofun nofun
  · exact .plain List.suffix_rfl nofun nofun
  · exact .plain List.suffix_rfl nofun nofun

/-- Code fits the lines that it takes. -/
theorem readCode_yields (mode : Mode) (raw : Line) (number : Int) (scopes : List Scope)
    (rest : List Line) :
    Yields (fun r => r.statement.Fits raw number rest r.rest)
      (readCode mode raw (trim raw) number scopes rest) := by
  rw [readCode]
  split
  · split
    · exact .plain List.suffix_rfl nofun nofun
    · exact .plain List.suffix_rfl nofun nofun
  · split
    · refine (Block.statement_yields 0 _ rest).map fun left hleft => ?_
      exact .plain hleft nofun nofun
    · split
      · exact .plain List.suffix_rfl nofun nofun
      · split
        · exact readScopeEnd_fits scopes
        · split
          · exact .plain List.suffix_rfl nofun nofun
          · split
            · exact .plain List.suffix_rfl nofun nofun
            · split
              · exact readTemplate_yields _ scopes
              · exact readDeclaration_yields raw number scopes rest

/-- **Every statement fits the lines from which it is read.** -/
theorem readStatement_yields (mode : Mode) (raw : Line) (number : Int) (scopes : List Scope)
    (rest : List Line) :
    Yields (fun r => r.statement.Fits raw number rest r.rest)
      (readStatement mode raw number scopes rest) := by
  rw [readStatement]
  dsimp only
  split
  · exact .plain List.suffix_rfl nofun nofun
  · split
    · exact .plain (List.nil_suffix) nofun nofun
    · split
      · exact Comment.readLines_fits _
      · split
        · exact (Comment.readBlock_yields _).map fun r hr => hr
        · split
          · exact Directive.read_fits _
          · exact readCode_yields mode raw number scopes rest

end Token

end Fits

end HeaderApi
