import HeaderApi.Proofs.BracedStatements

/-!
# Bodies of functions

A body that opens on the line where the parameters end is passed over up to the brace that matches
in the code of that line and in the lines below.  The code of the line is read as a line again, and
what its comments leave open is lost: the token ends at the matching brace of the text when neither
matters.
-/

namespace HeaderApi

open Text Source

/-! ## The line where the parameters end -/

/-- What follows the parameters of the function that a line begins: the rest of the line where they
end, and the lines below it. -/
def Member.parametersEnd? (line : Line) (rest : List Line) : Option (Line × List Line) := do
  let head ← head? (dropAttributes line)
  let parameters ← after? ['('] (trimStart head.rest)
  let (list, below) ← Block.enclosed '(' ')' 1 parameters rest
  return (list.trailer, below)

namespace Source

/-- Whether the text behind an opening brace matches the same brace when only its code is left and
no comment runs on from it: up to the brace that closes the block on this line, or else as a whole,
the code is its own code, and no block comment is open at the end. -/
def ReadsAlike (inside : List Char) : Prop :=
  match findBrace .code 1 inside with
  | .found body _ => code (code body) = code body
  | .missing _ => code (code inside) = code inside ∧ (Lexing.code.after inside).inComment = false

instance (inside : List Char) : Decidable (ReadsAlike inside) :=
  match h : findBrace .code 1 inside with
  | .found body _ => decidable_of_iff (code (code body) = code body) (by rw [ReadsAlike, h])
  | .missing _ => decidable_of_iff
    (code (code inside) = code inside ∧ (Lexing.code.after inside).inComment = false)
    (by rw [ReadsAlike, h])

variable {inside body after : List Char} {depth : Int}

/-- A text that is its own code loses nothing, and ends in code. -/
theorem isCode_of_code_eq (h : code inside = inside) :
    (Lexing.code.after inside).isCode = true := by
  rw [code_eq_output] at h
  exact Lexing.isCode_after_of_output rfl h

/-- The braces of a text are those of its code. -/
theorem depth?_findBrace_code (depth : Int) (h : code (code inside) = code inside) :
    (findBrace .code depth (code inside)).depth? = (findBrace .code depth inside).depth? := by
  rw [← braceDepth_output, ← braceDepth_output, ← code_eq_output, ← code_eq_output, h]

/-- Where no brace closes the block in a text, none does in its code. -/
theorem findBrace_code_of_missing {depth' : Int} (h : code (code inside) = code inside)
    (hmissing : findBrace .code depth inside = .missing depth') :
    findBrace .code depth (code inside) = .missing depth' := by
  have hdepth := depth?_findBrace_code depth h
  rw [hmissing] at hdepth
  cases hfind : findBrace .code depth (code inside) with
  | found body after =>
    rw [hfind] at hdepth
    cases hdepth
  | missing depth'' =>
    rw [hfind] at hdepth
    rw [Option.some.inj hdepth]

/-- The brace that closes the block in a text closes it in its code too. -/
theorem findBrace_code_of_found (h : code (code body) = code body)
    (hfound : findBrace .code depth inside = .found body after) :
    findBrace .code depth (code inside) = .found (code body) (code after) := by
  obtain ⟨hinside, hmissing, hcode⟩ := findBrace_eq_found_iff.1 hfound
  have hsplit : code inside = code body ++ '\x7d' :: code after := by
    rw [hinside, code_eq_output, code_eq_output, code_eq_output]
    exact Lexing.output_append_brace hcode (.inr rfl) after
  exact findBrace_eq_found_iff.2 ⟨hsplit, findBrace_code_of_missing h hmissing, isCode_of_code_eq h⟩

end Source

/-- A block ends at the same line, whether its first line is read as it is or as its code. -/
theorem Block.braced_of_readsAlike {inside : Line} {below left : List Line} {list : Block.Enclosed}
    (h : ReadsAlike inside) (hcode : Block.braced .code 1 (code inside) below = some (list, left)) :
    ∃ list', Block.braced .code 1 inside below = some (list', left) := by
  unfold ReadsAlike at h
  cases hfind : findBrace .code 1 inside with
  | found body after =>
    rw [hfind] at h
    rw [braced_of_found (findBrace_code_of_found h hfind)] at hcode
    cases hcode
    exact ⟨_, braced_of_found hfind _⟩
  | missing depth =>
    rw [hfind] at h
    obtain ⟨htwice, hopen⟩ := h
    have hfind' := findBrace_code_of_missing htwice hfind
    cases below with
    | nil =>
      rw [braced, hfind'] at hcode
      cases hcode
    | cons next below =>
      -- both scans begin the next line in code
      have hclosed := Lexing.inComment_of_isCode (isCode_of_code_eq htwice)
      rw [braced_of_missing hfind', hclosed] at hcode
      obtain ⟨⟨later, left'⟩, hlater, heq⟩ := Option.map_eq_some_iff.1 hcode
      cases heq
      exact ⟨_, by rw [braced_of_missing hfind, hopen, hlater]; rfl⟩

/-- A body that opens in the text behind the parameters is passed over with the code of that
text. -/
theorem Block.exists_braced_of_functionTail {here rest left : List Line}
    {text front inside : Line} (h : functionTail here text rest = .ok left)
    (hopening : openingBrace? .code text = some (front, inside)) :
    ∃ list, braced .code 1 (code inside) here = some (list, left) := by
  obtain ⟨before, hcut⟩ := cutAt_output hopening
  rw [← code_eq_output, ← code_eq_output] at hcut
  have hbrace : (code text).contains '\x7b' = true := List.contains_iff_mem.2 (mem_of_cutAt hcut)
  have hbraces : afterBraces here (code text) here = .ok left := by
    cases rest with
    | nil => rwa [functionTail, if_pos hbrace] at h
    | cons raw rest => rwa [functionTail, if_pos hbrace] at h
  obtain ⟨⟨inside', passed, left'⟩, hopen, rfl⟩ := exists_ok_of_map hbraces
  obtain ⟨⟨front', hcut'⟩, list, hlist, -⟩ := exists_braced_of_openBraces hopen
  rw [hcut] at hcut'
  cases hcut'
  exact ⟨list, hlist⟩

namespace Token

variable {mode : Mode} {c : Cursor} {next : Advance} {function : FunctionHead}

/-- **A function ends at the brace that matches the first opening brace behind its parameters.**
The token of a function whose parameters are followed by an opening brace of the code on their line
stops behind the line of the brace that matches it when the rest of that line is replaced by its
code, and where the text reads alike, behind the line of the brace that matches it in the text. -/
theorem stopsAt_of_function (h : step mode c = .ok next)
    (hfunction : next.token.statement = .function function) :
    ∃ raw rest trailer below, skipBlankLines c.rest = raw :: rest ∧
      Member.parametersEnd? (trim raw) rest = some (trailer, below) ∧
      ∀ front inside, openingBrace? .code trailer = some (front, inside) →
        (∃ list left, Block.braced .code 1 (code inside) below = some (list, left) ∧
          next.StopsAt c left) ∧
        (ReadsAlike inside → ∃ list left, Block.braced .code 1 inside below = some (list, left) ∧
          next.StopsAt c left) := by
  obtain ⟨raw, rest, head, parameters, list, below, left, hskip, hhead, hparameters, hlist, htail,
    hstops⟩ := exists_functionTail_of_step h hfunction
  have hend : Member.parametersEnd? (trim raw) rest = some (list.trailer, below) := by
    rw [Member.parametersEnd?, hhead]
    simp [hparameters, hlist, after?]
  refine ⟨raw, rest, list.trailer, below, hskip, hend, fun front inside hopening => ?_⟩
  obtain ⟨body, hbody⟩ := Block.exists_braced_of_functionTail htail hopening
  refine ⟨⟨body, left, hbody, hstops⟩, fun halike => ?_⟩
  obtain ⟨body', hbody'⟩ := Block.braced_of_readsAlike halike hbody
  exact ⟨body', left, hbody', hstops⟩

/-- A body with braces in literals and in comments, one of them over several lines. -/
def quotedLines : List Line :=
  ["int f(int x) \x7b g('\x7d', \"\x7b\"); // \x7d", "  if (x) \x7b h(); \x7d /* \x7d", "  \x7d */",
    "\x7d", "int after;"].map String.toList

/-- A function whose body has braces in comments and literals ends at its own brace. -/
theorem stopsAt_of_function_quoted :
    ∃ next, step {} (.start 1 quotedLines) = .ok next ∧
      (∃ function, next.token.statement = .function function) ∧ next.token.endLine = 5 ∧
      ∃ trailer below front inside list left,
        Member.parametersEnd? quotedLines.head! quotedLines.tail = some (trailer, below) ∧
        openingBrace? .code trailer = some (front, inside) ∧ ReadsAlike inside ∧
        Block.braced .code 1 inside below = some (list, left) ∧ list.inside.length = 4 ∧
        next.StopsAt (.start 1 quotedLines) left := by
  have hstep : ∃ next function, step {} (.start 1 quotedLines) = .ok next ∧
      next.token.statement = .function function ∧ next.token.endLine = 5 := ⟨_, _, rfl, rfl, rfl⟩
  obtain ⟨next, function, hstep, hfunction, hend⟩ := hstep
  obtain ⟨raw, rest, trailer, below, hskip, hparameters, hbody⟩ :=
    stopsAt_of_function hstep hfunction
  obtain ⟨rfl, rfl⟩ := List.cons.inj hskip
  cases hparameters
  obtain ⟨list, left, hbraced, hstops⟩ := (hbody _ _ rfl).2 (by decide)
  refine ⟨next, hstep, ⟨function, hfunction⟩, hend, _, _, _, _, list, left, rfl, rfl, by decide,
    hbraced, ?_, hstops⟩
  cases hbraced
  rfl

/-- A function whose body has a comment that begins beside its opening brace. -/
def openCommentLines : List Line :=
  ["void f() \x7b /* one", "\x7d */", "\x7d", "int g();"].map String.toList

/-- A comment that runs on from the line of the opening brace is lost: the function ends at a brace
in it. -/
theorem not_forall_stopsAt_of_function :
    ¬ ∀ (mode : Mode) (c : Cursor) (next : Advance) (function : FunctionHead) (raw : Line)
      (rest : List Line) (trailer : Line) (below : List Line) (front inside : Line),
      step mode c = .ok next → next.token.statement = .function function →
      skipBlankLines c.rest = raw :: rest →
      Member.parametersEnd? (trim raw) rest = some (trailer, below) →
      openingBrace? .code trailer = some (front, inside) →
      ∃ list left, Block.braced .code 1 inside below = some (list, left) ∧
        next.StopsAt c left := by
  intro h
  obtain ⟨list, left, hbraced, hstops⟩ :=
    h {} (.start 1 openCommentLines) _ _ _ _ _ _ _ _ rfl rfl rfl rfl rfl
  cases hbraced
  exact absurd hstops.endLine_eq (by decide)

end Token

end HeaderApi
