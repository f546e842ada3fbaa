import HeaderApi.Proofs.Readers

/-!
# The lexical scan

The code of a line, read character by character: an automaton tells for each character whether it
belongs to the code, to a comment or to a literal.  What is left of a line without its comments and
literals is what this automaton reads as code, also when lines are read in turn and a block comment
runs on from one to the next.
-/

namespace HeaderApi.Source

/-- Where the scan of a line stands between two characters. -/
inductive Lexing where
  | code
  /-- In code, behind a slash that may begin a comment. -/
  | slash
  | lineComment
  | blockComment
  /-- In a block comment, behind a star that may end it. -/
  | star
  | literal (quote : Char)
  /-- In a literal, behind a backslash. -/
  | escaped (quote : Char)
  deriving DecidableEq, Repr

namespace Lexing

/-- The state after one more character. -/
def next (c : Char) : Lexing → Lexing
  | .code => if c = '/' then .slash else if isQuote c then .literal c else .code
  | .slash =>
    if c = '/' then .lineComment
    else if c = '*' then .blockComment
    else if isQuote c then .literal c
    else .code
  | .lineComment => .lineComment
  | .blockComment => if c = '*' then .star else .blockComment
  | .star => if c = '/' then .code else if c = '*' then .star else .blockComment
  | .literal quote =>
    if c = '\\' then .escaped quote else if c = quote then .code else .literal quote
  | .escaped quote => .literal quote

/-- The state after some characters. -/
def after : Lexing → List Char → Lexing
  | lexing, [] => lexing
  | lexing, c :: cs => (lexing.next c).after cs

/-- Whether a block comment is open. -/
def inComment : Lexing → Bool
  | .blockComment | .star => true
  | _ => false

/-- The state at the beginning of a line: only block comments run on from line to line. -/
def start (inComment : Bool) : Lexing := if inComment then .blockComment else .code

/-- Whether the next character is read as code. -/
def isCode : Lexing → Bool
  | .code | .slash => true
  | _ => false

/-- Whether a character that is read as code stays code, and does not begin a comment or a
literal.  A slash does so when no slash or star follows. -/
def keeps (c : Char) (rest : List Char) (lexing : Lexing) : Bool :=
  match lexing.next c with
  | .code => true
  | .slash => rest.head? ≠ some '/' && rest.head? ≠ some '*'
  | _ => false

/-- The characters that are read as code and stay code. -/
def output : Lexing → List Char → List Char
  | _, [] => []
  | lexing, c :: rest =>
    if lexing.isCode && lexing.keeps c rest then c :: (lexing.next c).output rest
    else (lexing.next c).output rest

end Lexing

/-- The state of the scan in a region. -/
def Region.lexing : Region → Lexing
  | .code => .code
  | .comment => .blockComment
  | .literal quote => .literal quote

namespace Lexing

variable {rest : List Char}

/-- A slash that no slash or star follows is like any other character of the code. -/
theorem output_slash (hslash : rest.head? ≠ some '/') (hstar : rest.head? ≠ some '*') :
    slash.output rest = code.output rest := by
  cases rest with
  | nil => rfl
  | cons c rest =>
    have hslash : c ≠ '/' := by simpa using hslash
    have hstar : c ≠ '*' := by simpa using hstar
    simp [output, keeps, next, isCode, hslash, hstar]

/-- A slash that no slash or star follows opens no comment. -/
theorem inComment_after_slash (hslash : rest.head? ≠ some '/') (hstar : rest.head? ≠ some '*') :
    (slash.after rest).inComment = (code.after rest).inComment := by
  cases rest with
  | nil => rfl
  | cons c rest =>
    have hslash : c ≠ '/' := by simpa using hslash
    have hstar : c ≠ '*' := by simpa using hstar
    simp [after, next, hslash, hstar]

/-- No more characters are left than there were. -/
theorem length_output_le (lexing : Lexing) (cs : List Char) :
    (lexing.output cs).length ≤ cs.length := by
  induction cs generalizing lexing with
  | nil => exact Nat.le_refl _
  | cons c cs ih =>
    rw [output]
    split
    · exact Nat.succ_le_succ (ih _)
    · exact Nat.le_succ_of_le (ih _)

/-- Behind a character that stays code there is code. -/
theorem isCode_next_of_keeps {lexing : Lexing} {c : Char} (h : lexing.keeps c rest = true) :
    (lexing.next c).isCode = true := by
  unfold keeps at h
  split at h
  · rename_i hnext
    rw [hnext]
    rfl
  · rename_i hnext
    rw [hnext]
    rfl
  · cases h

/-- A text that loses nothing is code up to its end. -/
theorem isCode_after_of_output {lexing : Lexing} {cs : List Char} (hcode : lexing.isCode = true)
    (h : lexing.output cs = cs) : (lexing.after cs).isCode = true := by
  induction cs generalizing lexing with
  | nil => exact hcode
  | cons c cs ih =>
    rw [output] at h
    split at h
    · rename_i hkept
      exact ih (isCode_next_of_keeps (Bool.and_eq_true_iff.1 hkept).2) (List.cons.inj h).2
    · -- a lost character makes the output shorter
      have hshort := length_output_le (lexing.next c) cs
      rw [h, List.length_cons] at hshort
      omega

/-- Of a text that loses nothing the first character is kept, and the others lose nothing. -/
theorem keeps_of_output {c : Char} (h : code.output (c :: rest) = c :: rest) :
    code.keeps c rest = true ∧ code.output rest = rest := by
  rw [output, show code.isCode = true from rfl, Bool.true_and] at h
  by_cases hkept : code.keeps c rest = true
  · refine ⟨hkept, ?_⟩
    rw [if_pos hkept] at h
    have hrest := (List.cons.inj h).2
    unfold keeps at hkept
    split at hkept
    · rename_i hnext
      rwa [hnext] at hrest
    · rename_i hnext
      obtain ⟨hslash, hstar⟩ := Bool.and_eq_true_iff.1 hkept
      rwa [hnext, output_slash (of_decide_eq_true hslash) (of_decide_eq_true hstar)] at hrest
    · cases hkept
  · rw [if_neg hkept] at h
    have hshort := length_output_le (code.next c) rest
    rw [h, List.length_cons] at hshort
    omega

theorem inComment_of_isCode {lexing : Lexing} (h : lexing.isCode = true) :
    lexing.inComment = false := by
  cases lexing with
  | code | slash => rfl
  | _ => cases h

end Lexing

/-! ## One line -/

namespace Lexing

variable {rest : List Char}

/-- What the scan makes of a text: its code, and whether a block comment is open behind it. -/
def strip (lexing : Lexing) (cs : List Char) : List Char × Bool :=
  (lexing.output cs, (lexing.after cs).inComment)

/-- A character that stays code is left. -/
theorem strip_of_keeps {lexing : Lexing} {c : Char} (hcode : lexing.isCode = true)
    (hkeeps : lexing.keeps c rest = true) :
    lexing.strip (c :: rest) =
      (c :: ((lexing.next c).strip rest).1, ((lexing.next c).strip rest).2) := by
  rw [strip, output, hcode, hkeeps]
  rfl

/-- A character that does not stay code is not left. -/
theorem strip_of_lost {lexing : Lexing} {c : Char}
    (h : (lexing.isCode && lexing.keeps c rest) = false) :
    lexing.strip (c :: rest) = (lexing.next c).strip rest := by
  rw [strip, output, h]
  rfl

/-- A slash that no slash or star follows is like any other character of the code. -/
theorem strip_slash (hslash : rest.head? ≠ some '/') (hstar : rest.head? ≠ some '*') :
    slash.strip rest = code.strip rest := by
  rw [strip, output_slash hslash hstar, inComment_after_slash hslash hstar]
  rfl

/-- A star that no slash follows is like any other character of a block comment. -/
theorem strip_star (h : rest.head? ≠ some '/') : star.strip rest = blockComment.strip rest := by
  cases rest with
  | nil => rfl
  | cons c rest =>
    have hc : c ≠ '/' := by simpa using h
    rw [strip_of_lost rfl, strip_of_lost rfl, next, next, if_neg hc]

/-- Nothing is left of a comment that ends with its line. -/
theorem strip_lineComment (cs : List Char) : lineComment.strip cs = ([], false) := by
  induction cs with
  | nil => rfl
  | cons c cs ih => rw [strip_of_lost rfl, next, ih]

/-- A character that does not end a block comment is passed over. -/
theorem strip_blockComment_cons {c : Char} (h : c = '*' → rest.head? ≠ some '/') :
    blockComment.strip (c :: rest) = blockComment.strip rest := by
  rw [strip_of_lost rfl, next]
  split
  · rename_i hc
    exact strip_star (h hc)
  · rfl

/-- A character of a literal is passed over; its own quote ends it. -/
theorem strip_literal_cons {quote c : Char} (h : c ≠ '\\') :
    (literal quote).strip (c :: rest) =
      (if c = quote then Region.code else .literal quote).lexing.strip rest := by
  rw [strip_of_lost rfl, next, if_neg h]
  split
  · rfl
  · rfl

/-- A quote begins a literal. -/
theorem strip_quote {c : Char} (h : isQuote c = true) :
    code.strip (c :: rest) = (literal c).strip rest := by
  have hc : c ≠ '/' := by
    rintro rfl
    cases h
  have hnext : code.next c = .literal c := by
    rw [next, if_neg hc, if_pos h]
  rw [strip_of_lost (by rw [keeps, hnext]; rfl), hnext]

/-- A character of the code that begins neither a comment nor a literal is left. -/
theorem strip_code_cons {c : Char} (hquote : isQuote c = false)
    (hslash : c = '/' → rest.head? ≠ some '/') (hstar : c = '/' → rest.head? ≠ some '*') :
    code.strip (c :: rest) = (c :: (code.strip rest).1, (code.strip rest).2) := by
  by_cases hc : c = '/'
  · have hkeeps : code.keeps c rest = true := by
      simp [keeps, next, hc, hslash hc, hstar hc]
    have hnext : code.next c = slash := if_pos hc
    rw [strip_of_keeps rfl hkeeps, hnext, strip_slash (hslash hc) (hstar hc)]
  · have hnext : code.next c = code := by
      rw [next, if_neg hc, hquote]
      rfl
    rw [strip_of_keeps rfl (by rw [keeps, hnext]), hnext]

end Lexing

theorem head?_ne_some {c : Char} {rest : List Char} (h : ∀ below, rest ≠ c :: below) :
    rest.head? ≠ some c := by
  intro hhead
  obtain ⟨below, hrest⟩ := List.head?_eq_some_iff.1 hhead
  exact h below hrest

/-- **The code of a line is what the scan reads as code**, and a block comment is open behind the
line when the scan ends in one. -/
theorem stripFrom_eq (region : Region) (cs : List Char) (hquote : region ≠ .literal '\\') :
    stripFrom region cs = region.lexing.strip cs := by
  fun_induction stripFrom region cs with
  | case1 => rfl
  | case2 region h =>
    cases region with
    | code => rfl
    | comment => exact absurd rfl h
    | literal quote => rfl
  | case3 rest ih =>
    rw [ih (by decide)]
    rfl
  | case4 c rest h ih =>
    rw [ih (by decide)]
    exact (Lexing.strip_blockComment_cons fun hc => head?_ne_some fun below => h below hc).symm
  | case5 quote c rest ih =>
    rw [ih hquote]
    rfl
  | case6 quote c rest h ih =>
    by_cases hc : c = '\\'
    · -- a backslash at the end of the line
      have hrest : rest = [] := by
        cases rest with
        | nil => rfl
        | cons d tail => exact (h d tail hc rfl).elim
      have hne : c ≠ quote := fun heq => hquote (by rw [← heq, hc])
      rw [hrest, if_neg hne, hc]
      rfl
    · rw [Region.lexing, Lexing.strip_literal_cons hc]
      refine ih ?_
      split
      · decide
      · exact hquote
  | case7 tail => exact (Lexing.strip_lineComment tail).symm
  | case8 rest ih =>
    rw [ih (by decide)]
    rfl
  | case9 c rest hslash hstar hq ih =>
    have hbackslash : c ≠ '\\' := by
      rintro rfl
      cases hq
    rw [ih fun h => hbackslash (Region.literal.inj h)]
    exact (Lexing.strip_quote hq).symm
  | case10 c rest hcomment hblock hq tail ih =>
    have htail : tail = Lexing.code.strip rest := ih (by decide)
    rw [htail]
    exact (Lexing.strip_code_cons (Bool.eq_false_iff.2 hq)
      (fun hc => head?_ne_some fun below => hcomment below hc)
      fun hc => head?_ne_some fun below => hblock below hc).symm

theorem Region.lexing_start (inComment : Bool) :
    (if inComment then Region.comment else .code).lexing = Lexing.start inComment := by
  cases inComment <;> rfl

/-- The code of a line that begins inside or outside a block comment. -/
theorem strip_eq (line : List Char) (inComment : Bool) :
    strip line inComment = ((Lexing.start inComment).output line,
      ((Lexing.start inComment).after line).inComment) := by
  rw [strip, stripFrom_eq, Region.lexing_start]
  · rfl
  · cases inComment <;> decide

theorem code_eq_output (line : List Char) : code line = Lexing.code.output line := by
  rw [code, strip_eq]
  rfl

/-! ## Lines in turn -/

namespace Lexing

/-- The state in which the next line begins: a literal and a line comment end with their line, a
block comment runs on. -/
def nextLine : Lexing → Lexing
  | .blockComment | .star => .blockComment
  | _ => .code

/-- The automaton reads lines in turn: what is code on each of them, and whether it is in a block
comment behind it. -/
def scan : Lexing → List (List Char) → List (List Char × Bool)
  | _, [] => []
  | lexing, line :: rest =>
    let behind := lexing.after line
    (lexing.output line, behind.inComment) :: behind.nextLine.scan rest

theorem nextLine_eq_start (lexing : Lexing) : lexing.nextLine = .start lexing.inComment := by
  cases lexing <;> rfl

end Lexing

/-- **The code of lines that are stripped in turn is what the automaton reads as code on them**,
and it is in a block comment behind each line after which one is open. -/
theorem stripLines_eq_scan (lines : List (List Char)) (inComment : Bool) :
    stripLines lines inComment = (Lexing.start inComment).scan lines := by
  induction lines generalizing inComment with
  | nil => rfl
  | cons line rest ih => rw [stripLines, strip_eq, ih, Lexing.scan, Lexing.nextLine_eq_start]

example : stripLines ["a /*/ b 'c".toList, "d */ \"\\\"//\" e // f".toList, "g".toList] false =
    [("a ".toList, true), ("  e ".toList, false), ("g".toList, false)] := by decide

end HeaderApi.Source
