import Mathlib.Data.List.Chain
import HeaderApi.Proofs.Readers
import HeaderApi.Proofs.StatementCases

/-!
# Tokens tile the lines

Each token begins where the one before ends, covers at least one line, and the eof token stands
behind the last line.  So every line belongs to exactly one token.
-/

namespace HeaderApi.Token

open Text

variable {mode : Mode} {first last : Int} {tokens : List Token}

/-! ## One step -/

theorem skipBlankLines_suffix (lines : List Line) : skipBlankLines lines <:+ lines :=
  List.dropWhile_suffix _

/-- What a step takes from the lines of a cursor: at least one line, which its token covers. -/
structure Advance.Takes (c : Cursor) (next : Advance) : Prop where
  ne_eof : next.token.statement ≠ .eof
  begin_eq : next.token.beginLine = c.line
  end_eq : next.token.endLine = next.cursor.line
  suffix : next.cursor.rest <:+ c.rest
  shorter : next.cursor.rest.length < c.rest.length
  line_eq : next.cursor.line + next.cursor.rest.length = c.line + c.rest.length
  within : ∀ head, next.token.statement = .record head →
    c.line ≤ head.bodyBegin ∧ head.bodyBegin + head.body.length ≤ next.token.endLine ∧
      Header.weight head.body < Header.weight c.rest

/-- The token of a statement covers the line that begins it and the lines taken behind it. -/
theorem advance_takes {c : Cursor} {spaces : Nat} {raw : Line} {rest : List Line} {read : Read}
    (hskip : skipBlankLines c.rest = raw :: rest)
    (hfits : read.statement.Fits raw (c.moveTo (raw :: rest)).line rest read.rest) :
    (advance c spaces read).Takes c := by
  obtain ⟨hsuffix, heof, hwithin⟩ := hfits
  -- The lines left are a suffix of the lines given, so line numbers follow from lengths.
  have hblank : raw :: rest <:+ c.rest := hskip ▸ skipBlankLines_suffix c.rest
  have hleft : skipBlankLines read.rest <:+ rest := (skipBlankLines_suffix read.rest).trans hsuffix
  have hlength := hblank.length_le
  rw [List.length_cons] at hlength
  have hshort := hleft.length_le
  refine ⟨heof, rfl, rfl, (hleft.trans (List.suffix_cons raw rest)).trans hblank, ?_, ?_, ?_⟩
  · show (skipBlankLines read.rest).length < c.rest.length
    omega
  · show c.line + c.rest.length - (skipBlankLines read.rest).length
      + (skipBlankLines read.rest).length = c.line + c.rest.length
    omega
  · intro head hhead
    obtain ⟨hbegin, hend, hlight⟩ := hwithin head hhead
    have hblanks := (skipBlankLines_suffix read.rest).length_le
    simp only [Cursor.moveTo, List.length_cons] at hbegin hend
    refine ⟨by omega, ?_, Nat.lt_of_lt_of_le hlight (Header.weight_le_of_suffix hblank)⟩
    show head.bodyBegin + head.body.length
      ≤ c.line + c.rest.length - (skipBlankLines read.rest).length
    omega

/-- The text is at its end, no scope is open, and the step gives the eof token. -/
def Advance.Ends (c : Cursor) (next : Advance) : Prop :=
  c.rest = [] ∧ next.token.statement = .eof ∧ next.token.beginLine = c.line ∧
    next.token.endLine = c.line

/-- The outcomes of a step: the eof token, a token that takes lines, or a malformation of the
source, which is told at the last line. -/
def Cursor.Allows (c : Cursor) : Except (MalformedSource × Cursor) Advance → Prop
  | .ok next => next.Ends c ∨ next.Takes c
  | .error (e, _) => e.cause.isOfSource = true ∧ e.line = c.lastLine ∧
      (c.rest ≠ [] ∨ c.scopes ≠ [])

/-- Every step is one that its cursor allows. -/
theorem step_allowed (mode : Mode) (c : Cursor) : c.Allows (step mode c) := by
  cases hstep : step mode c with
  | ok next =>
    cases step_cases hstep with
    | blank _ hrest =>
      -- blank lines at the end of the text make a token of their own
      have hpos : 0 < c.rest.length := List.length_pos_iff.2 hrest
      refine .inr ⟨nofun, rfl, rfl, List.nil_suffix, hpos, ?_, nofun⟩
      show c.line + c.rest.length - (([] : List Line).length : Int)
        + (([] : List Line).length : Int) = c.line + c.rest.length
      omega
    | eof hrest => exact .inl ⟨hrest, rfl, rfl, rfl⟩
    | @statement raw rest read hskip hread =>
      have hyields := readStatement_yields mode raw (c.moveTo (raw :: rest)).line c.scopes rest
      rw [hread] at hyields
      exact .inr (advance_takes hskip hyields)
  | error failure =>
    obtain ⟨e, c'⟩ := failure
    cases step_error_cases hstep with
    | scope _ hscopes =>
      refine ⟨rfl, rfl, .inr ?_⟩
      rw [hscopes]
      exact List.cons_ne_nil _ _
    | @statement raw rest fault hskip hread =>
      have hyields := readStatement_yields mode raw (c.moveTo (raw :: rest)).line c.scopes rest
      rw [hread] at hyields
      refine ⟨hyields, rfl, .inl fun hnil => ?_⟩
      rw [hnil] at hskip
      cases hskip

/-! ## Runs -/

/-- The steps of a stream from a cursor on and their tokens, up to the eof token. -/
inductive Run (mode : Mode) : Cursor → List Token → Prop
  | eof {c : Cursor} {next : Advance} (hstep : step mode c = .ok next) (hends : next.Ends c) :
      Run mode c [next.token]
  | cons {c : Cursor} {next : Advance} {tokens : List Token} (hstep : step mode c = .ok next)
      (htakes : next.Takes c) (hlater : Run mode next.cursor tokens) :
      Run mode c (next.token :: tokens)

/-- A stream that gives tokens is a run. -/
theorem run_of_streamFrom {fuel : Nat} {c : Cursor}
    (h : (streamFrom mode fuel c).outcome = .ok tokens) : Run mode c tokens := by
  induction fuel generalizing c tokens with
  | zero => cases h
  | succ fuel ih =>
    obtain ⟨next, hstep, hends⟩ := outcome_streamFrom_iff.1 h
    have hallowed := step_allowed mode c
    rw [hstep] at hallowed
    obtain ⟨heof, rfl⟩ | ⟨hne, later, hlater, rfl⟩ := hends
    · rcases hallowed with hends | htakes
      · exact .eof hstep hends
      · exact absurd heof htakes.ne_eof
    · rcases hallowed with hends | htakes
      · exact absurd hends.2.1 hne
      · exact .cons hstep htakes (ih hlater)

/-- A stream that fails reports a malformation of the source at its last line.  The steps
suffice, since each takes a line; and a scope is only open when a line was taken. -/
theorem streamFrom_error {fuel : Nat} {c : Cursor} {e : MalformedSource}
    (h : (streamFrom mode fuel c).outcome = .error e) (hfuel : c.rest.length < fuel)
    (hfirst : first ≤ c.line) (hscopes : c.scopes ≠ [] → first < c.line) :
    e.cause.isOfSource = true ∧ e.line = c.lastLine ∧ first ≤ c.lastLine := by
  induction fuel generalizing c with
  | zero => omega
  | succ fuel ih =>
    have hallowed := step_allowed mode c
    rw [streamFrom] at h
    split at h
    · rename_i e' c' hstep
      rw [hstep] at hallowed
      obtain rfl := Except.error.inj h
      obtain ⟨hcause, hline, hopen⟩ := hallowed
      refine ⟨hcause, hline, ?_⟩
      -- the last line is one of the stream: a line is left, or one was taken for the open scope
      unfold Cursor.lastLine
      rcases hopen with hrest | hopen
      · have hpos := List.length_pos_iff.2 hrest
        omega
      · have hpos := hscopes hopen
        omega
    · rename_i next hstep
      rw [hstep] at hallowed
      split at h
      · cases h
      · rename_i hne
        dsimp only at h
        cases hlater : (streamFrom mode fuel next.cursor).outcome with
        | ok later =>
          rw [hlater] at h
          cases h
        | error e' =>
          rw [hlater] at h
          obtain rfl := Except.error.inj h
          rcases hallowed with hends | htakes
          · exact absurd hends.2.1 hne
          · have hshort := htakes.shorter
            have hline := htakes.line_eq
            have hlast : next.cursor.lastLine = c.lastLine := by
              unfold Cursor.lastLine
              omega
            -- a step moves the cursor and keeps the end of its lines
            rw [← hlast]
            exact ih hlater (by omega) (by omega) fun _ => by omega

/-- A stream over lines fails at the last of them. -/
theorem stream_error {lines : List Line} {e : MalformedSource}
    (h : (stream mode first lines).outcome = .error e) :
    e.cause.isOfSource = true ∧ first ≤ e.line ∧ e.line < first + lines.length := by
  obtain ⟨hcause, hline, hfirst⟩ :=
    streamFrom_error h (Nat.lt_succ_self _) (Int.le_refl first) fun hopen => absurd rfl hopen
  have hlast : (Cursor.start first lines).lastLine = first + lines.length - 1 := rfl
  exact ⟨hcause, by omega, by omega⟩

/-- The lines of the tokens of a run, and the bodies of its records. -/
theorem Run.bounds {c : Cursor} (h : Run mode c tokens) {token : Token} (htoken : token ∈ tokens)
    (hne : token.statement ≠ .eof) :
    c.line ≤ token.beginLine ∧ token.beginLine < token.endLine ∧
      token.endLine ≤ c.line + c.rest.length ∧
      ∀ head, token.statement = .record head →
        token.beginLine ≤ head.bodyBegin ∧ head.bodyBegin + head.body.length ≤ token.endLine ∧
          Header.weight head.body < Header.weight c.rest := by
  -- A later token begins where this one ends or below, and its lines are a suffix of these.
  induction h with
  | eof hstep hends =>
    rw [List.mem_singleton.1 htoken] at hne
    exact absurd hends.2.1 hne
  | cons hstep htakes hlater ih =>
    have hshort := htakes.shorter
    have hline := htakes.line_eq
    have hbegin := htakes.begin_eq
    have hend := htakes.end_eq
    rcases List.mem_cons.1 htoken with rfl | htoken
    · refine ⟨by omega, by omega, by omega, fun head hhead => ?_⟩
      rw [hbegin]
      exact htakes.within head hhead
    · obtain ⟨hge, hlt, hle, hbody⟩ := ih htoken
      refine ⟨by omega, hlt, by omega, fun head hhead => ?_⟩
      obtain ⟨hfrom, hto, hlight⟩ := hbody head hhead
      exact ⟨hfrom, hto, Nat.lt_of_lt_of_le hlight (Header.weight_le_of_suffix htakes.suffix)⟩

/-- The lines of the tokens of a text, and the bodies of its records. -/
theorem Run.start_bounds {lines : List Line} (h : Run mode (.start first lines) tokens)
    {token : Token} (htoken : token ∈ tokens) (hne : token.statement ≠ .eof) :
    first ≤ token.beginLine ∧ token.beginLine < token.endLine ∧
      token.endLine ≤ first + lines.length ∧
      ∀ head, token.statement = .record head →
        token.beginLine ≤ head.bodyBegin ∧ head.bodyBegin + head.body.length ≤ token.endLine ∧
          Header.weight head.body < Header.weight lines :=
  h.bounds htoken hne

/-! ## Tiles -/

/-- Tokens that cover the lines from the first number up to, but not including, the second one
after the other, with an eof token behind them. -/
inductive Tiles : Int → Int → List Token → Prop
  | eof {last : Int} {token : Token} (heof : token.statement = .eof)
      (hbegin : token.beginLine = last) (hend : token.endLine = last) : Tiles last last [token]
  | cons {last : Int} {token : Token} {tokens : List Token} (hne : token.statement ≠ .eof)
      (hadvance : token.beginLine < token.endLine) (hlater : Tiles token.endLine last tokens) :
      Tiles token.beginLine last (token :: tokens)

/-- The tokens of a run tile the lines of its cursor. -/
theorem Run.tiles {c : Cursor} (h : Run mode c tokens) :
    Tiles c.line (c.line + c.rest.length) tokens := by
  induction h with
  | eof hstep hends =>
    obtain ⟨hrest, heof, hbegin, hend⟩ := hends
    rw [hrest, List.length_nil, Int.natCast_zero, Int.add_zero]
    exact .eof heof hbegin hend
  | cons hstep htakes hlater ih =>
    have hshort := htakes.shorter
    have hline := htakes.line_eq
    rw [hline, ← htakes.end_eq] at ih
    rw [← htakes.begin_eq]
    rw [← htakes.begin_eq, ← htakes.end_eq] at hline
    rw [← htakes.begin_eq] at ih
    exact .cons htakes.ne_eof (by omega) ih

/-- The first token begins on the first line. -/
theorem Tiles.head?_beginLine (h : Tiles first last tokens) :
    tokens.head?.map Token.beginLine = some first := by
  cases h with
  | eof heof hbegin hend => rw [List.head?_cons, Option.map_some, hbegin]
  | cons hne hadvance hlater => rfl

/-- The tokens before the eof token advance. -/
theorem Tiles.exists_concat (h : Tiles first last tokens) :
    ∃ init eof, tokens = init ++ [eof] ∧
      (eof.statement = .eof ∧ eof.beginLine = last ∧ eof.endLine = last) ∧
      ∀ token ∈ init, token.statement ≠ .eof ∧ token.beginLine < token.endLine := by
  induction h with
  | @eof last token heof hbegin hend => exact ⟨[], token, rfl, ⟨heof, hbegin, hend⟩, nofun⟩
  | @cons last token tokens hne hadvance hlater ih =>
    obtain ⟨init, eof, rfl, heof, hinit⟩ := ih
    refine ⟨token :: init, eof, rfl, heof, fun t ht => ?_⟩
    rcases List.mem_cons.1 ht with rfl | ht
    · exact ⟨hne, hadvance⟩
    · exact hinit t ht

/-- Each token begins where the one before ends. -/
theorem Tiles.isChain (h : Tiles first last tokens) :
    tokens.IsChain fun a b => b.beginLine = a.endLine := by
  induction h with
  | eof heof hbegin hend => exact .singleton _
  | @cons last token tokens hne hadvance hlater ih =>
    have hhead := hlater.head?_beginLine
    cases tokens with
    | nil => exact .singleton _
    | cons next later =>
      rw [List.head?_cons, Option.map_some] at hhead
      exact .cons_cons (Option.some.inj hhead) ih

/-- Whether a line belongs to a token of the text. -/
def covers (line : Int) (token : Token) : Bool :=
  token.statement ≠ .eof && token.beginLine ≤ line && line < token.endLine

/-- No token covers a line in front of the first one. -/
theorem Tiles.countP_covers_of_lt (h : Tiles first last tokens) {line : Int}
    (hline : line < first) : tokens.countP (covers line) = 0 := by
  induction h with
  | eof heof hbegin hend => simp [covers, heof]
  | cons hne hadvance hlater ih =>
    rw [List.countP_cons_of_neg, ih (by omega)]
    simp only [covers, Bool.and_eq_true, decide_eq_true_eq, not_and]
    omega

/-- Each line is covered by one token. -/
theorem Tiles.countP_covers (h : Tiles first last tokens) {line : Int} (hge : first ≤ line)
    (hlt : line < last) : tokens.countP (covers line) = 1 := by
  induction h with
  | eof heof hbegin hend => omega
  | @cons last token tokens hne hadvance hlater ih =>
    by_cases hline : line < token.endLine
    · rw [List.countP_cons_of_pos (by simp [covers, hne, hge, hline]),
        hlater.countP_covers_of_lt hline]
    · rw [List.countP_cons_of_neg (by simp [covers, hline]), ih (by omega) hlt]

/-- **Line tiling.**  The tokens of some lines end with one eof token behind the last line, the
first token begins at the first line, each begins where the one before ends, and each but the eof
token covers a line.  So every line belongs to exactly one of them. -/
theorem stream_tiles_lines {lines : List Line}
    (h : (stream mode first lines).outcome = .ok tokens) :
    (∃ init eof, tokens = init ++ [eof] ∧
      (eof.statement = .eof ∧ eof.beginLine = first + lines.length ∧
        eof.endLine = first + lines.length) ∧
      ∀ token ∈ init, token.statement ≠ .eof ∧ token.beginLine < token.endLine) ∧
    tokens.head?.map Token.beginLine = some first ∧
    (tokens.IsChain fun a b => b.beginLine = a.endLine) ∧
    ∀ line, first ≤ line → line < first + lines.length → tokens.countP (covers line) = 1 := by
  have htiles : Tiles first (first + lines.length) tokens := (run_of_streamFrom h).tiles
  exact ⟨htiles.exists_concat, htiles.head?_beginLine, htiles.isChain,
    fun line hge hlt => htiles.countP_covers hge hlt⟩

/-- A prototype over two lines, with its doc before it and a blank line behind it. -/
def prototypeLines : List Line :=
  ["", "/// doc", "void f(int a,", "  int b);", "", "#define A 1"].map String.toList

/-- The tokens of a doc, a function over several lines and a variable. -/
theorem stream_tiles_prototype :
    ∃ tokens, (stream {} 1 prototypeLines).outcome = .ok tokens ∧
      tokens.map (fun t => (t.beginLine, t.endLine)) = [(1, 3), (3, 6), (6, 7), (7, 7)] ∧
      ∀ line : Int, 1 ≤ line → line < 1 + 6 → tokens.countP (covers line) = 1 := by
  have hok : ∃ tokens, (stream {} 1 prototypeLines).outcome = .ok tokens ∧
      tokens.map (fun t => (t.beginLine, t.endLine)) = [(1, 3), (3, 6), (6, 7), (7, 7)] :=
    ⟨_, rfl, rfl⟩
  obtain ⟨tokens, hok, hlines⟩ := hok
  exact ⟨tokens, hok, hlines, (stream_tiles_lines hok).2.2.2⟩

end HeaderApi.Token
