import HeaderApi.Proofs.BuilderSteps
import HeaderApi.Proofs.Tiling

/-!
# Errors of parsing

Reading a header gives a header or reports an error of the source: something malformed, or a token
that gives no entry.  The line that an error names is a line of the source, however deep the body
lies in which the error arises.  No look-up fails, and the steps that are allowed suffice, since
the bodies of records get smaller.
-/

namespace HeaderApi

open Text

/-- The line that an error names. -/
def ParseError.line : ParseError → Int
  | .malformed e => e.line
  | .unexpected _ line _ => line

/-- Whether an error says something about the source. -/
def ParseError.isOfSource : ParseError → Bool
  | .malformed e => e.cause.isOfSource
  | .unexpected _ _ _ => true

namespace Header

variable {α β : Type} {first last : Int}

/-! ## Outcomes within lines -/

/-- An error of the source that names a line from `first` up to, but not including, `last`. -/
def ErrorWithin (first last : Int) (e : ParseError) : Prop :=
  e.isOfSource = true ∧ first ≤ e.line ∧ e.line < last

/-- A result with the given property, or an error of the source within some lines. -/
def Gives (first last : Int) (P : α → Prop) (x : Logged ParseError α) : Prop :=
  match x.outcome with
  | .ok a => P a
  | .error e => ErrorWithin first last e

namespace Gives

variable {P : α → Prop} {Q : β → Prop} {x : Logged ParseError α}

theorem pure {a : α} (h : P a) : Gives first last P (Pure.pure a) := h

/-- A step behind a result gives what it gives for every such result. -/
theorem bind {f : α → Logged ParseError β} (h : Gives first last P x)
    (hf : ∀ a, P a → Gives first last Q (f a)) : Gives first last Q (x >>= f) := by
  obtain ⟨log, outcome⟩ := x
  cases outcome with
  | error e => exact h
  | ok a => exact hf a h

/-- What is made of a result raises no other errors. -/
theorem map {f : α → β} (h : Gives first last P x) :
    Gives first last (fun _ => True) (f <$> x) := by
  obtain ⟨log, outcome⟩ := x
  cases outcome with
  | error e => exact h
  | ok a => exact trivial

/-- Errors on some lines are errors on more lines. -/
theorem widen {first' last' : Int} (h : Gives first' last' P x) (hfirst : first ≤ first')
    (hlast : last' ≤ last) : Gives first last P x := by
  obtain ⟨log, outcome⟩ := x
  cases outcome with
  | error e =>
    obtain ⟨hsource, hge, hlt⟩ := h
    exact ⟨hsource, by omega, by omega⟩
  | ok a => exact h

theorem write (log : Log) : Gives first last (fun _ => True) (writeAll log) := trivial

end Gives

/-! ## Builders -/

/-- The template that waits for its declaration begins within some lines. -/
def Builder.TemplateWithin (first last : Int) (b : Builder) : Prop :=
  ∀ t, b.template = some t → first ≤ t.beginLine ∧ t.beginLine < last

section Builder

variable {b : Builder}

theorem Builder.TemplateWithin.congr {b' : Builder} (h : b.TemplateWithin first last)
    (heq : b'.template = b.template) : b'.TemplateWithin first last :=
  fun t ht => h t (heq ▸ ht)

/-- Without a template none stands outside of the lines. -/
theorem Builder.TemplateWithin.of_none (h : b.template = none) : b.TemplateWithin first last :=
  fun t ht => by
    rw [h] at ht
    cases ht

/-- A template without its declaration is reported where it begins. -/
theorem Builder.checkTemplate_gives (h : b.TemplateWithin first last) (detail : String) :
    Gives first last (fun _ => True) (b.checkTemplate detail) := by
  unfold Builder.checkTemplate
  split
  · rename_i t ht
    exact ⟨rfl, h t ht⟩
  · exact Gives.pure trivial

/-- An unknown line that is not tolerated is an error on that line. -/
theorem Builder.unknown_gives {line : Int} (hge : first ≤ line) (hlt : line < last)
    (text : String) : Gives first last (fun _ => True) (b.unknown line text) := by
  unfold Builder.unknown
  split
  · exact Gives.write _
  · exact ⟨rfl, hge, hlt⟩

/-- A token that declares nothing raises errors on its own line or on that of the template. -/
theorem Builder.pass_gives (h : b.TemplateWithin first last) {token : Token}
    (hge : first ≤ token.beginLine) (hlt : token.beginLine < last) :
    Gives first last (Builder.TemplateWithin first last) (b.pass token) := by
  by_cases hunknown : ∃ text, token.statement = .unknown text
  case neg =>
    rw [Builder.pass_of_known fun text heq => hunknown ⟨text, heq⟩]
    refine (Builder.checkTemplate_gives h _).bind fun _ _ => (Gives.write _).bind fun _ _ => ?_
    refine Gives.pure (h.congr ?_)
    rw [Builder.template_passOver, Builder.template_floatPending]
  obtain ⟨text, hunknown⟩ := hunknown
  cases htolerated : b.options.tolerateUnknown with
  | true =>
    rw [Builder.pass_of_tolerated hunknown htolerated]
    refine (Gives.write _).bind fun _ _ => (Gives.write _).bind fun _ _ => ?_
    refine (Builder.unknown_gives hge hlt _).bind fun _ _ => Gives.pure (.of_none ?_)
    rw [Builder.template_floatPending, Builder.dropTemplate_eq]
  | false =>
    rw [Builder.pass_of_not_tolerated hunknown htolerated]
    refine (Builder.checkTemplate_gives h _).bind fun _ _ => (Gives.write _).bind fun _ _ => ?_
    exact ⟨rfl, hge, hlt⟩

/-- A reader of bodies is only asked for the body of the token's record. -/
theorem bodyOf_gives {members : String → RecordHead → Logged ParseError Entries} {token : Token}
    (hmembers : ∀ head, token.statement = .record head →
      ∀ name, Gives first last (fun _ => True) (members name head)) (name : String) :
    Gives first last (fun _ => True) (bodyOf members name token) := by
  unfold bodyOf
  split
  · rename_i head hhead
    exact (hmembers head hhead name).map
  · exact Gives.pure trivial

/-- A declaration raises the errors of its members alone. -/
theorem Builder.declare_gives {members : String → RecordHead → Logged ParseError Entries}
    {token : Token} (s : Signature)
    (hmembers : ∀ head, token.statement = .record head →
      ∀ name, Gives first last (fun _ => True) (members name head)) :
    Gives first last (Builder.TemplateWithin first last) (b.declare members token s) := by
  rw [Builder.declare_eq rfl]
  refine (Gives.write _).bind fun _ _ => (bodyOf_gives hmembers _).bind fun body _ => ?_
  refine (Gives.write _).bind fun _ _ => ?_
  refine Gives.pure (.of_none ?_)
  obtain ⟨_, _, henter⟩ := Builder.enter_eq (b.takeDoc (b.docFor (b.firstLine token))).1
    (b.docFor (b.firstLine token)) token s body
  rw [henter]

/-! ## Token streams -/

/-- Tokens whose lines, and the errors in whose bodies, lie within some lines. -/
def TokensWithin (first last : Int) (members : String → RecordHead → Logged ParseError Entries)
    (tokens : List Token) : Prop :=
  ∀ token ∈ tokens, token.statement ≠ .eof →
    first ≤ token.beginLine ∧ token.beginLine < last ∧
      ∀ head, token.statement = .record head →
        ∀ name, Gives first last (fun _ => True) (members name head)

/-- Tokens within some lines raise errors on these lines. -/
theorem Builder.run_gives {members : String → RecordHead → Logged ParseError Entries}
    {tokens : List Token} (htokens : TokensWithin first last members tokens)
    (h : b.TemplateWithin first last) :
    Gives first last (Builder.TemplateWithin first last) (b.run members tokens) := by
  induction tokens generalizing b with
  | nil => exact Gives.pure h
  | cons token tokens ih =>
    have hlater : TokensWithin first last members tokens :=
      fun t ht => htokens t (List.mem_cons_of_mem token ht)
    have htoken := htokens token List.mem_cons_self
    rw [Builder.run]
    split
    · exact Gives.pure (h.congr rfl)
    · exact Gives.pure (h.congr rfl)
    · refine (Gives.write _).bind fun _ _ => ih hlater ?_
      exact h.congr (Builder.template_floatPending b)
    · rename_i text htext
      obtain ⟨hge, hlt, -⟩ := htoken (by rw [htext]; nofun)
      refine (Builder.checkTemplate_gives h _).bind fun _ _ => ih hlater ?_
      -- the template that waits from here on begins at this token
      rintro t ⟨⟩
      exact ⟨hge, hlt⟩
    · rename_i hne _ _ _
      obtain ⟨hge, hlt, hmembers⟩ := htoken hne
      split
      · exact (Builder.declare_gives _ hmembers).bind fun b' hb' => ih hlater hb'
      · exact (Builder.pass_gives h hge hlt).bind fun b' hb' => ih hlater hb'

/-- A template behind which nothing is declared is an error on its own line. -/
theorem Builder.runAll_gives {members : String → RecordHead → Logged ParseError Entries}
    {tokens : List Token} (htokens : TokensWithin first last members tokens)
    (h : b.TemplateWithin first last) :
    Gives first last (fun _ => True) (b.runAll members tokens) := by
  unfold Builder.runAll
  refine (Builder.run_gives htokens h).bind fun b' hb' => ?_
  exact (Builder.checkTemplate_gives hb' _).bind fun _ _ => Gives.pure trivial

end Builder

/-! ## Bodies at any depth -/

/-- The tokens of lines are those of a run, or a line among them is malformed. -/
theorem stream_gives (mode : Token.Mode) (lines : List Line) :
    Gives first (first + lines.length)
      (fun tokens => Token.Run mode (.start first lines) tokens)
      ((Token.stream mode first lines).mapError ParseError.malformed) := by
  cases h : (Token.stream mode first lines).outcome with
  | error e =>
    obtain ⟨hsource, hge, hlt⟩ := Token.stream_error h
    rw [Gives, Logged.mapError, h]
    exact ⟨hsource, hge, hlt⟩
  | ok tokens =>
    rw [Gives, Logged.mapError, h]
    exact Token.run_of_streamFrom h

/-- The members of a record are read within the lines of its body when the fuel exceeds the size
of the body: the bodies in it are smaller than the body itself. -/
theorem membersOf_gives (options : ParseOptions) {fuel : Nat} {head : RecordHead}
    (hfuel : weight head.body < fuel) (name : String) :
    Gives head.bodyBegin (head.bodyBegin + head.body.length) (fun _ => True)
      (membersOf options fuel name head) := by
  induction fuel generalizing name head with
  | zero => omega
  | succ fuel ih =>
    rw [membersOf]
    refine (stream_gives _ head.body).bind fun tokens hrun => ?_
    refine (Builder.runAll_gives (fun token htoken hne => ?_) (.of_none rfl)).bind
      fun b _ => Gives.pure trivial
    obtain ⟨hge, hlt, hle, hbody⟩ := hrun.start_bounds htoken hne
    refine ⟨hge, by omega, fun inner hinner name' => ?_⟩
    obtain ⟨hfrom, hto, hlight⟩ := hbody inner hinner
    -- the inner body is lighter, so one step less suffices for it
    exact (ih (by omega) name').widen (by omega) (by omega)

/-- The body of a token weighs no more than all bodies together. -/
theorem weight_le_flatMap {tokens : List Token} {token : Token} (htoken : token ∈ tokens) :
    weight (bodyLines token) ≤ weight (tokens.flatMap bodyLines) := by
  induction tokens with
  | nil => cases htoken
  | cons t tokens ih =>
    rw [List.flatMap_cons, weight_append]
    rcases List.mem_cons.1 htoken with rfl | htoken
    · omega
    · have := ih htoken
      omega

/-- The tokens of lines give a header, or an error on one of these lines. -/
theorem ofTokens_gives {mode : Token.Mode} (name : String) (options : ParseOptions)
    {lines : List Line} {tokens : List Token} (hrun : Token.Run mode (.start first lines) tokens) :
    Gives first (first + lines.length) (fun _ => True) (ofTokens name options tokens) := by
  rw [ofTokens]
  refine (Builder.runAll_gives (fun token htoken hne => ?_) (.of_none rfl)).bind
    fun b _ => Gives.pure trivial
  obtain ⟨hge, hlt, hle, hbody⟩ := hrun.start_bounds htoken hne
  refine ⟨hge, by omega, fun head hhead name' => ?_⟩
  obtain ⟨hfrom, hto, -⟩ := hbody head hhead
  have hweight : weight head.body ≤ weight (tokens.flatMap bodyLines) := by
    have := weight_le_flatMap htoken
    rwa [bodyLines, hhead] at this
  exact (membersOf_gives options (by omega) name').widen (by omega) (by omega)

/-- **Parsing is total up to its two errors.**  The lines of a header give a header, or a
malformation of the source, or a token that gives no entry; and the line that the error names is
one of the given lines. -/
theorem ofLines_total (name : String) (options : ParseOptions) (lines : List Line) :
    (∃ header, (ofLines name options lines).outcome = .ok header) ∨
    (∃ e, (ofLines name options lines).outcome = .error (.malformed e) ∧
      e.cause.isOfSource = true ∧ 1 ≤ e.line ∧ e.line ≤ lines.length) ∨
    (∃ kind line detail,
      (ofLines name options lines).outcome = .error (.unexpected kind line detail) ∧
      1 ≤ line ∧ line ≤ lines.length) := by
  have hgives : Gives 1 (1 + lines.length) (fun _ => True) (ofLines name options lines) := by
    rw [ofLines]
    exact (stream_gives {} lines).bind fun tokens hrun => ofTokens_gives name options hrun
  rw [Gives] at hgives
  cases h : (ofLines name options lines).outcome with
  | ok header => exact Or.inl ⟨header, rfl⟩
  | error e =>
    rw [h] at hgives
    obtain ⟨hsource, hge, hlt⟩ := hgives
    cases e with
    | malformed e =>
      have hge' : 1 ≤ e.line := hge
      have hlt' : e.line < 1 + lines.length := hlt
      exact Or.inr (Or.inl ⟨e, rfl, hsource, hge', by omega⟩)
    | unexpected kind line detail =>
      have hge' : 1 ≤ line := hge
      have hlt' : line < 1 + lines.length := hlt
      exact Or.inr (Or.inr ⟨kind, line, detail, rfl, hge', by omega⟩)

end Header

end HeaderApi
