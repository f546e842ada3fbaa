import HeaderApi.Proofs.TopLevelParts
import HeaderApi.Source.Closing

/-!
# The commas between parameters

Where a parameter list is split, compared with a scan that reads it as the language does: a
backslash in a literal takes the next character with it, and the arrow closes no bracket.  The two
are in the same state all along exactly when no literal has its own quote behind a backslash and no
arrow stands outside of literals, and then they cut at the same commas.
-/

namespace HeaderApi.Source

/-! ## The scan of a parameter list -/

/-- Where a scan of a parameter list stands: with respect to literals, the bracket depth, and
whether the character before is a minus sign outside of literals. -/
structure Listing where
  quoting : Quoting
  depth : Int
  minus : Bool
  deriving DecidableEq, Repr

namespace Listing

/-- Outside literals and brackets. -/
def start : Listing := ⟨.outside, 0, false⟩

/-- What a character outside of literals adds to the depth.  The angle bracket of an arrow adds
nothing. -/
def level (minus : Bool) (c : Char) : Int :=
  if isOpening c then 1 else if isClosing c && !(minus && c = '>') then -1 else 0

/-- The state after one more character. -/
def next (c : Char) (listing : Listing) : Listing :=
  match listing.quoting with
  | .outside => ⟨listing.quoting.next c, listing.depth + level listing.minus c, c = '-'⟩
  | quoting => ⟨quoting.next c, listing.depth, false⟩

/-- The state after some characters. -/
def after (listing : Listing) (cs : List Char) : Listing :=
  cs.foldl (fun listing c => listing.next c) listing

/-- Whether a character separates two parameters. -/
def separates (c : Char) (listing : Listing) : Bool :=
  c = ',' && listing.quoting = .outside && listing.depth = 0

/-- The parameters of a text that is read from the given state. -/
def parts : Listing → List Char → List (List Char)
  | _, [] => [[]]
  | listing, c :: rest =>
    if listing.separates c then [] :: (listing.next c).parts rest
    else consPart c ((listing.next c).parts rest)

/-- The quote of a literal behind a backslash in it, and the angle bracket of an arrow. -/
def Misreads (c : Char) (listing : Listing) : Prop :=
  listing.quoting = .escaped c ∨ listing.quoting = .outside ∧ listing.minus = true ∧ c = '>'

instance (c : Char) (listing : Listing) : Decidable (listing.Misreads c) :=
  inferInstanceAs (Decidable (_ ∨ _))

/-- A text without such characters. -/
def IsPlain (listing : Listing) (cs : List Char) : Prop :=
  ∀ front c rest, cs = front ++ c :: rest → ¬(listing.after front).Misreads c

end Listing

/-- The quote of the literal in which a scan stands. -/
def Quoting.quote? : Quoting → Option Char
  | .outside => none
  | .inside quote | .escaped quote => some quote

/-- A scan for separators is in the state of the scan of a parameter list. -/
structure Nesting.Follows (listing : Listing) (state : Nesting) : Prop where
  quote : state.quote = listing.quoting.quote?
  depth : state.depth = listing.depth
  literal : ∀ quote ∈ listing.quoting.quote?, isQuote quote = true

namespace Nesting

variable {listing : Listing} {state : Nesting} {cs : List Char} {c : Char}

theorem follows_iff : Follows listing state ↔ state.quote = listing.quoting.quote? ∧
    state.depth = listing.depth ∧ ∀ quote ∈ listing.quoting.quote?, isQuote quote = true :=
  ⟨fun h => ⟨h.quote, h.depth, h.literal⟩, fun h => ⟨h.1, h.2.1, h.2.2⟩⟩

theorem follows_start : Follows .start .top := ⟨rfl, rfl, nofun⟩

/-- Outside of literals all characters are read alike but the angle bracket of an arrow. -/
theorem follows_next_outside (depth : Int) (minus : Bool) (c : Char) :
    Follows (Listing.next c ⟨.outside, depth, minus⟩) (next c ⟨none, depth⟩) ↔
      ¬(minus = true ∧ c = '>') := by
  by_cases hquote : isQuote c = true
  · have hlevel : Listing.level minus c = 0 := by
      simp only [isQuote, Bool.or_eq_true, decide_eq_true_eq] at hquote
      rcases hquote with rfl | rfl <;> cases minus <;> rfl
    have harrow : c ≠ '>' := by
      rintro rfl
      cases hquote
    simp [follows_iff, Listing.next, next, Quoting.next, Quoting.quote?, hquote, hlevel, harrow]
  · by_cases harrow : minus = true ∧ c = '>'
    · -- the depth stays here, and goes down there
      obtain ⟨rfl, rfl⟩ := harrow
      have hdepth : ¬depth - 1 = depth := by omega
      simp [follows_iff, Listing.next, next, Listing.level, isQuote, isOpening, isClosing, hdepth]
    · have hangle : (minus && decide (c = '>')) = false := by
        cases minus with
        | false => rfl
        | true => exact decide_eq_false fun hc => harrow ⟨rfl, hc⟩
      refine iff_of_true ?_ harrow
      rw [follows_iff, Listing.next, next, Listing.level, hangle]
      simp only [hquote, Bool.false_eq_true, if_false, Quoting.next, Quoting.quote?]
      cases hopening : isOpening c with
      | true => exact ⟨rfl, rfl, nofun⟩
      | false =>
        cases hclosing : isClosing c with
        | true => exact ⟨rfl, rfl, nofun⟩
        | false => exact ⟨rfl, (Int.add_zero depth).symm, nofun⟩

/-- In a literal all characters are read alike but its own quote behind a backslash. -/
theorem follows_next_literal {quoting : Quoting} {quote : Char} (depth : Int) (minus : Bool)
    (hquoting : quoting = .inside quote ∨ quoting = .escaped quote) (hquote : isQuote quote = true)
    (c : Char) :
    Follows (Listing.next c ⟨quoting, depth, minus⟩) (next c ⟨some quote, depth⟩) ↔
      quoting ≠ .escaped c := by
  have hslash : '\\' ≠ quote := by
    rintro rfl
    cases hquote
  rw [follows_iff]
  rcases hquoting with rfl | rfl
  · by_cases hescape : c = '\\'
    · simp [Listing.next, next, Quoting.next, Quoting.quote?, hescape, hslash, hquote]
    · by_cases hc : c = quote
      · simp [Listing.next, next, Quoting.next, Quoting.quote?, hc, hslash.symm]
      · simp [Listing.next, next, Quoting.next, Quoting.quote?, hc, hescape, hquote]
  · by_cases hc : c = quote
    · simp [Listing.next, next, Quoting.next, Quoting.quote?, hc]
    · simp [Listing.next, next, Quoting.next, Quoting.quote?, hc, hquote, Ne.symm hc]

/-- One character is read alike exactly if it is not misread. -/
theorem Follows.next_iff (h : Follows listing state) (c : Char) :
    Follows (listing.next c) (state.next c) ↔ ¬listing.Misreads c := by
  obtain ⟨quoting, depth, minus⟩ := listing
  obtain ⟨quote, depth'⟩ := state
  obtain ⟨hquote, hdepth, hliteral⟩ := h
  dsimp only at hquote hdepth hliteral
  subst hquote hdepth
  cases quoting with
  | outside =>
    exact (follows_next_outside depth' minus c).trans (by simp [Listing.Misreads])
  | inside quote =>
    exact (follows_next_literal depth' minus (.inl rfl) (hliteral quote rfl) c).trans
      (by simp [Listing.Misreads])
  | escaped quote =>
    exact (follows_next_literal depth' minus (.inr rfl) (hliteral quote rfl) c).trans
      (by simp [Listing.Misreads])

end Nesting

/-! ## Whole texts -/

section Texts

variable {listing : Listing} {state : Nesting} {cs : List Char} {c : Char}

/-- A text is plain when its first character is not misread and the rest is plain behind it. -/
theorem Listing.isPlain_cons :
    listing.IsPlain (c :: cs) ↔ ¬listing.Misreads c ∧ (listing.next c).IsPlain cs := by
  constructor
  · intro h
    refine ⟨h [] c cs rfl, fun front d rest hcs => ?_⟩
    exact h (c :: front) d rest (by rw [hcs]; rfl)
  · rintro ⟨hc, h⟩ (_ | ⟨d, front⟩) e rest hcs
    · obtain ⟨rfl, -⟩ := List.cons.inj hcs
      exact hc
    · obtain ⟨rfl, hrest⟩ := List.cons.inj hcs
      exact h front e rest hrest

instance Listing.decidableIsPlain : ∀ (listing : Listing) (cs : List Char),
    Decidable (listing.IsPlain cs)
  | _, [] => isTrue fun front c rest h => by cases front <;> cases h
  | listing, c :: cs =>
    have := decidableIsPlain (listing.next c) cs
    decidable_of_iff _ isPlain_cons.symm

/-- The scan for separators follows the scan of the parameters through a text exactly if nothing
in it is misread. -/
theorem Nesting.Follows.forall_prefix_iff (h : Follows listing state) :
    (∀ front rest, cs = front ++ rest → Follows (listing.after front) (state.after front)) ↔
      listing.IsPlain cs := by
  induction cs generalizing listing state with
  | nil =>
    refine iff_of_true (fun front rest hcs => ?_) fun front c rest hcs => ?_
    · rw [(List.append_eq_nil_iff.1 hcs.symm).1]
      exact h
    · cases (List.append_eq_nil_iff.1 hcs.symm).2
  | cons c cs ih =>
    rw [Listing.isPlain_cons, ← h.next_iff c]
    constructor
    · intro hall
      have hnext : Follows (listing.next c) (state.next c) := hall [c] cs rfl
      exact ⟨hnext, (ih hnext).1 fun front rest hcs => hall (c :: front) rest (by rw [hcs]; rfl)⟩
    · rintro ⟨hnext, hplain⟩ (_ | ⟨d, front⟩) rest hcs
      · exact h
      · obtain ⟨rfl, hrest⟩ := List.cons.inj hcs
        exact (ih hnext).2 hplain front rest hrest

/-- Scans in the same state find the same separators. -/
theorem Nesting.Follows.separates_eq (h : Follows listing state) (c : Char) :
    state.separates ',' c = listing.separates c := by
  have htop : state = .top ↔ listing.quoting = .outside ∧ listing.depth = 0 := by
    obtain ⟨quote, depth⟩ := state
    have hquote : quote = listing.quoting.quote? := h.quote
    have hdepth : depth = listing.depth := h.depth
    rw [Nesting.top, Nesting.mk.injEq, hquote, hdepth]
    cases listing.quoting <;> simp [Quoting.quote?]
  by_cases hc : c = ','
  · subst hc
    simp [Nesting.separates, Listing.separates, htop, isQuote, isOpening, isClosing]
  · simp [Nesting.separates, Listing.separates, hc]

/-- Where nothing is misread a text is cut at the same commas. -/
theorem Nesting.Follows.splitFrom_eq (h : Follows listing state) (hplain : listing.IsPlain cs) :
    splitFrom ',' state cs = listing.parts cs := by
  induction cs generalizing listing state with
  | nil => rfl
  | cons c cs ih =>
    obtain ⟨hc, hcs⟩ := Listing.isPlain_cons.1 hplain
    have hlater := ih ((h.next_iff c).2 hc) hcs
    rw [splitFrom, Listing.parts, h.separates_eq c, hlater]
    split
    · rename_i hseparates
      -- a comma at the top level leaves the scan where it is
      rw [← h.separates_eq c] at hseparates
      simp only [separates, Bool.and_eq_true, decide_eq_true_eq] at hseparates
      obtain ⟨⟨⟨⟨rfl, rfl⟩, -⟩, -⟩, -⟩ := hseparates
      rw [← hlater]
      rfl
    · rfl

end Texts

/-- **A parameter list is split at the commas between its parameters as long as it is read alike.**
The scan for separators is in the state of the scan of the parameters behind every part of the text
exactly if no literal has its own quote behind a backslash and no arrow stands outside of literals.
Then the text is cut exactly at the commas which that scan finds outside of literals and
brackets. -/
theorem splitTopLevel_parameters (text : List Char) :
    ((∀ front rest, text = front ++ rest →
      Nesting.Follows (Listing.start.after front) (Nesting.top.after front)) ↔
        Listing.start.IsPlain text) ∧
    (Listing.start.IsPlain text → splitTopLevel ',' text = Listing.start.parts text) :=
  ⟨Nesting.follows_start.forall_prefix_iff, fun hplain => Nesting.follows_start.splitFrom_eq hplain⟩

/-- Commas in brackets and in literals, one of which ends in an escaped backslash. -/
def pathText : List Char :=
  "std::map<int, int> m = \x7b'\\n', ','\x7d, const char *s = \"->,\\\\\", int n = a[1, f(2, 3)]".toList

/-- Commas in angle brackets, in a list of characters, in a literal and in a call separate nothing.
-/
theorem splitTopLevel_parameters_path :
    Listing.start.IsPlain pathText ∧ (Listing.start.parts pathText).length = 3 ∧
      splitTopLevel ',' pathText = Listing.start.parts pathText :=
  have hplain : Listing.start.IsPlain pathText := by decide +kernel
  ⟨hplain, by decide +kernel, (splitTopLevel_parameters pathText).2 hplain⟩

/-- A literal with an escaped quote of its own, before a comma. -/
def escapedText : List Char := "char q = '\\'', int b".toList

/-- An escaped quote is taken for the end of its literal, and the comma behind the literal for one
inside. -/
theorem not_forall_splitTopLevel_parameters :
    ¬ ∀ text : List Char, splitTopLevel ',' text = Listing.start.parts text := by
  intro h
  exact absurd (h escapedText) (by decide)

example : splitTopLevel ',' "int x = p->x, int y".toList = ["int x = p->x, int y".toList] ∧
    Listing.start.parts "int x = p->x, int y".toList =
      ["int x = p->x".toList, " int y".toList] := by decide

end HeaderApi.Source
