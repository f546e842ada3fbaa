import Mathlib.Data.List.DropRight
import HeaderApi.Proofs.Blocks
import HeaderApi.Proofs.Tiling

/-!
# Look-ahead

A reader that stops before the end of the text has looked at the lines that it takes, at the blank
lines behind them, and at the first visible line after those.  So the tokens that a stream gives
depend on the lines that they cover and on one line more: nothing behind that line can change them.
-/

namespace HeaderApi

open Text Source

/-! ## Texts with a common beginning -/

/-- Two visible lines that readers which stop in front of them do not tell apart: they look at
what the line begins with, up to its first parenthesis at most. -/
structure Alike (next next' : Line) : Prop where
  visible : allBlank next = false
  visible' : allBlank next' = false
  starts : ∀ opening : List Char, '(' ∉ opening →
    startsWith opening (trim next') = startsWith opening (trim next)
  marker : Comment.isForwardMarker (trim next') = Comment.isForwardMarker (trim next)
  const : trim next' = "const".toList ↔ trim next = "const".toList

namespace Alike

variable {next next' : Line}

theorem refl (h : allBlank next = false) : Alike next next := ⟨h, h, fun _ _ => rfl, rfl, .rfl⟩

theorem trim_ne_nil (h : Alike next next') : trim next ≠ [] ∧ trim next' ≠ [] := by
  obtain ⟨c, hc, hvisible⟩ := List.all_eq_false.1 h.visible
  obtain ⟨c', hc', hvisible'⟩ := List.all_eq_false.1 h.visible'
  exact ⟨Text.trim_ne_nil hc (by simpa using hvisible),
    Text.trim_ne_nil hc' (by simpa using hvisible')⟩

/-- Lines that are not told apart begin with the same words, where these have no parenthesis. -/
theorem startsWithAny_eq (h : Alike next next') {openings : List (List Char)}
    (hopenings : ∀ opening ∈ openings, '(' ∉ opening) :
    startsWithAny openings (trim next') = startsWithAny openings (trim next) := by
  induction openings with
  | nil => rfl
  | cons opening openings ih =>
    obtain ⟨hopening, hopenings⟩ := List.forall_mem_cons.1 hopenings
    rw [startsWithAny, startsWithAny, List.any_cons, List.any_cons, h.starts opening hopening]
    exact congrArg _ (ih hopenings)

theorem isDocLine_eq (h : Alike next next') :
    Comment.isDocLine (trim next') = Comment.isDocLine (trim next) := by
  rw [Comment.isDocLine, Comment.isDocLine, h.startsWithAny_eq (by decide), h.starts _ (by decide)]

/-- Of two lines that are not told apart both continue a function, or none does. -/
theorem continuesFunction_eq (h : Alike next next') :
    Block.continuesFunction (trim next') = Block.continuesFunction (trim next) := by
  rw [Block.continuesFunction, Block.continuesFunction, h.starts _ (by decide),
    h.startsWithAny_eq (by decide), decide_eq_decide.2 h.const]

end Alike

/-- Two texts that are the same up to the lines `next` and `next'`, and go on with lines of their
own behind these. -/
inductive Shared (next next' : Line) (behind behind' : List Line) : List Line → List Line → Prop
  | here : Shared next next' behind behind' (next :: behind) (next' :: behind')
  | cons (line : Line) {rest rest' : List Line} (h : Shared next next' behind behind' rest rest') :
      Shared next next' behind behind' (line :: rest) (line :: rest')

variable {next next' : Line} {behind behind' rest rest' : List Line}

/-- Texts with the same first lines share these. -/
theorem Shared.of_take {p : Nat} (h : rest.drop p = next :: behind)
    (hagree : rest'.take (p + 1) = rest.take (p + 1)) :
    Shared next next behind (rest'.drop (p + 1)) rest rest' := by
  induction p generalizing rest rest' with
  | zero =>
    rw [List.drop_zero] at h
    subst h
    cases rest' with
    | nil => cases hagree
    | cons line rest' =>
      obtain ⟨rfl, -⟩ := List.cons.inj hagree
      exact .here
  | succ p ih =>
    cases rest with
    | nil => cases h
    | cons line rest =>
      cases rest' with
      | nil => cases hagree
      | cons line' rest' =>
        obtain ⟨rfl, htail⟩ := List.cons.inj hagree
        exact .cons line' (ih h htail)

/-- Texts with a common beginning differ in length as much as what lies behind does. -/
theorem Shared.length_eq (h : Shared next next' behind behind' rest rest') :
    rest.length + behind'.length = rest'.length + behind.length := by
  induction h with
  | here =>
    rw [List.length_cons, List.length_cons]
    omega
  | cons line h ih =>
    rw [List.length_cons, List.length_cons]
    omega

/-- Blank lines are skipped alike, up to the line `next` at most. -/
theorem Shared.skipBlankLines (h : Shared next next' behind behind' rest rest')
    (hnext : Alike next next') :
    Shared next next' behind behind' (Token.skipBlankLines rest) (Token.skipBlankLines rest') := by
  induction h with
  | here =>
    -- the skipping ends at `next`, which is visible
    have hstop : Token.skipBlankLines (next :: behind) = next :: behind :=
      List.dropWhile_cons_of_neg (by simp [hnext.visible])
    have hstop' : Token.skipBlankLines (next' :: behind') = next' :: behind' :=
      List.dropWhile_cons_of_neg (by simp [hnext.visible'])
    rw [hstop, hstop']
    exact .here
  | @cons line rest rest' h ih =>
    cases hline : allBlank line with
    | true =>
      have hskip : ∀ lines : List Line,
          Token.skipBlankLines (line :: lines) = Token.skipBlankLines lines :=
        fun lines => List.dropWhile_cons_of_pos hline
      rw [hskip, hskip]
      exact ih
    | false =>
      have hstop : ∀ lines : List Line, Token.skipBlankLines (line :: lines) = line :: lines :=
        fun lines => List.dropWhile_cons_of_neg (by simp [hline])
      rw [hstop, hstop]
      exact h.cons line

/-! ## Outcomes on two texts -/

/-- Results that leave lines to the next reader. -/
class Leaves (α : Type) where
  left : α → List Line
  withLeft : α → List Line → α

instance : Leaves (List Line) := ⟨id, fun _ rest => rest⟩

instance {α β : Type} [Leaves β] : Leaves (α × β) :=
  ⟨fun r => Leaves.left r.2, fun r rest => (r.1, Leaves.withLeft r.2 rest)⟩

instance : Leaves Token.Read := ⟨Token.Read.rest, fun read rest => { read with rest }⟩

open Leaves

/-- The result of a reader that gives one has the property. -/
theorem Yields.of_ok {α : Type} {P : α → Prop} {x : Except Fault α} {a : α} (h : Yields P x)
    (ha : x = .ok a) : P a := by
  rw [ha] at h
  exact h

/-- The outcomes of a reader on two texts with a common beginning: when the first gives a result
and leaves the line `next`, the second gives that result and leaves the line `next'`. -/
def Local (next next' : Line) (behind behind' : List Line) {α : Type} [Leaves α]
    (x y : Except Fault α) : Prop :=
  ∀ r, x = .ok r → behind.length < (left r).length →
    ∃ rest', Shared next next' behind behind' (left r) rest' ∧ y = .ok (withLeft r rest')

namespace Local

variable {α β : Type} [Leaves α] [Leaves β] {x y : Except Fault α}

/-- A result that takes the line `next` is of no concern. -/
theorem of_beyond (h : ∀ r, x = .ok r → left r <:+ behind) :
    Local next next' behind behind' x y := by
  intro r hr hleft
  exact absurd (h r hr).length_le (Nat.not_le_of_lt hleft)

/-- A reader that goes beyond the common beginning has nothing to agree on. -/
theorem of_yields (h : Yields (fun r => left r <:+ behind) x) :
    Local next next' behind behind' x y := by
  apply of_beyond
  rintro r rfl
  exact h

theorem error (fault : Fault) : Local next next' behind behind' (.error fault) y := nofun

/-- Readers that leave shared lines agree when their results do. -/
theorem ok {r r' : α} (h : Shared next next' behind behind' (left r) (left r'))
    (hr : r' = withLeft r (left r')) : Local next next' behind behind' (.ok r) (.ok r') := by
  rintro _ ⟨⟩ -
  exact ⟨left r', h, congrArg Except.ok hr⟩

/-- Two readers agree in turn when each of them does, and the second goes no way back. -/
theorem bind {f g : α → Except Fault β} (h : Local next next' behind behind' x y)
    (hleft : ∀ r s, f r = .ok s → left s <:+ left r)
    (hf : ∀ r rest', Shared next next' behind behind' (left r) rest' →
      Local next next' behind behind' (f r) (g (withLeft r rest'))) :
    Local next next' behind behind' (x >>= f) (y >>= g) := by
  intro s hs hlong
  cases x with
  | error fault => cases hs
  | ok r =>
    have hsuffix : left s <:+ left r := hleft r s hs
    obtain ⟨rest', hshared, rfl⟩ := h r rfl (Nat.lt_of_lt_of_le hlong hsuffix.length_le)
    exact hf r rest' hshared s hs hlong

/-- What is made of a result does not touch what is left. -/
theorem map {f : α → β} (h : Local next next' behind behind' x y) (hleft : ∀ r, left (f r) = left r)
    (hf : ∀ r rest', f (withLeft r rest') = withLeft (f r) rest') :
    Local next next' behind behind' (x.map f) (y.map f) := by
  intro s hs hlong
  cases x with
  | error fault => cases hs
  | ok r =>
    obtain rfl := Except.ok.inj hs
    rw [hleft] at hlong ⊢
    obtain ⟨rest', hshared, rfl⟩ := h r rfl hlong
    exact ⟨rest', hshared, congrArg Except.ok (hf r rest')⟩

end Local

/-! ## Comments and directives -/

section Readers

/-- Line comments are read up to the first line that is none. -/
theorem Comment.takeLineComments_local (hnext : Alike next next') (isDoc : Bool)
    (h : Shared next next' behind behind' rest rest') :
    Local next next' behind behind' (.ok (takeLineComments isDoc rest))
      (.ok (takeLineComments isDoc rest')) := by
  induction h with
  | here =>
    rw [takeLineComments, takeLineComments]
    dsimp only
    rw [hnext.starts _ (by decide), hnext.marker, hnext.isDocLine_eq]
    split
    · exact .ok .here rfl
    · exact .of_yields (takeLineComments_suffix isDoc behind)
  | @cons line rest rest' h ih =>
    rw [takeLineComments, takeLineComments]
    dsimp only
    split
    · exact .ok (h.cons line) rfl
    · exact ih.map (f := fun r => (trim line :: r.1, r.2)) (fun _ => rfl) fun _ _ => rfl

/-- A run of line comments is read alike on texts that are shared behind it. -/
theorem Comment.readLines_local (hnext : Alike next next') (line : Line)
    (h : Shared next next' behind behind' rest rest') :
    Local next next' behind behind' (.ok (readLines line rest)) (.ok (readLines line rest')) := by
  have hlines := takeLineComments_local hnext (isDocLine line) h
  rw [readLines, readLines]
  dsimp only
  split
  · exact hlines.map (f := fun r => (Statement.doc (String.ofList
      (trim (joinLines ((line :: r.1).map docLineText)))), r.2)) (fun _ => rfl) fun _ _ => rfl
  · exact hlines.map (f := fun r => (Statement.comment, r.2)) (fun _ => rfl) fun _ _ => rfl

/-- The texts of a block comment are read up to the line that ends it. -/
theorem Comment.blockTexts_local (text : Line) (h : Shared next next' behind behind' rest rest') :
    Local next next' behind behind' (blockTexts text rest) (blockTexts text rest') := by
  induction h generalizing text with
  | here =>
    rw [blockTexts, blockTexts]
    split
    · exact .ok .here rfl
    · exact .of_yields ((blockTexts_yields next behind).map fun r hr => hr)
  | @cons line rest rest' h ih =>
    rw [blockTexts, blockTexts]
    split
    · exact .ok (h.cons line) rfl
    · exact (ih line).map (fun _ => rfl) fun _ _ => rfl

/-- A block comment looks no further than its last line. -/
theorem Comment.readBlock_local (line : Line) (h : Shared next next' behind behind' rest rest') :
    Local next next' behind behind' (readBlock line rest) (readBlock line rest') := by
  rw [readBlock, readBlock]
  split
  · exact (blockTexts_local _ h).map (fun _ => rfl) fun _ _ => rfl
  · exact (blockTexts_local _ h).map (fun _ => rfl) fun _ _ => rfl

/-- A directive looks no further than the first line that is not continued. -/
theorem Directive.continuation_local (line : Line)
    (h : Shared next next' behind behind' rest rest') :
    Local next next' behind behind' (.ok (continuation line rest))
      (.ok (continuation line rest')) := by
  induction h generalizing line with
  | here =>
    rw [continuation, continuation]
    split
    · exact .of_yields (continuation_suffix (trim next) behind)
    · exact .ok .here rfl
  | @cons raw rest rest' h ih =>
    rw [continuation, continuation]
    split
    · exact (ih (trim raw)).map (f := fun r => (trim raw :: r.1, r.2)) (fun _ => rfl) fun _ _ => rfl
    · exact .ok (h.cons raw) rfl

/-- A directive is read alike on texts that are shared behind it. -/
theorem Directive.read_local (line : Line) (h : Shared next next' behind behind' rest rest') :
    Local next next' behind behind' (.ok (read line rest)) (.ok (read line rest')) := by
  -- what a directive says depends on the lines that continue it
  have hlines : ∀ f : List Line → Statement,
      Local next next' behind behind'
        (.ok (f (continuation line rest).1, (continuation line rest).2))
        (.ok (f (continuation line rest').1, (continuation line rest').2)) := fun f =>
    (continuation_local line h).map (f := fun r : List Line × List Line => (f r.1, r.2))
      (fun _ => rfl) fun _ _ => rfl
  rw [read, read]
  dsimp only
  split
  · split
    · exact hlines fun others => plain (line :: others)
    · rename_i head _ _
      exact hlines fun others =>
        let value := joinLines ((head.value :: others).map withoutBackslash)
        let doc := Comment.inlineDoc? value
        let bare := trim (Source.code (if doc.isSome then Comment.removeInline value else value))
        .definition (String.ofList head.name) (head.parameters.map (String.ofList ∘ trim))
          (doc.map String.ofList) (if bare = [] then none else some (String.ofList bare))
  · exact hlines fun others => plain (line :: others)

/-! ## Text that runs over lines -/

/-- What brackets enclose is read up to the line of the closing bracket. -/
theorem Block.enclosed_local {opening closing : Char} {depth : Int} {text : Line}
    {list : Enclosed} {left : List Line} (h : Shared next next' behind behind' rest rest')
    (hread : enclosed opening closing depth text rest = some (list, left))
    (hleft : behind.length < left.length) :
    ∃ left', Shared next next' behind behind' left left' ∧
      enclosed opening closing depth text rest' = some (list, left') := by
  induction h generalizing depth text list with
  | here =>
    rw [enclosed] at hread ⊢
    split at hread
    · cases hread
      exact ⟨_, .here, rfl⟩
    · obtain ⟨⟨later, left⟩, hlater, heq⟩ := Option.map_eq_some_iff.1 hread
      cases heq
      -- going on from `next` would leave too little of the text
      exact absurd (enclosed_suffix hlater).length_le (Nat.not_le_of_lt hleft)
  | @cons line rest rest' h ih =>
    rw [enclosed] at hread ⊢
    split at hread
    · cases hread
      exact ⟨_, h.cons line, rfl⟩
    · obtain ⟨⟨later, left⟩, hlater, heq⟩ := Option.map_eq_some_iff.1 hread
      cases heq
      obtain ⟨left', hshared, hlater'⟩ := ih hlater
      exact ⟨left', hshared, by rw [hlater', Option.map_some]⟩

/-- A list in parentheses looks no further than the line that closes it. -/
theorem Block.parenthesized_local (text : Line) (h : Shared next next' behind behind' rest rest') :
    Local next next' behind behind' (parenthesized text rest) (parenthesized text rest') := by
  rintro ⟨list, left⟩ hread hleft
  rw [parenthesized] at hread
  split at hread
  · rename_i henclosed
    cases hread
    obtain ⟨left', hshared, henclosed'⟩ := enclosed_local h henclosed hleft
    exact ⟨left', hshared, by rw [parenthesized, henclosed']; rfl⟩
  · cases hread

/-- Braces are counted up to the line that closes the block. -/
theorem Block.braces_local {depth : Int} {inComment : Bool} {text : Line}
    {passed left : List Line} (h : Shared next next' behind behind' rest rest')
    (hread : braces depth inComment text rest = some (passed, left))
    (hleft : behind.length < left.length) :
    ∃ left', Shared next next' behind behind' left left' ∧
      braces depth inComment text rest' = some (passed, left') := by
  induction h generalizing depth inComment text passed with
  | here =>
    rw [braces] at hread ⊢
    split at hread
    · cases hread
      exact ⟨_, .here, rfl⟩
    · obtain ⟨⟨later, left⟩, hlater, heq⟩ := Option.map_eq_some_iff.1 hread
      cases heq
      -- going on from `next` would leave too little of the text
      have hsuffix : left <:+ behind := ⟨later, (braces_spec hlater).1.symm⟩
      exact absurd hsuffix.length_le (Nat.not_le_of_lt hleft)
  | @cons line rest rest' h ih =>
    rw [braces] at hread ⊢
    split at hread
    · cases hread
      exact ⟨_, h.cons line, rfl⟩
    · obtain ⟨⟨later, left⟩, hlater, heq⟩ := Option.map_eq_some_iff.1 hread
      cases heq
      obtain ⟨left', hshared, hlater'⟩ := ih hlater
      exact ⟨left', hshared, by rw [hlater', Option.map_some]⟩

/-- Where a fault stays does not matter for a block that ends. -/
theorem Block.openBraces_local (here here' : List Line) (text : Line)
    (h : Shared next next' behind behind' rest rest') :
    Local next next' behind behind' (openBraces here text rest) (openBraces here' text rest') := by
  rintro ⟨inside, passed, left⟩ hread hleft
  rw [openBraces] at hread ⊢
  split at hread
  · cases hread
  · split at hread
    · rename_i hbraces
      cases hread
      obtain ⟨left', hshared, hbraces'⟩ := braces_local h hbraces hleft
      exact ⟨left', hshared, by rw [hbraces']; rfl⟩
    · cases hread

/-- What follows a braced block is found alike on texts that are shared behind it. -/
theorem Block.afterBraces_local (here here' : List Line) (text : Line)
    (h : Shared next next' behind behind' rest rest') :
    Local next next' behind behind' (afterBraces here text rest) (afterBraces here' text rest') :=
  (openBraces_local here here' text h).map (fun _ => rfl) fun _ _ => rfl

/-- The brace of an initializer is looked for on shared lines only. -/
theorem Block.initializerBrace_local {text line : Line} {left : List Line}
    (h : Shared next next' behind behind' rest rest')
    (hread : initializerBrace text rest = some (line, left))
    (hleft : behind.length < left.length) :
    ∃ left', Shared next next' behind behind' left left' ∧
      initializerBrace text rest' = some (line, left') := by
  induction h generalizing text with
  | here =>
    rw [initializerBrace] at hread ⊢
    split at hread
    · rename_i hopens
      cases hread
      exact ⟨_, .here, if_pos hopens⟩
    · exact absurd (initializerBrace_spec hread).2.length_le (Nat.not_le_of_lt hleft)
  | @cons raw rest rest' h ih =>
    rw [initializerBrace] at hread ⊢
    split at hread
    · rename_i hopens
      cases hread
      exact ⟨_, h.cons raw, if_pos hopens⟩
    · rename_i hopens
      obtain ⟨left', hshared, hread'⟩ := ih hread
      exact ⟨left', hshared, (if_neg hopens).trans hread'⟩

/-- The body behind the initializers of a constructor. -/
theorem Block.initializerBody_local (here here' : List Line) (text : Line)
    (h : Shared next next' behind behind' rest rest') :
    Local next next' behind behind'
      (match initializerBrace text rest with
      | some (line, rest) => afterBraces here line rest
      | none => .error ⟨.constructorInitializer, here⟩)
      (match initializerBrace text rest' with
      | some (line, rest) => afterBraces here' line rest
      | none => .error ⟨.constructorInitializer, here'⟩) := by
  intro left hread hlong
  split at hread
  · rename_i line below hline
    have hsuffix : Yields (fun left => left <:+ below) (afterBraces here line below) :=
      afterBraces_yields (initializerBrace_spec hline).1
    rw [hread] at hsuffix
    obtain ⟨below', hbelow, hline'⟩ :=
      initializerBrace_local h hline (Nat.lt_of_lt_of_le hlong hsuffix.length_le)
    rw [hline']
    exact afterBraces_local here here' line hbelow left hread hlong
  · cases hread

/-- An initializer list leaves an end of the lines that it was given. -/
theorem Block.initializerBody_yields (here : List Line) (text : Line) (rest : List Line) :
    Yields (fun left => left <:+ rest)
      (match initializerBrace text rest with
      | some (line, rest) => afterBraces here line rest
      | none => .error ⟨.constructorInitializer, here⟩) := by
  split
  · rename_i line below hline
    obtain ⟨hmem, hbelow⟩ := initializerBrace_spec hline
    exact (afterBraces_yields hmem).imp fun left hleft => hleft.trans hbelow
  · exact rfl

/-- The end of a function is found alike when the line behind it is alike. -/
theorem Block.functionTail_local (hnext : Alike next next') {here here' : List Line}
    (text : Line) (h : Shared next next' behind behind' rest rest')
    (hhere : Shared next next' behind behind' here here') :
    Local next next' behind behind' (functionTail here text rest)
      (functionTail here' text rest') := by
  induction h generalizing here here' text with
  | here =>
    rw [functionTail, functionTail]
    split
    · exact afterBraces_local here here' _ hhere
    · split
      · exact .ok hhere rfl
      · -- the line `next` is visible in both texts, so the tail ends at it or takes it
        dsimp only
        rw [if_neg hnext.trim_ne_nil.1, if_neg hnext.trim_ne_nil.2,
          hnext.starts ['\x7b'] (by decide), hnext.starts [':'] (by decide),
          hnext.continuesFunction_eq]
        split
        · rename_i hbrace
          exact .of_yields (afterBraces_yields (mem_of_startsWith hbrace))
        · split
          · exact .of_yields (initializerBody_yields here (trim next) behind)
          · split
            · exact .of_yields (functionTail_yields behind _ behind List.suffix_rfl)
            · exact .ok hhere rfl
  | @cons line rest rest' h ih =>
    rw [functionTail, functionTail]
    split
    · exact afterBraces_local here here' _ hhere
    · split
      · exact .ok hhere rfl
      · dsimp only
        split
        · exact ih text hhere
        · split
          · exact afterBraces_local here here' _ h
          · split
            · exact initializerBody_local here here' (trim line) h
            · split
              · exact ih _ h
              · exact .ok hhere rfl

/-- A statement looks no further than the line of its semicolon. -/
theorem Block.statement_local (depth : Int) (text : List Char)
    (h : Shared next next' behind behind' rest rest') :
    Local next next' behind behind' (statement depth text rest) (statement depth text rest') := by
  induction h generalizing depth text with
  | here =>
    rw [statement, statement]
    split
    · exact .ok .here rfl
    · exact .of_yields (statement_yields _ _ behind)
  | @cons line rest rest' h ih =>
    rw [statement, statement]
    split
    · exact .ok (h.cons line) rfl
    · exact ih _ _

/-- An initializer looks no further than the line of its semicolon. -/
theorem Block.initializer_local (depth : Int) (inComment : Bool)
    (h : Shared next next' behind behind' rest rest') :
    Local next next' behind behind' (initializer depth inComment rest)
      (initializer depth inComment rest') := by
  induction h generalizing depth inComment with
  | here =>
    -- an initializer takes a line at least
    rw [initializer]
    dsimp only
    refine .of_yields ?_
    split
    · exact List.suffix_rfl
    · exact (initializer_yields _ _ behind).map fun r hr => hr
  | @cons line rest rest' h ih =>
    rw [initializer, initializer]
    dsimp only
    split
    · exact .ok h rfl
    · exact (ih _ _).map (fun _ => rfl) fun _ _ => rfl

/-! ## Names for types -/

/-- A function pointer looks no further than the line of its end. -/
theorem Alias.readPointer_local (head : PointerHead)
    (h : Shared next next' behind behind' rest rest') :
    Local next next' behind behind' (readPointer head rest) (readPointer head rest') := by
  rw [readPointer, readPointer]
  refine (Block.parenthesized_local head.parameters h).bind ?_ ?_
  · rintro ⟨list, left⟩ r hr
    refine Yields.of_ok (P := fun r => r.2 <:+ left) ?_ hr
    dsimp only
    split
    · exact List.suffix_rfl
    · exact (Block.statement_yields 0 _ left).bind fun left' hleft' => hleft'
  · rintro ⟨list, left⟩ left' hleft
    dsimp only [withLeft]
    split
    · exact .ok hleft rfl
    · refine Local.bind (Block.statement_local 0 _ hleft) ?_ ?_
      · rintro left _ ⟨⟩
        exact List.suffix_rfl
      · exact fun left left' hleft => .ok hleft rfl

/-- The parts of an alias are read up to the line of the semicolon. -/
theorem Alias.usingParts_local (h : Shared next next' behind behind' rest rest') :
    Local next next' behind behind' (usingParts rest) (usingParts rest') := by
  induction h with
  | here =>
    rw [usingParts]
    dsimp only
    refine .of_yields ?_
    split
    · exact List.suffix_rfl
    · exact (usingParts_yields behind).map fun r hr => hr
  | @cons line rest rest' h ih =>
    rw [usingParts, usingParts]
    dsimp only
    split
    · exact .ok h rfl
    · exact ih.map (fun _ => rfl) fun _ _ => rfl

/-- An alias looks no further than the line of its semicolon. -/
theorem Alias.readUsing_local (line : Line) (h : Shared next next' behind behind' rest rest') :
    Local next next' behind behind' (readUsing line rest) (readUsing line rest') := by
  rw [readUsing, readUsing]
  split
  · exact .ok h rfl
  · split
    · exact .ok h rfl
    · dsimp only
      split
      · exact .ok h rfl
      · refine (usingParts_local h).bind ?_ ?_
        · rintro r _ ⟨⟩
          exact List.suffix_rfl
        · exact fun r rest' hrest => .ok hrest rfl

/-! ## Records -/

/-- Two searches for the line that opens a body: when the first leaves the line `next`, behind the
line that it finds or because it finds none, the second does so, too. -/
def Record.FoundAlike (next next' : Line) (behind behind' : List Line)
    (x y : Except Fault (Option BodyLine × List Line)) : Prop :=
  (∀ left, x = .ok (none, left) → behind.length < left.length →
    ∃ left', Shared next next' behind behind' left left' ∧ y = .ok (none, left')) ∧
  ∀ line left, x = .ok (some line, left) → behind.length < line.rest.length →
    ∃ below left', Shared next next' behind behind' line.rest below ∧
      y = .ok (some { line with rest := below }, left')

/-- A search that goes beyond the common beginning has nothing to agree on. -/
theorem Record.FoundAlike.of_found {here : List Line} {offset : Nat}
    {x y : Except Fault (Option BodyLine × List Line)} (hhere : here <:+ behind)
    (h : Yields (Found here offset behind) x) : FoundAlike next next' behind behind' x y := by
  constructor
  · rintro left rfl hlong
    exact absurd (h.suffix.trans hhere).length_le (Nat.not_le_of_lt hlong)
  · rintro line left rfl hlong
    obtain ⟨-, skipped, hbehind, -⟩ := h.line line rfl
    rw [hbehind, List.length_append, List.length_cons] at hlong
    omega

/-- A line that is found in front of shared lines is found on both texts. -/
theorem Record.FoundAlike.some {base raw : Line} {offset : Nat} {left left' : List Line}
    (h : Shared next next' behind behind' rest rest') :
    FoundAlike next next' behind behind' (.ok (some ⟨base, raw, offset, rest⟩, left))
      (.ok (some ⟨base, raw, offset, rest'⟩, left')) := by
  constructor
  · nofun
  · rintro _ _ ⟨⟩ -
    exact ⟨rest', left', h, rfl⟩

/-- A line that is found where `next` stands is of no concern. -/
theorem Record.FoundAlike.taken {base raw : Line} {offset : Nat} {left : List Line}
    {y : Except Fault (Option BodyLine × List Line)} :
    FoundAlike next next' behind behind' (.ok (Option.some ⟨base, raw, offset, behind⟩, left))
      y := by
  constructor
  · nofun
  · rintro _ _ ⟨⟩ hlong
    exact absurd hlong (Nat.lt_irrefl _)

/-- Two searches that find nothing on shared lines agree. -/
theorem Record.FoundAlike.none {left left' : List Line}
    (h : Shared next next' behind behind' left left') :
    FoundAlike next next' behind behind' (.ok (none, left)) (.ok (none, left')) := by
  constructor
  · rintro _ ⟨⟩ -
    exact ⟨left', h, rfl⟩
  · nofun

/-- The search for the line that opens a body ends at a visible line, which it takes or leaves. -/
theorem Record.findBody_local (hnext : Alike next next') (name base : List Char)
    {here here' : List Line} (offset : Nat) (h : Shared next next' behind behind' rest rest')
    (hhere : Shared next next' behind behind' here here') :
    FoundAlike next next' behind behind' (findBody name base here offset rest)
      (findBody name base here' offset rest') := by
  induction h generalizing base here here' offset with
  | here =>
    rw [findBody, findBody]
    dsimp only
    -- at `next` the search ends, or what it takes lies behind it
    rw [if_neg hnext.trim_ne_nil.1, if_neg hnext.trim_ne_nil.2, hnext.starts [':'] (by decide),
      hnext.starts ['\x7b'] (by decide)]
    split
    · split
      · exact .taken
      · exact .of_found List.suffix_rfl
          (findBody_yields name _ behind (offset + 1) List.suffix_rfl)
    · split
      · exact .taken
      · exact .none hhere
  | @cons line rest rest' h ih =>
    rw [findBody, findBody]
    dsimp only
    split
    · exact ih base (offset + 1) hhere
    · split
      · split
        · exact .some h
        · exact ih _ (offset + 1) h
      · split
        · exact .some h
        · exact .none hhere

/-- A body is read up to the line of its closing brace. -/
theorem Record.readBody_local (opening : Opening) (base : List Char) (here here' : List Line)
    (raw : Line) (number : Int) (h : Shared next next' behind behind' rest rest') :
    Local next next' behind behind' (readBody opening base here raw number rest)
      (readBody opening base here' raw number rest') := by
  rw [readBody, readBody]
  refine (Block.openBraces_local here here' raw h).bind ?_ ?_
  · rintro ⟨inside, passed, left⟩ r hr
    dsimp only at hr
    split at hr
    · cases hr
    · cases hr
      exact List.suffix_rfl
  · rintro ⟨inside, passed, left⟩ left' hleft
    dsimp only [withLeft]
    split
    · exact .error _
    · exact .ok hleft rfl

/-- A record is read alike when the line behind it is alike. -/
theorem Record.read_local (hnext : Alike next next') (opening : Opening) (raw : Line)
    (number : Int) (h : Shared next next' behind behind' rest rest') :
    Local next next' behind behind' (read opening raw number rest)
      (read opening raw number rest') := by
  rw [read, read]
  split
  · exact readBody_local opening opening.base rest rest' raw number h
  · have hfound := findBody_local hnext opening.name opening.base 0 h h
    intro r hr hlong
    cases hbody : findBody opening.name opening.base rest 0 rest with
    | error fault =>
      rw [hbody] at hr
      cases hr
    | ok found =>
      obtain ⟨found, here⟩ := found
      rw [hbody] at hr hfound
      cases found with
      | none =>
        cases hr
        obtain ⟨left', hshared, hbody'⟩ := hfound.1 here rfl hlong
        exact ⟨left', hshared, by rw [hbody']; rfl⟩
      | some line =>
        have hr : readBody opening line.base here line.raw (number + 1 + line.offset) line.rest =
            .ok r := hr
        -- a line that is found has an opening brace, so its body ends among the lines behind it
        have hline := Yields.of_ok (findBody_yields _ _ rest 0 List.suffix_rfl) hbody
        have hbrace := (hline.line line rfl).1
        have hsuffix : r.2 <:+ line.rest := (Yields.of_ok (readBody_yields _ _ _ hbrace) hr).suffix
        obtain ⟨below, here', hbelow, hbody'⟩ :=
          hfound.2 line here rfl (Nat.lt_of_lt_of_le hlong hsuffix.length_le)
        rw [hbody']
        exact readBody_local opening line.base here here' line.raw _ hbelow r hr hlong

/-! ## Functions and variables -/

/-- A function is read alike when the line behind it is alike. -/
theorem Member.readFunction_local (hnext : Alike next next') (head : Head)
    (parameters : Line) (h : Shared next next' behind behind' rest rest') :
    Local next next' behind behind' (readFunction head parameters rest)
      (readFunction head parameters rest') := by
  rw [readFunction, readFunction]
  refine (Block.parenthesized_local parameters h).bind ?_ ?_
  · rintro ⟨list, left⟩ r hr
    refine Yields.of_ok (P := fun r => r.2 <:+ left) ?_ hr
    refine (Block.functionTail_yields left list.trailer left List.suffix_rfl).bind ?_
    exact fun left' hleft' => hleft'
  · rintro ⟨list, left⟩ left' hleft
    refine (Block.functionTail_local hnext list.trailer hleft hleft).bind ?_ ?_
    · rintro left _ ⟨⟩
      exact List.suffix_rfl
    · exact fun left left' hleft => .ok hleft rfl

/-- A variable looks no further than the line of its semicolon. -/
theorem Member.readVariable_local (member : Line) (head : Head)
    (h : Shared next next' behind behind' rest rest') :
    Local next next' behind behind' (readVariable member head rest)
      (readVariable member head rest') := by
  rw [readVariable, readVariable]
  dsimp only
  split
  · exact .ok h rfl
  · split
    · exact .ok h rfl
    · have hparts := Block.initializer_local (Block.braceBalance (Source.code head.rest)) false h
      refine Local.bind (hparts.map (fun _ => rfl) fun _ _ => rfl) ?_ ?_
      · rintro r _ ⟨⟩
        exact List.suffix_rfl
      · exact fun r rest' hrest => .ok hrest rfl

/-- A member is read alike when the line behind it is alike. -/
theorem Member.read_local (hnext : Alike next next') (line : Line)
    (h : Shared next next' behind behind' rest rest') :
    Local next next' behind behind' (read line rest) (read line rest') := by
  rw [read, read]
  dsimp only
  split
  · exact .ok h rfl
  · refine Local.map ?_ (fun _ => rfl) fun _ _ => rfl
    split
    · exact readFunction_local hnext _ _ h
    · exact readVariable_local _ _ h

/-! ## Statements -/

namespace Token

/-- A template looks no further than the line of its closing bracket. -/
theorem readTemplate_local (text : Line) (scopes : List Scope)
    (h : Shared next next' behind behind' rest rest') :
    Local next next' behind behind' (readTemplate text scopes rest)
      (readTemplate text scopes rest') := by
  intro read hread hlong
  rw [readTemplate] at hread
  split at hread
  · rename_i henclosed
    cases hread
    obtain ⟨left', hshared, henclosed'⟩ := Block.enclosed_local h henclosed hlong
    exact ⟨left', hshared, by rw [readTemplate, henclosed']; rfl⟩
  · cases hread

/-- A declaration is read alike when the line behind it is alike. -/
theorem readDeclaration_local (hnext : Alike next next') (raw line : Line) (number : Int)
    (scopes : List Scope) (h : Shared next next' behind behind' rest rest') :
    Local next next' behind behind' (readDeclaration raw line number scopes rest)
      (readDeclaration raw line number scopes rest') := by
  rw [readDeclaration, readDeclaration]
  dsimp only
  split
  · exact (Alias.readPointer_local _ h).map (fun _ => rfl) fun _ _ => rfl
  · split
    · exact (Record.read_local hnext _ raw number h).map (fun _ => rfl) fun _ _ => rfl
    · split
      · exact .ok h rfl
      · split
        · exact (Alias.readUsing_local line h).map (fun _ => rfl) fun _ _ => rfl
        · split
          · exact .ok h rfl
          · split
            · exact (Record.read_local hnext _ raw number h).map (fun _ => rfl) fun _ _ => rfl
            · exact (Member.read_local hnext line h).map (fun _ => rfl) fun _ _ => rfl

/-- The end of a scope looks at no further line. -/
theorem readScopeEnd_local (scopes : List Scope) (h : Shared next next' behind behind' rest rest') :
    Local next next' behind behind' (.ok (readScopeEnd scopes rest))
      (.ok (readScopeEnd scopes rest')) := by
  unfold readScopeEnd
  split
  · exact .ok h rfl
  · exact .ok h rfl
  · exact .ok h rfl

/-- Code is read alike when the line behind it is alike. -/
theorem readCode_local (hnext : Alike next next') (mode : Mode) (raw line : Line)
    (number : Int) (scopes : List Scope) (h : Shared next next' behind behind' rest rest') :
    Local next next' behind behind' (readCode mode raw line number scopes rest)
      (readCode mode raw line number scopes rest') := by
  rw [readCode, readCode]
  split
  · split
    · exact .ok h rfl
    · exact .ok h rfl
  · split
    · exact (Block.statement_local 0 _ h).map (fun _ => rfl) fun _ _ => rfl
    · split
      · exact .ok h rfl
      · split
        · exact readScopeEnd_local scopes h
        · split
          · exact .ok h rfl
          · split
            · exact .ok h rfl
            · split
              · exact readTemplate_local _ scopes h
              · exact readDeclaration_local hnext raw line number scopes h

/-- **A statement depends on one visible line behind it.**  Where it stops before the line `next`,
no line behind that one matters to it. -/
theorem readStatement_local (hnext : Alike next next') (mode : Mode) (raw : Line)
    (number : Int) (scopes : List Scope) (h : Shared next next' behind behind' rest rest') :
    Local next next' behind behind' (readStatement mode raw number scopes rest)
      (readStatement mode raw number scopes rest') := by
  rw [readStatement, readStatement]
  dsimp only
  split
  · exact .ok h rfl
  · split
    -- a region marker takes all the lines
    · exact .of_beyond fun r hr => by cases hr; exact List.nil_suffix
    · split
      · exact (Comment.readLines_local hnext _ h).map
          (f := fun r => (⟨r.1, scopes, r.2, none⟩ : Read)) (fun _ => rfl) fun _ _ => rfl
      · split
        · exact (Comment.readBlock_local _ h).map (fun _ => rfl) fun _ _ => rfl
        · split
          · exact (Directive.read_local _ h).map (f := fun r => (⟨r.1, scopes, r.2, none⟩ : Read))
              (fun _ => rfl) fun _ _ => rfl
          · exact readCode_local hnext mode raw _ number scopes h

end Token

end Readers

/-! ## Tokens -/

namespace Token

variable {mode : Mode} {first : Int} {c c' : Cursor} {ahead : Advance}

/-- Two cursors at the same line of two texts with a common beginning, with the same open
scopes. -/
structure Cursor.Beside (next next' : Line) (behind behind' : List Line) (c c' : Cursor) :
    Prop where
  line_eq : c'.line = c.line
  scopes_eq : c'.scopes = c.scopes
  shared : Shared next next' behind behind' c.rest c'.rest

/-- Cursors that move to shared lines are beside each other again. -/
theorem Cursor.Beside.moveTo {left left' : List Line}
    (h : Cursor.Beside next next' behind behind' c c')
    (hleft : Shared next next' behind behind' left left') :
    Cursor.Beside next next' behind behind' (c.moveTo left) (c'.moveTo left') := by
  refine ⟨?_, h.scopes_eq, hleft⟩
  have hline := h.line_eq
  have hrest := h.shared.length_eq
  have hleft := hleft.length_eq
  show c'.line + c'.rest.length - left'.length = c.line + c.rest.length - left.length
  omega

/-- A token stops at a visible line or at the end of the text. -/
theorem skipBlankLines_of_step (h : step mode c = .ok ahead) :
    skipBlankLines ahead.cursor.rest = ahead.cursor.rest := by
  cases step_cases h with
  | blank => rfl
  | eof hrest =>
    rw [hrest]
    rfl
  | statement => exact List.dropWhile_idempotent _ _

/-- The tokens of one statement that was read from two cursors beside each other. -/
theorem advance_beside (hnext : Alike next next') (hc : c.Beside next next' behind behind' c')
    (spaces : Nat) {read : Read} {left' : List Line}
    (hleft : Shared next next' behind behind' read.rest left') :
    (advance c' spaces (Leaves.withLeft read left')).token = (advance c spaces read).token ∧
    (advance c' spaces (Leaves.withLeft read left')).log = (advance c spaces read).log ∧
    (advance c spaces read).cursor.Beside next next' behind behind'
      (advance c' spaces (Leaves.withLeft read left')).cursor := by
  have hread := (hc.moveTo hleft).line_eq
  have hafter := hc.moveTo (hleft.skipBlankLines hnext)
  have htoken : (advance c' spaces (Leaves.withLeft read left')).token =
      (advance c spaces read).token := by
    show Token.mk _ c'.line (c'.moveTo (skipBlankLines left')).line _ = Token.mk _ _ _ _
    rw [hafter.line_eq, hc.line_eq]
    rfl
  refine ⟨htoken, ?_, hafter.line_eq, rfl, hafter.shared⟩
  simp only [advance] at htoken ⊢
  rw [htoken, show (Leaves.withLeft read left').rest = left' from rfl, hread]
  rfl

/-- A token that leaves the line `next` is the same in both texts, with its log lines, and leaves
the cursors beside each other. -/
theorem step_beside (hnext : Alike next next') (hc : c.Beside next next' behind behind' c')
    (h : step mode c = .ok ahead) (hleft : behind.length < ahead.cursor.rest.length) :
    ∃ ahead', step mode c' = .ok ahead' ∧ ahead'.token = ahead.token ∧ ahead'.log = ahead.log ∧
      ahead.cursor.Beside next next' behind behind' ahead'.cursor := by
  have hskipped := hc.shared.skipBlankLines hnext
  rw [step] at h ⊢
  generalize hlines : skipBlankLines c.rest = lines at h hskipped
  generalize hlines' : skipBlankLines c'.rest = lines' at hskipped
  cases hskipped with
  | here =>
    dsimp only at h
    split at h
    · rename_i read hread
      cases h
      -- the statement that begins at `next` leaves lines behind it
      have hfits := readStatement_yields mode next (c.moveTo (next :: behind)).line c.scopes behind
      rw [hread] at hfits
      have hsuffix := (skipBlankLines_suffix read.rest).trans hfits.suffix
      exact absurd hsuffix.length_le (Nat.not_le_of_lt hleft)
    · cases h
  | @cons raw rest rest' hshared =>
    dsimp only at h ⊢
    split at h
    · rename_i read hread
      cases h
      have hlong : behind.length < read.rest.length :=
        Nat.lt_of_lt_of_le hleft (skipBlankLines_suffix read.rest).length_le
      obtain ⟨left', hleft', hread'⟩ :=
        readStatement_local hnext mode raw _ c.scopes hshared read hread hlong
      rw [(hc.moveTo (hshared.cons raw)).line_eq, hc.scopes_eq, hread']
      exact ⟨_, rfl, advance_beside hnext hc _ hleft'⟩
    · cases h

/-! ## Runs of calls -/

/-- The tokens that the next calls give and where they leave the stream, when none of them
fails. -/
def nextTokens? (mode : Mode) : Nat → Cursor → Option (List Token × Cursor)
  | 0, c => some ([], c)
  | calls + 1, c =>
    match step mode c with
    | .error _ => none
    | .ok ahead => (nextTokens? mode calls ahead.cursor).map fun later =>
        (ahead.token :: later.1, later.2)

variable {calls : Nat} {tokens : List Token} {left : Cursor}

/-- A step moves a cursor on inside its text. -/
theorem suffix_of_step (h : step mode c = .ok ahead) :
    ahead.cursor.rest <:+ c.rest ∧
      ahead.cursor.line + ahead.cursor.rest.length = c.line + c.rest.length := by
  have hallowed := step_allowed mode c
  rw [h] at hallowed
  rcases hallowed with hends | htakes
  · cases step_cases h with
    | blank _ hrest => exact absurd hends.1 hrest
    | eof => exact ⟨List.suffix_rfl, rfl⟩
    | statement hskip =>
      rw [hends.1] at hskip
      cases hskip
  · exact ⟨htakes.suffix, htakes.line_eq⟩

/-- The token of a step begins at the line of the cursor. -/
theorem beginLine_of_step (h : step mode c = .ok ahead) : ahead.token.beginLine = c.line := by
  have hallowed := step_allowed mode c
  rw [h] at hallowed
  rcases hallowed with hends | htakes
  · exact hends.2.2.1
  · exact htakes.begin_eq

/-- What one step more in front does to a run of calls. -/
theorem nextTokens?_succ (h : nextTokens? mode (calls + 1) c = some (tokens, left)) :
    ∃ ahead later, step mode c = .ok ahead ∧
      nextTokens? mode calls ahead.cursor = some (later, left) ∧ tokens = ahead.token :: later := by
  rw [nextTokens?] at h
  split at h
  · cases h
  · rename_i ahead hstep
    obtain ⟨⟨later, left⟩, hlater, heq⟩ := Option.map_eq_some_iff.1 h
    cases heq
    exact ⟨ahead, later, hstep, hlater, rfl⟩

/-- Calls move a cursor on inside its text. -/
theorem suffix_of_nextTokens? (h : nextTokens? mode calls c = some (tokens, left)) :
    left.rest <:+ c.rest ∧ left.line + left.rest.length = c.line + c.rest.length := by
  induction calls generalizing c tokens with
  | zero =>
    cases h
    exact ⟨List.suffix_rfl, rfl⟩
  | succ calls ih =>
    obtain ⟨ahead, later, hstep, hlater, -⟩ := nextTokens?_succ h
    obtain ⟨hsuffix, hline⟩ := suffix_of_step hstep
    obtain ⟨hsuffix', hline'⟩ := ih hlater
    exact ⟨hsuffix'.trans hsuffix, hline'.trans hline⟩

/-- What calls leave of a text is told by the line at which they stop. -/
theorem rest_of_nextTokens? {p : Nat} (h : nextTokens? mode calls c = some (tokens, left))
    (hline : left.line = c.line + p) : left.rest = c.rest.drop p := by
  obtain ⟨hsuffix, hmoved⟩ := suffix_of_nextTokens? h
  have hp : c.rest.length - left.rest.length = p := by omega
  rw [List.suffix_iff_eq_drop.1 hsuffix, hp]

/-- Calls stop at a visible line or at the end of the text. -/
theorem skipBlankLines_of_nextTokens?
    (h : nextTokens? mode (calls + 1) c = some (tokens, left)) :
    skipBlankLines left.rest = left.rest := by
  induction calls generalizing c tokens with
  | zero =>
    obtain ⟨ahead, later, hstep, hlater, -⟩ := nextTokens?_succ h
    cases hlater
    exact skipBlankLines_of_step hstep
  | succ calls ih =>
    obtain ⟨ahead, later, -, hlater, -⟩ := nextTokens?_succ h
    exact ih hlater

/-- Calls that leave the line `next` give the same tokens in both texts. -/
theorem nextTokens?_beside (hnext : Alike next next') (hc : c.Beside next next' behind behind' c')
    (h : nextTokens? mode calls c = some (tokens, left))
    (hleft : behind.length < left.rest.length) :
    ∃ left', nextTokens? mode calls c' = some (tokens, left') ∧
      left.Beside next next' behind behind' left' := by
  induction calls generalizing c c' tokens with
  | zero =>
    cases h
    exact ⟨c', rfl, hc⟩
  | succ calls ih =>
    obtain ⟨ahead, later, hstep, hlater, rfl⟩ := nextTokens?_succ h
    have hshort := (suffix_of_nextTokens? hlater).1.length_le
    obtain ⟨ahead', hstep', htoken, -, hbeside⟩ :=
      step_beside hnext hc hstep (Nat.lt_of_lt_of_le hleft hshort)
    obtain ⟨left', hlater', hleft'⟩ := ih hbeside hlater
    refine ⟨left', ?_, hleft'⟩
    rw [nextTokens?, hstep']
    dsimp only
    rw [hlater', htoken, Option.map_some]

/-- **One line of look-ahead.**  Calls for tokens that leave the stream at position `p` of a text,
before its end, give the same tokens and leave the same position, line number and open scopes in
every text that agrees with it up to and including the line at `p`.  So no text behind that line,
malformed or not, changes a token that was given. -/
theorem nextTokens_agree {lines lines' : List Line} {p : Nat}
    (h : nextTokens? mode calls (.start first lines) = some (tokens, left))
    (hpos : lines.length = p + left.rest.length) (hp : p < lines.length)
    (hagree : lines'.take (p + 1) = lines.take (p + 1)) :
    nextTokens? mode calls (.start first lines') =
      some (tokens, { left with rest := lines'.drop p }) := by
  cases calls with
  | zero =>
    cases h
    obtain rfl : p = 0 := by
      have hpos : lines.length = p + lines.length := hpos
      omega
    rfl
  | succ calls =>
    have hmoved : left.line + left.rest.length = first + lines.length :=
      (suffix_of_nextTokens? h).2
    have hstop : left.line = first + p := by omega
    have hdrop : left.rest = lines.drop p := rest_of_nextTokens? h hstop
    cases hrest : left.rest with
    | nil =>
      rw [hrest, List.length_nil] at hpos
      omega
    | cons next behind =>
      -- the calls have stopped at `next`, so it is visible
      have hnext : allBlank next = false := by
        have hskip := skipBlankLines_of_nextTokens? h
        rw [hrest, skipBlankLines, List.dropWhile_cons] at hskip
        refine Bool.eq_false_iff.2 fun hblank => ?_
        rw [if_pos hblank] at hskip
        have hshort := (List.dropWhile_suffix allBlank (l := behind)).length_le
        rw [hskip, List.length_cons] at hshort
        omega
      have hbeside : (Cursor.start first lines).Beside next next behind (lines'.drop (p + 1))
          (.start first lines') := ⟨rfl, rfl, .of_take (hdrop.symm.trans hrest) hagree⟩
      obtain ⟨left', hcalls, hline, hscopes, hshared⟩ :=
        nextTokens?_beside (.refl hnext) hbeside h (by rw [hrest]; exact Nat.lt_succ_self _)
      have hrest' : left'.rest = lines'.drop p := rest_of_nextTokens? hcalls (hline.trans hstop)
      rw [hcalls, ← hrest', ← hline, ← hscopes]

/-- Lines that close their scope, and lines that leave it open, with a block that has no end. -/
def closedLines : List Line :=
  ["namespace A \x7b", "int f();", "", "int g();", "\x7d"].map String.toList

def openLines : List Line :=
  ["namespace A \x7b", "int f();", "", "int g();", "struct S \x7b", "/* int x;"].map String.toList

/-- A text that can not be read as a whole gives the same first tokens as one that can. -/
theorem nextTokens_agree_malformed :
    (stream {} 1 openLines).outcome = .error ⟨.body, 6⟩ ∧
      ∃ tokens left, nextTokens? {} 2 (.start 1 closedLines) = some (tokens, left) ∧
        closedLines.length = 3 + left.rest.length ∧ 3 < closedLines.length ∧
        openLines.take 4 = closedLines.take 4 ∧
        tokens.map (·.statement.label) = ["namespace", "function"] ∧
        nextTokens? {} 2 (.start 1 openLines) =
          some (tokens, { left with rest := openLines.drop 3 }) := by
  have hcalls : ∃ tokens left, nextTokens? {} 2 (.start 1 closedLines) = some (tokens, left) ∧
      closedLines.length = 3 + left.rest.length ∧
      tokens.map (·.statement.label) = ["namespace", "function"] := ⟨_, _, rfl, rfl, rfl⟩
  obtain ⟨tokens, left, hnext, hpos, hlabels⟩ := hcalls
  have hp : 3 < closedLines.length := by decide
  have hagree : openLines.take 4 = closedLines.take 4 := rfl
  exact ⟨rfl, tokens, left, hnext, hpos, hp, hagree, hlabels,
    nextTokens_agree hnext hpos hp hagree⟩

end Token

end HeaderApi
