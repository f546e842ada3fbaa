import HeaderApi.Proofs.OpenParameters

/-!
# Lines of members

A line is read as a member when no other statement begins with it.  What begins with a line is
settled up to its first parenthesis, apart from a brace that opens a body, an extent, and the name
of a function pointer.  So text behind that parenthesis that has no brace and no bracket leaves the
line one of a member.
-/

namespace HeaderApi

open Text

/-! ## Functions begin with lines of members -/

namespace Token

variable {mode : Mode} {raw line : Line} {number : Int} {scopes : List Scope} {rest : List Line}
  {read : Read}

/-- A declaration that is a function is no statement of another kind. -/
theorem ReadsDeclaration.declares_of_function {head : FunctionHead}
    (h : ReadsDeclaration raw line number scopes rest read)
    (hfunction : read.statement = .function head) : Member.Declares line := by
  cases h with
  | member hdeclares => exact hdeclares
  | pointer _ hread =>
    obtain ⟨_, _, _, rfl⟩ := Alias.readPointer_cases hread
    cases hfunction
  | record _ _ hread => rcases Record.read_cases hread with ⟨_, rfl⟩ | ⟨_, rfl⟩ <;> cases hfunction
  | definition hstatement =>
    obtain ⟨_, _, rfl⟩ := Alias.definition?_cases hstatement
    cases hfunction
  | usingName hread =>
    rcases Alias.readUsing_cases hread with ⟨_, _, rfl⟩ | ⟨_, rfl⟩ <;> cases hfunction
  | forward hstatement =>
    obtain ⟨_, rfl⟩ := Alias.forward?_cases hstatement
    cases hfunction

/-- The line of a function is that of a member. -/
theorem isMember_of_function {head : FunctionHead}
    (h : readStatement mode raw number scopes rest = .ok read)
    (hfunction : read.statement = .function head) : IsMember mode (trim raw) := by
  have hmain : read.statement.isMain = true := by rw [hfunction]; rfl
  cases readStatement_cases h with
  | marker | region => cases hfunction
  | lineComment => exact absurd hmain (Bool.eq_false_iff.1 (Comment.readLines_minor _ _))
  | blockComment _ hread =>
    exact absurd hmain (Bool.eq_false_iff.1 (Comment.readBlock_minor _ _ _ hread))
  | directive =>
    rcases Directive.read_cases (trim raw) rest with ⟨_, hother⟩ | ⟨_, _, _, _, hother⟩ <;>
      cases hfunction.symm.trans hother
  | code hline hblock hdirective hcode =>
    cases hcode with
    | declaration hmode hpassed hlabel hlinkage hend hbrace hname hstart hread =>
      exact ⟨hmode, hline, hblock, hdirective, hpassed, hlabel, hlinkage, hend, hbrace, hname,
        hstart, hread.declares_of_function hfunction⟩
    | scopeEnd => exact absurd hmain (Bool.eq_false_iff.1 (readScopeEnd_minor scopes rest))
    | enumerator | noEnumerator | passed | linkage | brace | namespaceBegin | template =>
      cases hfunction

/-! ## What the first parenthesis settles -/

variable {p q x b z : Line}

/-- A line with a parenthesis is an access label when its front is one. -/
theorem isAccessLabel_append (p z : Line) : isAccessLabel (p ++ '(' :: z) = isAccessLabel p := by
  have hword : ∀ word ∈ ["public", "private", "protected"], '(' ∉ word.toList :=
    List.all_iff_forall_prop.1 (by decide)
  rw [Bool.eq_iff_iff, isAccessLabel, isAccessLabel, List.any_eq_true, List.any_eq_true]
  refine exists_congr fun word => and_congr_right fun hmem => ?_
  rw [after?_append_cons (hword word hmem)]
  cases after? word.toList p with
  | none => exact Iff.rfl
  | some rest =>
    dsimp only [Option.map_some]
    rw [trimStart_append_stop (by decide), startsWith_append_cons (by decide)]

/-- A line with a parenthesis is a forward marker when its front is one. -/
theorem isForwardMarker_append (p z : Line) :
    Comment.isForwardMarker (p ++ '(' :: z) = Comment.isForwardMarker p := by
  rw [Comment.isForwardMarker, Comment.isForwardMarker, after?_append_cons (by decide)]
  cases after? "//".toList p with
  | none => rfl
  | some rest =>
    dsimp only [Option.map_some]
    rw [trimStart_append_stop (by decide), startsWith_append_cons (by decide)]

/-- A line with a parenthesis opens a linkage when its front does. -/
theorem isLinkage_append (p z : Line) : isLinkage (p ++ '(' :: z) = isLinkage p := by
  rw [isLinkage, isLinkage, after?_append_cons (by decide)]
  cases after? "extern".toList p with
  | none => rfl
  | some rest =>
    simp only [Option.map_some, Option.bind_eq_bind, Option.bind_some]
    rw [afterBlanks?_append_stop (by decide)]
    cases afterBlanks? rest with
    | none => rfl
    | some text =>
      dsimp only [Option.map_some]
      rw [startsWithAny, startsWithAny]
      simp only [List.any_cons, List.any_nil]
      rw [startsWith_append_cons (by decide), startsWith_append_cons (by decide)]

/-- A line with a parenthesis opens a template when its front does. -/
theorem templateStart?_append (p z : Line) :
    templateStart? (p ++ '(' :: z) = (templateStart? p).map (· ++ '(' :: z) := by
  rw [templateStart?, templateStart?, after?_append_cons (by decide)]
  cases after? "template".toList p with
  | none => rfl
  | some rest =>
    simp only [Option.map_some, Option.bind_eq_bind, Option.bind_some]
    rw [trimStart_append_stop (by decide), after?_append_cons (by decide)]

/-- A line opens no namespace when no brace follows the keyword. -/
theorem namespaceName?_eq_none_iff :
    namespaceName? line = none ↔
      ∀ rest, after? "namespace".toList line = some rest → '\x7b' ∉ rest := by
  rw [namespaceName?]
  cases after? "namespace".toList line with
  | none => simp
  | some rest =>
    have hcut : cutAt '\x7b' rest = none ↔ '\x7b' ∉ rest := cutAt_eq_none_iff
    simp only [Option.bind_eq_bind, Option.bind_some, Option.some.injEq, forall_eq', ← hcut]
    cases cutAt '\x7b' rest <;> simp

/-- An opening that goes on behind no parenthesis is settled up to the first one. -/
theorem startsWith_append_paren {opening : List Char} (h : '(' ∉ opening.dropLast)
    (p z z' : Line) :
    startsWith opening (p ++ '(' :: z) = startsWith opening (p ++ '(' :: z') := by
  have hstep (o c : Char) (opening rest : Line) : startsWith (o :: opening) (c :: rest) =
      if o = c then startsWith opening rest else false := by
    rw [startsWith, after?]
    split <;> rfl
  induction p generalizing opening with
  | nil =>
    cases opening with
    | nil => rw [startsWith_nil, startsWith_nil]
    | cons o opening =>
      rw [List.nil_append, List.nil_append, hstep, hstep]
      cases opening with
      | nil => rw [startsWith_nil, startsWith_nil]
      | cons o' opening =>
        have ho : o ≠ '(' := by
          rintro rfl
          exact h List.mem_cons_self
        rw [if_neg ho, if_neg ho]
  | cons c p ih =>
    cases opening with
    | nil => rw [startsWith_nil, startsWith_nil]
    | cons o opening =>
      have hlater : '(' ∉ opening.dropLast := by
        cases opening with
        | nil => exact List.not_mem_nil
        | cons o' opening => exact fun hmem => h (List.mem_cons_of_mem o hmem)
      rw [List.cons_append, List.cons_append, hstep, hstep, ih hlater]

end Token

namespace Alias

variable {p q x b z : Line}

/-- A keyword in front of a parenthesis is found in the front. -/
theorem afterKeyword?_append {word : List Char} (hword : '(' ∉ word) (p z : Line) :
    afterKeyword? word (p ++ '(' :: z) =
      (afterKeyword? word p).map fun r => (r.1, r.2 ++ '(' :: z) := by
  rw [afterKeyword?, afterKeyword?, after?_append_cons hword]
  cases after? word p with
  | none => rfl
  | some rest =>
    have hindentation : indentation (rest ++ '(' :: z) = indentation rest := by
      rw [indentation, indentation, takeWhile_append_stop (by decide)]
    simp only [Option.map_some, Option.bind_eq_bind, Option.bind_some, hindentation,
      trimStart_append_stop (show isBlank '(' = false by decide)]
    split <;> rfl

/-- What follows a keyword is an end of the text. -/
theorem suffix_of_afterKeyword? {word : List Char} {r : Nat × List Char}
    (h : afterKeyword? word p = some r) : r.2 <:+ p := by
  rw [afterKeyword?] at h
  obtain ⟨rest, hafter, h⟩ := Option.bind_eq_some_iff.1 h
  split at h
  · cases h
  · cases h
    rw [after?_eq_some_iff] at hafter
    exact (List.dropWhile_suffix isBlank).trans (hafter ▸ List.suffix_append word rest)

/-- A line with a parenthesis is a forward declaration when its front is one. -/
theorem forward?_append (p z : Line) : forward? (p ++ '(' :: z) = forward? p := by
  have hkeyword :
      (after? "struct".toList (p ++ '(' :: z) <|> after? "class".toList (p ++ '(' :: z)) =
      (after? "struct".toList p <|> after? "class".toList p).map (· ++ '(' :: z) := by
    rw [after?_append_cons (by decide), after?_append_cons (by decide)]
    cases after? "struct".toList p with
    | none => cases after? "class".toList p <;> rfl
    | some rest => rfl
  rw [forward?, forward?, hkeyword]
  cases (after? "struct".toList p <|> after? "class".toList p) with
  | none => rfl
  | some rest =>
    simp only [Option.map_some, Option.bind_eq_bind, Option.bind_some]
    rw [afterBlanks?_append_stop (by decide)]
    cases afterBlanks? rest with
    | none => rfl
    | some text =>
      simp only [Option.map_some, Option.bind_some]
      rw [takeWhile_append_stop (by decide), dropWhile_append_stop (by decide),
        trimStart_append_stop (by decide), startsWith_append_cons (by decide)]

end Alias

/-! ## Text behind the first parenthesis -/

/-- Text that opens and closes nothing a declaration may begin with: white space, and then a slash
and what follows it. -/
structure Text.IsAside (x : Line) : Prop where
  parenthesis : '(' ∉ x
  brace : '\x7b' ∉ x
  bracket : ']' ∉ x
  slash : ∃ gap rest, x = gap ++ '/' :: rest ∧ allBlank gap = true

variable {p q u x b : Line}

theorem Text.mem_insert {c : Char} (h : c ∈ u ++ b) : c ∈ u ++ (x ++ b) :=
  (List.mem_append.1 h).elim (List.mem_append_left _)
    fun h => List.mem_append_right u (List.mem_append_right x h)

/-- The first visible character is the same without an aside, unless it is the slash. -/
theorem Text.IsAside.startsWith_trimStart (h : IsAside x) {c : Char} (hc : c ≠ '/')
    (hstart : startsWith [c] (trimStart (u ++ (x ++ b))) = true) :
    startsWith [c] (trimStart (u ++ b)) = true := by
  obtain ⟨gap, rest, rfl, hgap⟩ := h.slash
  cases hu : trimStart u with
  | nil =>
    have hblank : ∀ d ∈ u, isBlank d = true := List.dropWhile_eq_nil_iff.1 hu
    -- only blanks stand in front of the aside, whose first visible character is a slash
    have hfirst : trimStart (u ++ (gap ++ '/' :: rest ++ b)) = '/' :: (rest ++ b) := by
      rw [trimStart_append_of_blank hblank, List.append_assoc,
        trimStart_append_of_blank (List.all_eq_true.1 hgap), List.cons_append]
      exact trimStart_cons (by decide) _
    rw [hfirst, startsWith, after?, if_neg hc] at hstart
    cases hstart
  | cons d later =>
    have hd : isBlank d = false := eq_false_of_dropWhile hu
    -- the first visible character stands in front of the aside
    have hfirst (tail : Line) : trimStart (u ++ tail) = d :: (later ++ tail) := by
      rw [← trimStart_trimStart_append, hu]
      exact trimStart_cons hd _
    have hsame (tail : Line) : startsWith [c] (d :: tail) = decide (c = d) := by
      rw [startsWith, after?]
      split
      · rename_i heq
        rw [after?_nil]
        exact (decide_eq_true heq).symm
      · rename_i hne
        exact (decide_eq_false hne).symm
    rw [hfirst, hsame] at hstart ⊢
    exact hstart

/-- Text without a brace makes no line open a namespace. -/
theorem Token.namespaceName?_insert (hx : '\x7b' ∉ x)
    (h : namespaceName? (p ++ '(' :: (q ++ b)) = none) :
    namespaceName? (p ++ '(' :: (q ++ (x ++ b))) = none := by
  rw [namespaceName?_eq_none_iff, after?_append_cons (by decide)] at h ⊢
  intro rest hrest hmem
  obtain ⟨front, hfront, rfl⟩ := Option.map_eq_some_iff.1 hrest
  have hline := h _ (by rw [hfront, Option.map_some])
  simp only [List.mem_append, List.mem_cons, not_or] at hline hmem
  tauto

namespace Alias

/-- No array is declared when no semicolon follows the closing bracket. -/
theorem extentBeforeSemicolon?_bracket_eq_none_iff (inner : Line) :
    extentBeforeSemicolon? ('[' :: inner) = none ↔
      ∀ inside rest, cutAt ']' inner = some (inside, rest) →
        startsWith [';'] (trimStart rest) = false := by
  rw [extentBeforeSemicolon?]
  cases cutAt ']' inner with
  | none => simp
  | some cut =>
    obtain ⟨inside, rest⟩ := cut
    simp

/-- An open extent that is closed behind an aside is closed there without it. -/
theorem extentBeforeSemicolon?_bracket_insert (hx : IsAside x)
    (h : extentBeforeSemicolon? ('[' :: (u ++ b)) = none) :
    extentBeforeSemicolon? ('[' :: (u ++ (x ++ b))) = none := by
  rw [extentBeforeSemicolon?_bracket_eq_none_iff] at h ⊢
  intro inside rest hcut
  obtain ⟨hinner, hinside⟩ := cutAt_eq_some_iff.1 hcut
  refine Bool.eq_false_iff.2 fun hstart => ?_
  by_cases hclosed : ']' ∈ u
  · -- the extent is closed in front of the aside
    obtain ⟨v, w, rfl, hv⟩ := List.eq_append_cons_of_mem hclosed
    have hcut' : cutAt ']' (v ++ ']' :: w ++ (x ++ b)) = some (v, w ++ (x ++ b)) :=
      cutAt_eq_some_iff.2 ⟨by simp, hv⟩
    obtain ⟨rfl, rfl⟩ := Prod.mk.inj (Option.some.inj (hcut.symm.trans hcut'))
    have hline := h inside (w ++ b) (cutAt_eq_some_iff.2 ⟨by simp, hv⟩)
    rw [hx.startsWith_trimStart (by decide) hstart] at hline
    cases hline
  · -- the aside holds no bracket, so the extent is closed behind it
    have hclosed' : ']' ∈ b := by
      have hmem : ']' ∈ u ++ (x ++ b) := hinner ▸ List.mem_append_right _ List.mem_cons_self
      simpa [hclosed, hx.bracket] using hmem
    obtain ⟨v, w, rfl, hv⟩ := List.eq_append_cons_of_mem hclosed'
    have hcut' : cutAt ']' (u ++ (x ++ (v ++ ']' :: w))) = some (u ++ (x ++ v), w) :=
      cutAt_eq_some_iff.2 ⟨by simp, by simp [hclosed, hx.bracket, hv]⟩
    obtain ⟨rfl, rfl⟩ := Prod.mk.inj (Option.some.inj (hcut.symm.trans hcut'))
    have hline := h (u ++ v) rest (cutAt_eq_some_iff.2 ⟨by simp, by simp [hclosed, hv]⟩)
    rw [hstart] at hline
    cases hline

/-- An extent that is closed behind an aside is closed there without it. -/
theorem extentBeforeSemicolon?_insert (hx : IsAside x) (hu : u ≠ [])
    (h : extentBeforeSemicolon? (u ++ b) = none) :
    extentBeforeSemicolon? (u ++ (x ++ b)) = none := by
  obtain ⟨c, u, rfl⟩ := List.exists_cons_of_ne_nil hu
  by_cases hsemicolon : c = ';'
  · subst hsemicolon
    cases h
  by_cases hbracket : c = '['
  · subst hbracket
    exact extentBeforeSemicolon?_bracket_insert hx h
  · unfold extentBeforeSemicolon?
    split
    · rename_i heq
      exact absurd (List.cons.inj heq).1 hsemicolon
    · rename_i heq
      exact absurd (List.cons.inj heq).1 hbracket
    · rfl

/-- Text put in behind a parenthesis makes no line a definition. -/
theorem definition?_insert (hx : IsAside x) (h : definition? (p ++ '(' :: (q ++ b)) = none) :
    definition? (p ++ '(' :: (q ++ (x ++ b))) = none := by
  rw [definition?, afterKeyword?_append (by decide)] at h ⊢
  cases hkeyword : afterKeyword? "typedef".toList p with
  | none => rfl
  | some r =>
    obtain ⟨blanks, text⟩ := r
    have htype : isTypeChar '(' = false := by decide
    have hopened (tail : Line) : text.dropWhile isTypeChar ++ '(' :: (q ++ tail) =
        text.dropWhile isTypeChar ++ '(' :: q ++ tail := by simp
    rw [hkeyword] at h
    simp only [Option.map_some, Option.bind_eq_bind, Option.bind_some,
      takeWhile_append_stop htype, dropWhile_append_stop htype, hopened,
      Option.bind_eq_none_iff] at h ⊢
    intro extent hextent
    -- there is an extent without the aside too, so the name or the type does not fit
    have hfound : extentBeforeSemicolon? (text.dropWhile isTypeChar ++ '(' :: q ++ b) ≠ none := by
      intro hnone
      rw [extentBeforeSemicolon?_insert hx (by simp) hnone] at hextent
      cases hextent
    obtain ⟨extent', hextent'⟩ := Option.ne_none_iff_exists'.1 hfound
    have hfails := h extent' hextent'
    split at hfails
    · cases hfails
    · rename_i hfit
      exact if_neg hfit

/-- The name of a function pointer behind the type of its class. -/
def starName? (text : List Char) : Option (List Char × List Char) := do
  let text := trimStart (← after? ['*'] text)
  let name := text.takeWhile isWord
  let rest ← after? [')'] (trimStart (text.dropWhile isWord))
  let rest ← after? ['('] (trimStart rest)
  if name = [] then none else some (name, rest)

/-- The name of a function pointer is read behind the word of its class, if there is one. -/
theorem pointerName?_eq_bind (cs : List Char) :
    pointerName? cs =
      (if (trimStart cs).takeWhile isWord = [] then some (trimStart cs)
        else afterBlanks? ((trimStart cs).dropWhile isWord)).bind starName? := by
  rw [pointerName?]
  split
  · rfl
  · rfl

/-- Up to the parenthesis of the parameters, a reader takes text without slashes, or it fails. -/
def TakesPlain (reader : List Char → Option (List Char × List Char)) (taken : Line) : Prop :=
  ('/' ∉ taken ∧ ∃ name, ∀ rest, reader (taken ++ '(' :: rest) = some (name, rest)) ∨
    ∀ rest, reader (taken ++ '(' :: rest) = none

section StarNames

variable {taken text behind : Line} {x : Char}

/-- What follows the parenthesis behind the name is taken from the text. -/
theorem mem_of_mem_behindName (htaken : taken = '*' :: text)
    (hclose : trimStart ((trimStart text).dropWhile isWord) = ')' :: behind)
    (hx : x ∈ trimStart behind) : x ∈ taken := by
  have hname : x ∈ trimStart ((trimStart text).dropWhile isWord) := by
    rw [hclose]
    exact List.mem_cons_of_mem _ ((List.dropWhile_suffix isBlank).subset hx)
  have htext : x ∈ text := (List.dropWhile_suffix _).subset ((List.dropWhile_suffix _).subset
    ((List.dropWhile_suffix _).subset hname))
  rw [htaken]
  exact List.mem_cons_of_mem _ htext

/-- A slash in the text is left over behind the parenthesis. -/
theorem slash_mem_behindName (htaken : taken = '*' :: text)
    (hclose : trimStart ((trimStart text).dropWhile isWord) = ')' :: behind)
    (hslash : '/' ∈ taken) : '/' ∈ trimStart behind := by
  have htext : '/' ∈ trimStart text :=
    mem_trimStart_of_mem (by simpa [htaken] using hslash) (by decide)
  have hname : '/' ∈ trimStart ((trimStart text).dropWhile isWord) :=
    mem_trimStart_of_mem (mem_dropWhile_of_mem htext (by decide)) (by decide)
  exact mem_trimStart_of_mem (by simpa [hclose] using hname) (by decide)

/-- The name behind the star is read without slashes up to the parenthesis. -/
theorem starName?_takesPlain (htaken : '(' ∉ taken) : TakesPlain starName? taken := by
  have hstar (rest : Line) : after? ['*'] (taken ++ '(' :: rest) =
      (after? ['*'] taken).map (· ++ '(' :: rest) := after?_append_cons (by decide)
  simp only [TakesPlain, starName?, hstar]
  cases hafter : after? ['*'] taken with
  | none => exact .inr fun _ => rfl
  | some text =>
    have hblank : isBlank '(' = false := by decide
    have hword : isWord '(' = false := by decide
    have hclosing (cs rest : Line) : after? [')'] (cs ++ '(' :: rest) =
        (after? [')'] cs).map (· ++ '(' :: rest) := after?_append_cons (by decide)
    simp only [Option.map_some, Option.bind_eq_bind, Option.bind_some, trimStart_append_stop hblank,
      takeWhile_append_stop hword, dropWhile_append_stop hword, hclosing]
    cases hclose : after? [')'] (trimStart ((trimStart text).dropWhile isWord)) with
    | none => exact .inr fun _ => rfl
    | some behind =>
      rw [after?_eq_some_iff] at hafter hclose
      simp only [Option.map_some, Option.bind_some, trimStart_append_stop hblank]
      cases hbehind : trimStart behind with
      | nil =>
        have hparenthesis (rest : Line) : after? ['('] ([] ++ '(' :: rest) = some rest :=
          after?_eq_some_iff.2 rfl
        simp only [hparenthesis, Option.bind_some]
        by_cases hname : (trimStart text).takeWhile isWord = []
        · exact .inr fun _ => if_pos hname
        · refine .inl ⟨fun hslash => ?_, _, fun _ => if_neg hname⟩
          have hleft : '/' ∈ trimStart behind := slash_mem_behindName hafter hclose hslash
          rw [hbehind] at hleft
          cases hleft
      | cons d later =>
        have hd : '(' ≠ d := by
          rintro rfl
          exact htaken (mem_of_mem_behindName hafter hclose (hbehind ▸ List.mem_cons_self))
        refine .inr fun rest => ?_
        rw [List.cons_append, after?, if_neg hd]
        rfl

end StarNames

/-- Whether the name of a function pointer ends in front of a parenthesis is settled up to it. -/
theorem pointerName?_takesPlain {taken : Line} (htaken : '(' ∉ taken) :
    TakesPlain pointerName? taken := by
  have hblank : isBlank '(' = false := by decide
  have hword : isWord '(' = false := by decide
  have hplain {text : Line} (htext : text ⊆ taken) (hslash : '/' ∈ taken → '/' ∈ text) :
      ('/' ∉ taken ∧ ∃ name, ∀ rest, starName? (text ++ '(' :: rest) = some (name, rest)) ∨
        ∀ rest, starName? (text ++ '(' :: rest) = none :=
    (starName?_takesPlain fun hmem => htaken (htext hmem)).imp_left
      fun h => ⟨fun hmem => h.1 (hslash hmem), h.2⟩
  simp only [TakesPlain, pointerName?_eq_bind, trimStart_append_stop hblank,
    takeWhile_append_stop hword, dropWhile_append_stop hword, afterBlanks?_append_stop hblank]
  have hstart : '/' ∈ taken → '/' ∈ trimStart taken := fun hmem =>
    mem_trimStart_of_mem hmem (by decide)
  split
  · exact hplain (List.dropWhile_suffix isBlank).subset hstart
  · cases hafter : afterBlanks? ((trimStart taken).dropWhile isWord) with
    | none => exact .inr fun _ => rfl
    | some text =>
      obtain ⟨gap, hgap, hgapBlank, -⟩ := exists_of_afterBlanks? hafter
      have hsuffix : text <:+ taken := (List.suffix_append gap text).trans
        (hgap ▸ (List.dropWhile_suffix isWord).trans (List.dropWhile_suffix isBlank))
      refine hplain hsuffix.subset fun hmem => ?_
      have hrest := mem_dropWhile_of_mem (hstart hmem) (show isWord '/' = false by decide)
      rw [hgap] at hrest
      refine (List.mem_append.1 hrest).resolve_left fun hslash => ?_
      exact absurd (List.all_eq_true.1 hgapBlank _ hslash) (by decide)

/-- A function pointer has a parenthesis behind its name. -/
theorem mem_of_pointerName? {cs : Line} {r : Line × Line} (h : pointerName? cs = some r) :
    '(' ∈ cs := by
  have hstar {text : Line} (h : starName? text = some r) : '(' ∈ text := by
    rw [starName?] at h
    obtain ⟨behind, hafter, h⟩ := Option.bind_eq_some_iff.1 h
    obtain ⟨left, hclose, h⟩ := Option.bind_eq_some_iff.1 h
    obtain ⟨rest, hopen, -⟩ := Option.bind_eq_some_iff.1 h
    rw [after?_eq_some_iff] at hafter hclose hopen
    have hopening : '(' ∈ trimStart left := hopen ▸ List.mem_cons_self
    have hclosing : '(' ∈ trimStart ((trimStart behind).dropWhile isWord) :=
      hclose ▸ List.mem_cons_of_mem _ ((List.dropWhile_suffix isBlank).subset hopening)
    have hbehind := (List.dropWhile_suffix _).subset ((List.dropWhile_suffix _).subset
      ((List.dropWhile_suffix _).subset hclosing))
    exact hafter ▸ List.mem_cons_of_mem _ hbehind
  rw [pointerName?_eq_bind] at h
  obtain ⟨text, htext, h⟩ := Option.bind_eq_some_iff.1 h
  have hmem := hstar h
  split at htext
  · cases htext
    exact (List.dropWhile_suffix isBlank).subset hmem
  · obtain ⟨gap, hgap, -⟩ := exists_of_afterBlanks? htext
    have hmem' : '(' ∈ (trimStart cs).dropWhile isWord := hgap ▸ List.mem_append_right gap hmem
    exact (List.dropWhile_suffix isBlank).subset ((List.dropWhile_suffix isWord).subset hmem')

/-- The name of a function pointer does not end behind an aside. -/
theorem pointerName?_insert (hx : IsAside x) {name rest : Line}
    (h : pointerName? (q ++ (x ++ b)) = some (name, rest)) :
    ∃ rest', pointerName? (q ++ b) = some (name, rest') ∧ rest' ⊆ rest := by
  by_cases hq : '(' ∈ q
  · obtain ⟨taken, later, rfl, htaken⟩ := List.eq_append_cons_of_mem hq
    have hline (tail : Line) : taken ++ '(' :: later ++ tail = taken ++ '(' :: (later ++ tail) := by
      simp
    rw [hline] at h ⊢
    rcases pointerName?_takesPlain htaken with ⟨-, name', hname⟩ | hnone
    · rw [hname] at h ⊢
      cases h
      exact ⟨_, rfl, by simp⟩
    · rw [hnone] at h
      cases h
  · have hb : '(' ∈ b := by simpa [hq, hx.parenthesis] using mem_of_pointerName? h
    obtain ⟨front, later, rfl, hfront⟩ := List.eq_append_cons_of_mem hb
    have htaken : '(' ∉ q ++ (x ++ front) := by simp [hq, hx.parenthesis, hfront]
    have hslash : '/' ∈ q ++ (x ++ front) := by
      obtain ⟨gap, y, rfl, -⟩ := hx.slash
      simp
    have hline : q ++ (x ++ (front ++ '(' :: later)) = q ++ (x ++ front) ++ '(' :: later := by simp
    rw [hline] at h
    rcases pointerName?_takesPlain htaken with ⟨hplain, -⟩ | hnone
    · exact absurd hslash hplain
    · rw [hnone] at h
      cases h

/-- Text put in behind a parenthesis makes no line a function pointer. -/
theorem pointer?_insert (hx : IsAside x) (hp : '(' ∉ p)
    (h : pointer? (p ++ '(' :: (q ++ b)) = none) :
    pointer? (p ++ '(' :: (q ++ (x ++ b))) = none := by
  rw [pointer?, afterKeyword?_append (by decide)] at h ⊢
  cases hkeyword : afterKeyword? "typedef".toList p with
  | none => rfl
  | some r =>
    obtain ⟨blanks, text⟩ := r
    have htype : isTypeChar '(' = false := by decide
    rw [hkeyword] at h
    simp only [Option.map_some, Option.bind_eq_bind, Option.bind_some,
      takeWhile_append_stop htype, dropWhile_append_stop htype] at h ⊢
    cases hbehind : text.dropWhile isTypeChar with
    | cons c later =>
      have hc : '(' ≠ c := by
        rintro rfl
        have hmem : '(' ∈ text.dropWhile isTypeChar := hbehind ▸ List.mem_cons_self
        exact hp ((suffix_of_afterKeyword? hkeyword).subset
          ((List.dropWhile_suffix isTypeChar).subset hmem))
      rw [List.cons_append, after?, if_neg hc]
      rfl
    | nil =>
      have hopening (rest : Line) : after? ['('] ([] ++ '(' :: rest) = some rest :=
        after?_eq_some_iff.2 rfl
      rw [hbehind] at h
      simp only [hopening, Option.bind_some, Option.bind_eq_none_iff] at h ⊢
      rintro ⟨name, parameters⟩ hname
      obtain ⟨parameters', hname', hsubset⟩ := pointerName?_insert hx hname
      have hfails := h _ hname'
      split at hfails
      · cases hfails
      · rename_i hfit
        refine if_neg fun hfit' => hfit ?_
        rw [Bool.and_eq_true] at hfit' ⊢
        refine ⟨hfit'.1, ?_⟩
        simp only [Bool.not_eq_true', List.contains_eq_mem, decide_eq_false_iff_not] at hfit' ⊢
        exact fun hmem => hfit'.2 (hsubset hmem)

end Alias

namespace Record

/-- A character of the base of a record. -/
def isBaseChar (c : Char) : Bool := c ≠ '\x7b' && c ≠ ';'

/-- No base is read when no name of one is there, or when a semicolon ends it or a brace with a line
feed behind. -/
theorem baseClause?_eq_none_iff {cs : List Char} :
    baseClause? cs = none ↔
      cs.takeWhile isBaseChar = [] ∨
        ∃ c rest, cs.dropWhile isBaseChar = c :: rest ∧ (c = '\x7b' → '\n' ∈ rest) := by
  rw [baseClause?, show (fun c => decide (c ≠ '\x7b') && decide (c ≠ ';')) = isBaseChar from rfl]
  generalize cs.takeWhile isBaseChar = base
  generalize cs.dropWhile isBaseChar = rest
  split
  · simp
  · rename_i hbase
    have hne : base ≠ [] := hbase
    simp [hne]
  · rename_i hbase
    have hne : base ≠ [] := hbase
    simp [hne]
  · rename_i hempty hbrace
    obtain ⟨c, rest, rfl⟩ := List.exists_cons_of_ne_nil hempty
    refine iff_of_true rfl (.inr ⟨c, rest, rfl, fun hc => ?_⟩)
    subst hc
    exact absurd rfl (hbrace rest)

/-- Behind text without a brace no base begins that is missing without it. -/
theorem baseClause?_insert (hx : '\x7b' ∉ x) (hu : u ≠ []) (h : baseClause? (u ++ b) = none) :
    baseClause? (u ++ (x ++ b)) = none := by
  rw [baseClause?_eq_none_iff] at h ⊢
  have hall : ∀ c ∈ u.takeWhile isBaseChar, isBaseChar c = true :=
    List.all_eq_true.1 List.all_takeWhile
  have hsplit : u.takeWhile isBaseChar ++ u.dropWhile isBaseChar = u :=
    List.takeWhile_append_dropWhile
  cases hrest : u.dropWhile isBaseChar with
  | cons c later =>
    -- the mark that ends the base stands in front of the text
    have hc : isBaseChar c = false := eq_false_of_dropWhile hrest
    rw [hrest] at hsplit
    have hline (tail : Line) : u ++ tail = u.takeWhile isBaseChar ++ c :: (later ++ tail) := by
      rw [← List.cons_append, ← List.append_assoc, hsplit]
    rw [hline, takeWhile_append_cons hall hc, dropWhile_append_cons hall hc] at h ⊢
    refine h.imp_right ?_
    rintro ⟨d, rest, heq, hbrace⟩
    obtain ⟨rfl, rfl⟩ := List.cons.inj heq
    exact ⟨c, _, rfl, fun hc => mem_insert (hbrace hc)⟩
  | nil =>
    rw [hrest, List.append_nil] at hsplit
    rw [hsplit] at hall
    have hbase (tail : Line) : (u ++ tail).takeWhile isBaseChar ≠ [] := by
      rw [List.takeWhile_append_of_pos hall]
      exact List.append_ne_nil_of_left_ne_nil hu _
    obtain ⟨c, rest, hb, hbrace⟩ := h.resolve_left (hbase b)
    rw [List.dropWhile_append_of_pos hall] at hb
    refine .inr ?_
    rw [List.dropWhile_append_of_pos hall]
    cases hx' : x.dropWhile isBaseChar with
    | nil =>
      rw [List.dropWhile_append_of_pos (List.dropWhile_eq_nil_iff.1 hx')]
      exact ⟨c, rest, hb, hbrace⟩
    | cons d later =>
      have hmem : d ∈ x := (List.dropWhile_suffix isBaseChar).subset (hx' ▸ List.mem_cons_self)
      refine ⟨d, later ++ b, ?_, fun hd => absurd (hd ▸ hmem) hx⟩
      rw [List.dropWhile_append, hx']
      rfl

/-- What may follow a name that has no colon. -/
def plainTail? (rest : List Char) : Option (List Char × Bool) :=
  match trimStart rest with
  | [] => some ([], false)
  | ':' :: base => baseClause? base
  | '\x7b' :: body => if body.contains '\n' then none else some ([], true)
  | _ => none

/-- Text without a brace does not complete what follows a name. -/
theorem plainTail?_insert (hx : '\x7b' ∉ x) (h : plainTail? (p ++ '(' :: (q ++ b)) = none) :
    plainTail? (p ++ '(' :: (q ++ (x ++ b))) = none := by
  rw [plainTail?, trimStart_append_stop (by decide)] at h ⊢
  cases hp : trimStart p with
  | nil => rfl
  | cons c later =>
    rw [hp, List.cons_append] at h
    rw [List.cons_append]
    have hline (tail : Line) : later ++ '(' :: (q ++ tail) = later ++ '(' :: q ++ tail := by simp
    rw [hline] at h ⊢
    split at h
    · cases ‹c :: _ = []›
    · rename_i heq
      obtain ⟨rfl, rfl⟩ := List.cons.inj heq
      exact baseClause?_insert hx (by simp) h
    · rename_i heq
      obtain ⟨rfl, rfl⟩ := List.cons.inj heq
      split at h
      · rename_i hbreak
        rw [List.contains_iff_mem] at hbreak
        exact if_pos (List.contains_iff_mem.2 (mem_insert hbreak))
      · cases h
    · rename_i hempty hcolon hbrace
      split
      · cases ‹c :: _ = []›
      · rename_i heq
        obtain ⟨rfl, -⟩ := List.cons.inj heq
        exact absurd rfl (hcolon _)
      · rename_i heq
        obtain ⟨rfl, -⟩ := List.cons.inj heq
        exact absurd rfl (hbrace _)
      · rfl

theorem tail?_eq (name rest : List Char) :
    tail? name rest = match plainTail? rest with
      | some result => some (name, result)
      | none => (colonSplits name).findSome? fun split =>
          (baseClause? (split.2 ++ rest)).map fun result => (split.1, result) := rfl

/-- Nothing that may follow the name of a record is read when nothing plain follows and no colon
begins a base. -/
theorem tail?_eq_none_iff {name rest : List Char} :
    tail? name rest = none ↔ plainTail? rest = none ∧
      ∀ split ∈ colonSplits name, baseClause? (split.2 ++ rest) = none := by
  rw [tail?_eq]
  cases plainTail? rest with
  | some result => simp
  | none => simp [List.findSome?_eq_none_iff]

/-- Text without a brace does not complete what follows the name of a record. -/
theorem tail?_insert (hx : '\x7b' ∉ x) {name : Line}
    (h : tail? name (p ++ '(' :: (q ++ b)) = none) :
    tail? name (p ++ '(' :: (q ++ (x ++ b))) = none := by
  rw [tail?_eq_none_iff] at h ⊢
  refine ⟨plainTail?_insert hx h.1, fun split hsplit => ?_⟩
  have hline (tail : Line) : split.2 ++ (p ++ '(' :: (q ++ tail)) =
      split.2 ++ (p ++ '(' :: q) ++ tail := by simp
  have hbase := h.2 split hsplit
  rw [hline] at hbase ⊢
  exact baseClause?_insert hx (by simp) hbase

theorem wordEnds_append (p z : Line) : wordEnds (p ++ '(' :: z) = wordEnds p := by
  cases p with
  | nil => rfl
  | cons c p => rfl

/-- The keyword of a record in front of a parenthesis is found in the front. -/
theorem keyword?_append (p z : Line) :
    keyword? (p ++ '(' :: z) = (keyword? p).map fun r => (r.1, r.2 ++ '(' :: z) := by
  have hword {word : List Char} (h : '(' ∉ word) (kind : RecordKind) :
      (after? word (p ++ '(' :: z)).map (kind, ·) =
        ((after? word p).map (kind, ·)).map fun r => (r.1, r.2 ++ '(' :: z) := by
    rw [after?_append_cons h, Option.map_map, Option.map_map]
    rfl
  have horElse (v w : Option (RecordKind × Line)) (f : RecordKind × Line → RecordKind × Line) :
      (v.map f <|> w.map f) = (v <|> w).map f := by
    cases v with
    | none => rfl
    | some r => rfl
  rw [keyword?, keyword?, hword (by decide), hword (by decide), hword (by decide),
    hword (by decide), horElse, horElse, horElse]

/-- A second keyword in front of a parenthesis is found in the front. -/
theorem secondKeyword?_append (p z : Line) :
    secondKeyword? (p ++ '(' :: z) = (secondKeyword? p).map (· ++ '(' :: z) := by
  rw [secondKeyword?, secondKeyword?, afterBlanks?_append_stop (by decide)]
  cases afterBlanks? p with
  | none => rfl
  | some text =>
    simp only [Option.map_some, Option.bind_eq_bind, Option.bind_some]
    rw [after?_append_cons (by decide), after?_append_cons (by decide)]
    have hends (rest : Line) :
        (if wordEnds (rest ++ '(' :: z) = true then some (rest ++ '(' :: z) else none) =
          (if wordEnds rest = true then some rest else none).map (· ++ '(' :: z) := by
      rw [wordEnds_append]
      split <;> rfl
    cases after? "class".toList text with
    | some rest => exact hends rest
    | none =>
      cases after? "struct".toList text with
      | none => rfl
      | some rest => exact hends rest

theorem getD_map_append (v : Option Line) (p z : Line) :
    (v.map (· ++ '(' :: z)).getD (p ++ '(' :: z) = v.getD p ++ '(' :: z := by
  cases v with
  | none => rfl
  | some text => rfl

/-- Text put in behind a parenthesis makes no line open a record. -/
theorem opening?_insert (hx : '\x7b' ∉ x) (h : opening? (p ++ '(' :: (q ++ b)) = none) :
    opening? (p ++ '(' :: (q ++ (x ++ b))) = none := by
  have hdefined (z : Line) : (after? "typedef".toList (p ++ '(' :: z) >>= afterBlanks?) =
      (after? "typedef".toList p >>= afterBlanks?).map (· ++ '(' :: z) := by
    rw [after?_append_cons (by decide)]
    cases after? "typedef".toList p with
    | none => rfl
    | some rest => exact afterBlanks?_append_stop (by decide) rest z
  rw [opening?, hdefined] at h ⊢
  dsimp only at h ⊢
  rw [getD_map_append, keyword?_append] at h ⊢
  generalize (after? "typedef".toList p >>= afterBlanks?) = defined at h ⊢
  cases hkeyword : keyword? (defined.getD p) with
  | none => rfl
  | some r =>
    obtain ⟨kind, rest⟩ := r
    rw [hkeyword] at h
    have hname : isNameChar '(' = false := by decide
    simp only [Option.map_some, Option.bind_eq_bind, Option.bind_some] at h ⊢
    rw [secondKeyword?_append, getD_map_append, wordEnds_append] at h ⊢
    generalize (secondKeyword? rest).getD rest = text at h ⊢
    split
    · rfl
    · rename_i hends
      rw [if_neg hends, trimStart_append_stop (by decide), takeWhile_append_stop hname,
        dropWhile_append_stop hname, Option.bind_eq_none_iff] at h
      rw [trimStart_append_stop (by decide), takeWhile_append_stop hname,
        dropWhile_append_stop hname, tail?_insert hx, Option.bind_none]
      cases htail : tail? ((trimStart text).takeWhile isNameChar)
          ((trimStart text).dropWhile isNameChar ++ '(' :: (q ++ b)) with
      | none => rfl
      | some result => cases h result htail

/-- A line that may have a body with an aside may have one without it. -/
theorem mayHaveBody_of_insert (hx : '\x7b' ∉ x) (h : mayHaveBody (u ++ (x ++ b)) = true) :
    mayHaveBody (u ++ b) = true := by
  simp only [mayHaveBody, Bool.or_eq_true, Bool.not_eq_true', List.contains_eq_mem,
    decide_eq_true_eq, decide_eq_false_iff_not] at h ⊢
  refine h.imp (fun hmem => ?_) fun hmem hsemicolon => hmem (mem_insert hsemicolon)
  simp only [List.mem_append] at hmem ⊢
  tauto

end Record

/-! ## Asides in lines of members -/

section Insert

variable {mode : Token.Mode}

/-- Text put in behind a parenthesis makes no member a statement of another kind. -/
theorem Member.Declares.insert (hx : IsAside x) (hp : '(' ∉ p)
    (h : Member.Declares (p ++ '(' :: (q ++ b))) :
    Member.Declares (p ++ '(' :: (q ++ (x ++ b))) where
  pointer := Alias.pointer?_insert hx hp h.pointer
  definition := Alias.definition?_insert hx h.definition
  usingName := (Token.startsWith_append_paren (by decide) p _ _).trans h.usingName
  forward := by
    rw [Alias.forward?_append, ← Alias.forward?_append p (q ++ b)]
    exact h.forward
  record hbody := by
    refine Record.opening?_insert hx.brace (h.record ?_)
    have hline (tail : Line) : p ++ '(' :: (q ++ tail) = p ++ '(' :: q ++ tail := by simp
    rw [hline] at hbody ⊢
    exact Record.mayHaveBody_of_insert hx.brace hbody

/-- **Asides.**  Behind the first parenthesis of the line of a member an aside leaves it one, when
no text that statements are passed over by goes on behind a parenthesis. -/
theorem Token.IsMember.insert (hx : IsAside x) (hp : '(' ∉ p)
    (hignored : ∀ opening ∈ mode.ignored, '(' ∉ opening.dropLast)
    (h : Token.IsMember mode (p ++ '(' :: (q ++ b))) :
    Token.IsMember mode (p ++ '(' :: (q ++ (x ++ b))) where
  enumerators := h.enumerators
  lineComment := (startsWith_append_paren (by decide) p _ _).trans h.lineComment
  blockComment := (startsWith_append_paren (by decide) p _ _).trans h.blockComment
  directive := (startsWith_append_paren (by decide) p _ _).trans h.directive
  passed := by
    refine Bool.eq_false_iff.2 fun hpassed => Bool.eq_false_iff.1 h.passed ?_
    obtain ⟨opening, hmem, hstart⟩ := List.any_eq_true.1 hpassed
    refine List.any_eq_true.2 ⟨opening, hmem, ?_⟩
    rwa [startsWith_append_paren (hignored opening hmem) p (q ++ b) (q ++ (x ++ b))]
  label := by
    rw [isAccessLabel_append, ← isAccessLabel_append p (q ++ b)]
    exact h.label
  linkage := by
    rw [isLinkage_append, ← isLinkage_append p (q ++ b)]
    exact h.linkage
  scopeEnd := (startsWith_append_paren (by decide) p _ _).trans h.scopeEnd
  brace heq := by
    have hmem : '(' ∈ ['\x7b'] := heq ▸ List.mem_append_right p List.mem_cons_self
    exact absurd hmem (by decide)
  namespaceName := namespaceName?_insert hx.brace h.namespaceName
  template := by
    have htemplate := h.template
    rw [templateStart?_append, Option.map_eq_none_iff] at htemplate ⊢
    exact htemplate
  declares := h.declares.insert hx hp

end Insert

end HeaderApi
