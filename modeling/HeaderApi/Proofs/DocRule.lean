import HeaderApi.Proofs.PatternMatches
import HeaderApi.Rules.Basic
import HeaderApi.Text.Scan

/-!
# The standard doc rule

The rule finds a backslash and the word behind it and writes an at sign and the word.  So it turns
each backslash directly before a word character into an at sign and leaves the rest as it is.  In
its result no backslash stands before a word character, and applying it again changes nothing.
-/

namespace HeaderApi

open Text Pattern

/-! ## The closed form -/

/-- A text with an at sign for each backslash directly before a word character. -/
def atCommands : List Char → List Char
  | [] => []
  | [c] => [c]
  | c :: d :: rest => (if c = '\\' && isWord d then '@' else c) :: atCommands (d :: rest)

theorem isWord_backslash : isWord '\\' = false := by decide

theorem isWord_at : isWord '@' = false := by decide

/-- A character that is no backslash stays. -/
theorem atCommands_cons_of_ne {c : Char} (h : c ≠ '\\') (rest : List Char) :
    atCommands (c :: rest) = c :: atCommands rest := by
  cases rest with
  | nil => rfl
  | cons d rest => simp [atCommands, h]

/-- Word characters are left as they are. -/
theorem atCommands_append {word : List Char} (h : ∀ c ∈ word, isWord c = true)
    (rest : List Char) : atCommands (word ++ rest) = word ++ atCommands rest := by
  induction word with
  | nil => rfl
  | cons c word ih =>
    have hc : c ≠ '\\' := by
      rintro rfl
      exact absurd (h '\\' List.mem_cons_self) (by simp [isWord_backslash])
    rw [List.cons_append, atCommands_cons_of_ne hc, ih fun d hd => h d (List.mem_cons_of_mem c hd),
      List.cons_append]

/-- The first character stays a word character or stays another one. -/
theorem atCommands_cons (c : Char) (rest : List Char) :
    ∃ d tail, atCommands (c :: rest) = d :: tail ∧ isWord d = isWord c := by
  cases rest with
  | nil => exact ⟨c, [], rfl, rfl⟩
  | cons e rest =>
    refine ⟨_, _, rfl, ?_⟩
    split
    · rename_i h
      have hc : c = '\\' := of_decide_eq_true (Bool.and_eq_true_iff.1 h).1
      rw [hc, isWord_at, isWord_backslash]
    · rfl

/-- The closed form is a fixed point on its own results. -/
theorem atCommands_atCommands (cs : List Char) : atCommands (atCommands cs) = atCommands cs := by
  induction cs with
  | nil => rfl
  | cons c rest ih =>
    cases rest with
    | nil => rfl
    | cons d rest =>
      rw [atCommands]
      split
      · rw [atCommands_cons_of_ne (by decide), ih]
      · rename_i h
        obtain ⟨e, tail, heq, hword⟩ := atCommands_cons d rest
        -- the next character is of the same class as before, so the test has the same outcome
        rw [heq] at ih ⊢
        rw [atCommands, ih, hword, if_neg h]

/-- A text that begins with some word behind an at sign still begins with it. -/
theorem startsWith_atCommands {word cs : List Char} (hword : ∀ c ∈ word, isWord c = true)
    (h : startsWith ('@' :: word) cs = true) : startsWith ('@' :: word) (atCommands cs) = true := by
  obtain ⟨rest, rfl⟩ := startsWith_iff.1 h
  rw [List.cons_append, atCommands_cons_of_ne (by decide), atCommands_append hword]
  exact startsWith_iff.2 ⟨atCommands rest, rfl⟩

/-! ## Matching -/

namespace DocRule

/-- A word character. -/
def wordClass : Pattern := .set .exact false [.category .word false false]

/-- A run of word characters, at least one. -/
def wordRun : Pattern := .loop wordClass 1 none true

/-- The pattern of the rule. -/
def regex : Regex where
  pattern := .seq (.char .exact '\\'.toNat) (.seq (.group 1 (.seq wordRun .empty)) .empty)
  groups := 1
  names := []

/-- The template of the rule. -/
def template : List TemplatePiece := [.char '@', .group 1]

/-- The first part of the pattern matches a backslash only. -/
theorem run_backslash (k : Continuation) (place : Place) :
    Pattern.run (.char .exact '\\'.toNat) k place = place.take (· = '\\') k := by
  rw [Pattern.run]
  congr 1
  funext c
  simp only [Casing.same_exact, Char.toNat_inj]

/-- The place behind the word at a place. -/
def behindWord (before after : List Char) (groups : List (Nat × List Char)) : Place :=
  ⟨(after.takeWhile isWord).reverse ++ before, after.dropWhile isWord, groups⟩

theorem behindWord_cons {c : Char} (hc : isWord c = true) (before rest : List Char)
    (groups : List (Nat × List Char)) :
    behindWord before (c :: rest) groups = behindWord (c :: before) rest groups := by
  simp [behindWord, hc]

/-- The class of word characters takes one word character. -/
theorem run_wordClass (k : Continuation) (place : Place) :
    Pattern.run wordClass k place = place.take isWord k := by
  rw [wordClass, Pattern.run]
  congr 1
  funext c
  simp [ClassItem.accepts, Category.contains]

/-- Word characters, as many as there are. -/
def words : Pattern := .loop wordClass 0 none true

/-- Those word characters are one more and the rest of them, or what follows. -/
theorem run_words_eq (k : Continuation) (place : Place) :
    Pattern.run words k place =
      (place.take isWord fun next =>
        if next.samePosition place then k next else Pattern.run words k next).orElse
          fun _ => k place := by
  rw [← run_wordClass]
  exact run_loop_zero wordClass (Option.some_ne_none 0).symm true k place

/-- A greedy loop over word characters takes all of them when the rest of the match succeeds. -/
theorem run_words {k : Continuation} {before after : List Char} {groups : List (Nat × List Char)}
    (hk : ∀ next : Place, next.after.length ≤ after.length → (k next).isSome = true) :
    Pattern.run words k ⟨before, after, groups⟩ = k (behindWord before after groups) := by
  induction after generalizing before with
  | nil =>
    rw [run_words_eq]
    simp [Place.take, behindWord]
  | cons c rest ih =>
    rw [List.length_cons] at hk
    rw [run_words_eq]
    by_cases hc : isWord c = true
    · have hlater := @ih (c :: before) fun next hnext => hk next (by omega)
      have hshort := (List.dropWhile_suffix isWord (l := rest)).length_le
      have hsome := hk (behindWord (c :: before) rest groups) (by
        show (rest.dropWhile isWord).length ≤ rest.length + 1
        omega)
      obtain ⟨result, hresult⟩ := Option.isSome_iff_exists.1 hsome
      rw [behindWord_cons hc, hresult]
      rw [hresult] at hlater
      simp [Place.take, hc, Place.samePosition, hlater]
    · simp [Place.take, hc, behindWord]

/-- A run of word characters is one of them and those behind it. -/
theorem run_wordRun_eq (k : Continuation) (place : Place) :
    Pattern.run wordRun k place = place.take isWord fun next => Pattern.run words k next := by
  rw [← run_wordClass]
  exact run_loop_succ wordClass 0 none true k place

/-- A run of word characters takes the word at a place when the rest of the match succeeds. -/
theorem run_wordRun {c : Char} (hc : isWord c = true) {k : Continuation} (before rest : List Char)
    (groups : List (Nat × List Char))
    (hk : ∀ next : Place, next.after.length ≤ rest.length → (k next).isSome = true) :
    Pattern.run wordRun k ⟨before, c :: rest, groups⟩ =
      k (behindWord before (c :: rest) groups) := by
  rw [run_wordRun_eq, behindWord_cons hc]
  simp only [Place.take, hc, if_true]
  exact run_words hk

/-- Where no word is there is no run of word characters. -/
theorem run_wordRun_of_not {k : Continuation} {before after : List Char}
    {groups : List (Nat × List Char)} (h : after.takeWhile isWord = []) :
    Pattern.run wordRun k ⟨before, after, groups⟩ = none := by
  rw [run_wordRun_eq]
  cases after with
  | nil => rfl
  | cons c rest =>
    by_cases hc : isWord c = true
    · simp [hc] at h
    · simp [Place.take, hc]

/-- The text of a group that a word has taken. -/
theorem textFrom_behindWord (before after : List Char) (groups groups' : List (Nat × List Char)) :
    (behindWord before after groups).textFrom ⟨before, after, groups'⟩ =
      after.takeWhile isWord := by
  simp [Place.textFrom, behindWord]

/-- The pattern matches a backslash and the word directly behind it. -/
theorem matchAt_command {c : Char} (hc : isWord c = true) (before rest : List Char) :
    regex.matchAt false ⟨before, '\\' :: c :: rest, []⟩ =
      some { behindWord ('\\' :: before) (c :: rest) [] with
        groups := [(1, (c :: rest).takeWhile isWord)] } := by
  have hrun := run_wordRun hc (k := fun next => some { next with
      groups := (1, next.textFrom ⟨'\\' :: before, c :: rest, []⟩) :: next.groups })
    ('\\' :: before) rest [] fun next _ => rfl
  rw [textFrom_behindWord] at hrun
  simp only [Regex.matchAt, regex, Pattern.run.eq_def (.seq _ _), run_backslash, Place.take]
  simp only [decide_true, if_true, Bool.false_and, Bool.false_eq_true, if_false]
  exact hrun

/-- The pattern matches nothing else. -/
theorem matchAt_eq_none {before after : List Char}
    (h : ∀ rest, after = '\\' :: rest → rest.takeWhile isWord = []) :
    regex.matchAt false ⟨before, after, []⟩ = none := by
  simp only [Regex.matchAt, regex, Pattern.run.eq_def (.seq _ _), run_backslash, Place.take]
  cases after with
  | nil => rfl
  | cons c rest =>
    by_cases hc : c = '\\'
    · subst hc
      simp only [decide_true, if_true]
      exact run_wordRun_of_not (h rest rfl)
    · simp [hc]

/-! ## Replacing -/

/-- A backslash in front of a word becomes an at sign. -/
theorem replaceHere_command {c : Char} (hc : isWord c = true) (before rest : List Char) :
    regex.replaceHere template ⟨before, '\\' :: c :: rest, []⟩ =
      ('@' :: (c :: rest).takeWhile isWord, ((c :: rest).takeWhile isWord).length + 1) := by
  have hsplit :=
    congrArg List.length (List.takeWhile_append_dropWhile (p := isWord) (l := c :: rest))
  rw [List.length_append] at hsplit
  rw [Regex.replaceHere, matchAt_command hc]
  have hposition : ({ behindWord ('\\' :: before) (c :: rest) [] with
      groups := [(1, (c :: rest).takeWhile isWord)] } : Place).samePosition
        ⟨before, '\\' :: c :: rest, []⟩ = false := by
    simp only [Place.samePosition, behindWord, List.length_cons] at hsplit ⊢
    exact decide_eq_false (by omega)
  simp only [hposition, Bool.false_eq_true, if_false]
  refine Prod.ext ?_ ?_
  · simp [Regex.fill, template, Place.group?]
  · simp only [behindWord, List.length_cons] at hsplit ⊢
    omega

/-- Where no backslash with a word stands nothing is replaced. -/
theorem replaceHere_eq_nothing {before after : List Char}
    (h : ∀ rest, after = '\\' :: rest → rest.takeWhile isWord = []) :
    regex.replaceHere template ⟨before, after, []⟩ = ([], 0) :=
  Regex.replaceHere_of_no_match (matchAt_eq_none h)

/-- Characters that were part of a match are skipped. -/
theorem replaceFrom_skip (regex : Regex) (template : List TemplatePiece)
    (before taken rest : List Char) :
    regex.replaceFrom template before taken.length (taken ++ rest) =
      regex.replaceFrom template (taken.reverse ++ before) 0 rest := by
  induction taken generalizing before with
  | nil => rfl
  | cons c taken ih =>
    rw [List.length_cons, List.cons_append, Regex.replaceFrom, ih, List.reverse_cons,
      List.append_assoc, List.singleton_append]

/-- Replacing in a text gives the closed form, whatever stands before it. -/
theorem replaceFrom_eq (before cs : List Char) :
    regex.replaceFrom template before 0 cs = atCommands cs := by
  -- a match takes a whole word at once, so the induction is on the length
  induction hlength : cs.length using Nat.strongRecOn generalizing before cs with
  | ind n ih =>
    subst hlength
    cases cs with
    | nil =>
      rw [Regex.replaceFrom, replaceHere_eq_nothing fun rest h => by cases h]
      rfl
    | cons c rest =>
      by_cases hword : c = '\\' ∧ rest.takeWhile isWord ≠ []
      · obtain ⟨rfl, hword⟩ := hword
        cases rest with
        | nil => exact absurd rfl hword
        | cons d rest =>
          have hd : isWord d = true := by
            by_cases hd : isWord d = true
            · exact hd
            · simp [hd] at hword
          have hsplit := List.takeWhile_append_dropWhile (p := isWord) (l := d :: rest)
          have hall : ∀ e ∈ (d :: rest).takeWhile isWord, isWord e = true :=
            List.all_eq_true.1 List.all_takeWhile
          have hshort := (List.dropWhile_suffix isWord (l := d :: rest)).length_le
          have hskip := replaceFrom_skip regex template ('\\' :: before)
            ((d :: rest).takeWhile isWord) ((d :: rest).dropWhile isWord)
          rw [hsplit] at hskip
          rw [Regex.replaceFrom, replaceHere_command hd]
          dsimp only
          rw [hskip, ih _ (by simp only [List.length_cons] at hshort ⊢; omega) _ _ rfl, atCommands,
            if_pos (by simp [hd]), ← hsplit, atCommands_append hall, List.cons_append]
          simp only [hsplit]
      · have hnone : ∀ rest', c :: rest = '\\' :: rest' → rest'.takeWhile isWord = [] := by
          rintro rest' ⟨⟩
          exact Classical.byContradiction fun hne => hword ⟨rfl, hne⟩
        rw [Regex.replaceFrom, replaceHere_eq_nothing hnone]
        dsimp only
        rw [ih rest.length (Nat.lt_succ_self _) _ rest rfl, List.nil_append]
        cases rest with
        | nil => rfl
        | cons d rest =>
          rw [atCommands, if_neg]
          intro h
          obtain ⟨hc, hd⟩ := Bool.and_eq_true_iff.1 h
          exact hword ⟨of_decide_eq_true hc, by simp [hd]⟩

end DocRule

/-- **The standard doc rule** turns each backslash directly before a word character into an at
sign, and it never fails. -/
theorem Rules.applyAll_standardDocRules [CharacterNames] (text : List Char) :
    Replacement.applyAll standardDocRules text = .ok (atCommands text) := by
  have hpattern : Regex.parse? "\\\\(\\w+)".toList = some DocRule.regex := rfl
  have htemplate : DocRule.regex.template? "@\\1".toList = some DocRule.template := rfl
  rw [standardDocRules, Replacement.applyAll, Replacement.apply]
  dsimp only
  rw [hpattern]
  dsimp only
  rw [htemplate]
  dsimp only [bind, Except.bind]
  rw [Replacement.applyAll, Regex.replaceAll, DocRule.replaceFrom_eq]

end HeaderApi
