import HeaderApi.Proofs.OpenParameters
import HeaderApi.Proofs.TightTexts

/-!
# Heads of members

Attributes are left out of a line from front to back, and the type and the name of a member are
read up to the parenthesis behind the name.  So they stay the same when text without parentheses is
put in behind that parenthesis.
-/

namespace HeaderApi

open Text

namespace Member

/-! ## Attributes -/

variable {a b u v : Line} {c : Char} {inWord : Bool}

/-- Whether the character behind a text continues a word.  The flag tells that for the beginning of
the text. -/
def endsInWord : Bool → Line → Bool
  | inWord, [] => inWord
  | _, c :: rest => endsInWord (isWord c) rest

/-- What follows an attribute is an end of the text. -/
theorem afterAttribute_suffix (cs : Line) : afterAttribute cs <:+ cs := by
  unfold afterAttribute
  split
  · split
    · rename_i inner _ _ rest hcut
      obtain ⟨hinner, -⟩ := cutAt_eq_some_iff.1 hcut
      refine (List.dropWhile_suffix isBlank).trans ?_
      rw [hinner]
      exact ((List.suffix_cons ')' rest).trans (List.suffix_append _ _)).trans
        (List.suffix_cons '(' _)
    · exact List.dropWhile_suffix isBlank
  · exact List.dropWhile_suffix isBlank

/-- Characters that are to be skipped are left out. -/
theorem dropAttributesFrom_skip (front rest : Line) :
    dropAttributesFrom front.length false (front ++ rest) = dropAttributesFrom 0 false rest := by
  induction front with
  | nil => rfl
  | cons c front ih => rw [List.length_cons, List.cons_append, dropAttributesFrom, ih]

/-- Whether a text begins with an attribute. -/
def beginsAttribute (inWord : Bool) (c : Char) (rest : Line) : Bool :=
  !inWord && isWord c && attributeWords.contains ((c :: rest).takeWhile isWord)

/-- What follows the word of an attribute is an end of the text. -/
theorem dropWhile_suffix_of_beginsAttribute (h : beginsAttribute inWord c a = true) :
    (c :: a).dropWhile isWord <:+ a := by
  rw [beginsAttribute, Bool.and_eq_true, Bool.and_eq_true] at h
  rw [List.dropWhile_cons_of_pos h.1.2]
  exact List.dropWhile_suffix isWord

/-- An attribute is left out with its arguments and the blanks behind it. -/
theorem dropAttributesFrom_attribute (h : beginsAttribute inWord c a = true) :
    dropAttributesFrom 0 inWord (c :: a) =
      dropAttributesFrom 0 false (afterAttribute ((c :: a).dropWhile isWord)) := by
  obtain ⟨front, hfront⟩ := (afterAttribute_suffix ((c :: a).dropWhile isWord)).trans
    (dropWhile_suffix_of_beginsAttribute h)
  have hlength : a.length - (afterAttribute ((c :: a).dropWhile isWord)).length = front.length := by
    have hsum := congrArg List.length hfront
    rw [List.length_append] at hsum
    omega
  rw [beginsAttribute] at h
  rw [dropAttributesFrom, if_pos h]
  dsimp only
  rw [hlength]
  generalize afterAttribute ((c :: a).dropWhile isWord) = tail at hfront
  rw [← hfront, dropAttributesFrom_skip]

/-- A character that begins no attribute stays. -/
theorem dropAttributesFrom_char (h : beginsAttribute inWord c a = false) :
    dropAttributesFrom 0 inWord (c :: a) = c :: dropAttributesFrom 0 (isWord c) a := by
  rw [beginsAttribute] at h
  rw [dropAttributesFrom, h]
  rfl

/-- An attribute without arguments ends with the blanks behind it. -/
theorem afterAttribute_of_head (h : ∀ c ∈ a.head?, c ≠ '(') : afterAttribute a = trimStart a := by
  unfold afterAttribute
  split
  · exact absurd rfl (h '(' rfl)
  · rfl

/-- What follows an attribute goes on as the text does, unless its arguments are still open. -/
theorem afterAttribute_append (hempty : a = [] → ∀ c ∈ b.head?, c ≠ '(')
    (hclosed : ∀ inner, a = '(' :: inner → ')' ∉ inner → ')' ∉ b) :
    afterAttribute (a ++ b) = trimStart (afterAttribute a ++ b) := by
  cases a with
  | nil =>
    rw [List.nil_append, afterAttribute_of_head (hempty rfl)]
    rfl
  | cons c a =>
    by_cases hc : c = '('
    · subst hc
      cases hcut : cutAt ')' a with
      | some cut =>
        obtain ⟨inner, rest⟩ := cut
        obtain ⟨rfl, hinner⟩ := cutAt_eq_some_iff.1 hcut
        have hcut' : cutAt ')' (inner ++ ')' :: rest ++ b) = some (inner, rest ++ b) :=
          cutAt_eq_some_iff.2 ⟨by simp, hinner⟩
        simp only [List.cons_append, afterAttribute, hcut, hcut', trimStart_trimStart_append]
      | none =>
        have ha : ')' ∉ a := cutAt_eq_none_iff.1 hcut
        have hcut' : cutAt ')' (a ++ b) = none :=
          cutAt_eq_none_iff.2 fun hmem => (List.mem_append.1 hmem).elim ha (hclosed a rfl ha)
        simp only [List.cons_append, afterAttribute, hcut, hcut', trimStart_trimStart_append]
    · have hhead (rest : Line) : afterAttribute (c :: rest) = trimStart (c :: rest) :=
        afterAttribute_of_head fun d hd => Option.some.inj hd ▸ hc
      rw [List.cons_append, hhead, hhead, trimStart_trimStart_append, List.cons_append]

/-- What stands behind the place where the arguments of an attribute are closed. -/
theorem afterAttribute_open (hu : ')' ∉ u) :
    afterAttribute ('(' :: (u ++ ')' :: v)) = trimStart v := by
  have hcut : cutAt ')' (u ++ ')' :: v) = some (u, v) := cutAt_eq_some_iff.2 ⟨rfl, hu⟩
  simp only [afterAttribute, hcut]

/-- The text `b` does not continue a word at the end of `a`, nor open the arguments of one. -/
def Continues (inWord : Bool) (a b : Line) : Prop :=
  endsInWord inWord a = true → ∀ c ∈ b.head?, isWord c = false ∧ c ≠ '('

/-- Only the end of a text tells whether a word goes on behind it. -/
theorem endsInWord_append (hb : b ≠ []) (w w' : Bool) (a : Line) :
    endsInWord w (a ++ b) = endsInWord w' b := by
  induction a generalizing w with
  | nil =>
    obtain ⟨c, b, rfl⟩ := List.exists_cons_of_ne_nil hb
    rfl
  | cons c a ih => exact ih (isWord c)

/-- What does not continue a text does not continue an end of it. -/
theorem Continues.of_suffix {w w' : Bool} (h : Continues w a b) (hsuffix : u <:+ a) (hu : u ≠ []) :
    Continues w' u b := by
  obtain ⟨front, rfl⟩ := hsuffix
  intro hword
  exact h ((endsInWord_append hu w w' front).trans hword)

/-- A word goes on behind a run of word characters. -/
theorem endsInWord_of_forall (ha : a ≠ []) (h : ∀ c ∈ a, isWord c = true) (w : Bool) :
    endsInWord w a = true := by
  induction a generalizing w with
  | nil => exact absurd rfl ha
  | cons c a ih =>
    obtain ⟨hc, hrest⟩ := List.forall_mem_cons.1 h
    cases a with
    | nil => exact hc
    | cons d a => exact ih (List.cons_ne_nil d a) hrest (isWord c)

/-- A word that a text begins with ends inside of it or with it. -/
theorem takeWhile_of_continues (ha : a ≠ []) (h : Continues inWord a b) :
    (a ++ b).takeWhile isWord = a.takeWhile isWord ∧
      (a ++ b).dropWhile isWord = a.dropWhile isWord ++ b := by
  have hsplit : a.takeWhile isWord ++ a.dropWhile isWord = a := List.takeWhile_append_dropWhile
  have hrun : ∀ c ∈ a.takeWhile isWord, isWord c = true := List.all_eq_true.1 List.all_takeWhile
  cases hrest : a.dropWhile isWord with
  | nil =>
    rw [hrest, List.append_nil] at hsplit
    rw [hsplit] at hrun ⊢
    have hhead : ∀ c ∈ b.head?, isWord c = false :=
      fun c hc => (h (endsInWord_of_forall ha hrun inWord) c hc).1
    exact ⟨takeWhile_append_of_head hrun hhead, dropWhile_append_of_head hrun hhead⟩
  | cons d rest =>
    have hd : isWord d = false := eq_false_of_dropWhile hrest
    rw [hrest] at hsplit
    have hline : a ++ b = a.takeWhile isWord ++ d :: (rest ++ b) := by
      rw [← List.cons_append, ← List.append_assoc, hsplit]
    rw [hline]
    exact ⟨takeWhile_append_cons hrun hd, dropWhile_append_cons hrun hd⟩

/-- How the rest of a text is read behind a place: as it stands, or without the blanks behind an
attribute at the end of the text before. -/
def restBehind (behind : Bool) (b : Line) : Line :=
  dropAttributesFrom 0 false (if behind then trimStart b else b)

/-- What is left out of a text that goes on behind `a`: what is left out of `a` and then of the
rest, unless the arguments of an attribute of `a` are closed behind it. -/
structure Splits (inWord : Bool) (a : Line) (behind : Bool) : Prop where
  unclosed : ∀ b, Continues inWord a b → ')' ∉ b →
    dropAttributesFrom 0 inWord (a ++ b) = dropAttributesFrom 0 inWord a ++ restBehind behind b
  closed : (∀ b, Continues inWord a b →
      dropAttributesFrom 0 inWord (a ++ b) =
        dropAttributesFrom 0 inWord a ++ restBehind behind b) ∨
    '(' ∈ a ∧ ∃ front, ∀ u v, ')' ∉ u → Continues inWord a (u ++ ')' :: v) →
      dropAttributesFrom 0 inWord (a ++ (u ++ ')' :: v)) = front ++ restBehind true v

/-- A text splits when what is left out behind it is the same for every rest. -/
theorem Splits.of_forall {behind : Bool}
    (h : ∀ b, Continues inWord a b →
      dropAttributesFrom 0 inWord (a ++ b) =
        dropAttributesFrom 0 inWord a ++ restBehind behind b) : Splits inWord a behind :=
  ⟨fun b hb _ => h b hb, .inl h⟩

theorem splits_nil (inWord : Bool) : Splits inWord [] false := by
  refine .of_forall fun b hb => ?_
  cases b with
  | nil => cases inWord <;> rfl
  | cons c b =>
    cases inWord with
    | false => rfl
    | true =>
      have hc : isWord c = false := (hb rfl c rfl).1
      have hbegins (w : Bool) : beginsAttribute w c b = false := by simp [beginsAttribute, hc]
      rw [List.nil_append, dropAttributesFrom_char (hbegins true)]
      exact (dropAttributesFrom_char (hbegins false)).symm

theorem beginsAttribute_append (h : Continues inWord (c :: a) b) :
    beginsAttribute inWord c (a ++ b) = beginsAttribute inWord c a := by
  rw [beginsAttribute, beginsAttribute, ← List.cons_append,
    (takeWhile_of_continues (List.cons_ne_nil c a) h).1]

/-- A character that begins no attribute splits with the text behind it. -/
theorem Splits.cons {behind : Bool} (hbegins : beginsAttribute inWord c a = false)
    (h : Splits (isWord c) a behind) : Splits inWord (c :: a) behind := by
  have hchar (b : Line) (hb : Continues inWord (c :: a) b) :
      dropAttributesFrom 0 inWord (c :: a ++ b) =
        c :: dropAttributesFrom 0 (isWord c) (a ++ b) :=
    dropAttributesFrom_char ((beginsAttribute_append hb).trans hbegins)
  constructor
  · intro b hb hclosing
    rw [hchar b hb, dropAttributesFrom_char hbegins, h.unclosed b hb hclosing, List.cons_append]
  · rcases h.closed with hall | ⟨hopening, front, hall⟩
    · refine .inl fun b hb => ?_
      rw [hchar b hb, dropAttributesFrom_char hbegins, hall b hb, List.cons_append]
    · refine .inr ⟨List.mem_cons_of_mem c hopening, c :: front, fun u v hu hb => ?_⟩
      rw [hchar _ hb, hall u v hu hb, List.cons_append]

/-- No blanks stand in front of what follows an attribute. -/
theorem isBlank_of_head_afterAttribute (a : Line) :
    ∀ c ∈ (afterAttribute a).head?, isBlank c = false := by
  have hstart (cs : Line) : ∀ c ∈ (trimStart cs).head?, isBlank c = false := by
    intro c hc
    obtain ⟨rest, hrest⟩ := List.head?_eq_some_iff.1 hc
    exact eq_false_of_dropWhile hrest
  unfold afterAttribute
  split
  · split
    · exact hstart _
    · exact hstart _
  · exact hstart _

/-- An attribute is left out of a text that goes on, with the blanks behind it. -/
theorem dropAttributesFrom_continued (hbegins : beginsAttribute inWord c a = true)
    (hb : Continues inWord (c :: a) b) :
    dropAttributesFrom 0 inWord (c :: a ++ b) =
      dropAttributesFrom 0 false (afterAttribute ((c :: a).dropWhile isWord ++ b)) := by
  have hrest := (takeWhile_of_continues (List.cons_ne_nil c a) hb).2
  rw [List.cons_append] at hrest
  rw [List.cons_append, dropAttributesFrom_attribute ((beginsAttribute_append hb).trans hbegins),
    hrest]

/-- The arguments of an attribute that are still open may be closed behind a text. -/
theorem Splits.of_open {behind : Bool} {inner : Line} (hbegins : beginsAttribute inWord c a = true)
    (hrest : (c :: a).dropWhile isWord = '(' :: inner) (hinner : ')' ∉ inner)
    (h : Splits false ('(' :: inner) behind) : Splits inWord (c :: a) behind := by
  have hself : afterAttribute ('(' :: inner) = '(' :: inner := by
    simp only [afterAttribute, cutAt_eq_none_iff.2 hinner]
    exact trimStart_cons (by decide) inner
  have hsuffix : '(' :: inner <:+ c :: a := hrest ▸ List.dropWhile_suffix isWord
  constructor
  · intro b hb hclosing
    have hgoes := afterAttribute_append (a := '(' :: inner) (b := b) nofun fun _ _ _ => hclosing
    rw [hself, List.cons_append, trimStart_cons (by decide)] at hgoes
    rw [dropAttributesFrom_continued hbegins hb, dropAttributesFrom_attribute hbegins, hrest, hself,
      List.cons_append, hgoes]
    exact h.unclosed b (hb.of_suffix hsuffix (List.cons_ne_nil _ _)) hclosing
  · refine .inr ⟨hsuffix.subset List.mem_cons_self, [], fun u v hu hb => ?_⟩
    have hinside : ')' ∉ inner ++ u := fun hmem => (List.mem_append.1 hmem).elim hinner hu
    rw [dropAttributesFrom_continued hbegins hb, hrest, List.cons_append, ← List.append_assoc,
      afterAttribute_open hinside]
    rfl

/-- Behind an attribute with its arguments the text goes on, or nothing is left of it. -/
theorem exists_splits_of_closed (hbegins : beginsAttribute inWord c a = true)
    (hclosed : ∀ inner, (c :: a).dropWhile isWord = '(' :: inner → ')' ∈ inner)
    (ih : ∀ rest, rest <:+ a → ∃ behind, Splits false rest behind) :
    ∃ behind, Splits inWord (c :: a) behind := by
  -- the attribute and its arguments are dropped, and what follows them is split
  have hgoes (b : Line) (hb : Continues inWord (c :: a) b) :
      afterAttribute ((c :: a).dropWhile isWord ++ b) =
        trimStart (afterAttribute ((c :: a).dropWhile isWord) ++ b) := by
    refine afterAttribute_append (fun hnil => ?_) fun inner hrest hinner => ?_
    · have hword := List.dropWhile_eq_nil_iff.1 hnil
      exact fun d hd =>
        (hb (endsInWord_of_forall (List.cons_ne_nil c a) hword inWord) d hd).2
    · exact absurd (hclosed inner hrest) hinner
  have hsuffix : afterAttribute ((c :: a).dropWhile isWord) <:+ a :=
    (afterAttribute_suffix _).trans (dropWhile_suffix_of_beginsAttribute hbegins)
  have hvisible := isBlank_of_head_afterAttribute ((c :: a).dropWhile isWord)
  have hdrop := dropAttributesFrom_attribute hbegins
  have hcontinued (b : Line) (hb : Continues inWord (c :: a) b) :=
    (dropAttributesFrom_continued hbegins hb).trans
      (congrArg (dropAttributesFrom 0 false) (hgoes b hb))
  generalize afterAttribute ((c :: a).dropWhile isWord) = rest at *
  cases rest with
  | nil =>
    refine ⟨true, .of_forall fun b hb => ?_⟩
    rw [hcontinued b hb, hdrop]
    rfl
  | cons d rest =>
    obtain ⟨behind, h⟩ := ih _ hsuffix
    have hline (b : Line) (hb : Continues inWord (c :: a) b) :
        dropAttributesFrom 0 inWord (c :: a ++ b) =
          dropAttributesFrom 0 false (d :: rest ++ b) := by
      rw [hcontinued b hb, List.cons_append, trimStart_cons (hvisible d rfl)]
    have hlater (b : Line) (hb : Continues inWord (c :: a) b) : Continues false (d :: rest) b :=
      hb.of_suffix (hsuffix.trans (List.suffix_cons c a)) (List.cons_ne_nil d rest)
    refine ⟨behind, fun b hb hclosing => ?_, ?_⟩
    · rw [hline b hb, hdrop, h.unclosed b (hlater b hb) hclosing]
    · rcases h.closed with hall | ⟨hopening, front, hall⟩
      · refine .inl fun b hb => ?_
        rw [hline b hb, hdrop, hall b (hlater b hb)]
      · refine .inr ⟨List.mem_cons_of_mem c (hsuffix.subset hopening), front, fun u v hu hb => ?_⟩
        rw [hline _ hb, hall u v hu (hlater _ hb)]

/-- Attributes are left out of a text `a` and of what follows it one after the other. -/
theorem exists_splits (inWord : Bool) (a : Line) : ∃ behind, Splits inWord a behind := by
  induction hlength : a.length using Nat.strong_induction_on generalizing a inWord with
  | _ n ih =>
    cases a with
    | nil => exact ⟨false, splits_nil inWord⟩
    | cons c a =>
      subst hlength
      have hshorter : ∀ (w : Bool) (rest : Line), rest <:+ a → ∃ behind, Splits w rest behind :=
        fun w rest hrest => ih rest.length (Nat.lt_succ_of_le hrest.length_le) w rest rfl
      cases hbegins : beginsAttribute inWord c a with
      | false =>
        obtain ⟨behind, hlater⟩ := hshorter (isWord c) a List.suffix_rfl
        exact ⟨behind, hlater.cons hbegins⟩
      | true =>
        by_cases hopen : ∃ inner, (c :: a).dropWhile isWord = '(' :: inner ∧ ')' ∉ inner
        · obtain ⟨inner, hrest, hinner⟩ := hopen
          have hsuffix := dropWhile_suffix_of_beginsAttribute hbegins
          rw [hrest] at hsuffix
          obtain ⟨behind, hlater⟩ := hshorter false _ hsuffix
          exact ⟨behind, hlater.of_open hbegins hrest hinner⟩
        · refine exists_splits_of_closed hbegins (fun inner hrest => ?_) (hshorter false)
          exact Decidable.not_not.1 fun hinner => hopen ⟨inner, hrest, hinner⟩

/-- Only characters of the text are left. -/
theorem dropAttributesFrom_subset (skip : Nat) (inWord : Bool) (a : Line) :
    dropAttributesFrom skip inWord a ⊆ a := by
  induction a generalizing skip inWord with
  | nil => cases skip <;> exact List.nil_subset _
  | cons c a ih =>
    cases skip with
    | succ skip => exact List.subset_cons_of_subset c (ih skip false)
    | zero =>
      rw [dropAttributesFrom]
      split
      · exact List.subset_cons_of_subset c (ih _ false)
      · exact List.cons_subset_cons c (ih 0 (isWord c))

/-- In front of a slash attributes are left out as at the end of the text. -/
theorem dropAttributesFrom_append_slash (ha : '(' ∉ a) (inWord : Bool) (b : Line) :
    dropAttributesFrom 0 inWord (a ++ '/' :: b) =
      dropAttributesFrom 0 inWord a ++ '/' :: dropAttributesFrom 0 false b := by
  obtain ⟨behind, hsplits⟩ := exists_splits inWord a
  have hslash : restBehind behind ('/' :: b) = '/' :: dropAttributesFrom 0 false b := by
    have hword : isWord '/' = false := by decide
    have hbegins : beginsAttribute false '/' b = false := by simp [beginsAttribute, hword]
    rw [restBehind, trimStart_cons (by decide), ite_self, dropAttributesFrom_char hbegins, hword]
  have hcontinues : Continues inWord a ('/' :: b) := by
    rintro - c hc
    cases hc
    decide
  rcases hsplits.closed with hall | ⟨hopening, -⟩
  · rw [hall _ hcontinues, hslash]
  · exact absurd hopening ha

/-- A blank is no word character and no parenthesis. -/
theorem isWord_of_isBlank (h : isBlank c = true) : isWord c = false ∧ c ≠ '(' := by
  constructor
  · refine Bool.eq_false_iff.2 fun hword => ?_
    rw [Spelling.isBlank_of_isWord hword] at h
    cases h
  · rintro rfl
    cases h

/-- The blanks at the front of a text stay there. -/
theorem dropAttributesFrom_trimStart (a : Line) :
    dropAttributesFrom 0 false a =
      a.takeWhile isBlank ++ dropAttributesFrom 0 false (trimStart a) := by
  induction a with
  | nil => rfl
  | cons c a ih =>
    cases hc : isBlank c with
    | false =>
      rw [List.takeWhile_cons_of_neg (by simp [hc]), trimStart_cons hc, List.nil_append]
    | true =>
      have hword := (isWord_of_isBlank hc).1
      have hstart : trimStart (c :: a) = trimStart a := List.dropWhile_cons_of_pos hc
      rw [dropAttributesFrom_char (by simp [beginsAttribute, hword]), hword, ih,
        List.takeWhile_cons_of_pos hc, hstart, List.cons_append]

/-- Blanks at the end are kept, or left out with an attribute in front of them. -/
theorem exists_dropAttributesFrom_append_blank {gap : Line} (hgap : allBlank gap = true)
    (inWord : Bool) (a : Line) :
    ∃ gap', allBlank gap' = true ∧
      dropAttributesFrom 0 inWord (a ++ gap) = dropAttributesFrom 0 inWord a ++ gap' := by
  obtain ⟨behind, hsplits⟩ := exists_splits inWord a
  have hblank : ∀ c ∈ gap, isBlank c = true := List.all_eq_true.1 hgap
  have hcontinues : Continues inWord a gap := fun _ c hc =>
    isWord_of_isBlank (hblank c (List.mem_of_mem_head? hc))
  have hclosing : ')' ∉ gap := fun hmem => absurd (hblank _ hmem) (by decide)
  refine ⟨restBehind behind gap, ?_, hsplits.unclosed gap hcontinues hclosing⟩
  refine List.all_eq_true.2 fun c hc => hblank c ?_
  have hmem := dropAttributesFrom_subset 0 false _ hc
  cases behind with
  | false => exact hmem
  | true => exact (List.dropWhile_suffix isBlank).subset hmem

/-! ## Comments in a line -/

open Source

variable {gap text : Line}

/-- A comment behind blanks, put into a text, is put into what is left of it. -/
theorem exists_restBehind_block (hgap : allBlank gap = true) (htext : IsInert text) (behind : Bool)
    (b : Line) :
    ∃ put, put ≠ [] ∧ IsInert put ∧
      restBehind behind (gap ++ (Comment.block text ++ b)) = put ++ restBehind behind b := by
  have hinert {front : Line} (hfront : IsInert front) :
      IsInert (dropAttributesFrom 0 false front ++ ['/']) :=
    (hfront.of_subset (dropAttributesFrom_subset 0 false front)).append (by decide)
  have hbody : IsInert ("/*".toList ++ (text ++ ['*'])) :=
    IsInert.append (by decide) (htext.append (by decide))
  have hopening {front : Line} (hfront : IsInert front) : '(' ∉ front :=
    fun hmem => (hfront _ hmem).1 rfl
  have hblock : Comment.block text ++ b = "/*".toList ++ (text ++ ['*']) ++ '/' :: b := by
    simp [Comment.block]
  cases behind with
  | false =>
    -- the comment is reached as any other text
    have hfront := (isInert_of_blank hgap).append hbody
    refine ⟨_, by simp, hinert hfront, ?_⟩
    rw [hblock, ← List.append_assoc]
    simp only [restBehind, Bool.false_eq_true, if_false]
    rw [dropAttributesFrom_append_slash (hopening hfront), List.append_assoc]
    rfl
  | true =>
    -- behind the arguments of an attribute blanks are dropped first
    have hstart : trimStart (gap ++ (Comment.block text ++ b)) = Comment.block text ++ b := by
      rw [trimStart_append_of_blank (List.all_eq_true.1 hgap)]
      rfl
    have hblanks : IsInert (b.takeWhile isBlank) := isInert_of_blank List.all_takeWhile
    refine ⟨_, by simp, (hinert hbody).append hblanks, ?_⟩
    simp only [restBehind, if_true]
    rw [hstart, hblock, dropAttributesFrom_append_slash (hopening hbody),
      dropAttributesFrom_trimStart b]
    simp

/-- A comment without parentheses in a line leads to text without parentheses in what is left of
the line, or it goes with the arguments of an attribute. -/
theorem dropAttributesFrom_block (hgap : allBlank gap = true) (htext : IsInert text)
    {inWord : Bool} (hb : Continues inWord a b) :
    dropAttributesFrom 0 inWord (a ++ (gap ++ (Comment.block text ++ b))) =
      dropAttributesFrom 0 inWord (a ++ b) ∨
    ∃ put back, put ≠ [] ∧ IsInert put ∧
      dropAttributesFrom 0 inWord (a ++ b) = dropAttributesFrom 0 inWord a ++ back ∧
      dropAttributesFrom 0 inWord (a ++ (gap ++ (Comment.block text ++ b))) =
        dropAttributesFrom 0 inWord a ++ (put ++ back) := by
  obtain ⟨behind, hsplits⟩ := exists_splits inWord a
  obtain ⟨put, hne, hput, hrest⟩ := exists_restBehind_block hgap htext behind b
  have hinert : IsInert (gap ++ Comment.block text) :=
    (isInert_of_blank hgap).append (Comment.isInert_block htext)
  have hcontinues : Continues inWord a (gap ++ (Comment.block text ++ b)) := by
    rintro - c hc
    cases gap with
    | nil =>
      cases hc
      decide
    | cons d gap =>
      cases hc
      exact isWord_of_isBlank (List.all_eq_true.1 hgap c List.mem_cons_self)
  rcases hsplits.closed with hall | ⟨-, front, hopen⟩
  · -- no arguments are open, so both parts are treated apart from each other
    exact .inr ⟨put, restBehind behind b, hne, hput, hall b hb, by rw [hall _ hcontinues, hrest]⟩
  · by_cases hclosing : ')' ∈ b
    · -- the arguments that are closed in `b` go with the comment
      obtain ⟨u, v, rfl, hu⟩ := List.eq_append_cons_of_mem hclosing
      have hline : gap ++ (Comment.block text ++ (u ++ ')' :: v)) =
          gap ++ Comment.block text ++ u ++ ')' :: v := by simp
      have hu' : ')' ∉ gap ++ Comment.block text ++ u := fun hmem =>
        (List.mem_append.1 hmem).elim (fun hmem => (hinert _ hmem).2.1 rfl) hu
      rw [hline] at hcontinues ⊢
      exact .inl ((hopen _ v hu' hcontinues).trans (hopen u v hu hb).symm)
    · have hclosing' : ')' ∉ gap ++ (Comment.block text ++ b) := by
        rw [← List.append_assoc]
        exact fun hmem =>
          (List.mem_append.1 hmem).elim (fun hmem => (hinert _ hmem).2.1 rfl) hclosing
      refine .inr ⟨put, restBehind behind b, hne, hput, hsplits.unclosed b hb hclosing, ?_⟩
      rw [hsplits.unclosed _ hcontinues hclosing', hrest]

/-! ## Heads in front of a parenthesis -/

variable {front parameters : List Char}

/-- A head that leaves more text. -/
def Head.extend (head : Head) (text : List Char) : Head := { head with rest := head.rest ++ text }

/-- The symbols of operators that are known as a whole. -/
def fixedSymbol? (cs : List Char) : Option (List Char × List Char) :=
  ["()", "[]", "<=>", "->"].findSome? fun symbol =>
    (after? symbol.toList cs).map (symbol.toList, ·)

/-- A known symbol is read in front of a parenthesis, unless the parentheses are the symbol. -/
theorem fixedSymbol?_append (cs : List Char)
    (hparameters : cs = [] → startsWith [')'] parameters = false) :
    fixedSymbol? (cs ++ '(' :: parameters) =
      (fixedSymbol? cs).map fun r => (r.1, r.2 ++ '(' :: parameters) := by
  have hcall : after? "()".toList (cs ++ '(' :: parameters) =
      (after? "()".toList cs).map (· ++ '(' :: parameters) := by
    cases cs with
    | nil => exact after?_eq_none_iff.2 (hparameters rfl)
    -- the second character of the call operator may be the one that follows
    | cons c cs =>
      have hclosing : after? [')'] (cs ++ '(' :: parameters) =
        (after? [')'] cs).map (· ++ '(' :: parameters) := after?_append_cons (by decide)
      have hstep (rest : List Char) :
          after? "()".toList (c :: rest) = if '(' = c then after? [')'] rest else none := rfl
      rw [List.cons_append, hstep, hstep, hclosing]
      split <;> rfl
  have hsymbol {symbol : List Char} (hmem : '(' ∉ symbol) :
      after? symbol (cs ++ '(' :: parameters) =
        (after? symbol cs).map (· ++ '(' :: parameters) := after?_append_cons hmem
  have hindex := @hsymbol "[]".toList (by decide)
  have horder := @hsymbol "<=>".toList (by decide)
  have harrow := @hsymbol "->".toList (by decide)
  simp only [fixedSymbol?, List.findSome?_cons, List.findSome?_nil, hcall, hindex, horder, harrow]
  cases after? "()".toList cs with
  | some rest => rfl
  | none =>
    cases after? "[]".toList cs with
    | some rest => rfl
    | none =>
      cases after? "<=>".toList cs with
      | some rest => rfl
      | none => cases after? "->".toList cs <;> rfl

/-- A run of characters ends in front of a character of another sort, also when only so many are
looked at. -/
theorem takeWhile_take_append {p : Char → Bool} {c : Char} (hc : p c = false) (n : Nat)
    (cs tail : List Char) :
    ((cs ++ c :: tail).take n).takeWhile p = (cs.take n).takeWhile p := by
  induction cs generalizing n with
  | nil =>
    cases n with
    | zero => rfl
    | succ n => exact List.takeWhile_cons_of_neg (by simp [hc])
  | cons d cs ih =>
    cases n with
    | zero => rfl
    | succ n =>
      rw [List.cons_append, List.take_succ_cons, List.take_succ_cons, List.takeWhile_cons,
        List.takeWhile_cons, ih]

theorem operatorSymbol?_eq (cs : List Char) :
    operatorSymbol? cs = match fixedSymbol? cs with
      | some result => some result
      | none =>
        let symbol := (cs.take 3).takeWhile isOperatorChar
        if symbol = [] then none else some (symbol, cs.drop symbol.length) := rfl

/-- The symbol of an operator is read in front of a parenthesis, unless the parentheses are the
symbol. -/
theorem operatorSymbol?_append (cs : List Char)
    (hparameters : cs = [] → startsWith [')'] parameters = false) :
    operatorSymbol? (cs ++ '(' :: parameters) =
      (operatorSymbol? cs).map fun r => (r.1, r.2 ++ '(' :: parameters) := by
  rw [operatorSymbol?_eq, operatorSymbol?_eq, fixedSymbol?_append cs hparameters]
  cases fixedSymbol? cs with
  | some result => rfl
  | none =>
    have hlength : ((cs.take 3).takeWhile isOperatorChar).length ≤ cs.length :=
      ((List.takeWhile_prefix _).length_le).trans (List.length_take_le' 3 cs)
    simp only [Option.map_none, takeWhile_take_append (show isOperatorChar '(' = false by decide),
      List.drop_append_of_le_length hlength]
    split <;> rfl

/-- A word of a type is read in front of a parenthesis. -/
theorem typeWord?_append_paren (cs parameters : List Char) :
    typeWord? (cs ++ '(' :: parameters) =
      (typeWord? cs).map fun r => (r.1, r.2 ++ '(' :: parameters) := by
  have htype : isTypeChar '(' = false := by decide
  rw [typeWord?, typeWord?, takeWhile_append_stop htype, dropWhile_append_stop htype,
    afterBlanks?_append_stop (by decide)]
  split
  · rfl
  · rw [Option.map_map, Option.map_map]
    rfl

/-- Whether a text ends behind the keyword of an operator. -/
def endsInOperator (cs : List Char) : Prop :=
  ∃ rest, after? "operator".toList cs = some rest ∧ trimStart rest = []

/-- A name is read in front of a parenthesis, unless the parentheses belong to an operator. -/
theorem memberName?_append_paren (cs : List Char)
    (hparameters : endsInOperator cs → startsWith [')'] parameters = false) :
    memberName? (cs ++ '(' :: parameters) =
      (memberName? cs).map fun r => (r.1, r.2 ++ '(' :: parameters) := by
  have hname : isNameChar '(' = false := by decide
  have hoperator : operatorName? (cs ++ '(' :: parameters) =
      (operatorName? cs).map fun r => (r.1, r.2 ++ '(' :: parameters) := by
    rw [operatorName?, operatorName?, after?_append_cons (by decide)]
    cases hafter : after? "operator".toList cs with
    | none => rfl
    | some rest =>
      have hblanks : (rest ++ '(' :: parameters).takeWhile isBlank = rest.takeWhile isBlank :=
        takeWhile_append_stop (by decide) rest parameters
      have hsymbol := operatorSymbol?_append (trimStart rest)
        fun hnil => hparameters ⟨rest, hafter, hnil⟩
      simp only [Option.map_some, Option.bind_eq_bind, Option.bind_some, hblanks,
        trimStart_append_stop (show isBlank '(' = false by decide), hsymbol]
      cases operatorSymbol? (trimStart rest) <;> rfl
  rw [memberName?, memberName?, hoperator, takeWhile_append_stop hname,
    dropWhile_append_stop hname]
  cases operatorName? cs with
  | some result => rfl
  | none =>
    dsimp only [Option.map_none]
    split <;> rfl

/-- Behind the keyword of an operator two parentheses are its symbol. -/
theorem exists_memberName?_call {cs : List Char} (h : endsInOperator cs)
    (hparameters : startsWith [')'] parameters = true) :
    ∃ name rest, memberName? (cs ++ '(' :: parameters) = some (name, rest) ∧
      rest.length ≤ parameters.length := by
  obtain ⟨rest, hafter, hnil⟩ := h
  obtain ⟨later, rfl⟩ := startsWith_iff.1 hparameters
  have hoperator : ∃ name, operatorName? (cs ++ '(' :: ([')'] ++ later)) = some (name, later) := by
    rw [operatorName?, after?_append_cons (by decide), hafter]
    simp only [Option.map_some, Option.bind_eq_bind, Option.bind_some,
      trimStart_append_stop (show isBlank '(' = false by decide), hnil]
    exact ⟨_, rfl⟩
  obtain ⟨name, hoperator⟩ := hoperator
  exact ⟨name, later, by rw [memberName?, hoperator], by simp⟩

/-- A word of a type takes characters. -/
theorem length_typeWord? {cs : List Char} {word tail : List Char}
    (h : typeWord? cs = some (word, tail)) : tail.length < cs.length := by
  rw [typeWord?] at h
  split at h
  · cases h
  · obtain ⟨rest, hrest, heq⟩ := Option.map_eq_some_iff.1 h
    cases heq
    obtain ⟨gap, hgap, -, hne⟩ := exists_of_afterBlanks? hrest
    have hlength := (List.dropWhile_suffix isTypeChar (l := cs)).length_le
    have hpos := List.length_pos_iff.2 hne
    rw [hgap, List.length_append] at hlength
    omega

/-- More fuel than characters makes no difference. -/
theorem headFrom_eq {cs : List Char} {fuel fuel' : Nat} (h : cs.length ≤ fuel)
    (h' : cs.length ≤ fuel') : headFrom fuel cs = headFrom fuel' cs := by
  induction fuel generalizing fuel' cs with
  | zero =>
    obtain rfl := List.length_eq_zero_iff.1 (Nat.le_zero.1 h)
    cases fuel' <;> rfl
  | succ fuel ih =>
    cases fuel' with
    | zero =>
      obtain rfl := List.length_eq_zero_iff.1 (Nat.le_zero.1 h')
      rfl
    | succ fuel' =>
      rw [headFrom, headFrom]
      cases hword : typeWord? cs with
      | none => rfl
      | some result =>
        obtain ⟨word, tail⟩ := result
        have hlength := length_typeWord? hword
        have hsame : headFrom fuel tail = headFrom fuel' tail := ih (by omega) (by omega)
        simp only [hsame]

/-- The head of a member without a type. -/
def bareHead? (cs : List Char) : Option Head :=
  (memberName? cs).map fun (name, rest) => ⟨[], name, rest⟩

/-- A head begins with a word of its type, or it is the head of a member without a type. -/
theorem headFrom_succ (fuel : Nat) (cs : List Char) :
    headFrom (fuel + 1) cs = match typeWord? cs with
      | some (word, tail) =>
        match headFrom fuel tail with
        | some head => some { head with words := word :: head.words }
        | none => bareHead? cs
      | none => bareHead? cs := rfl

/-- The outcomes of reading a head in front of a parenthesis: what is read at the end of the text
before, or the parenthesis and the one behind it belong to the name of an operator. -/
def ReadsBefore (parameters : List Char) (x y : Option Head) : Prop :=
  y = x.map (·.extend ('(' :: parameters)) ∨
    startsWith [')'] parameters = true ∧ ∃ head, y = some head ∧
      head.rest.length ≤ parameters.length

/-- A head without a type is read in front of the parenthesis of the parameters. -/
theorem bareHead?_readsBefore (cs parameters : List Char) :
    ReadsBefore parameters (bareHead? cs) (bareHead? (cs ++ '(' :: parameters)) := by
  by_cases hcall : endsInOperator cs ∧ startsWith [')'] parameters = true
  · obtain ⟨name, rest, hname, hlength⟩ := exists_memberName?_call hcall.1 hcall.2
    exact .inr ⟨hcall.2, ⟨[], name, rest⟩, by rw [bareHead?, hname]; rfl, hlength⟩
  · have hname := memberName?_append_paren cs
      fun hends => Bool.eq_false_iff.2 fun hstart => hcall ⟨hends, hstart⟩
    refine .inl ?_
    rw [bareHead?, hname, bareHead?, Option.map_map, Option.map_map]
    rfl

/-- A head is read in front of the parenthesis of the parameters. -/
theorem headFrom_readsBefore (fuel : Nat) (cs parameters : List Char) :
    ReadsBefore parameters (headFrom fuel cs) (headFrom fuel (cs ++ '(' :: parameters)) := by
  induction fuel generalizing cs with
  | zero => exact bareHead?_readsBefore cs parameters
  | succ fuel ih =>
    rw [headFrom_succ, headFrom_succ, typeWord?_append_paren]
    cases typeWord? cs with
    | none => exact bareHead?_readsBefore cs parameters
    | some result =>
      obtain ⟨word, tail⟩ := result
      dsimp only [Option.map_some]
      rcases ih tail with hsame | ⟨hparameters, head, hhead, hlength⟩
      · rw [hsame]
        cases headFrom fuel tail with
        | none => exact bareHead?_readsBefore cs parameters
        | some head => exact .inl rfl
      · rw [hhead]
        exact .inr ⟨hparameters, { head with words := word :: head.words }, rfl, hlength⟩

/-- **Other parameters.**  The head that is read up to a parenthesis is read up to it with every
text behind it that does not begin with a closing parenthesis. -/
theorem exists_head?_exchange {parameters' : List Char} {head : Head}
    (h : head? (front ++ '(' :: parameters) = some head)
    (hparameters : trimStart head.rest = '(' :: parameters)
    (hparameters' : startsWith [')'] parameters' = false) :
    ∃ rest, head? (front ++ '(' :: parameters') = some { head with rest } ∧
      trimStart rest = '(' :: parameters' := by
  have hlong (text : List Char) : front.length ≤ (front ++ '(' :: text).length := by
    rw [List.length_append]
    omega
  have hread := headFrom_readsBefore (front ++ '(' :: parameters).length front parameters
  have hread' := headFrom_readsBefore (front ++ '(' :: parameters').length front parameters'
  rw [headFrom_eq (hlong parameters') (hlong parameters)] at hread'
  have h' : headFrom (front ++ '(' :: parameters).length (front ++ '(' :: parameters) = some head :=
    h
  rcases hread with hsame | ⟨-, short, hshort, hlength⟩
  · rw [h'] at hsame
    obtain ⟨before, hbefore, hextend⟩ := Option.map_eq_some_iff.1 hsame.symm
    -- only blanks stand between the name and the parenthesis
    have hnil : trimStart before.rest = [] := by
      rw [← hextend, Head.extend, trimStart_append_stop (by decide)] at hparameters
      exact List.append_cancel_right (hparameters.trans (List.nil_append _).symm)
    rcases hread' with hsame' | ⟨hclosing, -⟩
    · refine ⟨before.rest ++ '(' :: parameters', ?_, ?_⟩
      · rw [head?, hsame', hbefore, ← hextend]
        rfl
      · rw [trimStart_append_stop (by decide), hnil]
        rfl
    · rw [hparameters'] at hclosing
      cases hclosing
  · rw [h'] at hshort
    cases hshort
    have hsuffix := (List.dropWhile_suffix isBlank (l := head.rest)).length_le
    rw [show head.rest.dropWhile isBlank = _ from hparameters, List.length_cons] at hsuffix
    omega

end Member

end HeaderApi
