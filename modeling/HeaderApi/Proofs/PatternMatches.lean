import HeaderApi.Pattern.Replacement

/-!
# Matches of patterns

A match goes forward: what a pattern does at a place depends on what its continuation does there
and farther on, and nowhere else.  A turn of a repetition that is not the last one takes a
character, so the bound under which a repetition without a greatest number of turns is run is never
met, and such a repetition is a turn and the same repetition behind it.
-/

namespace HeaderApi

namespace Pattern

/-- A matcher: it gives the result of a continuation at a place that it reaches. -/
abbrev Matcher := Continuation → Place → Option Place

variable {a b body : Matcher} {k k' : Continuation} {place next result : Place}

/-! ## Matching goes forward -/

/-- Two continuations that do the same from a place on. -/
def AgreeFrom (place : Place) (k k' : Continuation) : Prop :=
  ∀ next : Place, next.after.length ≤ place.after.length → k next = k' next

/-- A matcher that goes on from its own place or from one behind it: its results are those of the
continuation there, and it does not ask for any others. -/
structure GoesForward (body : Matcher) : Prop where
  ends : ∀ {k : Continuation} {place result : Place}, body k place = some result →
    ∃ next : Place, next.after.length ≤ place.after.length ∧ k next = some result
  agrees : ∀ {k k' : Continuation} {place : Place}, AgreeFrom place k k' →
    body k place = body k' place

theorem AgreeFrom.here (h : AgreeFrom place k k') : k place = k' place := h place (Nat.le_refl _)

/-- Continuations that do the same from a place on do so from a later place on. -/
theorem AgreeFrom.later (h : AgreeFrom place k k')
    (hnext : next.after.length ≤ place.after.length) : AgreeFrom next k k' :=
  fun last hlast => h last (Nat.le_trans hlast hnext)

theorem GoesForward.congr (h : GoesForward a) (heq : ∀ k place, b k place = a k place) :
    GoesForward b :=
  (funext fun k => funext (heq k) : b = a) ▸ h

/-- A matcher that reaches one place at most goes forward when this is none farther back. -/
theorem goesForward_bind (reach : Place → Option Place)
    (h : ∀ place next, reach place = some next → next.after.length ≤ place.after.length) :
    GoesForward fun k place => (reach place).bind k where
  ends {k place result} hend := by
    obtain ⟨next, hnext, hresult⟩ := Option.bind_eq_some_iff.1 hend
    exact ⟨next, h place next hnext, hresult⟩
  agrees {k k' place} hk := Option.bind_congr fun next hnext => hk next (h place next hnext)

/-- Going on from the place itself goes forward. -/
theorem goesForward_stay : GoesForward fun k place => k place :=
  goesForward_bind some fun place next h => by
    cases h
    exact Nat.le_refl _

/-- A condition on the place goes forward. -/
theorem goesForward_guard (holds : Place → Prop) [DecidablePred holds] :
    GoesForward fun k place => if holds place then k place else none := by
  refine (goesForward_bind (fun place => if holds place then some place else none)
    fun place next h => ?_).congr fun k place => ?_
  · split at h
    · cases h
      exact Nat.le_refl _
    · cases h
  · split <;> rfl

/-- Taking a character goes forward. -/
theorem goesForward_take (accepts : Char → Bool) :
    GoesForward fun k place => place.take accepts k := by
  let reach (place : Place) : Option Place := place.take accepts some
  refine (goesForward_bind reach fun place next h => ?_).congr fun k place => ?_
  · dsimp only [reach, Place.take] at h
    split at h
    · rename_i c rest hafter
      split at h
      · cases h
        rw [hafter]
        exact Nat.le_succ _
      · cases h
    · cases h
  · dsimp only [reach, Place.take]
    split
    · split <;> rfl
    · rfl

/-- A matcher behind another one goes forward. -/
theorem GoesForward.andThen (ha : GoesForward a) (hb : GoesForward b) :
    GoesForward fun k place => a (fun next => b k next) place where
  ends {k place result} h := by
    obtain ⟨next, hnext, hrest⟩ := ha.ends h
    obtain ⟨last, hlast, hend⟩ := hb.ends hrest
    exact ⟨last, Nat.le_trans hlast hnext, hend⟩
  agrees {k k' place} h := ha.agrees fun next hnext => hb.agrees (h.later hnext)

/-- One matcher and, where it fails, another one go forward. -/
theorem GoesForward.orElse (ha : GoesForward a) (hb : GoesForward b) :
    GoesForward fun k place => (a k place).orElse fun _ => b k place where
  ends {k place result} h := by
    cases hfirst : a k place with
    | none =>
      rw [hfirst] at h
      exact hb.ends h
    | some first =>
      rw [hfirst] at h
      exact ha.ends (hfirst.trans h)
  agrees {k k' place} h := by rw [ha.agrees h, hb.agrees h]

/-- One of two matchers, by a condition on the place, goes forward. -/
theorem GoesForward.branch (ha : GoesForward a) (hb : GoesForward b) (holds : Place → Prop)
    [DecidablePred holds] : GoesForward fun k place => if holds place then a k place else b k place
    where
  ends {k place result} h := by
    split at h
    · exact ha.ends h
    · exact hb.ends h
  agrees {k k' place} h := by rw [ha.agrees h, hb.agrees h]

/-! ## Turns -/

/-- A number of turns goes forward when one turn does. -/
theorem GoesForward.times (h : GoesForward body) (n : Nat) : GoesForward (times body n) := by
  induction n with
  | zero => exact goesForward_stay
  | succ n ih => exact h.andThen ih

/-- The next turn of a repetition with a bound: it is the last one when it takes no character. -/
def nextTurn (body : Matcher) (greedy : Bool) (n : Nat) : Matcher := fun k place =>
  body (fun next => if next.samePosition place then k next else upTo body greedy n k next) place

/-- A repetition is its next turn or what follows. -/
theorem upTo_succ (body : Matcher) (greedy : Bool) (n : Nat) (k : Continuation) (place : Place) :
    upTo body greedy (n + 1) k place =
      if greedy then (nextTurn body greedy n k place).orElse fun _ => k place
      else (k place).orElse fun _ => nextTurn body greedy n k place := rfl

/-- Up to a number of turns go forward when one turn does. -/
theorem GoesForward.upTo (h : GoesForward body) (greedy : Bool) (n : Nat) :
    GoesForward (upTo body greedy n) := by
  induction n with
  | zero => exact goesForward_stay
  | succ n ih =>
    have hturn : GoesForward (nextTurn body greedy n) := by
      refine ⟨fun {k place result} hend => ?_, fun {k k' place} hk => ?_⟩
      · obtain ⟨next, hnext, hrest⟩ := h.ends hend
        split at hrest
        · exact ⟨next, hnext, hrest⟩
        · obtain ⟨last, hlast, hend⟩ := ih.ends hrest
          exact ⟨last, Nat.le_trans hlast hnext, hend⟩
      · refine h.agrees fun next hnext => ?_
        rw [hk next hnext, ih.agrees (hk.later hnext)]
    cases greedy with
    | true => exact hturn.orElse goesForward_stay
    | false => exact goesForward_stay.orElse hturn

/-! ## Patterns -/

/-- Taking characters one by one goes forward. -/
theorem goesForward_takeAll (casing : Casing) (cs : List Char) :
    GoesForward (Place.takeAll casing cs) := by
  induction cs with
  | nil => exact goesForward_stay
  | cons c cs ih => exact (goesForward_take _).andThen ih

/-- Looking elsewhere for a match and going on from the place itself goes forward. -/
theorem goesForward_look (found : Place → Option Place) (negated : Bool) :
    GoesForward fun k place =>
      match found place with
      | some next => if negated then none else k { place with groups := next.groups }
      | none => if negated then k place else none where
  ends {k place result} h := by
    split at h
    · rename_i next hfound
      split at h
      · cases h
      · exact ⟨{ place with groups := next.groups }, Nat.le_refl _, h⟩
    · split at h
      · exact ⟨place, Nat.le_refl _, h⟩
      · cases h
  agrees {k k' place} hk := by
    split
    · rename_i next hfound
      rw [hk { place with groups := next.groups } (Nat.le_refl _)]
    · rw [hk.here]

/-- **Matching goes forward.** -/
theorem goesForward_run (pattern : Pattern) : GoesForward (run pattern) := by
  induction pattern with
  | empty => exact goesForward_stay
  | char casing code => exact goesForward_take _
  | any lineFeeds => exact goesForward_take _
  | set casing negated items => exact goesForward_take _
  | start ofLine => exact goesForward_guard _
  | finish ofLine => exact goesForward_guard _
  | textEnd => exact goesForward_guard fun place => place.after = []
  | boundary ascii negated => exact goesForward_guard _
  | seq a b iha ihb => exact iha.andThen ihb
  | alt a b iha ihb => exact iha.orElse ihb
  | group index body ih =>
    constructor
    · intro k place result h
      obtain ⟨next, hnext, hend⟩ := ih.ends h
      exact ⟨{ next with groups := (index, next.textFrom place) :: next.groups }, hnext, hend⟩
    · exact fun {k k' place} hk => ih.agrees fun next hnext => hk _ hnext
  | loop body least most greedy ih =>
    refine (ih.times least).andThen ⟨fun {k next result} h => (ih.upTo greedy _).ends h,
      fun {k k' next} hk => (ih.upTo greedy _).agrees hk⟩
  | atomic body ih =>
    refine (goesForward_bind (run body some) fun place next h => ?_).congr fun k place => ?_
    · obtain ⟨last, hlast, hend⟩ := ih.ends h
      cases hend
      exact hlast
    · rw [run]
      cases run body some place <;> rfl
  | ahead negated body ih =>
    exact (goesForward_look (fun place => run body some place) negated).congr fun k place => rfl
  | behind negated width body ih =>
    exact (goesForward_look _ negated).congr fun k place => rfl
  | again casing index =>
    constructor
    · intro k place result h
      rw [run] at h
      split at h
      · exact (goesForward_takeAll casing _).ends h
      · cases h
    · intro k k' place hk
      rw [run, run]
      split
      · exact (goesForward_takeAll casing _).agrees hk
      · rfl
  | choice index present absent ihp iha => exact ihp.branch iha _

/-! ## Repetitions -/

/-- What goes on behind a turn that takes a character has less characters left. -/
theorem GoesForward.turn_congr (h : GoesForward body) {later later' : Continuation}
    (hlater : ∀ next, next.after.length < place.after.length → later next = later' next) :
    body (fun next => if next.samePosition place then k next else later next) place =
      body (fun next => if next.samePosition place then k next else later' next) place := by
  refine h.agrees fun next hnext => ?_
  by_cases hsame : next.samePosition place
  · rw [if_pos hsame, if_pos hsame]
  · rw [if_neg hsame, if_neg hsame]
    have hne : next.after.length ≠ place.after.length := by
      simpa [Place.samePosition] using hsame
    exact hlater next (Nat.lt_of_le_of_ne hnext hne)

/-- One turn more makes no difference when there can not be so many turns. -/
theorem GoesForward.upTo_succ_eq (h : GoesForward body) (greedy : Bool) (k : Continuation) {n : Nat}
    (hn : place.after.length < n) :
    Pattern.upTo body greedy (n + 1) k place = Pattern.upTo body greedy n k place := by
  induction n generalizing place with
  | zero => exact absurd hn (Nat.not_lt_zero _)
  | succ n ih =>
    have hturn : nextTurn body greedy (n + 1) k place = nextTurn body greedy n k place :=
      h.turn_congr fun next hnext => ih (by omega)
    rw [upTo_succ, upTo_succ, hturn]

/-- Bounds that are greater than the number of characters left are all the same. -/
theorem GoesForward.upTo_eq (h : GoesForward body) (greedy : Bool) (k : Continuation) {n : Nat}
    (hn : place.after.length < n) :
    Pattern.upTo body greedy n k place =
      Pattern.upTo body greedy (place.after.length + 1) k place := by
  obtain ⟨more, rfl⟩ := Nat.exists_eq_add_of_lt hn
  induction more with
  | zero => rfl
  | succ more ih =>
    have hmore : place.after.length < place.after.length + more + 1 := by omega
    rw [show place.after.length + (more + 1) + 1 = place.after.length + more + 1 + 1 from rfl,
      h.upTo_succ_eq greedy k hmore, ih hmore]

/-- A repetition that needs a turn makes one, and needs and may make one turn less. -/
theorem run_loop_succ (body : Pattern) (least : Nat) (most : Option Nat) (greedy : Bool)
    (k : Continuation) (place : Place) :
    run (.loop body (least + 1) most greedy) k place =
      run body (fun next => run (.loop body least (most.map (· - 1)) greedy) k next) place := by
  cases most with
  | none => rfl
  | some n =>
    simp only [run, Option.map_some, Nat.sub_sub, Nat.add_comm 1 least]
    rfl

/-- **A repetition that needs no turn** but may make one makes it and is a repetition with a turn
less behind it, or it is what follows.  Behind a turn that takes no character it is what follows
alone.  Without a greatest number of turns it is the same repetition behind every turn. -/
theorem run_loop_zero (body : Pattern) {most : Option Nat} (hmost : most ≠ some 0) (greedy : Bool)
    (k : Continuation) (place : Place) :
    run (.loop body 0 most greedy) k place =
      let turn := run body (fun next => if next.samePosition place then k next
        else run (.loop body 0 (most.map (· - 1)) greedy) k next) place
      if greedy then turn.orElse fun _ => k place else (k place).orElse fun _ => turn := by
  match most with
  | none =>
    have hloop (next : Place) : run (.loop body 0 none greedy) k next =
        upTo (run body) greedy (next.after.length + 1) k next := rfl
    have hforward := goesForward_run body
    have hturn : nextTurn (run body) greedy place.after.length k place =
        run body (fun next => if next.samePosition place then k next
          else upTo (run body) greedy (next.after.length + 1) k next) place :=
      hforward.turn_congr fun next hnext => hforward.upTo_eq greedy k hnext
    simp only [Option.map_none, hloop]
    rw [upTo_succ, hturn]
  | some 0 => exact absurd rfl hmost
  | some (n + 1) => rfl

end Pattern

namespace Regex

open Pattern

variable {regex : Regex} {template : List TemplatePiece}

/-- Where a pattern does not match nothing is written. -/
theorem replaceHere_of_no_match {place : Place} (h : regex.matchAt false place = none) :
    regex.replaceHere template place = ([], 0) := by
  rw [replaceHere, h]

/-- The rest of a text in which a pattern matches nowhere stays as it is. -/
theorem replaceFrom_of_no_match {before rest : List Char}
    (h : ∀ front back, front.reverse ++ back = before.reverse ++ rest →
      regex.matchAt false ⟨front, back, []⟩ = none) :
    regex.replaceFrom template before 0 rest = rest := by
  induction rest generalizing before with
  | nil =>
    rw [replaceFrom, replaceHere_of_no_match (h before [] rfl)]
  | cons c rest ih =>
    rw [replaceFrom, replaceHere_of_no_match (h before (c :: rest) rfl), ih fun front back hsplit =>
      h front back (by simpa using hsplit)]
    rfl

/-- **A rule changes nothing in a text in which its pattern matches nowhere.** -/
theorem replaceAll_of_no_match {text : List Char}
    (h : ∀ front back, front.reverse ++ back = text →
      regex.matchAt false ⟨front, back, []⟩ = none) :
    regex.replaceAll template text = text :=
  replaceFrom_of_no_match h

end Regex

end HeaderApi
