import Mathlib.Data.Set.Card
import HeaderApi.Amalgam.Directory
import HeaderApi.Proofs.ConditionBalance
import HeaderApi.Proofs.LayeredOrder
import HeaderApi.Proofs.Tables

/-!
# Headers in the order of their discovery

From a root, headers are discovered one by one: the next one is the first name that the headers so
far include and that is not among them.  The collection of a root lists its headers in this order
until nothing is left to discover.  So it has exactly the headers that are reached, and nearer ones
come before those further away.
-/

namespace HeaderApi

open Text

/-! ## Discovery -/

section Discovery

variable {deps : String → List String} {root name a b : String} {names names' queue : List String}

/-- The name that is discovered behind some names: the first one among the root and what the names
include, in their order, that is not one of them. -/
def nextName? (deps : String → List String) (root : String) (names : List String) :
    Option String :=
  (root :: names.flatMap deps).find? fun name => !names.contains name

/-- Names in the order of their discovery from a root. -/
def Discovers (deps : String → List String) (root : String) (names : List String) : Prop :=
  ∀ before name after, names = before ++ name :: after → nextName? deps root before = some name

/-- All names in the order of their discovery from a root. -/
structure BreadthFirst (deps : String → List String) (root : String) (names : List String) :
    Prop where
  discovers : Discovers deps root names
  complete : nextName? deps root names = none

/-- A name is reached through includes. -/
def Reaches (deps : String → List String) : String → String → Prop :=
  Relation.ReflTransGen fun a b => b ∈ deps a

/-- A name is reached through so many includes. -/
def ReachesIn (deps : String → List String) (root : String) : Nat → String → Prop
  | 0, name => name = root
  | steps + 1, name => ∃ before, ReachesIn deps root steps before ∧ name ∈ deps before

/-- A name that is reached in a number of steps is reached. -/
theorem ReachesIn.reaches {n : Nat} (h : ReachesIn deps root n name) : Reaches deps root name := by
  induction n generalizing name with
  | zero =>
    cases h
    exact .refl
  | succ n ih =>
    obtain ⟨before, hbefore, hname⟩ := h
    exact (ih hbefore).tail hname

theorem discovers_nil : Discovers deps root [] := by
  intro before name after h
  cases List.append_eq_nil_iff.1 h.symm |>.2

theorem not_mem_of_nextName? (h : nextName? deps root names = some name) : name ∉ names := by
  have hnew := List.find?_some h
  rwa [Bool.not_eq_true', List.contains_eq_mem, decide_eq_false_iff_not] at hnew

/-- The next name is the root or included by a name before. -/
theorem mem_of_nextName? (h : nextName? deps root names = some name) :
    name = root ∨ ∃ before ∈ names, name ∈ deps before := by
  rcases List.mem_cons.1 (List.mem_of_find?_eq_some h) with hroot | hmem
  · exact Or.inl hroot
  · exact Or.inr (List.mem_flatMap.1 hmem)

/-- Where nothing is left to discover, the names have the root and all that they include. -/
theorem nextName?_eq_none_iff :
    nextName? deps root names = none ↔
      root ∈ names ∧ ∀ before ∈ names, ∀ name ∈ deps before, name ∈ names := by
  have hmem : ∀ name, (¬(!names.contains name) = true) ↔ name ∈ names := by
    intro name
    simp
  simp only [nextName?, List.find?_eq_none, hmem, List.forall_mem_cons, List.mem_flatMap]
  constructor
  · rintro ⟨hroot, hall⟩
    exact ⟨hroot, fun before hbefore name hname => hall name ⟨before, hbefore, hname⟩⟩
  · rintro ⟨hroot, hall⟩
    exact ⟨hroot, fun name ⟨before, hbefore, hname⟩ => hall before hbefore name hname⟩

/-- The names that are discovered go on with the next one. -/
theorem discovers_concat : Discovers deps root (names ++ [name]) ↔
    Discovers deps root names ∧ nextName? deps root names = some name := by
  constructor
  · intro h
    refine ⟨fun before other after hsplit => ?_, h names name [] rfl⟩
    exact h before other (after ++ [name]) (by rw [hsplit, List.append_assoc, List.cons_append])
  · rintro ⟨hnames, hname⟩ before other after hsplit
    rcases List.eq_nil_or_concat after with rfl | ⟨after, last, rfl⟩
    · obtain ⟨rfl, hlast⟩ := List.append_inj' hsplit rfl
      cases hlast
      exact hname
    · rw [List.concat_eq_append, ← List.cons_append, ← List.append_assoc] at hsplit
      exact hnames before other after (List.append_inj' hsplit rfl).1

/-- No name is discovered twice. -/
theorem Discovers.nodup (h : Discovers deps root names) : names.Nodup := by
  induction names using List.reverseRecOn with
  | nil => exact List.nodup_nil
  | append_singleton names name ih =>
    obtain ⟨hnames, hname⟩ := discovers_concat.1 h
    refine List.nodup_append.2 ⟨ih hnames, List.nodup_singleton name, fun a ha b hb => ?_⟩
    rw [List.mem_singleton.1 hb]
    rintro rfl
    exact not_mem_of_nextName? hname ha

/-- What is discovered is reached. -/
theorem Discovers.reaches (h : Discovers deps root names) :
    ∀ name ∈ names, Reaches deps root name := by
  induction names using List.reverseRecOn with
  | nil => exact List.forall_mem_nil _
  | append_singleton names name ih =>
    obtain ⟨hnames, hname⟩ := discovers_concat.1 h
    intro other hother
    rcases List.mem_append.1 hother with hother | hlast
    · exact ih hnames other hother
    · rw [List.mem_singleton.1 hlast]
      rcases mem_of_nextName? hname with rfl | ⟨before, hbefore, hdep⟩
      · exact .refl
      · exact (ih hnames before hbefore).tail hdep

/-- What is reached is discovered at some time, and nothing else is. -/
theorem BreadthFirst.mem_iff (h : BreadthFirst deps root names) :
    name ∈ names ↔ Reaches deps root name := by
  constructor
  · exact h.discovers.reaches name
  · intro hreached
    obtain ⟨hroot, hclosed⟩ := nextName?_eq_none_iff.1 h.complete
    induction hreached with
    | refl => exact hroot
    | tail _ hdep ih => exact hclosed _ ih _ hdep

/-- There is one order of discovery. -/
theorem BreadthFirst.unique (h : BreadthFirst deps root names)
    (h' : BreadthFirst deps root names') : names = names' := by
  -- the names that have come tell the next one, so two orders go on alike
  have hsame : ∀ before later later' : List String, names = before ++ later →
      names' = before ++ later' → later = later' := by
    intro before later
    induction later generalizing before with
    | nil =>
      intro later' hnames hnames'
      cases later' with
      | nil => rfl
      | cons name' later' =>
        have hnext := h'.discovers before name' later' hnames'
        rw [List.append_nil] at hnames
        rw [← hnames, h.complete] at hnext
        cases hnext
    | cons name later ih =>
      intro later' hnames hnames'
      have hnext := h.discovers before name later hnames
      cases later' with
      | nil =>
        rw [List.append_nil] at hnames'
        rw [← hnames', h'.complete] at hnext
        cases hnext
      | cons name' later' =>
        have hnext' := h'.discovers before name' later' hnames'
        cases hnext.symm.trans hnext'
        rw [ih (before ++ [name]) later' (by simpa using hnames) (by simpa using hnames')]
  exact hsame [] names names' rfl rfl

/-- A name behind the root is included by one of the names before it, and what the names before
that one include is not new. -/
theorem exists_split_of_nextName? (h : nextName? deps root names = some name)
    (hroot : name ≠ root) :
    ∃ first later before, names = first ++ before :: later ∧ name ∈ deps before ∧
      ∀ other ∈ first.flatMap deps, other ∈ names := by
  have hinclude : ∃ before ∈ names, name ∈ deps before := (mem_of_nextName? h).resolve_left hroot
  -- the first name that includes it
  let isLate := fun before => !decide (name ∈ deps before)
  have hsplit := List.takeWhile_append_dropWhile (p := isLate) (l := names)
  have hlate : ∀ before ∈ names.takeWhile isLate, name ∉ deps before := by
    intro before hbefore
    have hall := List.all_eq_true.1 List.all_takeWhile before hbefore
    simpa [isLate] using hall
  cases hdrop : names.dropWhile isLate with
  | nil =>
    rw [hdrop, List.append_nil] at hsplit
    obtain ⟨before, hbefore, hdep⟩ := hinclude
    rw [← hsplit] at hbefore
    exact absurd hdep (hlate before hbefore)
  | cons before later =>
    rw [hdrop] at hsplit
    have hdep : name ∈ deps before := by
      simpa [isLate] using eq_false_of_dropWhile hdrop
    refine ⟨names.takeWhile isLate, later, before, hsplit.symm, hdep, fun other hother => ?_⟩
    by_contra hnew
    -- a new name there would have been discovered instead
    obtain ⟨found, hfound⟩ := Option.isSome_iff_exists.1
      (List.find?_isSome.2 ⟨other, List.mem_cons_of_mem root hother, by simpa using hnew⟩ :
        ((root :: (names.takeWhile isLate).flatMap deps).find?
          fun name => !names.contains name).isSome = true)
    have hall : root :: names.flatMap deps =
        (root :: (names.takeWhile isLate).flatMap deps) ++ (before :: later).flatMap deps := by
      rw [List.cons_append, ← List.flatMap_append, hsplit]
    rw [nextName?, hall, List.find?_append, hfound, Option.some_or] at h
    cases h
    rcases List.mem_cons.1 (List.mem_of_find?_eq_some hfound) with hfirst | hfirst
    · exact hroot hfirst
    · obtain ⟨before', hbefore', hdep'⟩ := List.mem_flatMap.1 hfirst
      exact hlate before' hbefore' hdep'

/-- **Breadth first.**  No name comes before one that is nearer to the root. -/
theorem BreadthFirst.near_of_before (h : BreadthFirst deps root names) {n : Nat} :
    ∀ {b : String}, ReachesIn deps root n b → ∀ before after, names = before ++ b :: after →
      ∀ a ∈ before, ∃ m ≤ n, ReachesIn deps root m a := by
  induction n with
  | zero =>
    rintro b rfl before after hsplit a ha
    have hnew := not_mem_of_nextName? (h.discovers before b after hsplit)
    obtain ⟨other, later, rfl⟩ := List.exists_cons_of_ne_nil (List.ne_nil_of_mem ha)
    -- the root is discovered first
    have hfirst := h.discovers [] other (later ++ b :: after) hsplit
    have hroot : nextName? deps b [] = some b := rfl
    cases hroot.symm.trans hfirst
    exact absurd List.mem_cons_self hnew
  | succ n ih =>
    rintro b ⟨p, hp, hb⟩ before after hsplit a ha
    obtain ⟨first, between, rfl⟩ := List.append_of_mem ha
    have hnext : nextName? deps root first = some a := by
      refine h.discovers first a (between ++ b :: after) ?_
      rw [hsplit, List.append_assoc, List.cons_append]
    by_cases hroot : a = root
    · exact ⟨0, Nat.zero_le _, hroot⟩
    obtain ⟨early, late, r, hfirst, hr, hold⟩ := exists_split_of_nextName? hnext hroot
    suffices hnear : ∃ m ≤ n, ReachesIn deps root m r by
      obtain ⟨m, hle, hm⟩ := hnear
      exact ⟨m + 1, Nat.succ_le_succ hle, r, hm, hr⟩
    have hnodup := h.discovers.nodup
    have hpmem : p ∈ names := h.mem_iff.2 hp.reaches
    have hnames : names = early ++ r :: (late ++ a :: (between ++ b :: after)) := by
      rw [hsplit, hfirst]
      simp only [List.append_assoc, List.cons_append]
    -- had the name that includes the nearer one come earlier, that one would not be new
    have hnotEarly : p ∉ early := by
      intro hpearly
      have hbfirst := hold b (List.mem_flatMap.2 ⟨p, hpearly, hb⟩)
      rw [hsplit] at hnodup
      exact (List.nodup_append.1 hnodup).2.2 b (List.mem_append_left _ hbfirst) b
        List.mem_cons_self rfl
    rw [hnames] at hpmem
    rcases List.mem_append.1 hpmem with hpearly | hplate
    · exact absurd hpearly hnotEarly
    · rcases List.mem_cons.1 hplate with rfl | hplate
      · exact ⟨n, Nat.le_refl n, hp⟩
      · obtain ⟨first', after', hrest⟩ := List.append_of_mem hplate
        rw [hrest] at hnames
        refine ih hp (early ++ r :: first') after' ?_ r ?_
        · rw [hnames, List.append_assoc, List.cons_append]
        · exact List.mem_append_right _ List.mem_cons_self

end Discovery

/-! ## Collecting -/

namespace Collection

variable {resolve : Resolver} {options : AmalgamOptions} {root name : String}
  {done queue waiting seen : List String} {parts : List Part} {part f g : Part}

/-- The part of the header to which a name resolves. -/
def partOf? (resolve : Resolver) (options : AmalgamOptions) (name : String) : Option Part :=
  (resolve name).toOption.bind fun lines => (Part.read options name lines).outcome.toOption

/-- The quoted includes of the header to which a name resolves. -/
def depsOf (resolve : Resolver) (options : AmalgamOptions) (name : String) : List String :=
  ((partOf? resolve options name).map Part.deps).getD []

theorem toOption_eq_some {ε α : Type} {x : Except ε α} {a : α} :
    x.toOption = some a ↔ x = .ok a := by
  cases x with
  | error e => exact ⟨nofun, nofun⟩
  | ok b => exact ⟨fun h => congrArg Except.ok (Option.some.inj h), fun h => h ▸ rfl⟩

theorem partOf?_eq_some_iff :
    partOf? resolve options name = some part ↔
      ∃ lines, resolve name = .ok lines ∧ (Part.read options name lines).outcome = .ok part := by
  simp only [partOf?, Option.bind_eq_some_iff, toOption_eq_some]

theorem name_of_partOf? (h : partOf? resolve options name = some part) : part.name = name := by
  obtain ⟨lines, -, hread⟩ := partOf?_eq_some_iff.1 h
  exact (Part.readFrom_of_read hread).name

/-- The includes of a name are those of its part. -/
theorem depsOf_of_partOf? (h : partOf? resolve options name = some part) :
    depsOf resolve options name = part.deps := by
  rw [depsOf, h]
  rfl

/-! ## The queue -/

/-- What is known of a queue of names behind those that are done: of the names that the done ones
include, the queue has all but some that are done. -/
structure Queued (deps : String → List String) (root : String) (done queue : List String) :
    Prop where
  discovers : Discovers deps root done
  pending : ∃ popped, root :: done.flatMap deps = popped ++ queue ∧ ∀ name ∈ popped, name ∈ done

theorem queued_start (deps : String → List String) (root : String) : Queued deps root [] [root] :=
  ⟨discovers_nil, [], rfl, List.forall_mem_nil _⟩

/-- The name at the front of the queue, apart from names that are done, is the next one. -/
theorem Queued.nextName?_eq {deps : String → List String} (h : Queued deps root done queue)
    (hseen : ∀ name, name ∈ seen ↔ name ∈ done) :
    nextName? deps root done = (queue.dropWhile fun name => seen.contains name).head? := by
  obtain ⟨popped, hpopped, hdone⟩ := h.pending
  have hnone : popped.find? (fun name => !done.contains name) = none := by
    refine List.find?_eq_none.2 fun name hname => ?_
    simpa using hdone name hname
  have hsame : (fun name => !done.contains name) = fun name => !seen.contains name := by
    funext name
    rw [List.contains_eq_mem, List.contains_eq_mem, decide_eq_decide.2 (hseen name)]
  rw [nextName?, hpopped, List.find?_append, hnone, Option.none_or, hsame,
    List.find?_eq_head?_dropWhile_not]
  simp only [Bool.not_not]

/-- **One step.**  The next name is done, and the names that it includes wait behind the others. -/
theorem Queued.next {deps : String → List String} (h : Queued deps root done queue)
    (hseen : ∀ name, name ∈ seen ↔ name ∈ done)
    (hdrop : (queue.dropWhile fun name => seen.contains name) = name :: waiting) :
    Queued deps root (done ++ [name]) (waiting ++ deps name) := by
  have hnext : nextName? deps root done = some name := by
    rw [h.nextName?_eq hseen, hdrop, List.head?_cons]
  refine ⟨discovers_concat.2 ⟨h.discovers, hnext⟩, ?_⟩
  obtain ⟨popped, hpopped, hdone⟩ := h.pending
  have hqueue := List.takeWhile_append_dropWhile (p := fun name => seen.contains name) (l := queue)
  rw [hdrop] at hqueue
  refine ⟨popped ++ queue.takeWhile (fun name => seen.contains name) ++ [name], ?_, ?_⟩
  · rw [List.flatMap_append, ← List.cons_append, hpopped]
    nth_rewrite 1 [← hqueue]
    simp only [List.flatMap_cons, List.flatMap_nil, List.append_nil, List.append_assoc,
      List.cons_append, List.nil_append]
  · intro other hother
    rw [List.append_assoc] at hother
    rcases List.mem_append.1 hother with hpast | hother
    · exact List.mem_append_left _ (hdone other hpast)
    · refine List.mem_append.2 ((List.mem_append.1 hother).imp_left fun hskipped => ?_)
      have hskip := List.all_eq_true.1 List.all_takeWhile other hskipped
      rw [List.contains_eq_mem, decide_eq_true_eq] at hskip
      exact (hseen other).1 hskip

/-- A file that can be read is put in front of the parts that are collected from the rest of the
queue. -/
theorem collectFrom_of_read {fuel : Nat} {lines : List Text.Line}
    (hdrop : (queue.dropWhile fun name => seen.contains name) = name :: waiting)
    (hresolve : resolve name = .ok lines)
    (hread : (Part.read options name lines).outcome = .ok part)
    (hlater : (collectFrom resolve options fuel (name :: seen) (waiting ++ part.deps)).outcome =
      .ok parts) :
    (collectFrom resolve options (fuel + 1) seen queue).outcome = .ok (part :: parts) := by
  generalize hread' : Part.read options name lines = reading at hread
  obtain ⟨log, outcome⟩ := reading
  cases hread
  generalize hlater' : collectFrom resolve options fuel (name :: seen) (waiting ++ part.deps) =
    later at hlater
  obtain ⟨log', outcome'⟩ := later
  cases hlater
  rw [collectFrom, hdrop]
  simp only [hresolve, Except.mapError, Logged.write, Logged.ofExcept, Logged.ok_bind, hread',
    hlater', Logged.pure_def]

/-- Names that are reached, each once, are no more than all that are reached. -/
theorem length_le_ncard {deps : String → List String}
    (hfinite : {name | Reaches deps root name}.Finite) (h : Discovers deps root done) :
    done.length ≤ {name | Reaches deps root name}.ncard := by
  rw [← List.toFinset_card_of_nodup h.nodup, ← Set.ncard_coe_finset]
  refine Set.ncard_le_ncard (fun name hname => ?_) hfinite
  exact h.reaches name (List.mem_toFinset.1 hname)

/-- When as many names are done as are reached, none is left to discover: one more would be more
than are reached. -/
theorem nextName?_eq_none_of_ncard_le {deps : String → List String}
    (hfinite : {name | Reaches deps root name}.Finite) (h : Discovers deps root done)
    (hle : {name | Reaches deps root name}.ncard ≤ done.length) :
    nextName? deps root done = none := by
  refine Option.eq_none_iff_forall_not_mem.2 fun name hname => ?_
  have hlength := length_le_ncard hfinite (discovers_concat.2 ⟨h, hname⟩)
  rw [List.length_append, List.length_singleton] at hlength
  omega

/-- **All steps.**  When all that is reached is read, collecting goes on to the end of the order of
discovery. -/
theorem Queued.collectFrom
    (hfinite : {name | Reaches (depsOf resolve options) root name}.Finite)
    (hreads : ∀ name, Reaches (depsOf resolve options) root name →
      (partOf? resolve options name).isSome = true) {fuel : Nat}
    (h : Queued (depsOf resolve options) root done queue)
    (hseen : ∀ name, name ∈ seen ↔ name ∈ done)
    (hfuel : {name | Reaches (depsOf resolve options) root name}.ncard ≤ fuel + done.length) :
    ∃ parts, (collectFrom resolve options fuel seen queue).outcome = .ok parts ∧
      (∀ part ∈ parts, partOf? resolve options part.name = some part) ∧
      BreadthFirst (depsOf resolve options) root (done ++ parts.map Part.name) := by
  induction fuel generalizing done seen queue with
  | zero =>
    refine ⟨[], rfl, List.forall_mem_nil _, ?_⟩
    rw [List.map_nil, List.append_nil]
    -- as many names are done as are reached, so none is left
    rw [Nat.zero_add] at hfuel
    exact ⟨h.discovers, nextName?_eq_none_of_ncard_le hfinite h.discovers hfuel⟩
  | succ fuel ih =>
    have hnext := h.nextName?_eq hseen
    cases hdrop : queue.dropWhile fun name => seen.contains name with
    | nil =>
      rw [hdrop, List.head?_nil] at hnext
      refine ⟨[], ?_, List.forall_mem_nil _, ?_⟩
      · rw [Collection.collectFrom, hdrop]
        rfl
      · rw [List.map_nil, List.append_nil]
        exact ⟨h.discovers, hnext⟩
    | cons name waiting =>
      -- the next name of the queue is reached, so its part is read, and the names it includes wait
      have hlater := h.next hseen hdrop
      have hname : name ∈ done ++ [name] := List.mem_append_right _ (List.mem_singleton_self name)
      obtain ⟨part, hpart⟩ := Option.isSome_iff_exists.1
        (hreads name (hlater.discovers.reaches name hname))
      obtain ⟨lines, hresolve, hread⟩ := partOf?_eq_some_iff.1 hpart
      rw [depsOf_of_partOf? hpart] at hlater
      have hseen' : ∀ other, other ∈ name :: seen ↔ other ∈ done ++ [name] := by
        intro other
        rw [List.mem_cons, List.mem_append, List.mem_singleton, hseen, or_comm]
      have hfuel' : {name | Reaches (depsOf resolve options) root name}.ncard ≤
          fuel + (done ++ [name]).length := by
        rw [List.length_append, List.length_singleton]
        omega
      obtain ⟨parts, hparts, hread', hbreadth⟩ := ih hlater hseen' hfuel'
      refine ⟨part :: parts, collectFrom_of_read hdrop hresolve hread hparts, ?_, ?_⟩
      · refine List.forall_mem_cons.2 ⟨?_, hread'⟩
        rw [name_of_partOf? hpart, hpart]
      · rw [List.map_cons, name_of_partOf? hpart]
        rwa [List.append_assoc, List.singleton_append] at hbreadth

/-! ## The dependencies of a part -/

/-- Dependencies that are added one by one are put in their order. -/
theorem deps_foldl_addDep (names : List String) (part : Part) :
    (names.foldl Part.addDep part).deps = insertTexts names part.deps := by
  induction names generalizing part with
  | nil => rfl
  | cons name names ih => exact ih (part.addDep name)

/-- A part whose dependencies are those of another one and some that are named on lines, put in
their order. -/
def TakesDeps (f : Part) (lines : List Line) (part : Part) : Prop :=
  ∃ names, (∀ name ∈ names, ∃ line ∈ lines, Part.quotedInclude? line = some name) ∧
    part.deps = insertTexts names f.deps

theorem takesDeps_of_eq (h : part.deps = f.deps) (lines : List Line) : TakesDeps f lines part :=
  ⟨[], List.forall_mem_nil _, h⟩

theorem TakesDeps.cons {lines : List Line} (h : TakesDeps f lines part) (line : Line) :
    TakesDeps f (line :: lines) part := by
  obtain ⟨names, hnames, hdeps⟩ := h
  exact ⟨names, fun name hname => List.exists_mem_cons_of_exists (hnames name hname), hdeps⟩

/-- A quoted include adds its name to the dependencies. -/
theorem TakesDeps.cons_quoted {lines : List Line} {line : Line}
    (h : TakesDeps (f.addDep name) lines part) (hline : Part.quotedInclude? line = some name) :
    TakesDeps f (line :: lines) part := by
  obtain ⟨names, hnames, hdeps⟩ := h
  refine ⟨name :: names, List.forall_mem_cons.2 ⟨⟨line, List.mem_cons_self, hline⟩, ?_⟩, hdeps⟩
  exact fun other hother => List.exists_mem_cons_of_exists (hnames other hother)

/-- The dependencies under a condition are those before its last closing line. -/
theorem takesDeps_of_readConditional {first : Line} {lines : List Line}
    (h : Part.readConditional f first lines = .ok part) : TakesDeps f (first :: lines) part := by
  unfold Part.readConditional at h
  split at h
  · cases h
  · rename_i body hbody
    cases h
    obtain ⟨last, rest, rfl, -, -⟩ := Part.exists_of_beforeLastEndif hbody
    refine ⟨(first :: body).filterMap Part.quotedInclude?, fun name hname => ?_,
      deps_foldl_addDep _ f⟩
    obtain ⟨line, hline, hquoted⟩ := List.mem_filterMap.1 hname
    rw [← List.cons_append]
    exact ⟨line, List.mem_append_left _ hline, hquoted⟩

/-- The dependencies of a part that is read are named on its lines. -/
theorem takesDeps_of_readIncludes {lines : List Line}
    (h : Part.readIncludes options f lines = .ok part) : TakesDeps f lines part := by
  induction lines generalizing f with
  | nil =>
    cases h
    exact takesDeps_of_eq rfl []
  | cons line lines ih =>
    rw [Part.readIncludes] at h
    split at h
    · rename_i name hinclude
      refine (ih h).cons_quoted ?_
      rw [Part.quotedInclude?, hinclude]
    · split at h
      · exact (ih h).cons line
      · -- a system include changes no dependency
        exact TakesDeps.cons (ih h) line
    · split at h
      · dsimp only at h
        split at h
        · cases h
          exact takesDeps_of_eq rfl _
        · cases h
      · split at h
        · exact takesDeps_of_readConditional h
        · exact (ih h).cons line

/-- The dependencies of a part that is read are sorted, and each is named on a line. -/
theorem deps_of_read {lines : List Line}
    (h : (Part.read options name lines).outcome = .ok part) :
    part.deps.Pairwise (· < ·) ∧
      ∀ dep ∈ part.deps, ∃ line ∈ lines, Part.quotedInclude? line = some dep := by
  obtain ⟨names, hnames, hdeps⟩ := takesDeps_of_readIncludes (Part.readIncludes_of_read h)
  rw [hdeps]
  refine ⟨pairwise_insertTexts List.Pairwise.nil, fun dep hdep => ?_⟩
  have hname : dep ∈ names := (mem_insertTexts.1 hdep).resolve_right List.not_mem_nil
  obtain ⟨line, hline, hquoted⟩ := hnames dep hname
  exact ⟨line, Condition.afterGuard_subset lines line hline, hquoted⟩

/-- The includes of a name are in order. -/
theorem pairwise_depsOf (name : String) : (depsOf resolve options name).Pairwise (· < ·) := by
  rw [depsOf]
  cases hpart : partOf? resolve options name with
  | none => exact List.Pairwise.nil
  | some part =>
    obtain ⟨lines, -, hread⟩ := partOf?_eq_some_iff.1 hpart
    exact (deps_of_read hread).1

/-- An include is named on a line of the header that includes it. -/
theorem exists_line_of_mem_depsOf {dep : String} (h : dep ∈ depsOf resolve options name) :
    ∃ lines, resolve name = .ok lines ∧ ∃ line ∈ lines, Part.quotedInclude? line = some dep := by
  rw [depsOf] at h
  cases hpart : partOf? resolve options name with
  | none =>
    rw [hpart] at h
    cases h
  | some part =>
    rw [hpart] at h
    obtain ⟨lines, hresolve, hread⟩ := partOf?_eq_some_iff.1 hpart
    exact ⟨lines, hresolve, (deps_of_read hread).2 dep h⟩

/-! ## Enough fuel -/

/-- A table has no fewer headers than are reached. -/
theorem ncard_le_of_table {files : Keyed (List Line)}
    (hreads : ∀ name, Reaches (depsOf (tableResolver files) options) root name →
      (partOf? (tableResolver files) options name).isSome = true) :
    {name | Reaches (depsOf (tableResolver files) options) root name}.ncard ≤ files.length := by
  have hsub : {name | Reaches (depsOf (tableResolver files) options) root name} ⊆
      ((Keyed.keys files).toFinset : Set String) := by
    intro name hname
    obtain ⟨part, hpart⟩ := Option.isSome_iff_exists.1 (hreads name hname)
    obtain ⟨lines, hresolve, -⟩ := partOf?_eq_some_iff.1 hpart
    rw [List.coe_toFinset, Set.mem_ofPred_eq, ← Keyed.find?_isSome_iff]
    unfold tableResolver at hresolve
    split at hresolve
    · rename_i found hfind
      rw [hfind]
      rfl
    · cases hresolve
  calc
    _ ≤ ((Keyed.keys files).toFinset : Set String).ncard :=
      Set.ncard_le_ncard hsub (Finset.finite_toSet _)
    _ = (Keyed.keys files).toFinset.card := Set.ncard_coe_finset _
    _ ≤ (Keyed.keys files).length := List.toFinset_card_le _
    _ = files.length := List.length_map _

/-- Line feeds for all ends of lines leave the lines as they are. -/
theorem linesFrom_unifyNewlines (held cs : List Char) :
    linesFrom held (unifyNewlines cs) = linesFrom held cs := by
  fun_induction linesFrom held cs with
  | case1 => rfl
  | case2 held hne =>
    rw [unifyNewlines, linesFrom]
    exact hne
  | case3 held rest ih =>
    rw [unifyNewlines, linesFrom, if_pos (by decide), ih]
    exact fun _ hc => absurd hc (by decide)
  | case4 held c rest hne hc ih =>
    -- a carriage return becomes a line feed, and every other separator stays
    by_cases hreturn : c = '\r'
    · subst hreturn
      rw [unifyNewlines, if_pos rfl, linesFrom, if_pos (by decide), ih]
      · exact fun _ hc => absurd hc (by decide)
      · exact hne
    · rw [unifyNewlines, if_neg hreturn, linesFrom, if_pos hc, ih]
      · exact fun _ hc' => absurd hc' hreturn
      · exact hne
  | case5 held c rest hne hc ih =>
    have hreturn : c ≠ '\r' := by
      rintro rfl
      exact hc (by decide)
    rw [unifyNewlines, if_neg hreturn, linesFrom, if_neg hc, ih]
    · exact fun _ hc' => absurd hc' hreturn
    · exact hne

/-- A text that is read is that of a file, with one kind of line end. -/
theorem exists_file_of_read {d : Directory} {p : Path} {text : String} (h : d.read p = .ok text) :
    ∃ file ∈ d.files, text = String.ofList (unifyNewlines file.2.toList) := by
  unfold Directory.read at h
  cases hlocate : d.locate p with
  | error e =>
    rw [hlocate] at h
    cases h
  | ok place =>
    rw [hlocate] at h
    simp only [bind, Except.bind] at h
    split at h
    · cases h
    · split at h
      · rename_i written hfind
        cases h
        exact ⟨_, Keyed.mem_of_find? hfind, rfl⟩
      · cases h

/-- A directory has no fewer lines than names are reached behind the root. -/
theorem ncard_le_of_directory {d : Directory} {base : Path} :
    {name | Reaches (depsOf (directoryResolver d base) options) root name}.ncard ≤ nameBound d := by
  let all := d.files.flatMap fun file => lines file.2.toList
  -- but for the root a name that is reached stands on an include line of a file
  have hsub : {name | Reaches (depsOf (directoryResolver d base) options) root name} ⊆
      ((root :: all.filterMap Part.quotedInclude?).toFinset : Set String) := by
    intro name hname
    rw [List.coe_toFinset, Set.mem_ofPred_eq]
    cases Relation.ReflTransGen.cases_tail_iff _ root name |>.1 hname with
    | inl hroot =>
      rw [hroot]
      exact List.mem_cons_self
    | inr hlast =>
      obtain ⟨before, -, hdep⟩ := hlast
      obtain ⟨ls, hresolve, line, hline, hquoted⟩ := exists_line_of_mem_depsOf hdep
      unfold directoryResolver at hresolve
      cases hread : d.read (base.join (.ofText before)) with
      | error e =>
        rw [hread] at hresolve
        cases hresolve
      | ok text =>
        rw [hread] at hresolve
        cases hresolve
        obtain ⟨file, hfile, rfl⟩ := exists_file_of_read hread
        dsimp only at hline
        rw [String.toList_ofList, lines, linesFrom_unifyNewlines] at hline
        refine List.mem_cons_of_mem _ (List.mem_filterMap.2 ⟨line, ?_, hquoted⟩)
        exact List.mem_flatMap.2 ⟨file, hfile, hline⟩
  calc
    _ ≤ ((root :: all.filterMap Part.quotedInclude?).toFinset : Set String).ncard :=
      Set.ncard_le_ncard hsub (Finset.finite_toSet _)
    _ = (root :: all.filterMap Part.quotedInclude?).toFinset.card := Set.ncard_coe_finset _
    _ ≤ (root :: all.filterMap Part.quotedInclude?).length := List.toFinset_card_le _
    _ ≤ nameBound d := Nat.succ_le_succ (List.length_filterMap_le _ _)

/-! ## Cycles -/

/-- A dependency of a part of a collection is an include of its header. -/
theorem mem_depsOf_of_dependsOn
    (hread : ∀ part ∈ parts, partOf? resolve options part.name = some part)
    (hf : f ∈ parts) (h : Part.DependsOn parts f g) :
    g.name ∈ depsOf resolve options f.name := by
  rw [depsOf_of_partOf? (hread f hf)]
  exact h.2

/-- What a part of a list depends on belongs to the list. -/
theorem mem_of_reflTransGen (hf : f ∈ parts)
    (h : Relation.ReflTransGen (Part.DependsOn parts) f g) : g ∈ parts := by
  cases h with
  | refl => exact hf
  | tail _ hlast => exact hlast.1

/-- A path of dependencies is one of includes. -/
theorem includes_of_transGen
    (hread : ∀ part ∈ parts, partOf? resolve options part.name = some part) (hf : f ∈ parts)
    (h : Relation.TransGen (Part.DependsOn parts) f g) :
    Relation.TransGen (fun a b => b ∈ depsOf resolve options a) f.name g.name := by
  induction h with
  | single hdep => exact .single (mem_depsOf_of_dependsOn hread hf hdep)
  | tail hbefore hdep ih =>
    have hmiddle := mem_of_reflTransGen hf hbefore.to_reflTransGen
    exact ih.tail (mem_depsOf_of_dependsOn hread hmiddle hdep)

/-- A path of includes is one of dependencies, as long as all that is included is collected. -/
theorem exists_of_includes
    (hread : ∀ part ∈ parts, partOf? resolve options part.name = some part)
    (hclosed : ∀ part ∈ parts, ∀ dep ∈ part.deps, dep ∈ parts.map Part.name) (hf : f ∈ parts)
    (h : Relation.TransGen (fun a b => b ∈ depsOf resolve options a) f.name name) :
    ∃ g ∈ parts, g.name = name ∧ Relation.TransGen (Part.DependsOn parts) f g := by
  have hstep : ∀ part ∈ parts, ∀ dep ∈ depsOf resolve options part.name,
      ∃ g ∈ parts, g.name = dep ∧ Part.DependsOn parts part g := by
    intro part hpart dep hdep
    rw [depsOf_of_partOf? (hread part hpart)] at hdep
    obtain ⟨g, hg, rfl⟩ := List.mem_map.1 (hclosed part hpart dep hdep)
    exact ⟨g, hg, rfl, hg, hdep⟩
  induction h with
  | single hdep =>
    obtain ⟨g, hg, hname, hdepends⟩ := hstep f hf _ hdep
    exact ⟨g, hg, hname, .single hdepends⟩
  | tail _ hdep ih =>
    obtain ⟨between, hbetween, rfl, hpath⟩ := ih
    obtain ⟨g, hg, hname, hdepends⟩ := hstep between hbetween _ hdep
    exact ⟨g, hg, hname, hpath.tail hdepends⟩

/-- Where all that is included is collected, the order fails on cycles and on nothing else. -/
theorem order_cycle_iff (hnames : (parts.map Part.name).Nodup)
    (hread : ∀ part ∈ parts, partOf? resolve options part.name = some part)
    (hclosed : ∀ part ∈ parts, ∀ dep ∈ part.deps, dep ∈ parts.map Part.name) :
    (∃ files, Part.order parts = .error (.cycle files)) ↔
      ∃ name ∈ parts.map Part.name,
        Relation.TransGen (fun a b => b ∈ depsOf resolve options a) name name := by
  constructor
  · rintro ⟨files, hfiles⟩
    have hstuck : ¬∀ part ∈ parts, ¬Part.IsStuck parts part := by
      intro hfree
      obtain ⟨ordered, hordered⟩ := (Part.exists_order_iff hnames).2 hfree
      rw [hfiles] at hordered
      cases hordered
    simp only [not_forall, not_not] at hstuck
    obtain ⟨part, hpart, reached, hpath, hcycle | ⟨dep, hdep, hmissing⟩⟩ := hstuck
    · have hreached := mem_of_reflTransGen hpart hpath
      exact ⟨reached.name, List.mem_map_of_mem hreached, includes_of_transGen hread hreached hcycle⟩
    · -- no dependency is missing, so what is stuck is on a cycle
      exact absurd (hclosed reached (mem_of_reflTransGen hpart hpath) dep hdep) hmissing
  · rintro ⟨name, hname, hcycle⟩
    obtain ⟨f, hf, rfl⟩ := List.mem_map.1 hname
    obtain ⟨g, hg, hsame, hpath⟩ := exists_of_includes hread hclosed hf hcycle
    -- the cycle of names is one of parts, for names tell parts apart
    rw [List.inj_on_of_nodup_map hnames hg hf hsame] at hpath
    obtain ⟨files, hfiles, -⟩ := Part.order_of_isStuck hnames ⟨f, hf, f, .refl, Or.inl hpath⟩
    exact ⟨files, hfiles⟩

/-! ## What is collected -/

/-- A collection of all that is reached from a root. -/
structure Gathers (resolve : Resolver) (options : AmalgamOptions) (root : String)
    (c : Collection) : Prop where
  /-- Each part is read from the header of its name. -/
  read : ∀ part ∈ c.parts, partOf? resolve options part.name = some part
  nodup : (c.parts.map Part.name).Nodup
  mem_iff : ∀ name, name ∈ c.parts.map Part.name ↔ Reaches (depsOf resolve options) root name
  /-- The headers come in the order in which they are first named. -/
  breadthFirst : BreadthFirst (depsOf resolve options) root (c.parts.map Part.name)
  /-- A header names others in the order of their names. -/
  sorted : ∀ part ∈ c.parts, part.deps.Pairwise (· < ·)
  /-- No header comes before one that is nearer to the root. -/
  near : ∀ before name after n, c.parts.map Part.name = before ++ name :: after →
    ReachesIn (depsOf resolve options) root n name →
    ∀ earlier ∈ before, ∃ m ≤ n, ReachesIn (depsOf resolve options) root m earlier
  closed : ∀ part ∈ c.parts, ∀ dep ∈ part.deps, dep ∈ c.parts.map Part.name
  /-- The system includes of the unconditional parts, and then the master include. -/
  includes : ∃ own : List String, own.Pairwise (· < ·) ∧
    (∀ name, name ∈ own ↔ ∃ part ∈ c.parts, part.conditional = false ∧ name ∈ part.includes) ∧
    c.includes = own ++ if options.masterInclude = "" then [] else [options.masterInclude]

/-- The system includes of a collection: those of the plain parts in order, and then the master
header. -/
theorem exists_includesOf (options : AmalgamOptions) (parts : List Part) :
    ∃ own : List String, own.Pairwise (· < ·) ∧
      (∀ name, name ∈ own ↔ ∃ part ∈ parts, part.conditional = false ∧ name ∈ part.includes) ∧
      includesOf options parts =
        own ++ if options.masterInclude = "" then [] else [options.masterInclude] := by
  refine ⟨_, pairwise_insertTexts List.Pairwise.nil, fun name => ?_, rfl⟩
  rw [mem_insertTexts, or_iff_left List.not_mem_nil, List.mem_flatMap]
  simp only [List.mem_filter, Bool.not_eq_true', and_assoc]

/-- A collection has the parts that are collected and the includes of these parts. -/
theorem outcome_collect {fuel : Nat}
    (h : (collectFrom resolve options fuel [] [root]).outcome = .ok parts) :
    (collect resolve options fuel root).outcome = .ok ⟨includesOf options parts, parts⟩ := by
  generalize hrun : collectFrom resolve options fuel [] [root] = run at h
  obtain ⟨log, outcome⟩ := run
  cases h
  rw [collect, hrun]
  rfl

/-- Parts in the order of discovery that are read from their headers are all that is reached. -/
theorem gathers_of_breadthFirst
    (hread : ∀ part ∈ parts, partOf? resolve options part.name = some part)
    (hbreadth : BreadthFirst (depsOf resolve options) root (parts.map Part.name)) :
    Gathers resolve options root ⟨includesOf options parts, parts⟩ where
  read := hread
  nodup := hbreadth.discovers.nodup
  mem_iff _ := hbreadth.mem_iff
  breadthFirst := hbreadth
  sorted := by
    intro part hpart
    rw [← depsOf_of_partOf? (hread part hpart)]
    exact pairwise_depsOf part.name
  near before _ after _ hsplit hname := hbreadth.near_of_before hname before after hsplit
  closed := by
    intro part hpart dep hdep
    rw [← depsOf_of_partOf? (hread part hpart)] at hdep
    exact (nextName?_eq_none_iff.1 hbreadth.complete).2 part.name (List.mem_map_of_mem hpart) dep
      hdep
  includes := exists_includesOf options parts

/-- Parts that are read from their headers are the same when their names are. -/
theorem eq_of_names {parts' : List Part}
    (hread : ∀ part ∈ parts, partOf? resolve options part.name = some part)
    (hread' : ∀ part ∈ parts', partOf? resolve options part.name = some part)
    (h : parts.map Part.name = parts'.map Part.name) : parts = parts' := by
  have hsome : ∀ list : List Part, (∀ part ∈ list, partOf? resolve options part.name = some part) →
      (list.map Part.name).map (partOf? resolve options) = list.map some := by
    intro list hlist
    rw [List.map_map]
    exact List.map_congr_left hlist
  have heq := hsome parts hread
  rw [h, hsome parts' hread'] at heq
  exact (List.map_injective_iff.2 (Option.some_injective Part) heq).symm

/-- **Everything that is reached is collected.**  When finitely many names are reached from a root
and the header of each is read, collecting ends, however much more fuel there is, and the fuel of a
table or a directory is enough.  It gives the headers that are reached, each once and breadth
first, and the sorted system includes of the unconditional ones.  They have no order just when some
header that is reached includes itself through others. -/
theorem collect_reached
    (hfinite : {name | Reaches (depsOf resolve options) root name}.Finite)
    (hreads : ∀ name, Reaches (depsOf resolve options) root name →
      (partOf? resolve options name).isSome = true) :
    ∃ c, (∀ fuel, {name | Reaches (depsOf resolve options) root name}.ncard ≤ fuel →
        (collect resolve options fuel root).outcome = .ok c) ∧
      (∀ files, resolve = tableResolver files → (ofTable files options root).outcome = .ok c) ∧
      (∀ d base, resolve = directoryResolver d base →
        (ofDirectory d base options root).outcome = .ok c) ∧
      Gathers resolve options root c ∧
      ((∃ files, Part.order c.parts = .error (.cycle files)) ↔
        ∃ name, Reaches (depsOf resolve options) root name ∧
          Relation.TransGen (fun a b => b ∈ depsOf resolve options a) name name) := by
  have hrun : ∀ fuel, {name | Reaches (depsOf resolve options) root name}.ncard ≤ fuel →
      ∃ parts, (collectFrom resolve options fuel [] [root]).outcome = .ok parts ∧
        (∀ part ∈ parts, partOf? resolve options part.name = some part) ∧
        BreadthFirst (depsOf resolve options) root (parts.map Part.name) := by
    intro fuel hfuel
    exact (queued_start _ root).collectFrom hfinite hreads (fun _ => Iff.rfl) hfuel
  obtain ⟨parts, -, hread, hbreadth⟩ := hrun _ (Nat.le_refl _)
  have hcollect : ∀ fuel, {name | Reaches (depsOf resolve options) root name}.ncard ≤ fuel →
      (collect resolve options fuel root).outcome = .ok ⟨includesOf options parts, parts⟩ := by
    intro fuel hfuel
    obtain ⟨parts', hparts', hread', hbreadth'⟩ := hrun fuel hfuel
    -- there is one order of discovery, whatever the fuel
    rw [eq_of_names hread hread' (hbreadth.unique hbreadth')]
    exact outcome_collect hparts'
  have hgathers := gathers_of_breadthFirst hread hbreadth
  refine ⟨⟨includesOf options parts, parts⟩, hcollect, ?_, ?_, hgathers, ?_⟩
  · rintro files rfl
    exact hcollect _ ((ncard_le_of_table hreads).trans (Nat.le_succ _))
  · rintro d base rfl
    exact hcollect _ ncard_le_of_directory
  · rw [order_cycle_iff hgathers.nodup hread hgathers.closed]
    simp only [hgathers.mem_iff]

/-- A root that includes two headers, of which one includes the root again. -/
def knottedHeaders : Keyed (List Line) :=
  [("SDL.hpp", ["#ifndef SDL_HPP".toList, "#define SDL_HPP".toList,
      "#include \"video.hpp\"".toList, "#include \"events.hpp\"".toList]),
    ("video.hpp", ["#ifndef VIDEO_HPP".toList, "#define VIDEO_HPP".toList,
      "#include <vector>".toList, "#include \"rect.hpp\"".toList]),
    ("events.hpp", ["#ifndef EVENTS_HPP".toList, "#define EVENTS_HPP".toList,
      "#include <string>".toList, "#include \"SDL.hpp\"".toList, "#include \"rect.hpp\"".toList]),
    ("rect.hpp", ["#ifndef RECT_HPP".toList, "#define RECT_HPP".toList])]

/-- Headers that include each other are all collected, each of them once, and can not be put in an
order. -/
theorem collect_reached_knot :
    {name | Reaches (depsOf (tableResolver knottedHeaders) {}) "SDL.hpp" name}.Finite ∧
      (∀ name, Reaches (depsOf (tableResolver knottedHeaders) {}) "SDL.hpp" name →
        (partOf? (tableResolver knottedHeaders) {} name).isSome = true) ∧
      ∃ c, (ofTable knottedHeaders {} "SDL.hpp").outcome = .ok c ∧
        c.parts.map Part.name = ["SDL.hpp", "events.hpp", "video.hpp", "rect.hpp"] ∧
        c.includes = ["string", "vector", "SDL3/SDL.h"] ∧
        ∃ files, Part.order c.parts = .error (.cycle files) := by
  -- all that is reached is one of the headers of the table
  have hclosed : ∀ name ∈ Keyed.keys knottedHeaders,
      (∀ dep ∈ depsOf (tableResolver knottedHeaders) {} name, dep ∈ Keyed.keys knottedHeaders) ∧
        (partOf? (tableResolver knottedHeaders) {} name).isSome = true := by
    decide +kernel
  have hreached : ∀ name, Reaches (depsOf (tableResolver knottedHeaders) {}) "SDL.hpp" name →
      name ∈ Keyed.keys knottedHeaders := by
    intro name hname
    induction hname with
    | refl => decide
    | tail _ hdep ih => exact (hclosed _ ih).1 _ hdep
  have hfinite :
      {name | Reaches (depsOf (tableResolver knottedHeaders) {}) "SDL.hpp" name}.Finite :=
    (List.finite_toSet (Keyed.keys knottedHeaders)).subset hreached
  have hreads : ∀ name, Reaches (depsOf (tableResolver knottedHeaders) {}) "SDL.hpp" name →
      (partOf? (tableResolver knottedHeaders) {} name).isSome = true :=
    fun name hname => (hclosed name (hreached name hname)).2
  obtain ⟨c, -, htable, -, -, hcycle⟩ := collect_reached hfinite hreads
  have hc := htable knottedHeaders rfl
  have hrun : ∃ run, (ofTable knottedHeaders {} "SDL.hpp").outcome = .ok run ∧
      run.parts.map Part.name = ["SDL.hpp", "events.hpp", "video.hpp", "rect.hpp"] ∧
      run.includes = ["string", "vector", "SDL3/SDL.h"] := ⟨_, rfl, rfl, rfl⟩
  obtain ⟨run, hok, hnames, hincludes⟩ := hrun
  cases hc.symm.trans hok
  have hknot : Relation.TransGen
      (fun a b => b ∈ depsOf (tableResolver knottedHeaders) {} a) "SDL.hpp" "SDL.hpp" := by
    refine .tail (b := "events.hpp") (.single ?_) ?_
    · decide +kernel
    · decide +kernel
  exact ⟨hfinite, hreads, c, hc, hnames, hincludes, hcycle.2 ⟨"SDL.hpp", .refl, hknot⟩⟩

end Collection

end HeaderApi
