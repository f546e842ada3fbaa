import HeaderApi.Amalgam.Collection
import HeaderApi.Proofs.PrintedParts
import HeaderApi.Proofs.Texts

/-!
# What a part takes from a header

The content of a part are lines of its header: those inside the namespace, or those from the first
condition to the last line that closes one.  Its system includes have names, and the master include
covers none of them.  The parts of a collection are read from headers of different names.
-/

namespace HeaderApi

open Text

/-- The value of a bound computation comes from the values of its parts. -/
theorem Logged.exists_of_bind {ε α β : Type} {x : Logged ε α} {f : α → Logged ε β} {b : β}
    (h : (x >>= f).outcome = .ok b) : ∃ a, x.outcome = .ok a ∧ (f a).outcome = .ok b := by
  obtain ⟨log, outcome⟩ := x
  cases outcome with
  | error e => cases h
  | ok a => exact ⟨a, rfl, h⟩

namespace Part

variable {options : AmalgamOptions} {part result : Part} {line : Line} {lines : List Line}

/-! ## Lines that are includes -/

/-- What is read as an include has the name of one. -/
theorem isIncludeName_of_include? {isQuoted : Bool} {name : String}
    (h : include? line = some (isQuoted, name)) : IsIncludeName name := by
  have hname : ∃ text : List Char,
      name = String.ofList (text.takeWhile isIncludeChar) ∧ text.takeWhile isIncludeChar ≠ [] := by
    unfold include? at h
    obtain ⟨behindHash, -, h⟩ := Option.bind_eq_some_iff.1 h
    obtain ⟨behindWord, -, h⟩ := Option.bind_eq_some_iff.1 h
    simp only [bind, Option.bind_some, Option.bind_none] at h
    -- without an opening mark there is no include
    split at h
    · split at h
      · rename_i hcond
        cases h
        exact ⟨_, rfl, of_decide_eq_true (Bool.and_eq_true_iff.1 hcond).1⟩
      · cases h
    · split at h
      · rename_i hcond
        cases h
        exact ⟨_, rfl, of_decide_eq_true (Bool.and_eq_true_iff.1 hcond).1⟩
      · cases h
    · cases h
  obtain ⟨text, rfl, hne⟩ := hname
  refine ⟨fun hempty => hne (String.ofList_eq_empty_iff.1 hempty), fun c hc => ?_⟩
  rw [String.toList_ofList] at hc
  exact List.all_eq_true.1 List.all_takeWhile c hc

theorem include?_of_if (h : startsWith "#if".toList line = true) : include? line = none := by
  obtain ⟨rest, rfl⟩ := startsWith_iff.1 h
  rfl

theorem include?_of_endif (h : startsWith "#endif".toList line = true) : include? line = none := by
  obtain ⟨rest, rfl⟩ := startsWith_iff.1 h
  rfl

/-! ## The content of a part -/

/-- The lines of a content are lines of the header. -/
theorem readContent_subset {closing : Line} {content : List Line}
    (h : readContent closing lines = some content) : ∀ line ∈ content, line ∈ lines := by
  induction lines generalizing content with
  | nil => cases h
  | cons line lines ih =>
    rw [readContent] at h
    split at h
    · cases h
      exact List.forall_mem_nil _
    · obtain ⟨later, hlater, rfl⟩ := Option.map_eq_some_iff.1 h
      refine List.forall_mem_cons.2 ⟨List.mem_cons_self, fun other hother => ?_⟩
      exact List.mem_cons_of_mem _ (ih hlater other hother)

/-- The lines before the last one that closes a condition. -/
theorem exists_of_beforeLastEndif {body : List Line} (h : beforeLastEndif lines = some body) :
    ∃ last rest, lines = body ++ last :: rest ∧ startsWith "#endif".toList last = true ∧
      ∀ line ∈ rest, startsWith "#endif".toList line = false := by
  unfold beforeLastEndif at h
  have hsplit := List.takeWhile_append_dropWhile
    (p := fun line => !startsWith "#endif".toList line) (l := lines.reverse)
  split at h
  · cases h
  · rename_i last before hdrop
    cases h
    rw [hdrop] at hsplit
    refine ⟨last, (lines.reverse.takeWhile fun line => !startsWith "#endif".toList line).reverse,
      ?_, ?_, fun line hline => ?_⟩
    · have hreverse := congrArg List.reverse hsplit
      simpa using hreverse.symm
    · simpa using eq_false_of_dropWhile hdrop
    · have hopen := List.all_eq_true.1 List.all_takeWhile line (List.mem_reverse.1 hline)
      simpa using hopen

/-- Where the content of a part is from, given the lines behind the guard of its header. -/
inductive TakesContent (options : AmalgamOptions) (lines : List Line) (part : Part) : Prop
  /-- There is neither a namespace nor a condition. -/
  | missing (hplain : part.conditional = false) (hcontent : part.content = none)
  /-- The lines inside the namespace. -/
  | inside (before : List Line) {rest content : List Line} {opening : Line}
      (hlines : lines = before ++ opening :: rest)
      (hread : readContent (namespaceClose options.namespaceName) rest = some content)
      (hplain : part.conditional = false) (hcontent : part.content = some content)
  /-- The first condition and what stands under it, apart from quoted includes. -/
  | under (before : List Line) {rest body : List Line} {first : Line}
      (hlines : lines = before ++ first :: rest)
      (hbefore : ∀ line ∈ before, startsWith "#if".toList line = false)
      (hfirst : startsWith "#if".toList first = true) (hbody : beforeLastEndif rest = some body)
      (hconditional : part.conditional = true)
      (hcontent : part.content = some ((first :: body).filter (quotedInclude? · = none)))

/-- A line in front that opens no condition changes nothing. -/
theorem TakesContent.cons (h : TakesContent options lines part)
    (hline : startsWith "#if".toList line = false) : TakesContent options (line :: lines) part := by
  cases h with
  | missing hplain hcontent => exact .missing hplain hcontent
  | inside before hlines hread hplain hcontent =>
    exact .inside (line :: before) (by rw [hlines]; rfl) hread hplain hcontent
  | under before hlines hbefore hfirst hbody hconditional hcontent =>
    exact .under (line :: before) (by rw [hlines]; rfl)
      (List.forall_mem_cons.2 ⟨hline, hbefore⟩) hfirst hbody hconditional hcontent

/-- The content of a part are lines of its header. -/
theorem TakesContent.subset (h : TakesContent options lines part) {content : List Line}
    (hcontent : part.content = some content) : ∀ line ∈ content, line ∈ lines := by
  intro line hline
  cases h with
  | missing hplain hnone =>
    cases hnone.symm.trans hcontent
  | inside _ hlines hread hplain hinside =>
    cases hinside.symm.trans hcontent
    rw [hlines]
    exact List.mem_append_right _ (List.mem_cons_of_mem _ (readContent_subset hread line hline))
  | under _ hlines hbefore hfirst hbody hconditional hunder =>
    cases hunder.symm.trans hcontent
    obtain ⟨last, rest, rfl, -, -⟩ := exists_of_beforeLastEndif hbody
    rw [hlines, ← List.cons_append]
    exact List.mem_append_right _ (List.mem_append_left _ (List.mem_filter.1 hline).1)

/-! ## Reading a part -/

/-- A system include of which a part takes notice. -/
def IsOwnInclude (options : AmalgamOptions) (name : String) : Prop :=
  IsIncludeName name ∧ startsWith options.masterStart.toList name.toList = false

/-- A part that comes from another one by reading lines. -/
structure ReadFrom (options : AmalgamOptions) (part : Part) (lines : List Line) (result : Part) :
    Prop where
  name : result.name = part.name
  includes : ∀ name ∈ result.includes, name ∈ part.includes ∨ IsOwnInclude options name
  content : TakesContent options lines result

theorem ReadFrom.cons (h : ReadFrom options part lines result)
    (hline : startsWith "#if".toList line = false) :
    ReadFrom options part (line :: lines) result :=
  ⟨h.name, h.includes, h.content.cons hline⟩

/-- Added dependencies change nothing else of a part. -/
theorem foldl_addDep (names : List String) (part : Part) :
    ∃ deps, names.foldl addDep part = { part with deps := deps } := by
  induction names generalizing part with
  | nil => exact ⟨part.deps, rfl⟩
  | cons name names ih => exact ih (part.addDep name)

/-- A conditional part is read from the line that opens its condition on. -/
theorem readFrom_of_readConditional {first : Line}
    (h : readConditional part first lines = .ok result)
    (hfirst : startsWith "#if".toList first = true) :
    ReadFrom options part (first :: lines) result := by
  unfold readConditional at h
  split at h
  · cases h
  · rename_i body hbody
    cases h
    obtain ⟨deps, hdeps⟩ := foldl_addDep ((first :: body).filterMap quotedInclude?) part
    refine ⟨?_, fun name hname => Or.inl ?_, ?_⟩
    · dsimp only
      rw [hdeps]
    · dsimp only at hname
      rwa [hdeps] at hname
    · exact .under [] rfl (List.forall_mem_nil _) hfirst hbody rfl rfl

/-- A part is read from its lines. -/
theorem readFrom_of_readIncludes (h : readIncludes options part lines = .ok result)
    (hplain : part.conditional = false) (hcontent : part.content = none) :
    ReadFrom options part lines result := by
  induction lines generalizing part with
  | nil =>
    cases h
    exact ⟨rfl, fun _ hname => Or.inl hname, .missing hplain hcontent⟩
  | cons line lines ih =>
    have hskip : ∀ found, include? line = some found → startsWith "#if".toList line = false := by
      intro found hfound
      refine Bool.eq_false_iff.2 fun hif => ?_
      rw [include?_of_if hif] at hfound
      cases hfound
    rw [readIncludes] at h
    split at h
    · rename_i name hinclude
      have hlater := ih h hplain hcontent
      -- a quoted include only adds a dependency
      exact ReadFrom.cons ⟨hlater.name, hlater.includes, hlater.content⟩ (hskip _ hinclude)
    · rename_i name hinclude
      split at h
      · exact (ih h hplain hcontent).cons (hskip _ hinclude)
      · rename_i hkept
        have hlater := ih h hplain hcontent
        refine ReadFrom.cons ⟨hlater.name, fun other hother => ?_, hlater.content⟩
          (hskip _ hinclude)
        rcases hlater.includes other hother with hold | hown
        · rcases List.mem_append.1 hold with hold | hnew
          · exact Or.inl hold
          · rw [List.mem_singleton.1 hnew]
            exact Or.inr ⟨isIncludeName_of_include? hinclude, Bool.eq_false_iff.2 hkept⟩
        · exact Or.inr hown
    · split at h
      · -- the namespace opens here, and the content is read up to its end
        dsimp only at h
        split at h
        · rename_i content hread
          cases h
          exact ⟨rfl, fun _ hname => Or.inl hname, .inside [] rfl hread hplain rfl⟩
        · cases h
      · split at h
        · rename_i hif
          exact readFrom_of_readConditional h hif
        · rename_i hif
          exact (ih h hplain hcontent).cons (Bool.eq_false_iff.2 hif)

/-- A part is read from the lines behind its guard. -/
theorem readIncludes_of_read {name : String} (h : (read options name lines).outcome = .ok part) :
    readIncludes options { name } (afterGuard lines) = .ok part := by
  unfold read at h
  split at h
  · cases h
  · rename_i result hresult
    have hpart : result = part := by
      split at h
      · exact Except.ok.inj h
      · exact Except.ok.inj h
    rw [hresult, hpart]

/-- Reading a header gives a part of its name. -/
theorem readFrom_of_read {name : String} (h : (read options name lines).outcome = .ok part) :
    ReadFrom options { name } (afterGuard lines) part :=
  readFrom_of_readIncludes (readIncludes_of_read h) rfl rfl

/-- The includes of a part that is read are ones that a part may take in. -/
theorem isOwnInclude_of_read {name : String} (h : (read options name lines).outcome = .ok part) :
    ∀ own ∈ part.includes, IsOwnInclude options own := by
  intro own hown
  exact ((readFrom_of_read h).includes own hown).resolve_left List.not_mem_nil

end Part

/-! ## The parts of a collection -/

namespace Collection

variable {resolve : Resolver} {options : AmalgamOptions} {seen queue : List String}
  {parts : List Part}

/-- What collecting can do: nothing is left, or the part of a header that was not seen before is
followed by those of the later ones. -/
theorem collectFrom_cases {fuel : Nat}
    (h : (collectFrom resolve options (fuel + 1) seen queue).outcome = .ok parts) :
    parts = [] ∨ ∃ name waiting lines part later, name ∉ seen ∧ resolve name = .ok lines ∧
      (Part.read options name lines).outcome = .ok part ∧ parts = part :: later ∧
      (collectFrom resolve options fuel (name :: seen) (waiting ++ part.deps)).outcome =
        .ok later := by
  rw [collectFrom] at h
  split at h
  · cases h
    exact Or.inl rfl
  · rename_i name waiting hdrop
    have hfresh : name ∉ seen := by simpa using eq_false_of_dropWhile hdrop
    obtain ⟨_, -, h⟩ := Logged.exists_of_bind h
    obtain ⟨lines, hlines, h⟩ := Logged.exists_of_bind h
    obtain ⟨part, hpart, h⟩ := Logged.exists_of_bind h
    obtain ⟨later, hlater, h⟩ := Logged.exists_of_bind h
    cases h
    refine Or.inr ⟨name, waiting, lines, part, later, hfresh, ?_, hpart, rfl, hlater⟩
    change (resolve name).mapError AmalgamError.unread = .ok lines at hlines
    cases hresolve : resolve name with
    | error e =>
      rw [hresolve] at hlines
      cases hlines
    | ok found =>
      rw [hresolve] at hlines
      cases hlines
      rfl

/-- The collected parts have different names, and each is read from the header of its name. -/
theorem collectFrom_read {fuel : Nat}
    (h : (collectFrom resolve options fuel seen queue).outcome = .ok parts) :
    (parts.map Part.name).Nodup ∧ ∀ part ∈ parts, part.name ∉ seen ∧
      ∃ lines, resolve part.name = .ok lines ∧
        (Part.read options part.name lines).outcome = .ok part := by
  induction fuel generalizing seen queue parts with
  | zero =>
    cases h
    exact ⟨List.nodup_nil, List.forall_mem_nil _⟩
  | succ fuel ih =>
    rcases collectFrom_cases h with rfl |
      ⟨name, waiting, lines, part, later, hfresh, hlines, hpart, rfl, hlater⟩
    · exact ⟨List.nodup_nil, List.forall_mem_nil _⟩
    · obtain ⟨hnodup, hread⟩ := ih hlater
      have hname : part.name = name := (Part.readFrom_of_read hpart).name
      subst hname
      refine ⟨List.nodup_cons.2 ⟨fun hmem => ?_, hnodup⟩, List.forall_mem_cons.2 ⟨?_, ?_⟩⟩
      · obtain ⟨other, hother, heq⟩ := List.mem_map.1 hmem
        exact (hread other hother).1 (by rw [heq]; exact List.mem_cons_self)
      · exact ⟨hfresh, lines, hlines, hpart⟩
      · exact fun other hother => (hread other hother).imp_left
          (mt (List.mem_cons_of_mem part.name))

/-- Each part of a collection is read from its file, once, and the includes are those of the parts.
-/
theorem collect_read {fuel : Nat} {root : String} {c : Collection}
    (h : (collect resolve options fuel root).outcome = .ok c) :
    c.includes = includesOf options c.parts ∧ (c.parts.map Part.name).Nodup ∧
      ∀ part ∈ c.parts, ∃ lines, resolve part.name = .ok lines ∧
        (Part.read options part.name lines).outcome = .ok part := by
  obtain ⟨parts, hparts, h⟩ := Logged.exists_of_bind h
  cases h
  obtain ⟨hnodup, hread⟩ := collectFrom_read hparts
  exact ⟨rfl, hnodup, fun part hpart => (hread part hpart).2⟩

end Collection

end HeaderApi
