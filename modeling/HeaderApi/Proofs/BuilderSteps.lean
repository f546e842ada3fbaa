import HeaderApi.Header.Builder

/-!
# What the steps of a builder change

Each step of reading the tokens of a file changes a few fields of the builder: which ones is said
once for each step, as an equation for the whole builder.  What holds of the other fields follows
from these.
-/

namespace HeaderApi

namespace Header

/-! ## Results -/

section Results

variable {α β : Type}

/-- A computation whose result, if it has one, has a property. -/
def Ensures (P : α → Prop) (x : Logged ParseError α) : Prop := ∀ a, x.outcome = .ok a → P a

theorem Ensures.pure {P : α → Prop} {a : α} (h : P a) : Ensures P (Pure.pure a) := by
  rintro _ ⟨⟩
  exact h

/-- A step behind a result ensures what it ensures for every such result. -/
theorem Ensures.bind {P : α → Prop} {Q : β → Prop} {x : Logged ParseError α}
    {f : α → Logged ParseError β} (hx : Ensures P x) (hf : ∀ a, P a → Ensures Q (f a)) :
    Ensures Q (x >>= f) := by
  intro b hb
  obtain ⟨log, outcome⟩ := x
  cases outcome with
  | error e => cases hb
  | ok a => exact hf a (hx a rfl) b hb

/-- A computation that is only run for its log lines and errors. -/
theorem Ensures.andThen {Q : β → Prop} {x : Logged ParseError α} {f : α → Logged ParseError β}
    (hf : ∀ a, Ensures Q (f a)) : Ensures Q (x >>= f) :=
  Ensures.bind (P := fun _ => True) (fun _ _ => trivial) fun a _ => hf a

end Results

variable {members : String → RecordHead → Logged ParseError Entries} {b : Builder} {token : Token}
  {text : String}

/-! ## Doc comments -/

/-- A floating doc comment changes no more than the doc of the file. -/
theorem Builder.floatDoc_eq (b : Builder) (doc : Pending) : ∃ text docBegin docEnd,
    (b.floatDoc doc).1 = { b with doc := text, docBegin, docEnd } := by
  unfold Builder.floatDoc
  split
  · exact ⟨_, _, _, rfl⟩
  · split
    · exact ⟨_, _, _, rfl⟩
    · exact ⟨_, _, _, rfl⟩

/-- Letting a doc float changes nothing but the docs of the builder. -/
theorem Builder.floatPending_eq (b : Builder) : ∃ text docBegin docEnd,
    b.floatPending.1 = { b with pendingDoc := none, doc := text, docBegin, docEnd } := by
  unfold Builder.floatPending
  split
  · rename_i doc _
    exact Builder.floatDoc_eq { b with pendingDoc := none } doc
  · rename_i hnone
    refine ⟨b.doc, b.docBegin, b.docEnd, ?_⟩
    rw [← hnone]

/-- Letting a doc float leaves the options as they are. -/
@[simp] theorem Builder.options_floatPending (b : Builder) :
    b.floatPending.1.options = b.options := by
  obtain ⟨_, _, _, hfloat⟩ := b.floatPending_eq
  rw [hfloat]

/-- Letting a doc float leaves the template as it is. -/
@[simp] theorem Builder.template_floatPending (b : Builder) :
    b.floatPending.1.template = b.template := by
  obtain ⟨_, _, _, hfloat⟩ := b.floatPending_eq
  rw [hfloat]

/-- The doc of the file does not depend on the template that waits. -/
theorem Builder.doc_floatPending_template (b : Builder) (template : Option Pending) :
    (Builder.floatPending { b with template }).1.doc = b.floatPending.1.doc := by
  unfold Builder.floatPending
  cases b.pendingDoc with
  | none => rfl
  | some doc =>
    dsimp only
    unfold Builder.floatDoc
    dsimp only
    split
    · rfl
    · split
      · rfl
      · rfl

/-- Taking a doc changes nothing but the docs of the builder. -/
theorem Builder.takeDoc_eq (b : Builder) (doc : Option Pending) : ∃ text docBegin docEnd,
    (b.takeDoc doc).1 = { b with pendingDoc := none, doc := text, docBegin, docEnd } := by
  unfold Builder.takeDoc
  split
  · exact ⟨b.doc, b.docBegin, b.docEnd, rfl⟩
  · exact b.floatPending_eq

/-! ## Statements that declare nothing -/

/-- Taking in an include changes nothing but the includes of the builder. -/
theorem Builder.addInclude_eq (b : Builder) (directive : String) : ∃ includes localIncludes,
    b.addInclude directive = { b with includes, localIncludes } := by
  unfold Builder.addInclude
  split
  · exact ⟨b.includes, _, rfl⟩
  · exact ⟨_, b.localIncludes, rfl⟩
  · exact ⟨b.includes, b.localIncludes, rfl⟩

/-- Dropping a template changes nothing else. -/
theorem Builder.dropTemplate_eq (b : Builder) : b.dropTemplate.1 = { b with template := none } := by
  unfold Builder.dropTemplate
  split
  · rfl
  · rename_i hnone
    rw [← hnone]

/-- The builder after a statement that is understood but declares nothing. -/
def Builder.passOver (b : Builder) (token : Token) : Builder :=
  match token.statement with
  | .namespaceBegin _ => { b with entriesBegin := some token.endLine }
  | .directive text => b.addInclude text
  | _ => b

/-- A token that is passed over changes nothing but the includes and the line where entries begin.
-/
theorem Builder.passOver_eq (b : Builder) (token : Token) : ∃ entriesBegin includes localIncludes,
    b.passOver token = { b with entriesBegin, includes, localIncludes } := by
  unfold Builder.passOver
  split
  · exact ⟨_, b.includes, b.localIncludes, rfl⟩
  · rename_i text _
    obtain ⟨includes, localIncludes, hadd⟩ := b.addInclude_eq text
    exact ⟨b.entriesBegin, includes, localIncludes, hadd⟩
  · exact ⟨b.entriesBegin, b.includes, b.localIncludes, rfl⟩

/-- A token that is passed over leaves the template as it is. -/
theorem Builder.template_passOver (b : Builder) (token : Token) :
    (b.passOver token).template = b.template := by
  obtain ⟨_, _, _, hpast⟩ := b.passOver_eq token
  rw [hpast]

/-- A known token that declares nothing lets the doc float, and may not follow a template. -/
theorem Builder.pass_of_known (h : ∀ text, token.statement ≠ .unknown text) :
    b.pass token = do
      b.checkTemplate ("template followed by " ++ token.statement.label)
      writeAll b.floatPending.2
      return b.floatPending.1.passOver token := by
  unfold Builder.pass Builder.passOver
  cases hstatement : token.statement with
  | unknown text => exact absurd hstatement (h text)
  | _ => rfl

/-- An unknown line that is tolerated is logged, and no template or doc waits behind it. -/
theorem Builder.pass_of_tolerated (h : token.statement = .unknown text)
    (htolerated : b.options.tolerateUnknown = true) :
    b.pass token = do
      writeAll b.dropTemplate.2
      writeAll b.dropTemplate.1.floatPending.2
      b.dropTemplate.1.floatPending.1.unknown token.beginLine text
      return b.dropTemplate.1.floatPending.1 := by
  unfold Builder.pass
  rw [h]
  exact if_pos htolerated

/-- An unknown line that is not tolerated is an error. -/
theorem Builder.pass_of_not_tolerated (h : token.statement = .unknown text)
    (htolerated : b.options.tolerateUnknown = false) :
    b.pass token = (do
      b.checkTemplate ("template followed by " ++ token.statement.label)
      writeAll b.floatPending.2
      Logged.fail (.unexpected "unknown" token.beginLine text)) := by
  have hunknown : b.floatPending.1.unknown token.beginLine text =
      Logged.fail (.unexpected "unknown" token.beginLine text) := by
    rw [Builder.unknown, Builder.options_floatPending, htolerated]
    rfl
  unfold Builder.pass
  rw [h]
  dsimp only
  rw [if_neg (by rw [htolerated]; exact nofun), hunknown]
  rfl

/-- Without tolerance a statement that is not understood gives no result. -/
theorem Builder.pass_fails (h : token.statement = .unknown text)
    (htolerated : b.options.tolerateUnknown = false) : Ensures (fun _ => False) (b.pass token) := by
  rw [Builder.pass_of_not_tolerated h htolerated]
  refine Ensures.andThen fun _ => Ensures.andThen fun _ => ?_
  rintro _ ⟨⟩

/-- The check of the template passes only when none waits. -/
theorem Builder.checkTemplate_ensures (b : Builder) (detail : String) :
    Ensures (fun _ => b.template = none) (b.checkTemplate detail) := by
  intro _ hok
  unfold Builder.checkTemplate at hok
  cases htemplate : b.template with
  | none => rfl
  | some t =>
    rw [htemplate] at hok
    cases hok

/-- A statement that is passed over leaves no template waiting, lets the doc comment before it
float, and adds at most an include. -/
theorem Builder.pass_eq (b : Builder) (token : Token) :
    Ensures (fun next => next = (Builder.floatPending { b with template := none }).1.passOver token)
      (b.pass token) := by
  by_cases h : ∃ text, token.statement = .unknown text
  case neg =>
    rw [Builder.pass_of_known fun text hunknown => h ⟨text, hunknown⟩]
    refine (b.checkTemplate_ensures _).bind fun _ hnone => Ensures.andThen fun _ => .pure ?_
    rw [← hnone]
  obtain ⟨text, hunknown⟩ := h
  cases htolerated : b.options.tolerateUnknown with
  | true =>
    rw [Builder.pass_of_tolerated hunknown htolerated]
    refine Ensures.andThen fun _ => Ensures.andThen fun _ => Ensures.andThen fun _ => .pure ?_
    rw [Builder.dropTemplate_eq, Builder.passOver, hunknown]
  | false =>
    intro next hnext
    exact (Builder.pass_fails hunknown htolerated next hnext).elim

/-! ## Declarations -/

/-- Marking a declaration changes nothing but two of the line numbers. -/
theorem Builder.markDeclared_eq (b : Builder) (line : Int) : ∃ declared entriesBegin,
    b.markDeclared line = { b with declared, entriesBegin } := by
  unfold Builder.markDeclared
  split
  · exact ⟨b.declared, b.entriesBegin, rfl⟩
  · exact ⟨true, _, rfl⟩

/-- Entering a declaration adds its entry, takes the template away and marks the declaration. -/
theorem Builder.enter_eq (b : Builder) (doc : Option Pending) (token : Token) (s : Signature)
    (body : Option Entries) : ∃ declared entriesBegin,
    (b.enter doc token s body).1 = { b with
      declared, entriesBegin
      template := none
      entries := (b.entries.addAll
        (Entry.hoisted ⟨complete b.options doc b.template token s, body⟩)).1 } := by
  obtain ⟨declared, entriesBegin, hmarked⟩ := Builder.markDeclared_eq { b with template := none }
    ((doc.map Pending.beginLine).getD (b.firstLine token))
  refine ⟨declared, entriesBegin, ?_⟩
  unfold Builder.enter Builder.addEntry
  dsimp only
  rw [hmarked]

/-- A declaration takes its doc, reads its body and enters its entry. -/
theorem Builder.declare_eq {doc : Option Pending} (hdoc : b.docFor (b.firstLine token) = doc)
    (s : Signature) :
    b.declare members token s = (do
      writeAll (b.takeDoc doc).2
      let body ← bodyOf members (b.takeDoc doc).1.name token
      writeAll ((b.takeDoc doc).1.enter doc token s body).2
      return ((b.takeDoc doc).1.enter doc token s body).1) := by
  rw [← hdoc]
  rfl

/-- The entry of a declaration whose members are known. -/
def Builder.entryOf (b : Builder) (token : Token) (s : Signature) (body : Option Entries) : Entry :=
  ⟨complete b.options (b.docFor (b.firstLine token)) b.template token s, body⟩

/-- The builder behind a declaration whose members are known. -/
def Builder.declareWith (b : Builder) (token : Token) (s : Signature) (body : Option Entries) :
    Builder :=
  let doc := b.docFor (b.firstLine token)
  ((b.takeDoc doc).1.enter doc token s body).1

/-- A declaration leads to the builder with its entry, and its members are read. -/
theorem Builder.declare_ensures (b : Builder) (token : Token) (s : Signature) :
    Ensures (fun next => ∃ name body, (bodyOf members name token).outcome = .ok body ∧
      next = b.declareWith token s body) (b.declare members token s) := by
  rw [Builder.declare_eq rfl]
  refine Ensures.andThen fun _ => Ensures.bind (fun _ hbody => hbody) fun body hbody => ?_
  exact Ensures.andThen fun _ => .pure ⟨_, body, hbody, rfl⟩

/-- Behind a declaration nothing waits, and its entry has been put into the table. -/
theorem Builder.declareWith_eq (b : Builder) (token : Token) (s : Signature)
    (body : Option Entries) : ∃ declared docBegin docEnd entriesBegin,
    b.declareWith token s body = { b with
      declared, docBegin, docEnd, entriesBegin
      doc := (b.takeDoc (b.docFor (b.firstLine token))).1.doc
      entries := (b.entries.addAll (b.entryOf token s body).hoisted).1
      pendingDoc := none
      template := none } := by
  obtain ⟨text, docBegin, docEnd, htaken⟩ := b.takeDoc_eq (b.docFor (b.firstLine token))
  obtain ⟨declared, entriesBegin, henter⟩ := Builder.enter_eq
    (b.takeDoc (b.docFor (b.firstLine token))).1 (b.docFor (b.firstLine token)) token s body
  refine ⟨declared, docBegin, docEnd, entriesBegin, ?_⟩
  unfold Builder.declareWith Builder.entryOf
  rw [henter, htaken]

end Header

end HeaderApi
