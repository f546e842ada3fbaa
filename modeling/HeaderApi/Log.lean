/-
# Reports of a run

Log lines are values: a computation returns the lines it wrote together with its outcome, also
when it fails.
-/

namespace HeaderApi

/-- The weight of a log line. -/
inductive Level where
  | debug
  | info
  | warning
  deriving DecidableEq, Repr, Inhabited

/-- The name of a level as it is written in front of a line. -/
def Level.label : Level → String
  | .debug => "DEBUG"
  | .info => "INFO"
  | .warning => "WARNING"

/-- One line of a log. -/
structure LogLine where
  level : Level
  text : String
  deriving DecidableEq, Repr, Inhabited

/-- Log lines in the order in which they were written. -/
abbrev Log := List LogLine

/-- An outcome together with the log lines written on the way to it. -/
structure Logged (ε α : Type) where
  log : Log
  outcome : Except ε α

namespace Logged

variable {ε δ α β : Type}

/-- A result without log lines. -/
protected def pure (a : α) : Logged ε α := ⟨[], .ok a⟩

/-- Continues with a result; the lines of both parts are kept in order. -/
protected def bind (x : Logged ε α) (f : α → Logged ε β) : Logged ε β :=
  match x.outcome with
  | .error e => ⟨x.log, .error e⟩
  | .ok a => ⟨x.log ++ (f a).log, (f a).outcome⟩

instance : Monad (Logged ε) where
  pure := Logged.pure
  bind := Logged.bind

/-- A failure. -/
def fail (e : ε) : Logged ε α := ⟨[], .error e⟩

/-- Writes one line. -/
def write (level : Level) (text : String) : Logged ε Unit := ⟨[⟨level, text⟩], .ok ()⟩

/-- An outcome without log lines. -/
def ofExcept (outcome : Except ε α) : Logged ε α := ⟨[], outcome⟩

/-- Another form of the error. -/
def mapError (f : ε → δ) (x : Logged ε α) : Logged δ α := ⟨x.log, x.outcome.mapError f⟩

@[simp] theorem pure_def (a : α) : (pure a : Logged ε α) = ⟨[], .ok a⟩ := rfl

@[simp] theorem ok_bind (log : Log) (a : α) (f : α → Logged ε β) :
    ((⟨log, .ok a⟩ : Logged ε α) >>= f) = ⟨log ++ (f a).log, (f a).outcome⟩ := rfl

@[simp] theorem error_bind (log : Log) (e : ε) (f : α → Logged ε β) :
    ((⟨log, .error e⟩ : Logged ε α) >>= f) = ⟨log, .error e⟩ := rfl

instance : LawfulMonad (Logged ε) := LawfulMonad.mk' _
  (by
    rintro α ⟨log, _ | a⟩
    · rfl
    · exact congrArg (Logged.mk · (.ok a)) (List.append_nil log))
  (by
    intro α β a f
    exact congrArg (Logged.mk · (f a).outcome) (List.nil_append (f a).log))
  (by
    rintro α β γ ⟨log, _ | a⟩ f g
    · rfl
    · simp only [ok_bind]
      rcases h : f a with ⟨log', _ | b⟩ <;> simp)

end Logged

end HeaderApi
