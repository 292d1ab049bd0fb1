/-!
# Failures

Two kinds of failures refer to each other: a `BackendFailure` says that a storage call failed and
whether it may succeed if tried again; a `Failure` is what the operations of this library report,
among it a backend failure, as it came or under the name of the operation that gave up. Causes form
a chain. The innermost backend failure of the chain decides whether the whole is temporary.
-/

namespace RowGraph

mutual

/-- What a storage backend reports. -/
inductive BackendFailure where
  /-- It may succeed if tried again. -/
  | temporary (message : String) (cause : Option Failure)
  /-- Trying again does not help. -/
  | permanent (message : String) (cause : Option Failure)
  /-- The wait before another attempt was interrupted. -/
  | interrupted

/-- What an operation of this library reports. -/
inductive Failure where
  /-- A backend failure. -/
  | backend (failure : BackendFailure)
  /-- A backend failure that ended the retries of a named operation. -/
  | operation (name : String) (failure : BackendFailure)
  /-- No layout of the type can answer the query. -/
  | unsatisfiable (typeName : String)
  /-- The query asks for one category and names a type of the other. -/
  | categoryMismatch (requested actual typeName : String)
  /-- The query cannot be asked this way. -/
  | unsupported (what : String)
  /-- An argument is invalid, for a fixed reason. -/
  | invalid (reason : String)
  /-- An argument is invalid, for a reason that names it. -/
  | invalidInput (reason : String)
  /-- Something that is referred to does not exist. -/
  | notFound (what : String)
  /-- Stored bytes make no sense. -/
  | corruption (what : String)
  /-- A stored relation cannot be read. -/
  | serialization (what : String)
  /-- The settings are refused. -/
  | settings (reason : String)
  /-- Settings cannot be read from a document or written to one. -/
  | document (what : String)

end

instance : Inhabited BackendFailure := ⟨.interrupted⟩

instance : Inhabited Failure := ⟨.backend .interrupted⟩

namespace BackendFailure

/-- Is the failure itself temporary, whatever caused it? -/
def isTemporary : BackendFailure → Bool
  | temporary .. => true
  | permanent .. => false
  | interrupted => false

/-- What caused the failure. -/
def cause? : BackendFailure → Option Failure
  | temporary _ cause => cause
  | permanent _ cause => cause
  | interrupted => none

/-- The message, without the cause. -/
def message : BackendFailure → String
  | temporary message _ => "temporary backend failure: " ++ message
  | permanent message _ => "permanent backend failure: " ++ message
  | interrupted => "interrupted while waiting to retry a backend operation"

end BackendFailure

mutual

/-- The innermost backend failure below and including a backend failure. -/
def BackendFailure.innermost : BackendFailure → BackendFailure
  | .temporary message none => .temporary message none
  | .temporary message (some cause) =>
    (Failure.innermost? cause).getD (.temporary message (some cause))
  | .permanent message none => .permanent message none
  | .permanent message (some cause) =>
    (Failure.innermost? cause).getD (.permanent message (some cause))
  | .interrupted => .interrupted

/-- The innermost backend failure of a chain of causes. -/
def Failure.innermost? : Failure → Option BackendFailure
  | .backend failure => some failure.innermost
  | .operation _ failure => some failure.innermost
  | .unsatisfiable _ => none
  | .categoryMismatch .. => none
  | .unsupported _ => none
  | .invalid _ => none
  | .invalidInput _ => none
  | .notFound _ => none
  | .corruption _ => none
  | .serialization _ => none
  | .settings _ => none
  | .document _ => none

end

namespace Failure

/-- May the operation succeed if tried again? -/
def isTemporary (f : Failure) : Bool :=
  match f.innermost? with
  | some failure => failure.isTemporary
  | none => false

/-- The backend failure that a failure holds. -/
def held? : Failure → Option BackendFailure
  | backend failure => some failure
  | operation _ failure => some failure
  | _ => none

/-- The message. -/
def message : Failure → String
  | backend failure => failure.message
  | operation name failure => name ++ " failed: " ++ failure.message
  | unsatisfiable typeName =>
    "schema does not support the specified query constraints for type " ++ typeName
  | categoryMismatch requested actual typeName =>
    "querying for " ++ requested ++ " but " ++ typeName ++ " is " ++ actual
  | unsupported what => "unsupported: " ++ what
  | invalid reason => "invalid argument: " ++ reason
  | invalidInput reason => "invalid argument: " ++ reason
  | notFound what => what ++ " not found"
  | corruption what => "corruption detected: " ++ what
  | serialization what => "serialization error: " ++ what
  | settings reason => "configuration error: " ++ reason
  | document what => "configuration error: " ++ what

end Failure

/-- A computation that may fail. -/
abbrev Outcome (α : Type) := Except Failure α

/-- A computation on a state that may fail; a failure keeps the changes made before it. -/
abbrev Act (σ α : Type) := ExceptT Failure (StateM σ) α

namespace Act

variable {σ α : Type}

/-- Runs a computation from a state. -/
def exec (act : Act σ α) (s : σ) : Outcome α × σ := act s

/-- The computation given by a function on states. -/
def of (f : σ → Outcome α × σ) : Act σ α := f

/-- The computation that has an outcome and leaves the state alone. -/
def ofOutcome (o : Outcome α) : Act σ α := fun s => (o, s)

/-- A change of the state that cannot fail. -/
def update (f : σ → σ) : Act σ Unit := fun s => (.ok (), f s)

/-- A part of the state. -/
def asks (f : σ → α) : Act σ α := fun s => (.ok (f s), s)

/-- The outcome, instead of failing. -/
def attempt (act : Act σ α) : Act σ (Outcome α) := fun s => ((.ok (act s).1), (act s).2)

/-- Runs a computation on a part of the state. -/
def on {τ : Type} (get : σ → τ) (set : τ → σ → σ) (act : Act τ α) : Act σ α := fun s =>
  let r := act (get s)
  (r.1, set r.2 s)

end Act

end RowGraph
