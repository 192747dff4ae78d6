import ScopedResources.Service.Exchange

/-!
# Scripted service

In place of a registry, a script answers: a list of expected requests, each with the answer to give.
Expectations are used up in order. A request that meets no expectation, or one of another kind, ends
the service; the expectation that it met is used up all the same.
-/

namespace ScopedResources

inductive Expectation where
  | listSources (answer : Except ServiceError (List Source))
  | resourcesFor (answer : Except ServiceError (List Resource))
  | resourcesForProperty (answer : Except ServiceError (List Resource))
  | checkName (answer : Except ServiceError Verdict)
  | create (answer : Except ServiceError Resource)
  | createChecked (answer : Except ServiceError Outcome)
  | prune (answer : Except ServiceError Nat)
  | suggestName (answer : Except ServiceError String)
  | canCreate (answer : Except ServiceError Bool)
deriving Repr

/-- The answer to a request of the expected kind. Suggestions by base and by type are one kind. -/
def Expectation.answer? : Expectation → Request → Option Answer
  | .listSources answer, .listSources _ => some (answer.map .sources)
  | .resourcesFor answer, .resourcesFor _ => some (answer.map .resources)
  | .resourcesForProperty answer, .resourcesForProperty _ _ => some (answer.map .resources)
  | .checkName answer, .checkName _ _ _ => some (answer.map .verdict)
  | .create answer, .create _ _ _ => some (answer.map .resource)
  | .createChecked answer, .createChecked _ _ _ _ _ => some (answer.map .outcome)
  | .prune answer, .prune => some (answer.map .count)
  | .suggestName answer, .suggestName _ => some (answer.map .name)
  | .suggestName answer, .suggestNameForType _ => some (answer.map .name)
  | .canCreate answer, .canCreate => some (answer.map .flag)
  | _, _ => none

structure Script where
  expectations : List Expectation
deriving Repr

namespace Script

def respond : Server Script := fun _ request script =>
  match script.expectations with
  | [] => (none, script)
  | e :: rest => (e.answer? request, ⟨rest⟩)

def expect (s : Script) (e : Expectation) : Script := ⟨s.expectations ++ [e]⟩

def remaining (s : Script) : Nat := s.expectations.length

/-- Everything expected has been asked for; otherwise, the complaint. -/
def verify (s : Script) : Except String Unit :=
  if s.remaining = 0 then .ok ()
  else .error ("Not all expectations were met. " ++ String.ofList (Nat.toDigits 10 s.remaining) ++
    " remaining")

/-! ## The service -/

def channelCapacity : Nat := 100

/-- A running service that expects nothing yet. -/
def service : Exchange Script := (Exchange.idle channelCapacity ⟨[]⟩).start

end Script

end ScopedResources
