/-! The events that rules respond to. -/

namespace Bylaw

/-- Requests by method, changes of a stored record, and the weekly run. -/
inductive Event where
  | get
  | post
  | put
  | patch
  | delete
  | new
  | update
  | weekly
  deriving DecidableEq, Repr

namespace Event

def all : List Event := [.get, .post, .put, .patch, .delete, .new, .update, .weekly]

def tag : Event → String
  | .get => "GET"
  | .post => "POST"
  | .put => "PUT"
  | .patch => "PATCH"
  | .delete => "DELETE"
  | .new => "NEW"
  | .update => "UPDATE"
  | .weekly => "WEEKLY"

/-- The event with the given tag, in capitals. -/
def ofTag? (text : String) : Option Event := all.find? fun e => e.tag == text

def unknownMessage (text : String) : String := s!"unknown event tag '{text}'"

/-- The event of a request method, in any case. -/
def ofMethod? (method : String) : Option Event :=
  [get, post, put, patch, delete].find? fun e => e.tag.toList == method.toList.map Char.toUpper

def sorted (events : List Event) : List Event := all.filter events.contains

theorem mem_all (e : Event) : e ∈ all := by cases e <;> decide

theorem ofTag?_tag (e : Event) : ofTag? e.tag = some e := by cases e <;> decide

theorem mem_sorted {e : Event} {events : List Event} : e ∈ sorted events ↔ e ∈ events := by
  simp [sorted, mem_all]

end Event

end Bylaw
