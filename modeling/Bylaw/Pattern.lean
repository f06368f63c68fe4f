import Bylaw.Pattern.Reader

/-! A pattern that knows its source. -/

namespace Bylaw

/-- A pattern that was read from a source. -/
structure Pattern where
  source : String
  node : Pattern.Node
  reads : Pattern.read source = .ok node

namespace Pattern

def ofSource (source : String) : Except Fault Pattern :=
  match h : read source with
  | .ok node => .ok ⟨source, node, h⟩
  | .error fault => .error fault

/-- Whether the pattern matches somewhere in a text. -/
def isMatch (p : Pattern) (text : String) : Bool := p.node.matchesIn text.toList

/-- Patterns with one source are the same pattern. -/
theorem ext_source {p q : Pattern} (h : p.source = q.source) : p = q := by
  obtain ⟨s, m, hm⟩ := p
  obtain ⟨t, n, hn⟩ := q
  simp only at h
  subst h
  rw [hm] at hn
  simp only [Except.ok.injEq] at hn
  subst hn
  rfl

instance : DecidableEq Pattern := fun p q =>
  if h : p.source = q.source then isTrue (ext_source h) else isFalse fun hpq => h (hpq ▸ rfl)

end Pattern

end Bylaw
