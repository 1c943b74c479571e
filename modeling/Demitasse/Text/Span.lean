/-! Byte ranges of a source text, and causes of rejection placed at such a range. -/

namespace Demitasse

/-- A half-open range of byte offsets into the UTF-8 form of a source text. -/
structure Span where
  start : Nat
  stop : Nat
deriving DecidableEq

/-- The smallest span that covers both. -/
def Span.merge (s t : Span) : Span :=
  ⟨min s.start t.start, max s.stop t.stop⟩

/-- The empty span at the end of `s`. -/
def Span.after (s : Span) : Span :=
  ⟨s.stop, s.stop⟩

/-- The empty span at the start of a text. -/
def Span.origin : Span :=
  ⟨0, 0⟩

/-- A cause of rejection together with the text it is about. -/
structure Located (α : Type) where
  span : Span
  cause : α
deriving DecidableEq

end Demitasse
