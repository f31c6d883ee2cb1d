/-!
# Positions and spans

A position is a byte offset in a named script; a span is a stretch of one script between two offsets. What is
read from a script records its offsets in words of 32 bits, so modulo `offsetBound`; in a script that is
shorter nothing is lost.
-/

namespace Scripting

/-- The number of offsets that can be recorded. -/
def offsetBound : Nat := 4294967296

/-- A byte offset in a named script. -/
structure Position where
  file : String
  offset : Nat
deriving DecidableEq, Repr

/-- The bytes of a named script from `start` up to `stop`. -/
structure Span where
  file : String
  start : Nat
  stop : Nat
deriving DecidableEq, Repr

/-- The position as a word of 32 bits records it. -/
def Position.recorded (p : Position) : Position := ⟨p.file, p.offset % offsetBound⟩

namespace Span

/-- The span as two words of 32 bits record it. -/
def recorded (s : Span) : Span := ⟨s.file, s.start % offsetBound, s.stop % offsetBound⟩

def ofPosition (p : Position) : Span := ⟨p.file, p.offset, p.offset⟩

def first (s : Span) : Position := ⟨s.file, s.start⟩

/-- From the beginning of one span to the end of another. -/
def upTo (s t : Span) : Span := ⟨s.file, s.start, t.stop⟩

/-- The number of bytes covered; a span that ends before it begins covers none. -/
def length (s : Span) : Nat := s.stop - s.start

/-- The span of something that stands in no script. -/
def nowhere : Span := ⟨"<null>", 0, 0⟩

end Span

end Scripting
