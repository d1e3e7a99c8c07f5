/-! Places in a source text. A span counts bytes of the UTF-8 form, in the words it is stored in, so
an offset past 2^32 wraps; all offsets below that bound are exact. -/
namespace BranchMarkup

structure Span where
  fileId : UInt16
  start : UInt32
  stop : UInt32
deriving DecidableEq, Repr, Inhabited

namespace Span

/-- A span of the one file that is read at a time. -/
def ofOffsets (start stop : Nat) : Span := ⟨0, .ofNat start, .ofNat stop⟩

def zero : Span := ⟨0, 0, 0⟩

/-- The least span that covers both; the file is the left one's. -/
def merge (a b : Span) : Span := ⟨a.fileId, min a.start b.start, max a.stop b.stop⟩

def after (s : Span) : Span := ⟨s.fileId, s.stop, s.stop⟩

def encloses (outer inner : Span) : Bool := outer.start ≤ inner.start && inner.stop ≤ outer.stop

end Span

structure Spanned (α : Type) where
  val : α
  span : Span
deriving DecidableEq, Repr, Inhabited

end BranchMarkup
