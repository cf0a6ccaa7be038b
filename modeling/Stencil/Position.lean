import Stencil.Text.Basic

/-
Positions and spans of a text for messages. Lines end at a line feed only; a carriage return takes
the column back to 1 on the same line. Columns count characters, offsets count bytes.
-/
namespace Stencil

structure Position where
  line : Nat
  column : Nat
  offset : Nat
  deriving DecidableEq, Repr

namespace Position

def start : Position := ⟨1, 1, 0⟩

def advance (p : Position) (c : Char) : Position :=
  if c = '\n' then ⟨p.line + 1, 1, p.offset + c.utf8Size⟩
  else if c = '\r' then ⟨p.line, 1, p.offset + c.utf8Size⟩
  else ⟨p.line, p.column + 1, p.offset + c.utf8Size⟩

def advanceBy (p : Position) (text : Text) : Position := text.foldl advance p

def walkTo (offset : Nat) (p : Position) : Text → Position
  | [] => p
  | c :: rest => if offset ≤ p.offset then p else walkTo offset (p.advance c) rest

/-- The first character boundary at or after a byte offset, or the end of the text. -/
def atOffset (text : Text) (offset : Nat) : Position := walkTo offset start text

def text (p : Position) : Text := Nat.toDigits 10 p.line ++ ':' :: Nat.toDigits 10 p.column

end Position

structure Span where
  start : Position
  stop : Position
  deriving DecidableEq, Repr

namespace Span

/-- From a byte offset over so many bytes. Empty when these bytes are no slice of the text. -/
def covering (text : Text) (offset length : Nat) : Span :=
  let start := Position.atOffset text offset
  match text.slice? offset (offset + length) with
  | some covered => ⟨start, start.advanceBy covered⟩
  | none => ⟨start, start⟩

def length (s : Span) : Nat := s.stop.offset - s.start.offset

def isEmpty (s : Span) : Bool := s.length == 0

def text (s : Span) : Text :=
  if s.start.line = s.stop.line then s.start.text ++ '-' :: Nat.toDigits 10 s.stop.column
  else s.start.text ++ '-' :: s.stop.text

-- An offset inside a character is rounded up, and there is nothing to cover from it.
example : covering ['é', 'b'] 1 2 = ⟨⟨1, 2, 2⟩, ⟨1, 2, 2⟩⟩ := by decide

end Span
end Stencil
